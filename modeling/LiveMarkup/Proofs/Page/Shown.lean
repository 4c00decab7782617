import LiveMarkup.Page.View
import LiveMarkup.Proofs.Document.Walk

/-!
# What a view shows, as a function of forests

Without loops, each of the steps in which a state is shown is a function of the forest alone:
markers get new content (`Forest.showMarkers`), elements new texts (`Forest.showTexts`) and new
attributes (`Forest.mapElements`).  So is all that a state shows (`View.shown`), and the content that
is made for a block of a group (`View.made`).
-/

namespace LiveMarkup

open Text

/-- A node with a change, if it is an element. -/
def NodeData.mapElement (change : Element → Element) : NodeData → NodeData
  | .element e => .element (change e)
  | data => data

namespace Forest

variable {α : Type}

/-- A forest in which some nodes own new content. -/
def showMarkers (new : NodeData → Option (Forest Unit)) : Forest Unit → Forest Unit
  | nil => nil
  | node _ data cs ow rest =>
    node () data (showMarkers new cs) ((new data).getD (showMarkers new ow)) (showMarkers new rest)

/-- A forest in which some nodes have new children. -/
def showTexts (new : NodeData → Option (Forest Unit)) : Forest Unit → Forest Unit
  | nil => nil
  | node _ data cs ow rest =>
    node () data ((new data).getD (showTexts new cs)) (showTexts new ow) (showTexts new rest)

/-- A forest with its elements changed. -/
def mapElements (change : Element → Element) : Forest Unit → Forest Unit
  | nil => nil
  | node _ data cs ow rest =>
    node () (data.mapElement change) (mapElements change cs) (mapElements change ow)
      (mapElements change rest)

/-- The sum of the weights of all nodes. -/
def weigh (w : NodeData → Nat) : Forest α → Nat
  | nil => 0
  | node _ data cs ow rest => w data + (weigh w cs + (weigh w ow + weigh w rest))

/-- The sum of the weights of the nodes that get new content, and no others. -/
def cost (new : NodeData → Option (Forest Unit)) (w : NodeData → Nat) : Forest α → Nat
  | nil => 0
  | node _ data cs ow rest =>
    cost new w cs + ((if (new data).isSome then w data else cost new w ow) + cost new w rest)

theorem cost_le_weigh {new : NodeData → Option (Forest Unit)} {w : NodeData → Nat} (f : Forest α) :
    f.cost new w ≤ f.weigh w := by
  induction f with
  | nil => exact le_rfl
  | node id data cs ow rest ihc iho ihr =>
    simp only [cost, weigh]
    split <;> omega

theorem weigh_shape (w : NodeData → Nat) (f : Forest α) : f.shape.weigh w = f.weigh w := by
  induction f with
  | nil => rfl
  | node id data cs ow rest ihc iho ihr => simp only [shape, weigh, ihc, iho, ihr]

theorem cost_shape (new : NodeData → Option (Forest Unit)) (w : NodeData → Nat) (f : Forest α) :
    f.shape.cost new w = f.cost new w := by
  induction f with
  | nil => rfl
  | node id data cs ow rest ihc iho ihr => simp only [shape, cost, ihc, iho, ihr]

/-- Some elements of a forest have been changed. -/
def Altered (change : Element → Element) : Forest Unit → Forest Unit → Prop
  | nil, g => g = nil
  | node _ data cs ow rest, g => ∃ data' cs' ow' rest', g = node () data' cs' ow' rest' ∧
      (data' = data ∨ data' = data.mapElement change) ∧
      Altered change cs cs' ∧ Altered change ow ow' ∧ Altered change rest rest'

theorem Altered.refl (change : Element → Element) : ∀ f : Forest Unit, f.Altered change f
  | nil => rfl
  | node _ data cs ow rest =>
    ⟨data, cs, ow, rest, rfl, .inl rfl, refl change cs, refl change ow, refl change rest⟩

theorem altered_mapElements (change : Element → Element) : ∀ f : Forest Unit,
    f.Altered change (f.mapElements change)
  | nil => rfl
  | node _ _ cs ow rest => ⟨_, _, _, _, rfl, .inr rfl, altered_mapElements change cs,
      altered_mapElements change ow, altered_mapElements change rest⟩

/-- A forest in which nothing is owned. -/
def Bare : Forest α → Prop
  | nil => True
  | node _ _ cs ow rest => Bare cs ∧ ow = nil ∧ Bare rest

theorem bare_shape {f : Forest α} : f.shape.Bare ↔ f.Bare := by
  have hnil : ∀ g : Forest α, g.shape = nil ↔ g = nil := fun g => by cases g <;> simp [shape]
  induction f with
  | nil => rfl
  | node id data cs ow rest ihc _ ihr => simp only [shape, Bare, ihc, hnil, ihr]

theorem bare_ofTrees (ts : List Tree) : (ofTrees ts).Bare := by
  induction ts using ofTrees.induct with
  | case1 =>
    rw [ofTrees]
    trivial
  | case2 data ts rest ih1 ih2 =>
    rw [ofTrees]
    exact ⟨ih1, rfl, ih2⟩

theorem Altered.bare {change : Element → Element} {f g : Forest Unit} (h : f.Altered change g)
    (hf : f.Bare) : g.Bare := by
  induction f generalizing g with
  | nil =>
    rw [show g = .nil from h]
    trivial
  | node id data cs ow rest ihc iho ihr =>
    obtain ⟨_, cs', ow', rest', rfl, -, hc, ho, hr⟩ := h
    obtain ⟨h1, rfl, h2⟩ := hf
    exact ⟨ihc hc h1, ho, ihr hr h2⟩

theorem Altered.weigh {change : Element → Element} {w : NodeData → Nat} {f g : Forest Unit}
    (hw : ∀ e, w (.element e) = 0) (h : f.Altered change g) : g.weigh w = f.weigh w := by
  induction f generalizing g with
  | nil => rw [show g = nil from h]
  | node id data cs ow rest ihc iho ihr =>
    obtain ⟨data', cs', ow', rest', rfl, hdata, hc, ho, hr⟩ := h
    have : w data' = w data := by
      rcases hdata with rfl | rfl
      · rfl
      · cases data <;> first | rfl | exact (hw _).trans (hw _).symm
    simp only [Forest.weigh, this, ihc hc, iho ho, ihr hr]

end Forest

/-- The group that a node marks. -/
def Records.groupAt? (r : Records) : NodeData → Option ConditionGroup
  | .comment s =>
    match Marker.ofComment? s with
    | some ⟨.condition, name⟩ => r.group? name
    | _ => none
  | _ => none

/-- The text that a node is bound to. -/
def NodeData.boundText? (data : NodeData) : Option String :=
  data.element?.bind fun e => e.attribute? (String.ofList textBinding)

namespace View

section

variable (o : ViewOptions) (scope : Scope) (r : Records) (make : List Char → Forest Unit)
  (u : Update)

/-- What a group shows, if `make` tells what is made of markup. -/
def groupContent (g : ConditionGroup) : Forest Unit :=
  match chosenBlock o scope g with
  | none => .nil
  | some b => if trim b.content.toList = [] then .nil else make b.content.toList

/-- The new content of a node, if it marks a group that an update concerns. -/
def newContent (data : NodeData) : Option (Forest Unit) :=
  ((r.groupAt? data).filter fun g => u.meets g.vars).map (groupContent o scope make)

/-- The new children of a node, if it is bound to a text that an update concerns. -/
def newText (data : NodeData) : Option (Forest Unit) :=
  (data.boundText?.filter fun text => u.meetsText text.toList).map fun text =>
    .ofTrees (Tree.parse (Interpolation.render (shownValue o.namesItems scope) text.toList))

/-- An element with the attributes that an update concerns shown. -/
def newAttributes (e : Element) : Element :=
  (e.boundValues o.namesItems scope u).foldl (fun e (target, v) => e.applyBinding target v) e

/-- A forest with a state shown in it. -/
def shown (f : Forest Unit) : Forest Unit :=
  ((f.showMarkers (newContent o scope r make u)).showTexts (newText o scope u)).mapElements
    (newAttributes o scope u)

end

/-- The forest of markup, as it is before anything is shown in it. -/
def raw (o : ViewOptions) (html : List Char) : Forest Unit :=
  if o.completeHandlers then (Forest.ofTrees (Tree.parse html)).mapElements Element.completeHandlers
  else .ofTrees (Tree.parse html)

theorem bare_raw (o : ViewOptions) (html : List Char) : (raw o html).Bare := by
  unfold raw
  split
  exacts [(Forest.altered_mapElements _ _).bare (Forest.bare_ofTrees _), Forest.bare_ofTrees _]

/-- What is made of markup with everything in it shown. -/
def made (o : ViewOptions) (scope : Scope) (r : Records) : Nat → List Char → Forest Unit
  | 0, html => raw o html
  | fuel + 1, html => shown o scope r (made o scope r fuel) .all (raw o html)

end View

end LiveMarkup
