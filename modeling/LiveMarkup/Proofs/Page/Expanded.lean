import LiveMarkup.Proofs.Page.Refinement
import LiveMarkup.Proofs.Page.Shows

/-!
# What a state shows, by recursion on the markup

A state is shown in four passes over a document, and what is new in one of them is gone over again in
the next ones.  By recursion on the markup each node is dealt with once: it gets its attributes and its
text, and if it is a marker the content of its group (`Forest.expanded`).  Where the contents are
themselves shown, both are the same (`Forest.shown_eq_expanded`), and to show the state again changes
nothing (`Forest.shown_expanded`).
-/

namespace LiveMarkup

namespace NodeData

variable {o : ViewOptions} {scope : Scope} {r : Records} {u : Update} {data : NodeData}

theorem groupAt?_mapElement (change : Element → Element) :
    r.groupAt? (data.mapElement change) = r.groupAt? data := by
  cases data <;> rfl

theorem Settles.twice (h : data.Settles) :
    (data.mapElement (View.newAttributes o scope u)).mapElement (View.newAttributes o scope u) =
      data.mapElement (View.newAttributes o scope u) := by
  rcases data with _ | _ | e | s | s | s
  case element =>
    exact congrArg NodeData.element (Element.newAttributes_twice (h.distinct e rfl) (h.plain e rfl))
  all_goals rfl

theorem Settles.newText_eq (h : data.Settles) :
    View.newText o scope u (data.mapElement (View.newAttributes o scope u)) =
      View.newText o scope u data := by
  rcases data with _ | _ | e | s | s | s
  case element =>
    have hbound : (NodeData.element e).boundText? =
        ((NodeData.element e).mapElement (View.newAttributes o scope u)).boundText? :=
      (Element.boundText_newAttributes (h.distinct e rfl) (h.plain e rfl)).symm
    rw [View.newText, View.newText, hbound]
  all_goals rfl

end NodeData

/-- The attributes of all nodes in the blocks of a view can be shown again. -/
def Records.Settles (r : Records) (o : ViewOptions) : Prop :=
  ∀ name g, r.group? name = some g → ∀ b ∈ g.blocks,
    ∀ n ∈ (View.raw o b.content.toList).nodes, n.2.Settles

namespace Forest

open View

section

variable (o : ViewOptions) (scope : Scope) (r : Records) (make : List Char → Forest Unit)

/-- A forest with texts and attributes shown in it. -/
def refreshed (f : Forest Unit) : Forest Unit :=
  (f.showTexts (newText o scope .all)).mapElements (newAttributes o scope .all)

/-- Markup with all nodes dealt with, one after the other. -/
def expanded : Forest Unit → Forest Unit
  | nil => nil
  | node _ data cs _ rest =>
    node () (data.mapElement (newAttributes o scope .all))
      (((newText o scope .all data).map (mapElements (newAttributes o scope .all))).getD (expanded cs))
      (((r.groupAt? data).map (groupContent o scope make)).getD nil) (expanded rest)

end

variable {o : ViewOptions} {scope : Scope} {r : Records} {make : List Char → Forest Unit}
  {data : NodeData} {f cs ow rest : Forest Unit}

theorem refreshed_node : (node () data cs ow rest).refreshed o scope =
    node () (data.mapElement (newAttributes o scope .all))
      (((newText o scope .all data).map (mapElements (newAttributes o scope .all))).getD
        (cs.refreshed o scope)) (ow.refreshed o scope) (rest.refreshed o scope) := by
  rw [refreshed, showTexts, mapElements]
  rcases newText o scope .all data with _ | c <;> rfl

theorem newContent_all : newContent o scope r make .all data =
    (r.groupAt? data).map (groupContent o scope make) := by
  rw [newContent]
  rcases r.groupAt? data with _ | g <;> rfl

theorem shown_eq_refreshed : shown o scope r make .all f =
    (f.showMarkers (newContent o scope r make .all)).refreshed o scope :=
  rfl

/-- The contents that the groups of markup show have texts and attributes shown in them. -/
def Ready (o : ViewOptions) (scope : Scope) (r : Records) (make : List Char → Forest Unit)
    (f : Forest Unit) : Prop :=
  ∀ n ∈ f.nodes, ∀ g, r.groupAt? n.2 = some g →
    (groupContent o scope make g).refreshed o scope = groupContent o scope make g

theorem Ready.node (h : Ready o scope r make (node () data cs .nil rest)) :
    ((((r.groupAt? data).map (groupContent o scope make)).getD nil).refreshed o scope =
      ((r.groupAt? data).map (groupContent o scope make)).getD nil) ∧
    Ready o scope r make cs ∧ Ready o scope r make rest := by
  refine ⟨?_, fun n hn => h n ?_, fun n hn => h n ?_⟩
  · rcases hg : r.groupAt? data with _ | g
    · rfl
    · exact h ((), data) List.mem_cons_self g hg
  · exact List.mem_cons_of_mem _ (List.mem_append_left _ hn)
  · exact List.mem_cons_of_mem _ (List.mem_append_right _ (List.mem_append_right _ hn))

/-- In markup with nothing shown yet, a state is shown by dealing with the nodes one by one. -/
theorem shown_eq_expanded (hf : f.Bare) (hr : Ready o scope r make f) :
    shown o scope r make .all f = f.expanded o scope r make := by
  rw [shown_eq_refreshed]
  induction f with
  | nil => rfl
  | node id data cs ow rest ihc _ ihr =>
    obtain ⟨hcs, rfl, hrest⟩ := hf
    obtain ⟨hcontent, hrc, hrr⟩ := hr.node
    rw [showMarkers, refreshed_node, ihc hcs hrc, ihr hrest hrr, newContent_all, expanded,
      showMarkers, hcontent]

section

variable (hs : ∀ n ∈ f.nodes, n.2.Settles)
include hs

theorem settles_node {id : Unit} {data : NodeData} {cs ow rest : Forest Unit}
    (hf : f = node id data cs ow rest) :
    data.Settles ∧ (∀ n ∈ cs.nodes, n.2.Settles) ∧ ∀ n ∈ rest.nodes, n.2.Settles := by
  subst hf
  simp only [nodes, List.mem_cons, List.mem_append, or_imp, forall_and, forall_eq] at hs
  exact ⟨hs.1, hs.2.1, hs.2.2.2⟩

/-- To show texts and attributes again changes nothing. -/
theorem refreshed_expanded (hf : f.Bare) (hr : Ready o scope r make f) :
    (f.expanded o scope r make).refreshed o scope = f.expanded o scope r make := by
  induction f with
  | nil => rfl
  | node id data cs ow rest ihc _ ihr =>
    obtain ⟨hcs, rfl, hrest⟩ := hf
    obtain ⟨hcontent, hrc, hrr⟩ := hr.node
    obtain ⟨hdata, hsc, hsr⟩ := settles_node hs rfl
    rw [expanded, refreshed_node, hdata.twice, hdata.newText_eq, hcontent, ihr hsr hrest hrr]
    rcases newText o scope .all data with _ | c
    · simp only [Option.map_none, Option.getD_none, ihc hsc hcs hrc]
    · rfl

/-- To show the same state again changes nothing. -/
theorem shown_expanded (hf : f.Bare) (hr : Ready o scope r make f) :
    shown o scope r make .all (f.expanded o scope r make) = f.expanded o scope r make := by
  rw [shown_eq_refreshed]
  induction f with
  | nil => rfl
  | node id data cs ow rest ihc _ ihr =>
    obtain ⟨hcs, rfl, hrest⟩ := hf
    obtain ⟨hcontent, hrc, hrr⟩ := hr.node
    obtain ⟨hdata, hsc, hsr⟩ := settles_node hs rfl
    have howned : (newContent o scope r make .all
        (data.mapElement (newAttributes o scope .all))).getD
        ((((r.groupAt? data).map (groupContent o scope make)).getD nil).showMarkers
          (newContent o scope r make .all)) =
        ((r.groupAt? data).map (groupContent o scope make)).getD nil := by
      rw [newContent_all, NodeData.groupAt?_mapElement]
      rcases r.groupAt? data with _ | g <;> rfl
    rw [expanded, showMarkers, howned, refreshed_node, hdata.twice, hdata.newText_eq, hcontent,
      ihr hsr hrest hrr]
    rcases newText o scope .all data with _ | c
    · simp only [Option.map_none, Option.getD_none, ihc hsc hcs hrc]
    · rfl

end

end Forest

namespace View

open Forest

variable {o : ViewOptions} {scope : Scope} {r : Records} {w : NodeData → Nat} {f : Forest Unit}
  {N : Nat}

theorem le_weigh {n : Unit × NodeData} (h : n ∈ f.nodes) : w n.2 ≤ f.weigh w := by
  induction f with
  | nil => exact absurd h List.not_mem_nil
  | node id data cs ow rest ihc iho ihr =>
    simp only [nodes, List.mem_cons, List.mem_append] at h
    rw [weigh]
    rcases h with rfl | h | h | h
    · exact Nat.le_add_right ..
    · have := ihc h
      omega
    · have := iho h
      omega
    · have := ihr h
      omega

/-- With enough fuel, what is made of markup has texts and attributes shown in it. -/
theorem ready_made (hw : Weighs r w) (hs : r.Settles o) : ∀ (N : Nat) (f : Forest Unit),
    f.weigh w ≤ N → Ready o scope r (made o scope r N) f
  | 0, f, hle => by
    intro n hn g hg
    rw [groupContent_eq]
    rcases hm : groupMarkup? o scope g with _ | html
    · rfl
    · obtain ⟨b, hb, rfl⟩ := mem_of_groupMarkup? hm
      have := hw.blocks n.2 g hg b hb
      have := le_weigh (w := w) hn
      omega
  | N + 1, f, hle => by
    intro n hn g hg
    rw [groupContent_eq]
    rcases hm : groupMarkup? o scope g with _ | html
    · rfl
    · obtain ⟨b, hb, rfl⟩ := mem_of_groupMarkup? hm
      obtain ⟨name, hname⟩ := Records.group?_of_groupAt? hg
      have hlt := hw.blocks n.2 g hg b hb
      have hn' := le_weigh (w := w) hn
      have hready := ready_made hw hs N (raw o b.content.toList) (by rw [weigh_raw hw.elements]; omega)
      have hbare := bare_raw o b.content.toList
      rw [Option.map_some, Option.getD_some, made, shown_eq_expanded hbare hready]
      exact refreshed_expanded (hs name g hname b hb) hbare hready

section

variable {v : View} {sp : Slot} {f : Forest NodeId}

theorem render_all_eq (hrec : v.records = r) : (v.render o scope .all).2 =
    (v.showWith (build o (r.size + 1 + o.depth)) o scope .all Document.root).2 := by
  have hall : Update.all.isEmpty = false := rfl
  simp only [render, showUnder, hall, hrec, Bool.false_eq_true, if_false]

/-- A state that is shown in markup deals with all nodes of it. -/
theorem render_bare (scope : Scope) (hw : Weighs r w) (hs : r.Settles o) (hloops : r.loops = [])
    (hrec : v.records = r) (hd : v.document.Sound)
    (hst : v.document.Stands Document.root sp none [] [] f) (hbare : f.Bare)
    (hsize : f.weigh w ≤ r.size) : ∃ g, (v.render o scope .all).2.records = r ∧
      (v.render o scope .all).2.document.Sound ∧
      (v.render o scope .all).2.document.Stands Document.root sp none [] [] g ∧
      g.shape = f.shape.expanded o scope r (made o scope r (r.size + 1 + o.depth)) := by
  obtain ⟨g, hr', ht, hshape, -⟩ := showWith_spec (o := o) (u := .all) hw
    (build_spec hw hloops o scope (r.size + 1 + o.depth)) hrec hloops hd hst (.inl hbare)
  rw [render_all_eq hrec]
  refine ⟨g, hr', ht.swapped.sound hd, ht.stands, hshape.trans ?_⟩
  refine shown_eq_expanded (bare_shape.mpr hbare) (ready_made hw hs _ _ ?_)
  rw [weigh_shape]
  omega

end

end View

end LiveMarkup
