import Mathlib
import LiveMarkup.Proofs.Page.Attributes
import LiveMarkup.Proofs.Page.Shown

/-!
# The nodes of markup

The nodes of parsed markup are those of its pieces, in some order (`data_parse`).  So what holds of
every element that a tag is read as holds of every element of the parsed markup
(`distinct_of_mem_parse`), and the markup weighs what its pieces weigh (`weigh_parse`).
-/

namespace LiveMarkup

open Text

/-- What the nodes of trees are. -/
def Tree.dataAll (ts : List Tree) : List NodeData :=
  (Forest.ofTrees ts).nodes.map (·.2)

/-- What the nodes of a piece of markup are. -/
def Event.data : Event → List NodeData
  | whole t => Tree.dataAll [t]
  | start e => [.element e]
  | stop _ => []

/-- What the nodes of a builder are. -/
def Builder.data (b : Builder) : List NodeData :=
  (b.pending.flatMap fun p => .element p.element :: Tree.dataAll p.inside) ++ Tree.dataAll b.top

namespace Tree

variable {data : NodeData} {t : Tree} {ts ts' : List Tree}

theorem dataAll_nil : dataAll [] = [] := by
  rw [dataAll, Forest.ofTrees]
  rfl

theorem dataAll_node : dataAll (.node data ts :: ts') = data :: (dataAll ts ++ dataAll ts') := by
  rw [dataAll, Forest.ofTrees]
  simp [Forest.nodes, dataAll]

theorem dataAll_cons : dataAll (t :: ts) = dataAll [t] ++ dataAll ts := by
  obtain ⟨data, children⟩ := t
  simp [dataAll_node, dataAll_nil]

theorem dataAll_reverse : (dataAll ts.reverse).Perm (dataAll ts) := by
  have heq : ∀ ts, dataAll ts = ts.flatMap fun t => dataAll [t] := fun ts => by
    induction ts with
    | nil => exact dataAll_nil
    | cons t ts ih => rw [dataAll_cons, ih, List.flatMap_cons]
  rw [heq, heq]
  exact ts.reverse_perm.flatMap_right _

end Tree

namespace Builder

variable {b : Builder} {t : Tree}

theorem data_add : (b.add t).data.Perm (Tree.dataAll [t] ++ b.data) := by
  unfold add data
  rcases b.pending with _ | ⟨p, ps⟩ <;> simp only [List.flatMap_nil, List.flatMap_cons]
  · rw [Tree.dataAll_cons]
    rfl
  · rw [Tree.dataAll_cons]
    simp only [List.append_assoc, List.cons_append]
    exact List.perm_middle.symm

theorem data_close : b.close.data.Perm b.data := by
  unfold close
  rcases hb : b.pending with _ | ⟨p, ps⟩
  · rfl
  · refine data_add.trans ?_
    rw [Tree.dataAll_node, Tree.dataAll_nil, List.append_nil]
    unfold data
    rw [hb, List.flatMap_cons, List.append_assoc, List.cons_append, List.cons_append]
    exact (Tree.dataAll_reverse.append_right _).cons _

theorem data_closeMany : ∀ (n : Nat) (b : Builder), (b.closeMany n).data.Perm b.data
  | 0, _ => .refl _
  | n + 1, b => (data_closeMany n b.close).trans data_close

theorem data_step (e : Event) : (b.step e).data.Perm (e.data ++ b.data) := by
  rcases e with t | e | tag
  · exact data_add
  · refine .of_eq ?_
    simp [step, data, Event.data, Tree.dataAll_nil]
  · simp only [step, Event.data, List.nil_append]
    split
    exacts [data_closeMany _ b, .refl _]

theorem pending_closeMany : ∀ (n : Nat) (b : Builder), b.pending.length = n →
    (b.closeMany n).pending = []
  | 0, _, h => List.length_eq_zero_iff.mp h
  | n + 1, b, h => by
    refine pending_closeMany n b.close ?_
    unfold close
    rcases hb : b.pending with _ | ⟨p, ps⟩ <;> rw [hb] at h
    · cases h
    · rcases ps with _ | ⟨q, ps⟩ <;> simpa [add, eq_comm] using h

theorem data_finish : (Tree.dataAll b.finish).Perm b.data := by
  have h := data_closeMany b.pending.length b
  rw [data, pending_closeMany _ b rfl] at h
  exact Tree.dataAll_reverse.trans h

end Builder

theorem data_foldl : ∀ (es : List Event) (b : Builder),
    (es.foldl Builder.step b).data.Perm (es.flatMap Event.data ++ b.data)
  | [], b => .refl _
  | e :: es, b => by
    refine (data_foldl es (b.step e)).trans ?_
    refine ((Builder.data_step e).append_left _).trans ?_
    rw [List.flatMap_cons, ← List.append_assoc]
    exact List.perm_append_comm.append_right _

/-- The nodes of parsed markup are the nodes of its pieces. -/
theorem data_parse (cs : List Char) :
    (Tree.dataAll (Tree.parse cs)).Perm ((events cs).flatMap Event.data) := by
  refine Builder.data_finish.trans ((data_foldl _ _).trans (.of_eq ?_))
  simp [Builder.data, Tree.dataAll_nil]

/-! ## Attributes -/

theorem nodup_addAttribute {attributes : List (String × String)} (name value : String)
    (h : (attributes.map (·.1)).Nodup) :
    ((if name = "" || (attributes.lookup name).isSome then attributes
      else attributes ++ [(name, value)]).map (·.1)).Nodup := by
  split
  · exact h
  · rename_i hnew
    simp only [Bool.or_eq_true, not_or, Bool.not_eq_true, Option.isSome_eq_false_iff,
      Option.isNone_iff_eq_none, List.lookup_eq_none_iff] at hnew
    rw [List.map_append, List.nodup_append']
    refine ⟨h, List.nodup_singleton _, ?_⟩
    rintro _ hmem hname
    obtain ⟨p, hp, rfl⟩ := List.mem_map.mp hmem
    obtain rfl := List.mem_singleton.mp hname
    simpa using hnew.2 p hp

theorem nodup_scanAttributes : ∀ (fuel : Nat) (attributes : List (String × String)) (cs : List Char),
    (attributes.map (·.1)).Nodup → ((scanAttributes fuel attributes cs).1.map (·.1)).Nodup
  | 0, _, _, h => h
  | fuel + 1, attributes, cs, h => by
    unfold scanAttributes
    split
    · exact h
    · exact h
    · exact h
    · exact nodup_scanAttributes fuel attributes _ h
    · exact nodup_scanAttributes fuel _ _ (nodup_addAttribute _ _ h)

/-- A tag is read as an element without repeated attributes, perhaps with a text in it. -/
theorem data_readElement (cs : List Char) : ∃ e : Element, e.Distinct ∧
    ∀ data ∈ (readElement cs).1.data, data = .element e ∨ ∃ s, data = .text s := by
  set isNameEnd := fun c : Char => isAsciiBlank c || c = '>' || c = '/'
  set rest := cs.dropWhile (!isNameEnd ·)
  refine ⟨{ Element.ofTag (String.ofList (cs.takeWhile (!isNameEnd ·))) with
    attributes := (scanAttributes (rest.length + 1) [] rest).1 },
    nodup_scanAttributes _ _ _ List.nodup_nil, ?_⟩
  unfold readElement
  simp only
  split
  · intro data hdata
    rw [Event.data, Tree.leaf, Tree.dataAll_node, Tree.dataAll_nil] at hdata
    exact .inl (List.mem_singleton.mp hdata)
  · split
    · intro data hdata
      rw [Event.data, Tree.dataAll_node, Tree.dataAll_nil, List.append_nil] at hdata
      rcases List.mem_cons.mp hdata with rfl | hdata
      · exact .inl rfl
      · split at hdata
        · rw [Tree.dataAll_nil] at hdata
          cases hdata
        · rw [Tree.leaf, Tree.dataAll_node, Tree.dataAll_nil] at hdata
          exact .inr ⟨_, List.mem_singleton.mp hdata⟩
    · intro data hdata
      exact .inl (List.mem_singleton.mp hdata)

theorem data_leaf (data : NodeData) : (Event.whole (.leaf data)).data = [data] := by
  rw [Event.data, Tree.leaf, Tree.dataAll_node, Tree.dataAll_nil]
  rfl

theorem distinct_of_mem_readEvent {cs : List Char} {e : Element}
    (h : .element e ∈ (readEvent cs).1.data) : e.Distinct := by
  unfold readEvent at h
  split at h
  · split at h
    all_goals
      rw [data_leaf] at h
      cases List.mem_singleton.mp h
  · rw [data_leaf] at h
    cases List.mem_singleton.mp h
  · cases h
  · split at h
    · obtain ⟨e', he', hall⟩ := data_readElement ‹_›
      rcases hall _ h with h | ⟨s, h⟩ <;> cases h
      exact he'
    · rw [textEvent, data_leaf] at h
      cases List.mem_singleton.mp h
  · rw [textEvent, data_leaf] at h
    cases List.mem_singleton.mp h

/-- Every piece is read somewhere. -/
theorem mem_events {cs : List Char} {event : Event} (h : event ∈ events cs) :
    ∃ cs, event = (readEvent cs).1 := by
  have hread : ∀ (fuel : Nat) (cs : List Char), event ∈ eventsFrom fuel cs →
      ∃ cs, event = (readEvent cs).1 := by
    intro fuel
    induction fuel with
    | zero => exact fun _ h => absurd h List.not_mem_nil
    | succ fuel ih =>
      intro cs h
      rcases cs with _ | ⟨c, cs⟩
      · exact absurd h List.not_mem_nil
      · rw [eventsFrom] at h
        · rcases List.mem_cons.mp h with rfl | h
          exacts [⟨_, rfl⟩, ih _ h]
        · simp
  exact hread _ _ h

/-- No attribute stands twice in an element of parsed markup. -/
theorem distinct_of_mem_parse {cs : List Char} {e : Element}
    (h : .element e ∈ Tree.dataAll (Tree.parse cs)) : e.Distinct := by
  obtain ⟨event, hevent, h⟩ := List.mem_flatMap.mp ((data_parse cs).mem_iff.mp h)
  obtain ⟨cs, rfl⟩ := mem_events hevent
  exact distinct_of_mem_readEvent h

/-! ## Weights -/

/-- What a node weighs if only comments have weight. -/
def NodeData.weight (v : String → Nat) : NodeData → Nat
  | comment s => v s
  | _ => 0

theorem Forest.weigh_eq {α : Type} (w : NodeData → Nat) (f : Forest α) :
    f.weigh w = ((f.nodes.map (·.2)).map w).sum := by
  induction f with
  | nil => rfl
  | node id data cs ow rest ihc iho ihr => simp [weigh, nodes, ihc, iho, ihr]

/-- Parsed markup weighs what its pieces weigh. -/
theorem weigh_parse (w : NodeData → Nat) (cs : List Char) :
    (Forest.ofTrees (Tree.parse cs)).weigh w =
      ((events cs).map fun event => (event.data.map w).sum).sum := by
  rw [Forest.weigh_eq, ← Tree.dataAll, ((data_parse cs).map w).sum_nat]
  induction events cs with
  | nil => rfl
  | cons event es ih => rw [List.flatMap_cons, List.map_append, List.sum_append, ih, List.map_cons,
      List.sum_cons]

end LiveMarkup
