import LiveMarkup.Page.Start
import LiveMarkup.Proofs.Page.Showing

/-!
# Documents that are started

A parsed document holds the forest of its markup below its root (`Document.parse_spec`).  To start it
completes the handlers of its elements and marks one of them, and leaves all that is bound in them
(`Document.start_spec`).
-/

namespace LiveMarkup

namespace Element

/-- An element marked as the one that is started. -/
def mark (e : Element) : Element :=
  e.setAttribute startedMark ""

theorem harmless_mark : Harmless mark where
  bindings _ := bindings_setAttribute (by decide)
  text _ := attribute?_setAttribute (by decide)
  distinct h := distinct_setAttribute h
  plain h := plain_setAttribute h (by decide)

end Element

namespace Document

open Forest

variable {d : Document} {id p : NodeId} {sp : Slot} {o : Option NodeId} {f : Forest NodeId}
  {L R : List NodeId}

/-- One node of a forest is changed. -/
theorem updateElement_spec (change : Element → Element) (hst : Stands d p sp o L R f)
    (hid : id ∈ f.nodes.map (·.1)) : ∃ g, Turns p sp o L R f g d (d.updateElement id change) ∧
      f.shape.Altered change g.shape := by
  induction f generalizing p sp o L R with
  | nil => exact absurd hid List.not_mem_nil
  | node x data cs ow rest ihc iho ihr =>
    simp only [nodes, List.map_cons, List.map_append, List.mem_cons, List.mem_append] at hid
    have hsame := Altered.refl change
    rcases hid with rfl | hid | hid | hid
    · rw [updateElement_eq]
      have h1 := hst.held.1
      exact ⟨_, hst.turns_data (swapped_update (fun _ => rfl) h1)
        (h1.update (f := fun s => { s with data := s.data.mapElement change }) fun _ => rfl),
        _, _, _, _, rfl, .inr rfl, hsame _, hsame _, hsame _⟩
    · obtain ⟨g, ht, ha⟩ := ihc hst.inChildren hid
      exact ⟨_, hst.turns_inChildren ht, _, _, _, _, rfl, .inl rfl, ha, hsame _, hsame _⟩
    · obtain ⟨g, ht, ha⟩ := iho hst.inOwned hid
      exact ⟨_, hst.turns_inOwned ht, _, _, _, _, rfl, .inl rfl, hsame _, ha, hsame _⟩
    · obtain ⟨g, ht, ha⟩ := ihr hst.inRest hid
      exact ⟨_, hst.turns_inRest ht, _, _, _, _, rfl, .inl rfl, hsame _, hsame _, ha⟩

/-- A parsed document holds the forest of its markup. -/
theorem parse_spec (html : List Char) : ∃ f sp, sp.data = .root ∧ (parse html).Sound ∧
    Stands (parse html) root sp none [] [] f ∧ f.shape = ofTrees (Tree.parse html) := by
  have hempty : empty.Sound := by
    refine ⟨List.nodup_nil, fun i hi => absurd hi List.not_mem_nil, fun i s hs => ?_⟩
    rw [empty, List.getElem?_toArray] at hs
    rcases i with _ | i
    · cases hs
      decide
    · cases hs
  have hroot : empty.Holds root { data := .root } := ⟨rfl, rfl⟩
  have hst : Stands empty root { data := .root } none [] [] .nil :=
    ⟨hroot, trivial, List.nodup_nil, by simp [ids], by simp, by simp, by simp, _, hroot, rfl⟩
  obtain ⟨f, ht, hs, -⟩ := graftAll_spec (Tree.parse html) hempty hst
  exact ⟨f, _, rfl, ht.swapped.sound hempty, ht.stands, hs⟩

theorem mem_elements_of_markedElement? (h : d.markedElement? = some id) : id ∈ d.descendants root := by
  unfold markedElement? at h
  rcases Option.or_eq_some_iff.mp h with h | ⟨-, h⟩
  · exact List.mem_of_find?_eq_some h
  · exact (List.mem_filter.mp (List.mem_of_head? h)).1

/-- To start a document alters some of its elements. -/
theorem start_spec (hd : d.Sound) (hst : Stands d root sp none [] [] f) : ∃ g,
    d.start.Sound ∧ Stands d.start root sp none [] [] g ∧ ∃ f₁,
      f.shape.Altered Element.completeHandlers f₁ ∧ f₁.Altered Element.mark g.shape := by
  obtain ⟨f₁, ht₁, hs₁, -⟩ := foldl_updateElement Element.completeHandlers hd hst
  rw [← elements_eq hst] at ht₁
  have hd₁ := ht₁.swapped.sound hd
  have ha₁ : f.shape.Altered Element.completeHandlers f₁.shape := hs₁ ▸ altered_mapElements _ _
  unfold start
  rw [completeHandlers]
  set d₁ := (d.elements root).foldl (fun d n => d.updateElement n Element.completeHandlers) d
  unfold markStarted
  rcases hm : d₁.markedElement? with _ | id
  · exact ⟨f₁, hd₁, ht₁.stands, _, ha₁, .refl _ _⟩
  · have hid := mem_elements_of_markedElement? hm
    rw [descendants_eq ht₁.stands] at hid
    obtain ⟨g, ht, ha⟩ := updateElement_spec Element.mark ht₁.stands hid
    exact ⟨g, ht.swapped.sound hd₁, ht.stands, _, ha₁, ha⟩

end Document

end LiveMarkup
