import LiveMarkup.Markup.Parse

/-!
# Trees that are put together

Adding trees one after the other is adding all of them at once (`foldl_add_pending`, `foldl_add_top`).
What holds of each tree that is added, of each open element when it is filled, and of each element
when it is closed (`BuildInvariant`), holds of all trees in the end (`Builder.Meets.finish`).
-/

namespace LiveMarkup

variable {b : Builder} {t : Tree} {ts : List Tree} {whole : Tree → Prop} {opened : Pending → Prop}

namespace Builder

theorem foldl_add_pending (p : Pending) (ps : List Pending) (top : List Tree) :
    ∀ {ts inside : List Tree}, ts.foldl add ⟨top, { p with inside } :: ps⟩ =
      ⟨top, { p with inside := ts.reverse ++ inside } :: ps⟩
  | [], _ => rfl
  | t :: ts, inside => by
    rw [List.foldl_cons, add, foldl_add_pending p ps top, List.reverse_cons, List.append_assoc]
    rfl

theorem foldl_add_top : ∀ {ts top : List Tree}, ts.foldl add ⟨top, []⟩ = ⟨ts.reverse ++ top, []⟩
  | [], _ => rfl
  | t :: ts, top => by
    rw [List.foldl_cons, add, foldl_add_top, List.reverse_cons, List.append_assoc]
    rfl

/-- An element that is opened, filled and closed again is added with its content. -/
theorem stop_foldl_add (b : Builder) (e : Element) (ts : List Tree) :
    (ts.foldl add (b.step (.start e))).step (.stop e.tag) = b.add (.node (.element e) ts) := by
  rw [step, foldl_add_pending { element := e } b.pending b.top, List.append_nil]
  have hfind : ({ element := e, inside := ts.reverse } :: b.pending).findIdx?
      (fun p : Pending => p.element.tag = e.tag) = some 0 := by
    rw [List.findIdx?_cons, if_pos (decide_eq_true rfl)]
  rw [step]
  simp only [hfind]
  rw [closeMany, closeMany, close]
  simp only [List.reverse_reverse]

end Builder

/-- A property of trees that an element gets when it is closed, if it kept a property while it was
open. -/
structure BuildInvariant (whole : Tree → Prop) (opened : Pending → Prop) : Prop where
  fill : ∀ {p t}, opened p → whole t → opened { p with inside := t :: p.inside }
  close : ∀ {p}, opened p → whole (.node (.element p.element) p.inside.reverse)

/-- What holds of the trees that are complete, and of the elements that are open. -/
structure Builder.Meets (whole : Tree → Prop) (opened : Pending → Prop) (b : Builder) : Prop where
  top : ∀ t ∈ b.top, whole t
  pending : ∀ p ∈ b.pending, opened p

namespace Builder.Meets

theorem empty : Builder.Meets whole opened {} :=
  ⟨fun _ h => absurd h List.not_mem_nil, fun _ h => absurd h List.not_mem_nil⟩

theorem start {e : Element} (h : b.Meets whole opened) (he : opened { element := e }) :
    (b.step (.start e)).Meets whole opened :=
  ⟨h.top, List.forall_mem_cons.mpr ⟨he, h.pending⟩⟩

variable (hinv : BuildInvariant whole opened)

include hinv

theorem add (h : b.Meets whole opened) (ht : whole t) : (b.add t).Meets whole opened := by
  obtain ⟨top, pending⟩ := b
  obtain ⟨htop, hpending⟩ := h
  rcases pending with _ | ⟨p, ps⟩
  · exact ⟨List.forall_mem_cons.mpr ⟨ht, htop⟩, hpending⟩
  · obtain ⟨hp, hps⟩ := List.forall_mem_cons.mp hpending
    exact ⟨htop, List.forall_mem_cons.mpr ⟨hinv.fill hp ht, hps⟩⟩

theorem addAll (h : b.Meets whole opened) (hts : ∀ t ∈ ts, whole t) :
    (ts.foldl Builder.add b).Meets whole opened := by
  induction ts generalizing b with
  | nil => exact h
  | cons t ts ih =>
    obtain ⟨ht, hts⟩ := List.forall_mem_cons.mp hts
    exact ih (h.add hinv ht) hts

theorem close (h : b.Meets whole opened) : b.close.Meets whole opened := by
  obtain ⟨top, pending⟩ := b
  rcases pending with _ | ⟨p, ps⟩
  · exact h
  · obtain ⟨hp, hps⟩ := List.forall_mem_cons.mp h.pending
    have hrest : Builder.Meets whole opened ⟨top, ps⟩ := ⟨h.top, hps⟩
    exact hrest.add hinv (hinv.close hp)

theorem closeMany : ∀ (n : Nat) {b : Builder}, b.Meets whole opened → (b.closeMany n).Meets whole opened
  | 0, _, h => h
  | n + 1, _, h => closeMany n (h.close hinv)

theorem stop (h : b.Meets whole opened) (tag : String) : (b.step (.stop tag)).Meets whole opened := by
  rw [Builder.step]
  split
  · exact h.closeMany hinv _
  · exact h

theorem finish (h : b.Meets whole opened) : ∀ t ∈ b.finish, whole t := by
  intro t ht
  rw [Builder.finish, List.mem_reverse] at ht
  exact (h.closeMany hinv _).top t ht

end Builder.Meets

end LiveMarkup
