import LiveMarkup.Proofs.Document.Precedence
import LiveMarkup.Proofs.Document.Retained

/-!
# Handles of owners

What owns a node may be gone, and its handle could then come to name a new node.  A handle is settled
for some number of operations if its slot would have to be freed more often than that for the number of
the handle to come up (`Settled`), as an operation frees no slot twice (`Settled.mem_stays`).  The
handles of live nodes are settled for less than `generations` operations, and they stay settled for the
rest of them whatever becomes of their nodes (`WellFormed.settled_run`).

An operation gives a node no other owner than those that it names (`Operation.Legal.owns`).  So if all
owners were live when they came to own something, they are settled for as many operations as are left of
`generations` (`ownersSettled_run`).
-/

namespace LiveMarkup.Document

open Operation

variable {d d' : Document} {x w p : NodeId} {m n : Nat} {op : Operation} {ops : List Operation}

/-- A node is owned by a node beside it. -/
def OwnedBy (d : Document) (x m : NodeId) : Prop :=
  d.owner? x = some m ∧ ∃ p, d.Under x p ∧ d.Under m p

/-- A handle was given out, and unless its node is live, its slot has to be freed more than `n` times
before the handle comes to name a node. -/
def Settled (d : Document) (n : Nat) (w : NodeId) : Prop :=
  ∃ s, d.slots[w.index]? = some s ∧
    ∀ k ≤ n, (s.generation + k) % generations = w.generation → k = 0 ∧ d.Live w

/-- Every owner stands beside what it owns, or its handle is settled. -/
def OwnersSettled (d : Document) (n : Nat) : Prop :=
  ∀ x w, d.owner? x = some w → d.OwnedBy x w ∨ d.Settled n w

theorem Settled.mono (h : d.Settled n w) (hmn : m ≤ n) : d.Settled m w :=
  let ⟨s, hs, hk⟩ := h
  ⟨s, hs, fun k hkm => hk k (hkm.trans hmn)⟩

theorem OwnersSettled.mono (h : d.OwnersSettled n) (hmn : m ≤ n) : d.OwnersSettled m :=
  fun x w hw => (h x w hw).imp_right fun hs => hs.mono hmn

theorem OwnersSettled.of_append {a b : List Operation} (h : d.OwnersSettled (a ++ b).length) :
    d.OwnersSettled a.length :=
  h.mono (by rw [List.length_append]; exact Nat.le_add_right _ _)

/-- The node of a settled handle was live before, and stays so, while operations are applied that are
not too many. -/
theorem Settled.mem_stays (h : d.Settled n w) (hd : d.WellFormed) (hlegal : AllLegal d ops)
    (hlen : ops.length ≤ n) (hw : (run d ops).Live w) : w ∈ Stays d ops := by
  obtain ⟨s, hs, hsettled⟩ := h
  obtain ⟨t, ht⟩ := hw
  obtain ⟨k, s', hk, hs', hg, -⟩ := (hlegal.sane hd).2 w.index s hs
  obtain rfl := Option.some.inj (hs'.symm.trans (slots_of_used? ht.1))
  obtain ⟨rfl, hlive⟩ := hsettled k (hk.trans hlen) (hg.symm.trans ht.2)
  have hn : n < generations := by
    -- a live handle comes up again when its slot is freed that often
    by_contra hge
    refine absurd (hsettled generations (not_lt.mp hge) ?_).1 (by decide)
    rw [Nat.add_mod_right]
    exact hg.symm.trans ht.2
  exact mem_stays_of_live hd hlegal hlive ⟨s', ht⟩ (lt_of_le_of_lt hlen hn)

/-- A settled handle that names no node comes to name none. -/
theorem Settled.live (h : d.Settled n w) (hd : d.WellFormed) (hlegal : AllLegal d ops)
    (hlen : ops.length ≤ n) (hw : (run d ops).Live w) : d.Live w :=
  live_of_mem_stays (h.mem_stays hd hlegal hlen hw)

theorem Settled.run (h : d.Settled (ops.length + n) w) (hd : d.WellFormed) (hlegal : AllLegal d ops) :
    (run d ops).Settled n w := by
  obtain ⟨s, hs, hsettled⟩ := h
  obtain ⟨k, s', hk, hs', hg, hfree⟩ := (hlegal.sane hd).2 w.index s hs
  refine ⟨s', hs', fun k' hk' hcomes => ?_⟩
  rw [hg, Nat.mod_add_mod, Nat.add_assoc] at hcomes
  obtain ⟨hzero, t, ht⟩ := hsettled (k + k') (Nat.add_le_add hk hk') hcomes
  obtain ⟨rfl, rfl⟩ := Nat.add_eq_zero_iff.mp hzero
  refine ⟨rfl, s', ?_, hg.trans hcomes⟩
  rw [used?, if_neg fun hmem => not_mem_free ht (hfree rfl hmem), hs']

/-- The handle of a live node is settled. -/
theorem WellFormed.settled_of_live (hd : d.WellFormed) (hw : d.Live w) (hn : n < generations) :
    d.Settled n w := by
  obtain ⟨s, hs⟩ := hw
  have hslot := slots_of_used? hs.1
  refine ⟨s, hslot, fun k hk hcomes => ⟨?_, s, hs⟩⟩
  exact eq_zero_of_add_mod (hd.generations _ s hslot) (lt_of_le_of_lt hk hn) (hcomes.trans hs.2.symm)

/-- A handle that named a node not too many operations ago is settled. -/
theorem WellFormed.settled_run (hd : d.WellFormed) (hlegal : AllLegal d ops) (hw : d.Live w)
    (hn : ops.length + n < generations) : (Operation.run d ops).Settled n w :=
  (hd.settled_of_live hw hn).run hd hlegal

theorem OwnedBy.live (h : d.OwnedBy x w) : d.Live w :=
  let ⟨_, _, _, hw⟩ := h
  hw.live

theorem OwnersSettled.settled (h : d.OwnersSettled n) (hd : d.WellFormed) (hn : n < generations)
    (hw : d.owner? x = some w) : d.Settled n w :=
  (h x w hw).elim (fun hw => hd.settled_of_live hw.live hn) id

/-- Where owners stand before what they own, all of them are settled. -/
theorem OwnersPrecede.ownersSettled (h : d.OwnersPrecede) (hd : d.WellFormed) (n : Nat) :
    d.OwnersSettled n := fun x w hw => by
  obtain ⟨s, hs, howner⟩ := Option.bind_eq_some_iff.mp hw
  rcases hd.slot?_cases hs with hs | ⟨g, rfl⟩
  · exact .inl ⟨hw, h.beside ⟨s, hs, howner⟩⟩
  · cases howner

/-! ## New owners -/

/-- The nodes that an operation makes owners. -/
def Operation.owners : Operation → Set NodeId
  | setOwner _ owner => {w | owner = some w}
  | insertOwned m _ => {m}
  | _ => ∅

/-- All nodes that operations make owners are live when their turn comes. -/
def OwnersLive : Document → List Operation → Prop
  | _, [] => True
  | d, op :: ops => (∀ w ∈ op.owners, d.Live w) ∧ OwnersLive (op.apply d) ops

theorem Retains.owns {new : Set NodeId} (h : Retains new d d') (hw : d'.Owns w x) :
    d.Owns w x ∨ w ∈ new := by
  obtain ⟨t, ht, hw⟩ := hw
  obtain ⟨s, hs, -, howner⟩ := h x t ht
  exact (howner w hw).imp_left fun hw => ⟨s, hs, hw⟩

/-- What is grafted has no owner. -/
theorem WellFormed.owns_of_graftAll : ∀ (ts : List Tree) {d : Document} {p : NodeId}, d.WellFormed →
    d.Issued p → (d.graftAll p ts).Owns w x → d.Owns w x
  | [], d, p, _, _, h => by rwa [Document.graftAll] at h
  | .node data ts :: rest, d, p, hd, hp, h => by
    rw [Document.graftAll, graft] at h
    have hfresh := hd.create data
    obtain ⟨h0, hc⟩ := hfresh.append hd hp
    have h1 := WellFormed.graftAll ts h0.wellFormed hc
    have h2 := WellFormed.owns_of_graftAll rest h1.wellFormed
      ((hp.grown h0.grown).grown h1.grown) h
    have h3 := WellFormed.owns_of_graftAll ts h0.wellFormed hc h2
    exact hfresh.owns_iff.mp (((retains_appendChild _ p _).owns h3).resolve_right id)

/-- An operation gives a node no other owner than those that it names. -/
theorem Operation.Legal.owns (h : op.Legal d) (hd : d.WellFormed) (hw : (op.apply d).Owns w x) :
    d.Owns w x ∨ w ∈ op.owners := by
  cases op with
  | create data => exact .inl ((hd.create data).owns_iff.mp hw)
  | createFragment html =>
    have hfresh := hd.create .fragment
    refine .inl (hfresh.owns_iff.mp ?_)
    exact WellFormed.owns_of_graftAll _ hfresh.grows.wellFormed hfresh.holds.live.issued hw
  | appendChild p c => exact (retains_appendChild d p c).owns hw
  | insertAfter r c => exact (retains_insertAfter d r c).owns hw
  | detach c => exact (retains_detach d c).owns hw
  | remove c => exact (retains_remove d c).owns hw
  | removeChildren c => exact (retains_removeChildren d c).owns hw
  | setInnerHtml c html =>
    obtain ⟨h0, hissued, -⟩ := hd.steady_removeChildren (h.issued c List.mem_cons_self)
    exact (retains_removeChildren d c).owns
      (WellFormed.owns_of_graftAll _ h0.wellFormed hissued hw)
  | setOwner c owner => exact (retains_setOwner d c owner).owns hw
  | updateData c f =>
    left
    by_cases hc : d.contains c = true
    · have hr := rewrites_update (f := fun s => { s with data := f s.data }) (fun _ => rfl)
        ((h.issued c List.mem_cons_self).finds hc)
      refine (hr.owns_iff fun y s _ => ?_).mp hw
      split <;> rfl
    · have hsame : d.updateData c f = d := by
        unfold Document.updateData Document.update
        rw [if_neg hc]
      rwa [apply, hsame] at hw
  | clearOwned m => exact (retains_clearOwned d m).owns hw
  | insertOwned m f => exact (retains_insertOwned d m f).owns hw
  | appendFragment p f => exact (retains_appendFragment d p f).owns hw

/-- While operations are applied, owners stay settled. -/
theorem OwnersSettled.run (h : d.OwnersSettled (ops.length + n)) (hd : d.WellFormed)
    (hlegal : AllLegal d ops) (howners : OwnersLive d ops) (hn : ops.length + n < generations) :
    (Operation.run d ops).OwnersSettled n := by
  induction ops generalizing d with
  | nil => rwa [List.length_nil, Nat.zero_add] at h
  | cons op ops ih =>
    rw [List.length_cons, Nat.add_right_comm] at h hn
    have hd' := (hlegal.1.sane hd).wellFormed
    refine ih (fun x w hw => .inr ?_) hd' hlegal.2 howners.2 (by omega)
    have hsettled : d.Settled ([op].length + (ops.length + n)) w := by
      rw [List.length_singleton, Nat.add_comm]
      rcases hlegal.1.owns hd (hd'.owner?_eq_some_iff.mp hw) with hold | hnew
      · exact h.settled hd hn (hd.owner?_eq_some_iff.mpr hold)
      · exact hd.settled_of_live (howners.1 w hnew) hn
    exact hsettled.run hd ⟨hlegal.1, trivial⟩

theorem not_owns_parse (html : List Char) (x w : NodeId) : ¬ (parse html).Owns w x := by
  obtain ⟨s, hs, -⟩ := wellFormed_empty.rooted
  rw [parse, parseInto, wellFormed_empty.owns_graftAll _ hs.live]
  rintro ⟨s, hs, hw⟩
  rw [(holds_empty hs).2] at hw
  cases hw

/-- Nothing in a parsed document has an owner. -/
theorem ownersSettled_parse (html : List Char) (n : Nat) : (parse html).OwnersSettled n := fun x w hw =>
  absurd ((wellFormed_parse html).owner?_eq_some_iff.mp hw) (not_owns_parse html x w)

/-- Whatever is done to a parsed document: if only live nodes are made owners, all owners are settled
for the operations that are left. -/
theorem ownersSettled_run (html : List Char) (hlegal : AllLegal (parse html) ops)
    (howners : OwnersLive (parse html) ops) (hn : ops.length + n < generations) :
    (Operation.run (parse html) ops).OwnersSettled n :=
  (ownersSettled_parse html _).run (wellFormed_parse html) hlegal howners hn

end LiveMarkup.Document
