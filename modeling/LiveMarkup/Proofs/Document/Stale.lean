import LiveMarkup.Proofs.Document.Handles
import LiveMarkup.Proofs.Document.Placing

/-!
# Writing through stale handles

A handle is stale once its node has been removed.  Most operations that are applied to a stale handle
guard the single steps that they are made of, and so leave the document as it is.  Three of them do
not (`Operation.Slips`): new content for a removed node is made all the same, and when the children of
a fragment are to go after or below a removed node, they stay where they are, but get an owner, or the
fragment is given up.  There are no other exceptions (`apply_eq_self_iff_of_stale`).
-/

namespace LiveMarkup.Document

open Operation

variable {d : Document} {x a b c m p f : NodeId} {cs L R : List NodeId} {op : Operation}

/-- A fragment without children, other than the root. -/
def Vacant (d : Document) (f : NodeId) : Prop :=
  f ≠ root ∧ d.contains f = true ∧ d.data f = .fragment ∧ d.children f = []

namespace Operation

/-- An operation that is applied to a stale handle has an effect all the same. -/
def Slips (d : Document) (x : NodeId) : Operation → Prop
  | setInnerHtml _ html => Tree.parse html ≠ []
  | insertOwned m f => m = x ∧ ((∃ c ∈ d.children f, d.owner? c = none) ∨ d.Vacant f)
  | appendFragment p f => p = x ∧ d.Vacant f
  | _ => False

end Operation

/-! ## Guarded steps -/

section

variable (h : d.contains x = false)
include h

theorem slot?_of_stale : d.slot? x = none := by
  simpa [contains] using h

theorem update_of_stale (g : Slot → Slot) : d.update x g = d := by
  simp [update, h]

theorem parent?_of_stale : d.parent? x = none := by
  simp [parent?, slot?_of_stale h]

theorem children_of_stale : d.children x = [] := by
  simp [children, slot?_of_stale h]

theorem remove_of_stale : d.remove x = d := by
  simp [Document.remove, h]

theorem removeChildren_of_stale : d.removeChildren x = d := by
  simp [Document.removeChildren, children_of_stale h, update_of_stale h]

theorem clearOwned_of_stale : (d.clearOwned x).2 = d := by
  simp [Document.clearOwned, followingSiblings, parent?_of_stale h, clearAmong]

theorem appendAll_of_stale (cs : List NodeId) :
    cs.foldl (fun d c => d.appendChild x c) d = d := by
  induction cs with
  | nil => rfl
  | cons c cs ih =>
    rw [List.foldl_cons]
    simpa [Document.appendChild, h] using ih

theorem insertAfter_of_stale (c : NodeId) : (d.insertAfter x c).2 = d := by
  unfold Document.insertAfter
  split_ifs
  · rfl
  · rw [parent?_of_stale h]

theorem releaseFragment_of_stale : d.releaseFragment x = d := by
  unfold Document.releaseFragment
  rw [remove_of_stale h, ite_self]

end

/-! ## Nodes that go where they stand -/

theorem update_four {f₁ f₂ g₁ g₂ : Slot → Slot} {sb sp : Slot} (hb : d.Holds b sb) (hp : d.Holds p sp)
    (hne : b.index ≠ p.index) (hf₁ : ∀ s, (f₁ s).generation = s.generation)
    (hg₁ : ∀ s, (g₁ s).generation = s.generation) (hf : f₂ (f₁ sb) = sb) (hg : g₂ (g₁ sp) = sp) :
    (((d.update b f₁).update p g₁).update b f₂).update p g₂ = d := by
  have hp1 := hb.update_of_ne (f := f₁) hp hne.symm
  have hb2 := hp1.update_of_ne (f := g₁) (hb.update hf₁) hne
  have hp3 := hb2.update_of_ne (f := f₂) (hp1.update hg₁) hne.symm
  have hslots : ((((d.update b f₁).update p g₁).update b f₂).update p g₂).slots = d.slots := by
    refine Array.ext_getElem? fun i => ?_
    rw [slots_update hp3, slots_update hb2, slots_update hp1, slots_update hb, hf, hg]
    split_ifs with h1 h2
    · rw [h1, slots_of_used? hp.1]
    · rw [h2, slots_of_used? hb.1]
    · rfl
  have hfree : ((((d.update b f₁).update p g₁).update b f₂).update p g₂).free = d.free := by
    simp only [free_update]
  cases d
  exact congrArg₂ Document.mk hslots hfree

/-- A node that goes right after the sibling before it stays where it is. -/
theorem WellFormed.insertAfter_beside (hd : d.WellFormed) (hp : d.children p = L ++ a :: b :: R) :
    (d.insertAfter a b).2 = d := by
  have hunder : ∀ c ∈ d.children p, d.Under c p := fun c hc => hd.mem_children.mp hc
  have ha := hunder a (by simp [hp])
  have hb := hunder b (by simp [hp])
  have hbp : b ≠ p := fun h => hd.acyclic b (.single (h ▸ hb))
  obtain ⟨sp, hsp⟩ := hd.closed_live.parent hb.live hb
  obtain ⟨sa, hsa, haparent⟩ := id ha
  obtain ⟨sb, hsb, hbparent⟩ := id hb
  have hne : b.index ≠ p.index := fun h => hbp (hb.live.eq_of_index_eq hsp.live h)
  have hnd := hd.nodup_children p
  rw [hsp.children_eq] at hp
  rw [hsp.children_eq, hp] at hnd
  obtain ⟨-, hnd', hdisj⟩ := List.nodup_append.mp hnd
  have hab : a ≠ b := fun h => by simp [h] at hnd'
  have haL : a ∉ L := fun h => hdisj a h a List.mem_cons_self rfl
  have hfilter : sp.children.filter (· ≠ b) = L ++ a :: R := by
    have hbL : b ∉ L := fun h => hdisj b h b (by simp) rfl
    have hbR : b ∉ R := fun h => by simp [h] at hnd'
    have : ((L ++ [a]) ++ b :: R).filter (· ≠ b) = (L ++ [a]) ++ R :=
      filter_ne_append_cons (by simp [hbL, hab.symm]) hbR
    simpa [hp] using this
  have hposition : (d.detach b).position? a = some L.length := by
    have h := hd.detach b
    have hchildren := (h.holds_of hsp).children_eq
    have hparent := (h.holds_of hsa).parent?_eq
    simp only [unlinked, if_neg hab, haparent, hfilter] at hchildren hparent
    unfold position?
    simp only [hparent, Option.bind_eq_bind, Option.bind_some, hchildren]
    exact findIdx?_append_cons haL
  unfold Document.insertAfter
  rw [if_neg (by simp [hab, hb.live.contains]), hd.parent?_eq_some_iff.mpr ha]
  simp only [hposition, Option.map_some, Option.getD_some]
  rw [Document.detach, hd.parent?_eq_some_iff.mpr hb]
  refine update_four hsb hsp hne (fun _ => rfl) (fun _ => rfl) ?_ ?_
  · rw [← hbparent]
  · simp only [hfilter, insertIdx_append_cons, ← hp]

/-- The children of a node that go after the first of them are adopted where they stand. -/
theorem WellFormed.insertOwnedAfter_beside : ∀ {cs : List NodeId} {d : Document} {a : NodeId}
    {L : List NodeId}, d.WellFormed → d.children f = L ++ a :: cs →
      Document.insertOwnedAfter m d a cs = cs.foldl (adopt m) d
  | [], _, _, _, _, _ => rfl
  | c :: cs, d, a, L, hd, hf => by
    have hc : d.Under c f := hd.mem_children.mp (by simp [hf])
    obtain ⟨hwell, -, hchildren⟩ := hd.adopt_spec hc.live m
    rw [← hchildren] at hf
    rw [insertOwnedAfter_cons, hwell.insertAfter_beside hf, List.foldl_cons]
    exact insertOwnedAfter_beside (L := L ++ [a]) hwell (by simp [hf])

theorem contains_adopt : (adopt m d c).contains x = d.contains x := by
  unfold adopt
  split
  · exact contains_update fun _ => rfl
  · rfl

/-- After a removed marker nothing is moved, but what was to go there is adopted. -/
theorem WellFormed.insertOwnedAfter_of_stale (hd : d.WellFormed) (hm : d.contains m = false)
    (hf : d.children f = cs) : Document.insertOwnedAfter m d m cs = cs.foldl (adopt m) d := by
  cases cs with
  | nil => rfl
  | cons c cs =>
    have hc : d.Under c f := hd.mem_children.mp (by simp [hf])
    obtain ⟨hwell, -, hchildren⟩ := hd.adopt_spec hc.live m
    rw [insertOwnedAfter_cons, insertAfter_of_stale (contains_adopt.trans hm), List.foldl_cons]
    exact hwell.insertOwnedAfter_beside (L := []) ((hchildren f).trans hf)

theorem rewrites_adoptAll (m : NodeId) : ∀ {cs : List NodeId} {d : Document},
    (∀ c ∈ cs, d.Live c) →
      Rewrites (fun x s => if x ∈ cs then adopted m s else s) d (cs.foldl (adopt m) d)
  | [], d, _ => .of_eq_self fun x s _ => by simp
  | c :: cs, d, hcs => by
    have h := rewrites_adopt (hcs c List.mem_cons_self) m
    have hlive : ∀ b ∈ cs, (adopt m d c).Live b := fun b hb =>
      h.live_iff.mpr (hcs b (List.mem_cons_of_mem c hb))
    have hrest := rewrites_adoptAll m hlive
    refine (h.trans hrest).congr fun x s _ => ?_
    by_cases hx : x = c
    · subst hx
      simp only [List.mem_cons, true_or, if_true]
      split_ifs
      · simp [adopted]
      · rfl
    · simp only [List.mem_cons, hx, false_or, if_false]

theorem adoptAll_eq_self_iff (hcs : ∀ c ∈ cs, d.Live c) :
    cs.foldl (adopt m) d = d ↔ ¬ ∃ c ∈ cs, d.owner? c = none := by
  constructor
  · rintro heq ⟨c, hc, hnone⟩
    obtain ⟨s, hs⟩ := hcs c hc
    have hafter := (rewrites_adoptAll m hcs).holds_of hs
    rw [heq, if_pos hc] at hafter
    have howner := congrArg Slot.owner (hs.unique hafter)
    rw [hs.owner?_eq] at hnone
    simp [adopted, hnone] at howner
  · intro hall
    induction cs with
    | nil => rfl
    | cons c cs ih =>
      have hc : (d.owner? c).isNone = false := by
        rw [Option.isNone_eq_false_iff, Option.isSome_iff_ne_none]
        exact fun hnone => hall ⟨c, List.mem_cons_self, hnone⟩
      rw [List.foldl_cons, adopt, hc]
      refine ih (fun b hb => hcs b (List.mem_cons_of_mem c hb)) ?_
      rintro ⟨b, hb, hnone⟩
      exact hall ⟨b, List.mem_cons_of_mem c hb, hnone⟩

/-! ## Operations on stale handles -/

/-- New content is made even if the node that it is for is gone. -/
theorem WellFormed.graftAll_ne {ts : List Tree} (hd : d.WellFormed) (hp : d.Issued p) (hts : ts ≠ []) :
    d.graftAll p ts ≠ d := by
  cases ts with
  | nil => exact absurd rfl hts
  | cons t ts =>
    cases t with
    | node data below =>
      rw [Document.graftAll, graft]
      have hfresh := hd.create data
      obtain ⟨h0, hc⟩ := hfresh.append hd hp
      have h1 := WellFormed.graftAll below h0.wellFormed hc
      have h2 := WellFormed.graftAll ts h1.wellFormed ((hp.grown h0.grown).grown h1.grown)
      intro heq
      refine hfresh.new ?_
      have := (hc.grown h1.grown).grown h2.grown
      rwa [heq] at this

theorem releaseFragment_eq_self_iff (hd : d.WellFormed) (hf : d.Finds f) :
    d.releaseFragment f = d ↔ ¬ d.Vacant f := by
  unfold Vacant
  by_cases hempty : d.data f = .fragment ∧ d.children f = []
  · by_cases hthere : f ≠ root ∧ d.contains f = true
    · have hlive := hf hthere.2
      have hpruned := hd.pruned_releaseFragment hlive hthere.1 hempty.1 hempty.2
      simp only [hthere, hempty, ne_eq, not_false_eq_true, and_self, not_true, iff_false]
      intro heq
      obtain ⟨s, hs⟩ := hlive
      rw [heq] at hpruned
      exact ((hpruned.holds f s).mp hs).1 rfl
    · have hself : d.remove f = d := by
        unfold Document.remove
        rw [if_pos (by simpa [or_iff_not_imp_left] using hthere)]
      unfold releaseFragment
      rw [hself, ite_self]
      exact iff_of_true rfl fun h => hthere ⟨h.1, h.2.1⟩
  · unfold releaseFragment
    rw [if_neg (by simpa using hempty)]
    exact iff_of_true rfl fun h => hempty h.2.2

/-- What is to go after a removed marker is adopted, unless the fragment has nothing for it. -/
theorem insertOwned_eq_self_iff (hd : d.WellFormed) (hf : d.Finds f) (hm : d.contains m = false) :
    (d.insertOwned m f).2 = d ↔ ¬ ((∃ c ∈ d.children f, d.owner? c = none) ∨ d.Vacant f) := by
  have hlive : ∀ c ∈ d.children f, d.Live c := fun c hc => (hd.mem_children.mp hc).live
  simp only [insertOwned, hd.insertOwnedAfter_of_stale hm rfl, not_or]
  by_cases hempty : d.children f = []
  · simp [hempty, releaseFragment_eq_self_iff hd hf]
  · have hkept : ((d.children f).foldl (adopt m) d).children f = d.children f := by
      obtain ⟨c, hc⟩ := List.exists_mem_of_ne_nil _ hempty
      obtain ⟨s, hs⟩ := hd.closed_live.parent (hlive c hc) (hd.mem_children.mp hc)
      rw [((rewrites_adoptAll m hlive).holds_of hs).children_eq, hs.children_eq]
      split_ifs <;> rfl
    have hstays : ((d.children f).foldl (adopt m) d).releaseFragment f =
        (d.children f).foldl (adopt m) d := by
      rw [releaseFragment, hkept]
      simp [hempty]
    rw [hstays, adoptAll_eq_self_iff hlive]
    exact (and_iff_left fun hvacant => hempty hvacant.2.2.2).symm

/-- An operation that is applied to a stale handle leaves the document exactly as it is, but for new
content of a removed node, and content that is to go after or below one. -/
theorem apply_eq_self_iff_of_stale (hd : d.WellFormed) (hissued : ∀ h ∈ op.handles, d.Issued h)
    (hx : x ∈ op.handles) (hgone : d.contains x = false) : op.apply d = d ↔ ¬ op.Slips d x := by
  cases op with
  | create data => cases hx
  | createFragment html => cases hx
  | appendChild p c =>
    refine iff_of_true ?_ id
    rcases List.mem_pair.mp hx with rfl | rfl <;> simp [apply, Document.appendChild, hgone]
  | insertAfter r c =>
    refine iff_of_true ?_ id
    rcases List.mem_pair.mp hx with rfl | rfl
    · exact insertAfter_of_stale hgone c
    · simp [apply, Document.insertAfter, hgone]
  | detach c =>
    obtain rfl := List.mem_singleton.mp hx
    refine iff_of_true ?_ id
    rw [apply, Document.detach, parent?_of_stale hgone]
  | remove c =>
    obtain rfl := List.mem_singleton.mp hx
    exact iff_of_true (remove_of_stale hgone) id
  | removeChildren c =>
    obtain rfl := List.mem_singleton.mp hx
    exact iff_of_true (removeChildren_of_stale hgone) id
  | setInnerHtml c html =>
    obtain rfl := List.mem_singleton.mp hx
    rw [apply, Document.setInnerHtml, removeChildren_of_stale hgone, parseInto, Slips, not_not]
    refine ⟨fun h => ?_, fun h => by rw [h, Document.graftAll]⟩
    by_contra hts
    exact hd.graftAll_ne (hissued _ hx) hts h
  | setOwner c owner =>
    obtain rfl := List.mem_singleton.mp hx
    exact iff_of_true (update_of_stale hgone _) id
  | updateData c f =>
    obtain rfl := List.mem_singleton.mp hx
    exact iff_of_true (update_of_stale hgone _) id
  | clearOwned m =>
    obtain rfl := List.mem_singleton.mp hx
    exact iff_of_true (clearOwned_of_stale hgone) id
  | insertOwned m f =>
    have hf := (hissued f (List.mem_cons_of_mem m List.mem_cons_self)).finds
    by_cases hm : m = x
    · subst hm
      simp only [Slips, true_and]
      exact insertOwned_eq_self_iff hd hf hgone
    · obtain rfl := (List.mem_pair.mp hx).resolve_left (Ne.symm hm)
      refine iff_of_true ?_ fun h => hm h.1
      rw [apply, Document.insertOwned, children_of_stale hgone]
      exact releaseFragment_of_stale hgone
  | appendFragment p f =>
    have hf := (hissued f (List.mem_cons_of_mem p List.mem_cons_self)).finds
    rw [apply, Document.appendFragment]
    by_cases hp : p = x
    · subst hp
      rw [appendAll_of_stale hgone, releaseFragment_eq_self_iff hd hf]
      simp [Slips]
    · obtain rfl := (List.mem_pair.mp hx).resolve_left (Ne.symm hp)
      refine iff_of_true ?_ fun h => hp h.1
      rw [children_of_stale hgone]
      exact releaseFragment_of_stale hgone

/-- The first node of a document is removed. -/
def removal : List Operation :=
  [.remove ⟨1, 0⟩]

theorem apply_eq_self_iff_of_stale_removal :
    AllLegal (parse "<p></p>".toList) removal ∧
      (run (parse "<p></p>".toList) removal).contains ⟨1, 0⟩ = false ∧
      (Operation.setInnerHtml ⟨1, 0⟩ "x".toList).apply (run (parse "<p></p>".toList) removal) ≠
        run (parse "<p></p>".toList) removal ∧
      (Operation.appendChild ⟨1, 0⟩ root).apply (run (parse "<p></p>".toList) removal) =
        run (parse "<p></p>".toList) removal := by
  have hlegal : AllLegal (parse "<p></p>".toList) removal :=
    (areLegal_iff (wellFormed_parse _)).mp (by decide +kernel)
  have hd := (wellFormed_run _ _ hlegal).1
  have hgone : (run (parse "<p></p>".toList) removal).contains ⟨1, 0⟩ = false := by decide +kernel
  have hp : (run (parse "<p></p>".toList) removal).Issued ⟨1, 0⟩ :=
    issued_iff.mpr ⟨by decide +kernel, fun h => Bool.false_ne_true (hgone.symm.trans h.1)⟩
  have hroot := hd.rooted.choose_spec.1.live.issued
  refine ⟨hlegal, hgone, ?_, ?_⟩
  · rw [ne_eq, apply_eq_self_iff_of_stale hd (by simpa [handles] using hp) List.mem_cons_self hgone,
      not_not]
    show Tree.parse "x".toList ≠ []
    decide +kernel
  · exact (apply_eq_self_iff_of_stale hd (by simpa [handles] using ⟨hp, hroot⟩) List.mem_cons_self
      hgone).mpr id

/-- Writes through handles of removed nodes are not all ignored: the new content of a removed paragraph
is made, and belongs to nothing. -/
theorem setInnerHtml_of_removed : ¬ ∀ (html : List Char) (ops : List Operation) (op : Operation)
    (x : NodeId), AllLegal (parse html) (ops ++ [op]) → x ∈ freedBy (parse html) ops →
      x ∈ op.handles → op.apply (run (parse html) ops) = run (parse html) ops := by
  intro h
  have hlegal : AllLegal (parse "<p></p>".toList) (removal ++ [.setInnerHtml ⟨1, 0⟩ "x".toList]) :=
    (areLegal_iff (wellFormed_parse _)).mp (by decide +kernel)
  have heq := h "<p></p>".toList removal _ ⟨1, 0⟩ hlegal (by decide +kernel) List.mem_cons_self
  have hlive := congrArg liveNodes heq
  revert hlive
  decide +kernel

end LiveMarkup.Document
