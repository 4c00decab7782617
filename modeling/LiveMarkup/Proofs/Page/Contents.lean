import LiveMarkup.Proofs.Page.Extends

/-!
# Contents of records

Contents, loops and placements may be of kinds such that whatever is placed is of its kind again
(`Kinds.Closed`).  If all that some records hold is of such kinds, then all that the records come to
give is (`Records.Within.body`).
-/

namespace LiveMarkup

/-- Kinds of contents, loops and placements. -/
structure Kinds where
  content : List Char → Prop
  loop : LoopDefinition → Prop
  place : Placement → Prop

/-- What comes of placing things of a kind is of the kind. -/
structure Kinds.Closed (K : Kinds) : Prop where
  content : ∀ {l : LoopDefinition}, K.loop l → K.content l.content.toList
  item : ∀ {l : LoopDefinition} (i : Nat), K.loop l → K.place (.ofLoop l i)
  inside : ∀ {p q : Placement} {l : LoopDefinition}, K.place p → K.loop l → p.inside? l = some q →
    K.place q
  markup : ∀ (fuel : Nat) {p : Placement} {html : List Char} (r : Records), K.place p →
    K.content html → K.content (Records.placeMarkup (Records.placeMarker fuel) p html r).1
  loop : ∀ {p : Placement} {l : LoopDefinition} {html : List Char}, K.place p → K.loop l →
    K.content html → K.loop
      { l with
        name := p.nameAt l.name
        array := p.expression l.array
        content := String.ofList html }

namespace Records

/-- All that records hold is of its kind, and loops are held by their names. -/
structure Within (K : Kinds) (r : Records) : Prop where
  blocks : ∀ name g, r.group? name = some g → ∀ b ∈ g.blocks, K.content b.content.toList
  loops : ∀ name l, r.loop? name = some l → K.loop l ∧ l.name = name
  bodies : ∀ place html, r.bodies.lookup place = some html → K.content html

namespace Within

variable {K : Kinds} {r : Records} {rename : Renaming} {p : Placement}

theorem addGroup (h : Within K r) {g : ConditionGroup}
    (hg : ∀ b ∈ g.blocks, K.content b.content.toList) : Within K (r.addGroup g) where
  blocks name g' hg' := by
    rw [group?, Records.addGroup, lookup_insertByKey] at hg'
    split at hg'
    · obtain rfl := Option.some.inj hg'
      exact hg
    · exact h.blocks name g' hg'
  loops := h.loops
  bodies := h.bodies

theorem addLoop (h : Within K r) {l : LoopDefinition} (hl : K.loop l) : Within K (r.addLoop l) where
  blocks := h.blocks
  loops name l' hl' := by
    rw [loop?, Records.addLoop, lookup_insertByKey] at hl'
    split at hl'
    · rename_i hname
      obtain rfl := Option.some.inj hl'
      exact ⟨hl, hname.symm⟩
    · exact h.loops name l' hl'
  bodies := h.bodies

section

variable (hrename : ∀ m r, Within K r → Within K (rename p m r).2)
include hrename

theorem placeNode (data : NodeData) (h : Within K r) : Within K (placeNode rename p data r).2 := by
  unfold Records.placeNode
  split
  · exact h
  · rename_i s
    rcases Marker.ofComment? s with _ | m
    · exact h
    · exact hrename m r h
  · exact h

theorem placeMarkup (html : List Char) (h : Within K r) : Within K (placeMarkup rename p html r).2 :=
  Tree.visitAll_rel (r := fun r r' => Within K r → Within K r') (fun _ => id)
    (fun _ _ _ h h' => h' ∘ h) (fun data _ => placeNode hrename data) (Tree.parse html) r h

theorem placeBlocks
    (hplaced : ∀ html r, K.content html → K.content (Records.placeMarkup rename p html r).1) :
    ∀ {bs : List Block} {r : Records}, Within K r → (∀ b ∈ bs, K.content b.content.toList) →
      (∀ b ∈ (placeBlocks rename p bs r).1, K.content b.content.toList) ∧
        Within K (placeBlocks rename p bs r).2
  | [], _, h, _ => ⟨fun _ hb => absurd hb List.not_mem_nil, h⟩
  | b :: bs, r, h, hbs => by
    rw [List.forall_mem_cons] at hbs
    have hb := hplaced b.content.toList r hbs.1
    obtain ⟨hrest, h'⟩ := placeBlocks hplaced (placeMarkup hrename b.content.toList h) hbs.2
    rw [Records.placeBlocks]
    refine ⟨List.forall_mem_cons.mpr ⟨?_, hrest⟩, h'⟩
    rwa [String.toList_ofList]

end

theorem placeMarker (hK : K.Closed) : ∀ (fuel : Nat) {p : Placement} (_ : K.place p) (m : Marker)
    (r : Records), Within K r → Within K (placeMarker fuel p m r).2
  | 0, _, _, _, _, h => h
  | fuel + 1, p, hp, m, r, h => by
    have ih := fun {q} (hq : K.place q) => placeMarker hK fuel hq
    rw [Records.placeMarker]
    rcases m.kind
    · simp only
      split
      · exact h
      · rcases hg : r.group? m.name with _ | g
        · exact h
        · obtain ⟨hblocks, h'⟩ := placeBlocks (ih hp) (fun _ r => hK.markup fuel r hp) h
            (h.blocks m.name g hg)
          exact h'.addGroup hblocks
    · simp only
      split
      · exact h
      · rcases hl : r.loop? m.name with _ | l
        · exact h
        · obtain ⟨hloop, hname⟩ := h.loops m.name l hl
          rw [← hname]
          dsimp only
          rcases hinside : p.inside? l with _ | q
          · exact h.addLoop (hK.loop hp hloop (hK.content hloop))
          · have hq := hK.inside hp hloop hinside
            exact (placeMarkup (ih hq) l.content.toList h).addLoop
              (hK.loop hp hloop (hK.markup fuel r hq (hK.content hloop)))

/-- The content of a loop at an item is of its kind, and so is all that is recorded for it. -/
theorem body (hK : K.Closed) (h : Within K r) (depth : Nat) {l : LoopDefinition} (hl : K.loop l)
    (i : Nat) : K.content (r.body depth l i).1 ∧ Within K (r.body depth l i).2 := by
  unfold Records.body
  simp only
  split
  · rename_i html hhtml
    exact ⟨h.bodies _ html hhtml, h⟩
  · have hp := hK.item i hl
    have hplaced := hK.markup (r.size + depth) r hp (hK.content hl)
    have h' := placeMarkup (placeMarker hK (r.size + depth) hp) l.content.toList h
    generalize Records.placeMarkup (Records.placeMarker (r.size + depth)) (.ofLoop l i) l.content.toList r =
      placed at hplaced h'
    refine ⟨hplaced, h'.blocks, h'.loops, fun place html hhtml => ?_⟩
    rw [lookup_insertByKey] at hhtml
    split at hhtml
    · obtain rfl := Option.some.inj hhtml
      exact hplaced
    · exact h'.bodies place html hhtml

/-- The records of a template hold its groups and loops. -/
theorem ofTemplate {t : Template}
    (hblocks : ∀ g ∈ t.conditions, ∀ b ∈ g.blocks, K.content b.content.toList)
    (hloops : ∀ l ∈ t.loops, K.loop l) : Within K (ofTemplate t) := by
  have hempty : Within K {} := by
    constructor <;> intro _ _ h <;> cases h
  have hgroups : Within K (t.conditions.foldl Records.addGroup {}) :=
    List.foldlRecOn _ _ hempty fun _ h g hg => h.addGroup (hblocks g hg)
  exact List.foldlRecOn _ _ hgroups fun _ h l hl => h.addLoop (hloops l hl)

end Within

end Records

end LiveMarkup
