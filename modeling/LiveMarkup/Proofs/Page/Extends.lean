import Mathlib
import LiveMarkup.Page.View

/-!
# Records grow

Placing content adds records of markers, and never changes one that is there (`extends_body`).  The
content of a loop at an item is placed once, and is the same from then on (`Extends.body_eq`).
-/

namespace LiveMarkup

section

variable {σ : Type} {f : NodeData → σ → NodeData × σ} {r : σ → σ → Prop} (hrefl : ∀ s, r s s)
  (htrans : ∀ a b c, r a b → r b c → r a c) (hf : ∀ data s, r s (f data s).2)
include hrefl htrans hf

/-- What every visit of a node does to a state, a visit of trees does. -/
theorem Tree.visitAll_rel : ∀ (ts : List Tree) (s : σ), r s (Tree.visitAll f ts s).2
  | [], s => by
    rw [Tree.visitAll]
    exact hrefl s
  | .node data ts :: rest, s => by
    rw [Tree.visitAll, Tree.visit]
    exact htrans _ _ _ (htrans _ _ _ (hf data s) (visitAll_rel ts _)) (visitAll_rel rest _)

end

namespace Records

/-- The records of some names are kept, and the contents placed so far; others may have been added. -/
structure Extends (r r' : Records) : Prop where
  group : ∀ name g, r.group? name = some g → r'.group? name = some g
  loop : ∀ name l, r.loop? name = some l → r'.loop? name = some l
  bodies : ∀ place html, r.bodies.lookup place = some html → r'.bodies.lookup place = some html

variable {r r' r'' : Records} {rename : Renaming} {p : Placement}

theorem Extends.refl (r : Records) : Extends r r := ⟨fun _ _ => id, fun _ _ => id, fun _ _ => id⟩

theorem Extends.trans (h : Extends r r') (h' : Extends r' r'') : Extends r r'' :=
  ⟨fun name g hg => h'.group name g (h.group name g hg),
    fun name l hl => h'.loop name l (h.loop name l hl),
    fun place html hp => h'.bodies place html (h.bodies place html hp)⟩

/-- A record is added under a name that had none at first. -/
theorem Extends.addGroup (h : Extends r r') {g : ConditionGroup} (hnone : r.group? g.name = none) :
    Extends r (r'.addGroup g) := by
  refine ⟨fun name g' hg' => ?_, fun name l hl => h.loop name l hl, h.bodies⟩
  have hne : name ≠ g.name := by
    rintro rfl
    rw [hnone] at hg'
    cases hg'
  rw [group?, Records.addGroup, lookup_insertByKey, if_neg hne]
  exact h.group name g' hg'

theorem Extends.addLoop (h : Extends r r') {l : LoopDefinition} (hnone : r.loop? l.name = none) :
    Extends r (r'.addLoop l) := by
  refine ⟨fun name g hg => h.group name g hg, fun name l' hl' => ?_, h.bodies⟩
  have hne : name ≠ l.name := by
    rintro rfl
    rw [hnone] at hl'
    cases hl'
  rw [loop?, Records.addLoop, lookup_insertByKey, if_neg hne]
  exact h.loop name l' hl'

section

variable (hrename : ∀ p m r, Extends r (rename p m r).2)
include hrename

theorem extends_placeNode (p : Placement) (data : NodeData) (r : Records) :
    Extends r (placeNode rename p data r).2 := by
  unfold placeNode
  split
  · exact .refl r
  · rename_i s
    rcases Marker.ofComment? s with _ | m
    · exact .refl r
    · exact hrename p m r
  · exact .refl r

theorem extends_placeMarkup (p : Placement) (html : List Char) (r : Records) :
    Extends r (placeMarkup rename p html r).2 :=
  Tree.visitAll_rel Extends.refl (fun _ _ _ => Extends.trans)
    (extends_placeNode hrename p) (Tree.parse html) r

theorem extends_placeBlocks (p : Placement) : ∀ (bs : List Block) (r : Records),
    Extends r (placeBlocks rename p bs r).2
  | [], r => .refl r
  | b :: bs, r => by
    rw [placeBlocks]
    exact (extends_placeMarkup hrename p _ r).trans (extends_placeBlocks p bs _)

end

theorem extends_placeMarker : ∀ (fuel : Nat) (p : Placement) (m : Marker) (r : Records),
    Extends r (placeMarker fuel p m r).2
  | 0, p, m, r => .refl r
  | fuel + 1, p, m, r => by
    rw [placeMarker]
    rcases m.kind
    · simp only
      split
      · exact .refl r
      · rename_i hnone
        rcases r.group? m.name with _ | g
        · exact .refl r
        · refine (extends_placeBlocks (extends_placeMarker fuel) p g.blocks r).addGroup ?_
          simpa using hnone
    · simp only
      split
      · exact .refl r
      · rename_i hnone
        rcases r.loop? m.name with _ | l
        · exact .refl r
        · dsimp only
          rcases p.inside? l with _ | q
          · refine (Extends.refl r).addLoop ?_
            simpa using hnone
          · refine (extends_placeMarkup (extends_placeMarker fuel) q l.content.toList r).addLoop ?_
            simpa using hnone

theorem extends_body (depth : Nat) (r : Records) (l : LoopDefinition) (i : Nat) :
    Extends r (r.body depth l i).2 := by
  unfold body
  simp only
  split
  · exact .refl r
  · rename_i hnone
    have h := extends_placeMarkup (extends_placeMarker (r.size + depth)) (.ofLoop l i) l.content.toList r
    generalize placeMarkup (placeMarker (r.size + depth)) (.ofLoop l i) l.content.toList r = placed at h
    refine ⟨h.group, h.loop, fun place html hplace => ?_⟩
    have hne : place ≠ (Placement.ofLoop l i).place := by
      rintro rfl
      rw [hnone] at hplace
      cases hplace
    rw [lookup_insertByKey, if_neg hne]
    exact h.bodies place html hplace

theorem lookup_body (depth : Nat) (r : Records) (l : LoopDefinition) (i : Nat) :
    (r.body depth l i).2.bodies.lookup (Placement.ofLoop l i).place = some (r.body depth l i).1 := by
  unfold body
  simp only
  split
  · assumption
  · rw [lookup_insertByKey, if_pos rfl]

/-- Content that was placed is not placed again. -/
theorem body_of_lookup {html : List Char} {l : LoopDefinition} {i : Nat}
    (h : r.bodies.lookup (Placement.ofLoop l i).place = some html) (depth : Nat) :
    r.body depth l i = (html, r) := by
  rw [body]
  simp only [h]

theorem Extends.body_eq {depth : Nat} {l : LoopDefinition} {i : Nat}
    (h : Extends (r.body depth l i).2 r') : (r'.body depth l i).1 = (r.body depth l i).1 := by
  rw [body_of_lookup (h.bodies _ _ (r.lookup_body depth l i))]

end Records

end LiveMarkup
