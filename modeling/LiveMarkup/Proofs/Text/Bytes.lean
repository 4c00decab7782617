import Mathlib.Data.List.Infix
import LiveMarkup.Text.Scan

/-!
# Texts as bytes

A text is held in UTF-8.  A character below 128 is one byte with its number
(`utf8EncodeChar_ascii`), and all bytes of another one are at least 128
(`le_of_mem_utf8EncodeChar`), so a byte below 128 is a character wherever it stands
(`exists_of_getElem?_utf8`).
-/

namespace LiveMarkup

open Text

variable {cs : List Char} {c d : Char} {n : Nat}

/-- The bytes of a text. -/
def utf8 (cs : List Char) : List UInt8 :=
  cs.flatMap String.utf8EncodeChar

/-- A character starts at a byte, or the text ends there. -/
def IsBoundary (cs : List Char) (n : Nat) : Prop :=
  n = (utf8 cs).length ∨ ∃ x, (utf8 cs)[n]? = some x ∧ x.IsUTF8FirstByte

@[simp] theorem utf8_nil : utf8 [] = [] :=
  rfl

@[simp] theorem utf8_cons (c : Char) (cs : List Char) :
    utf8 (c :: cs) = String.utf8EncodeChar c ++ utf8 cs :=
  rfl

@[simp] theorem utf8_append (a b : List Char) : utf8 (a ++ b) = utf8 a ++ utf8 b :=
  List.flatMap_append

theorem length_utf8 (cs : List Char) : (utf8 cs).length = byteLength cs := by
  induction cs with
  | nil => rfl
  | cons c cs ih => rw [utf8_cons, List.length_append, String.length_utf8EncodeChar, ih, byteLength]

theorem byteLength_pos (h : cs ≠ []) : 0 < byteLength cs := by
  obtain ⟨c, cs, rfl⟩ := List.exists_cons_of_ne_nil h
  have := c.utf8Size_pos
  rw [byteLength]
  omega

/-- A text is split where its beginning has a given number of bytes. -/
theorem splitAtByte?_eq_some_iff {a b : List Char} :
    splitAtByte? n cs = some (a, b) ↔ cs = a ++ b ∧ byteLength a = n := by
  fun_induction splitAtByte? n cs generalizing a with
  | case1 cs =>
    have hzero : byteLength a = 0 ↔ a = [] := by
      refine ⟨fun h => by_contra fun hne => Nat.ne_of_gt (byteLength_pos hne) h, ?_⟩
      rintro rfl
      rfl
    rw [hzero, Option.some.injEq, Prod.mk.injEq]
    constructor
    · rintro ⟨rfl, rfl⟩
      exact ⟨rfl, rfl⟩
    · rintro ⟨rfl, rfl⟩
      exact ⟨rfl, rfl⟩
  | case2 n =>
    simp only [reduceCtorEq, false_iff, not_and]
    intro h
    obtain ⟨rfl, -⟩ := List.append_eq_nil_iff.mp h.symm
    exact Nat.ne_of_lt n.succ_pos
  | case3 n c cs hle ih =>
    rw [Option.map_eq_some_iff]
    constructor
    · rintro ⟨⟨a, b'⟩, h, he⟩
      cases he
      obtain ⟨rfl, hlen⟩ := ih.mp h
      exact ⟨rfl, by rw [byteLength, hlen]; omega⟩
    · rintro ⟨h, hlen⟩
      rcases a with _ | ⟨c', a⟩
      · exact absurd hlen (Nat.ne_of_lt n.succ_pos)
      · obtain ⟨rfl, rfl⟩ := List.cons.inj h
        rw [byteLength] at hlen
        exact ⟨(a, b), ih.mpr ⟨rfl, by omega⟩, rfl⟩
  | case4 n c cs hle =>
    simp only [reduceCtorEq, false_iff, not_and]
    rintro h hlen
    rcases a with _ | ⟨c', a⟩
    · exact absurd hlen (Nat.ne_of_lt n.succ_pos)
    · obtain ⟨rfl, -⟩ := List.cons.inj h
      rw [byteLength] at hlen
      omega

/-! ## Characters of one byte -/

theorem utf8EncodeChar_ascii (hc : c.toNat < 128) : String.utf8EncodeChar c = [c.toUInt8] := by
  have hc : c.val.toNat ≤ 127 := Nat.le_of_lt_succ hc
  simp only [String.utf8EncodeChar, if_pos hc]
  rfl

theorem le_of_mem_utf8EncodeChar (hc : ¬ c.toNat < 128) {x : UInt8}
    (hx : x ∈ String.utf8EncodeChar c) : 128 ≤ x.toNat := by
  have hc : ¬ c.val.toNat ≤ 127 := fun h => hc (Nat.lt_succ_of_le h)
  simp only [String.utf8EncodeChar, if_neg hc] at hx
  split_ifs at hx <;> simp only [List.mem_cons, List.not_mem_nil, or_false] at hx
  · rcases hx with rfl | rfl <;> simp <;> omega
  · rcases hx with rfl | rfl | rfl <;> simp <;> omega
  · rcases hx with rfl | rfl | rfl | rfl <;> simp <;> omega

theorem toNat_toUInt8_ascii (hc : c.toNat < 128) : c.toUInt8.toNat = c.toNat :=
  Nat.mod_eq_of_lt (Nat.lt_trans hc (by decide))

theorem toUInt8_inj (hc : c.toNat < 128) (hd : d.toNat < 128) : c.toUInt8 = d.toUInt8 ↔ c = d := by
  refine ⟨fun h => ?_, congrArg Char.toUInt8⟩
  have h := congrArg UInt8.toNat h
  rw [toNat_toUInt8_ascii hc, toNat_toUInt8_ascii hd] at h
  exact Char.toNat_inj.mp h

/-- A text may be cut where a character starts. -/
theorem isBoundary_append (a b : List Char) : IsBoundary (a ++ b) (byteLength a) := by
  rcases b with _ | ⟨c, b⟩
  · exact .inl (by rw [List.append_nil, length_utf8])
  · have hpos : 0 < (String.utf8EncodeChar c).length := by
      rw [String.length_utf8EncodeChar]
      exact c.utf8Size_pos
    refine .inr ⟨(String.utf8EncodeChar c)[0], ?_, UInt8.isUTF8FirstByte_getElem_zero_utf8EncodeChar⟩
    rw [utf8_append, ← length_utf8, List.getElem?_append_right (Nat.le_refl _), Nat.sub_self,
      utf8_cons, List.getElem?_append_left hpos, List.getElem?_eq_getElem hpos]

/-- A byte below 128 is a character. -/
theorem exists_of_getElem?_utf8 (hc : c.toNat < 128) (h : (utf8 cs)[n]? = some c.toUInt8) :
    ∃ a b, cs = a ++ c :: b ∧ byteLength a = n := by
  induction cs generalizing n with
  | nil => cases h
  | cons d cs ih =>
    by_cases hn : n < (String.utf8EncodeChar d).length
    · rw [utf8_cons, List.getElem?_append_left hn] at h
      by_cases hd : d.toNat < 128
      · rw [utf8EncodeChar_ascii hd] at h hn
        obtain rfl : n = 0 := Nat.lt_one_iff.mp hn
        obtain rfl : d = c := (toUInt8_inj hd hc).mp (Option.some.inj h)
        exact ⟨[], cs, rfl, rfl⟩
      · have hle := le_of_mem_utf8EncodeChar hd (List.mem_of_getElem? h)
        rw [toNat_toUInt8_ascii hc] at hle
        omega
    · rw [utf8_cons, List.getElem?_append_right (Nat.le_of_not_lt hn)] at h
      obtain ⟨a, b, rfl, hlen⟩ := ih h
      refine ⟨d :: a, b, rfl, ?_⟩
      rw [String.length_utf8EncodeChar] at hn hlen
      rw [byteLength]
      omega

end LiveMarkup
