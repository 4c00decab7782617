import Mathlib
import LiveMarkup.Proofs.Template.BraceGroups
import LiveMarkup.Proofs.Template.Rewriting

/-!
# Counting braces byte by byte

The end of a group can be found without looking at characters: a counter of open braces runs over
the bytes, and a group ends where the counter comes back to zero for the first time (`FirstZero`).
All marks of the scan are single bytes, and the bytes of other characters move neither the counter
nor the quote (`ByteScan.run_of_le`), also where a backslash takes along only the first of them.
So the counter follows the scan (`ByteScan.follows_scanGroup`), it is never negative before the end,
and the end is where a character starts (`braceGroupEnd?_iff_groupAt`).
-/

namespace LiveMarkup

open Text

variable {c q : Char} {cs a b source : List Char} {bs p : List UInt8} {d : Int}
  {depth start n : Nat}

/-! ## The counter -/

/-- Where the scan over the bytes of a group is. -/
structure ByteScan where
  /-- The braces that are open. -/
  depth : Int := 0
  /-- The quote of the string that is open. -/
  quote : Option UInt8 := none
  /-- Whether the next byte belongs to a backslash in a string. -/
  escaped : Bool := false
  deriving DecidableEq

namespace ByteScan

/-- One byte more. -/
def step (s : ByteScan) (x : UInt8) : ByteScan :=
  if s.escaped then { s with escaped := false }
  else
    match s.quote with
    | some q =>
      if x = '\\'.toUInt8 then { s with escaped := true }
      else if x = q then { s with quote := none }
      else s
    | none =>
      if x = '"'.toUInt8 ∨ x = '\''.toUInt8 ∨ x = '\x60'.toUInt8 then { s with quote := some x }
      else if x = '\x7b'.toUInt8 then { s with depth := s.depth + 1 }
      else if x = '\x7d'.toUInt8 then { s with depth := s.depth - 1 }
      else s

/-- A number of bytes more. -/
def run (s : ByteScan) (bs : List UInt8) : ByteScan :=
  bs.foldl step s

/-- Braces stay open at every byte. -/
def StaysOpen (s : ByteScan) (bs : List UInt8) : Prop :=
  ∀ p, p <+: bs → 0 < (s.run p).depth

/-- The last byte closes the last brace that is open, and no byte before it does. -/
def ClosesAtEnd (s : ByteScan) (bs : List UInt8) : Prop :=
  (s.run bs).depth = 0 ∧ ∀ p, p <+: bs → p ≠ bs → 0 < (s.run p).depth

end ByteScan

/-- The braces that are open after the bytes from `start` up to `stop`. -/
def braceDepthAt (source : List Char) (start stop : Nat) : Int :=
  (({} : ByteScan).run (((utf8 source).drop start).take (stop - start))).depth

/-- The first byte position after `start` at which no brace is open. -/
structure FirstZero (source : List Char) (start stop : Nat) : Prop where
  lt : start < stop
  le : stop ≤ byteLength source
  zero : braceDepthAt source start stop = 0
  pos : ∀ n, start < n → n < stop → 0 < braceDepthAt source start n

namespace ByteScan

variable {s : ByteScan}

theorem run_append (s : ByteScan) (a b : List UInt8) : s.run (a ++ b) = (s.run a).run b :=
  List.foldl_append

/-! ## One character -/

/-- Bytes of characters that have more than one are no marks. -/
theorem step_of_le {x : UInt8} (hx : 128 ≤ x.toNat) (hq : ∀ q ∈ s.quote, q.toNat < 128) :
    s.step x = { s with escaped := false } := by
  have hne : ∀ y : UInt8, y.toNat < 128 → x ≠ y := fun y hy h => by
    rw [h] at hx
    omega
  obtain ⟨depth, quote, escaped⟩ := s
  cases escaped
  · cases quote with
    | none =>
      rw [step, if_neg Bool.false_ne_true]
      dsimp only
      rw [if_neg, if_neg (hne _ (by decide)), if_neg (hne _ (by decide))]
      exact not_or.mpr ⟨hne _ (by decide), not_or.mpr ⟨hne _ (by decide), hne _ (by decide)⟩⟩
    | some q =>
      rw [step, if_neg Bool.false_ne_true]
      dsimp only
      rw [if_neg (hne _ (by decide)), if_neg (hne _ (hq q rfl))]
  · rfl

theorem run_of_le (hbs : ∀ x ∈ bs, 128 ≤ x.toNat) (hq : ∀ q ∈ s.quote, q.toNat < 128)
    (hne : bs ≠ []) : s.run bs = { s with escaped := false } := by
  induction bs generalizing s with
  | nil => exact absurd rfl hne
  | cons x bs ih =>
    obtain ⟨hx, hbs⟩ := List.forall_mem_cons.mp hbs
    show (s.step x).run bs = _
    rw [step_of_le hx hq]
    rcases eq_or_ne bs [] with rfl | hne
    · rfl
    · exact ih (s := { s with escaped := false }) hbs hq hne

theorem run_char_of_le (hc : ¬ c.toNat < 128) (hq : ∀ q ∈ s.quote, q.toNat < 128) :
    s.run (String.utf8EncodeChar c) = { s with escaped := false } :=
  run_of_le (fun _ => le_of_mem_utf8EncodeChar hc) hq (String.utf8EncodeChar_ne_nil)

theorem run_char_ascii (hc : c.toNat < 128) :
    s.run (String.utf8EncodeChar c) = s.step c.toUInt8 := by
  rw [utf8EncodeChar_ascii hc]
  rfl

/-- The character that a backslash takes along. -/
theorem run_char_escaped (hs : s.escaped = true) (hq : ∀ q ∈ s.quote, q.toNat < 128) :
    s.run (String.utf8EncodeChar c) = { s with escaped := false } := by
  by_cases hc : c.toNat < 128
  · rw [run_char_ascii hc, step, if_pos hs]
  · exact run_char_of_le hc hq

theorem toNat_of_isGroupQuote (hq : isGroupQuote q = true) : q.toNat < 128 := by
  rcases isGroupQuote_cases hq with rfl | rfl | rfl <;> decide

theorem run_char_quote (hq : isGroupQuote q = true) :
    run ⟨d, some q.toUInt8, false⟩ (String.utf8EncodeChar c) =
      if c = '\\' then ⟨d, some q.toUInt8, true⟩
      else ⟨d, if c = q then none else some q.toUInt8, false⟩ := by
  have hq := toNat_of_isGroupQuote hq
  by_cases hc : c.toNat < 128
  · rw [run_char_ascii hc, step, if_neg Bool.false_ne_true]
    simp only [toUInt8_inj hc hq, toUInt8_inj hc (show '\\'.toNat < 128 by decide)]
    split_ifs <;> rfl
  · have hne : ∀ m : Char, m.toNat < 128 → c ≠ m := fun m hm h => hc (h ▸ hm)
    rw [run_char_of_le hc, if_neg (hne _ (by decide)), if_neg (hne q hq)]
    simpa [toNat_toUInt8_ascii hq] using hq

theorem run_char_none :
    run ⟨d, none, false⟩ (String.utf8EncodeChar c) =
      if c = '\x7d' then ⟨d - 1, none, false⟩
      else if c = '\x7b' then ⟨d + 1, none, false⟩
      else ⟨d, if isGroupQuote c then some c.toUInt8 else none, false⟩ := by
  by_cases hc : c.toNat < 128
  · rw [run_char_ascii hc, step, if_neg Bool.false_ne_true]
    have hinj : ∀ m : Char, m.toNat < 128 → (c.toUInt8 = m.toUInt8 ↔ c = m) :=
      fun m => toUInt8_inj hc
    simp only [hinj '"' (by decide), hinj '\'' (by decide), hinj '\x60' (by decide),
      hinj '\x7b' (by decide), hinj '\x7d' (by decide)]
    by_cases hquote : isGroupQuote c = true
    · have hmarks := isGroupQuote_cases hquote
      have hne : c ≠ '\x7d' ∧ c ≠ '\x7b' := by
        rcases hmarks with rfl | rfl | rfl <;> decide
      rw [if_pos hmarks, if_neg hne.1, if_neg hne.2, if_pos hquote]
    · have hmarks : ¬ (c = '"' ∨ c = '\'' ∨ c = '\x60') := by
        simpa [isGroupQuote, or_assoc] using hquote
      rw [if_neg hmarks, if_neg hquote]
      split_ifs with hopen hclose
      · rw [hopen] at hclose
        cases hclose
      · rfl
      · rfl
      · rfl
  · have hne : ∀ m : Char, m.toNat < 128 → c ≠ m := fun m hm h => hc (h ▸ hm)
    have hquote : isGroupQuote c = false := by
      rw [← Bool.not_eq_true]
      exact fun h => hc (toNat_of_isGroupQuote h)
    rw [run_char_of_le hc (by simp), if_neg (hne _ (by decide)), if_neg (hne _ (by decide)), hquote]
    rfl

theorem depth_of_prefix_char (hq : ∀ q ∈ s.quote, q.toNat < 128)
    (hp : p <+: String.utf8EncodeChar c) (hne : p ≠ String.utf8EncodeChar c) :
    (s.run p).depth = s.depth := by
  rcases eq_or_ne p [] with rfl | hp0
  · rfl
  by_cases hc : c.toNat < 128
  · rw [utf8EncodeChar_ascii hc] at hp hne
    rcases List.prefix_cons_iff.mp hp with rfl | ⟨r, rfl, hr⟩
    · exact absurd rfl hp0
    · exact absurd (List.prefix_nil.mp hr ▸ rfl) hne
  · rw [run_of_le (fun x hx => le_of_mem_utf8EncodeChar hc (hp.subset hx)) hq hp0]

/-! ## A text -/

theorem StaysOpen.nil (hd : 0 < s.depth) : s.StaysOpen [] := fun p hp => by
  obtain rfl := List.prefix_nil.mp hp
  exact hd

/-- A beginning of a character and bytes after it ends in the character or after it. -/
theorem prefix_char_cases (hp : p <+: String.utf8EncodeChar c ++ bs) :
    p <+: String.utf8EncodeChar c ∧ p ≠ String.utf8EncodeChar c ∨
      ∃ r, p = String.utf8EncodeChar c ++ r ∧ r <+: bs := by
  obtain ⟨u, hu⟩ := hp
  rcases List.append_eq_append_iff.mp hu with ⟨x, hx, rfl⟩ | ⟨r, rfl, hr⟩
  · rcases eq_or_ne p (String.utf8EncodeChar c) with rfl | hne
    · exact .inr ⟨[], by simp, List.nil_prefix⟩
    · exact .inl ⟨⟨x, hx.symm⟩, hne⟩
  · exact .inr ⟨r, rfl, ⟨u, hr.symm⟩⟩

theorem StaysOpen.char (hq : ∀ q ∈ s.quote, q.toNat < 128) (hd : 0 < s.depth)
    (h : (s.run (String.utf8EncodeChar c)).StaysOpen bs) :
    s.StaysOpen (String.utf8EncodeChar c ++ bs) := by
  intro p hp
  rcases prefix_char_cases hp with ⟨hp, hne⟩ | ⟨r, rfl, hr⟩
  · rwa [depth_of_prefix_char hq hp hne]
  · rw [run_append]
    exact h r hr

theorem ClosesAtEnd.char (hq : ∀ q ∈ s.quote, q.toNat < 128) (hd : 0 < s.depth)
    (h : (s.run (String.utf8EncodeChar c)).ClosesAtEnd bs) :
    s.ClosesAtEnd (String.utf8EncodeChar c ++ bs) := by
  refine ⟨by rw [run_append]; exact h.1, fun p hp hnot => ?_⟩
  rcases prefix_char_cases hp with ⟨hp, hne⟩ | ⟨r, rfl, hr⟩
  · rwa [depth_of_prefix_char hq hp hne]
  · rw [run_append]
    exact h.2 r hr fun h => hnot (h ▸ rfl)

/-- What the counter does where the scan succeeds or fails. -/
def Follows (s : ByteScan) (cs : List Char) : Option (List Char × List Char) → Prop
  | none => s.StaysOpen (utf8 cs)
  | some (a, _) => s.ClosesAtEnd (utf8 a)

theorem Follows.char {r : Option (List Char × List Char)} (hq : ∀ q ∈ s.quote, q.toNat < 128)
    (hd : 0 < s.depth) (h : (s.run (String.utf8EncodeChar c)).Follows cs r) :
    s.Follows (c :: cs) (r.map fun (a, b) => (c :: a, b)) := by
  rcases r with _ | ⟨a, b⟩
  · exact StaysOpen.char hq hd h
  · exact ClosesAtEnd.char hq hd h

/-- The counter follows the scan. -/
theorem follows_scanGroup {quote : Option Char} (hd : 0 < depth)
    (hquote : ∀ q ∈ quote, isGroupQuote q = true) :
    Follows ⟨depth, quote.map Char.toUInt8, false⟩ cs (scanGroup depth quote cs) := by
  have hd' : 0 < (depth : Int) := by omega
  have hq : ∀ q ∈ quote.map Char.toUInt8, q.toNat < 128 := by
    rintro x hx
    obtain ⟨q, hq, rfl⟩ := Option.mem_map.mp hx
    have hlt := toNat_of_isGroupQuote (hquote q hq)
    rwa [toNat_toUInt8_ascii hlt]
  fun_induction scanGroup depth quote cs with
  | case1 => exact StaysOpen.nil hd'
  | case2 depth q c cs ih =>
    have hmap : (scanGroup depth (some q) cs).map (fun (a, b) => ('\\' :: c :: a, b)) =
        ((scanGroup depth (some q) cs).map fun (a, b) => (c :: a, b)).map
          fun (a, b) => ('\\' :: a, b) := by
      rw [Option.map_map]
      rfl
    rw [hmap]
    refine .char hq hd' ?_
    rw [Option.map_some, run_char_quote (hquote q rfl), if_pos rfl]
    refine .char hq hd' ?_
    rw [run_char_escaped rfl hq]
    exact ih hd hquote hd' hq
  | case3 depth q c cs hnext ih =>
    refine .char hq hd' ?_
    rw [Option.map_some, run_char_quote (hquote q rfl)]
    by_cases hc : c = '\\'
    · -- the text ends with a backslash in a string
      obtain rfl : cs = [] := by
        rcases cs with _ | ⟨x, cs⟩
        · rfl
        · exact (hnext x cs hc rfl).elim
      rw [if_pos hc, scanGroup]
      exact StaysOpen.nil hd'
    · rw [if_neg hc]
      split_ifs at ih ⊢ with hcq
      · exact ih hd (by simp) hd' (by simp)
      · exact ih hd hquote hd' hq
  | case4 depth cs hle =>
    obtain rfl : depth = 1 := by omega
    refine ClosesAtEnd.char (c := '\x7d') hq hd' ?_
    rw [Option.map_none, run_char_none, if_pos rfl]
    refine ⟨rfl, fun p hp hne => absurd (List.prefix_nil.mp hp) hne⟩
  | case5 depth cs hle ih =>
    refine .char hq hd' ?_
    rw [Option.map_none, run_char_none, if_pos rfl]
    have hpred : ((depth - 1 : Nat) : Int) = depth - 1 := by omega
    rw [← hpred]
    exact ih (by omega) hquote (by omega) hq
  | case6 depth cs hne ih =>
    refine .char hq hd' ?_
    rw [Option.map_none, run_char_none, if_neg hne, if_pos rfl]
    exact ih (by omega) hquote (by omega) hq
  | case7 depth c cs hclose hopen ih =>
    refine .char hq hd' ?_
    rw [Option.map_none, run_char_none, if_neg hclose, if_neg hopen]
    rcases hgroup : isGroupQuote c with _ | _
    · rw [hgroup] at ih
      exact ih hd (by simp) hd' (by simp)
    · rw [hgroup] at ih
      refine ih hd (by simpa using hgroup) hd' ?_
      have hlt := toNat_of_isGroupQuote hgroup
      simpa [toNat_toUInt8_ascii hlt] using hlt

theorem follows_scanGroup_one (cs : List Char) :
    Follows ⟨1, none, false⟩ cs (scanGroup 1 none cs) :=
  follows_scanGroup Nat.one_pos (by simp)

end ByteScan

/-! ## Positions -/

/-- The counter at a byte after the first brace. -/
theorem braceDepthAt_eq (before cs : List Char) (n : Nat) :
    braceDepthAt (before ++ '\x7b' :: cs) (byteLength before) (byteLength before + 1 + n) =
      (ByteScan.run ⟨1, none, false⟩ ((utf8 cs).take n)).depth := by
  have hdrop : (utf8 (before ++ '\x7b' :: cs)).drop (byteLength before) =
      '\x7b'.toUInt8 :: utf8 cs := by
    rw [utf8_append, ← length_utf8, List.drop_left]
    rfl
  rw [braceDepthAt, hdrop, show byteLength before + 1 + n - byteLength before = n + 1 by omega,
    List.take_succ_cons]
  rfl

theorem braceGroupEnd?_eq (before cs : List Char) :
    braceGroupEnd? (before ++ '\x7b' :: cs) (byteLength before) =
      (scanGroup 1 none cs).map fun (a, _) => byteLength before + 1 + byteLength a := by
  have hsplit : splitAtByte? (byteLength before) (before ++ '\x7b' :: cs) =
      some (before, '\x7b' :: cs) := splitAtByte?_eq_some_iff.mpr ⟨rfl, rfl⟩
  have hsize : '\x7b'.utf8Size = 1 := by decide
  rw [braceGroupEnd?, hsplit]
  show ((braceGroup? ('\x7b' :: cs)).bind fun (g, _) => some (byteLength before + byteLength g)) = _
  rw [braceGroup?]
  rcases scanGroup 1 none cs with _ | ⟨a, b⟩
  · rfl
  · simp [byteLength, hsize, Nat.add_assoc]

/-- The scan finds the first byte at which the counter comes back to zero. -/
theorem firstZero_of_braceGroupEnd? {before : List Char} {stop : Nat}
    (h : braceGroupEnd? (before ++ '\x7b' :: cs) (byteLength before) = some stop) :
    FirstZero (before ++ '\x7b' :: cs) (byteLength before) stop := by
  rw [braceGroupEnd?_eq, Option.map_eq_some_iff] at h
  obtain ⟨⟨a, b⟩, hscan, hstop⟩ := h
  obtain rfl : byteLength before + 1 + byteLength a = stop := hstop
  have hfollows := ByteScan.follows_scanGroup_one cs
  rw [hscan] at hfollows
  obtain ⟨hzero, hpos⟩ := hfollows
  obtain rfl := scanGroup_eq hscan
  have htake : ∀ k ≤ byteLength a, (utf8 (a ++ b)).take k = (utf8 a).take k := fun k hk => by
    rw [utf8_append, List.take_append_of_le_length (by rwa [length_utf8])]
  have hsize : '\x7b'.utf8Size = 1 := by decide
  refine ⟨by omega, ?_, ?_, fun n hlt hn => ?_⟩
  · rw [byteLength_append, byteLength, hsize, byteLength_append]
    omega
  · rw [braceDepthAt_eq, htake _ le_rfl, List.take_of_length_le (length_utf8 a).le]
    exact hzero
  · obtain ⟨k, rfl⟩ := Nat.exists_eq_add_of_lt hlt
    rw [show byteLength before + k + 1 = byteLength before + 1 + k by omega, braceDepthAt_eq,
      htake k (by omega)]
    refine hpos _ (List.take_prefix k _) fun heq => ?_
    have hlen := congrArg List.length heq
    rw [List.length_take, length_utf8] at hlen
    omega

/-- Where the scan fails the counter stays above zero. -/
theorem braceDepthAt_pos_of_none {before : List Char}
    (h : braceGroupEnd? (before ++ '\x7b' :: cs) (byteLength before) = none)
    (hlt : byteLength before < n) :
    0 < braceDepthAt (before ++ '\x7b' :: cs) (byteLength before) n := by
  rw [braceGroupEnd?_eq, Option.map_eq_none_iff] at h
  have hfollows := ByteScan.follows_scanGroup_one cs
  rw [h] at hfollows
  obtain ⟨k, rfl⟩ := Nat.exists_eq_add_of_lt hlt
  rw [show byteLength before + k + 1 = byteLength before + 1 + k by omega, braceDepthAt_eq]
  exact hfollows _ (List.take_prefix k _)

/-- The scan finds a byte just if it is the first one at which the counter comes back to zero. -/
theorem braceGroupEnd?_iff_firstZero {before : List Char} {stop : Nat} :
    braceGroupEnd? (before ++ '\x7b' :: cs) (byteLength before) = some stop ↔
      FirstZero (before ++ '\x7b' :: cs) (byteLength before) stop := by
  refine ⟨firstZero_of_braceGroupEnd?, fun h => ?_⟩
  rcases hend : braceGroupEnd? (before ++ '\x7b' :: cs) (byteLength before) with _ | stop'
  · exact absurd h.zero (braceDepthAt_pos_of_none hend h.lt).ne'
  · have h' := firstZero_of_braceGroupEnd? hend
    rcases lt_trichotomy stop' stop with hlt | rfl | hlt
    · exact absurd h'.zero (h.pos stop' h'.lt hlt).ne'
    · rfl
    · exact absurd h.zero (h'.pos stop h.lt hlt).ne'

theorem GroupAt.isBoundary {stop : Nat} (h : GroupAt source start stop) :
    IsBoundary source stop := by
  obtain ⟨before, g, after, rfl, rfl, rfl, -⟩ := h
  rw [← List.append_assoc, ← byteLength_append]
  exact isBoundary_append (before ++ g) after

/-- Up to the end of a group, and everywhere if there is none, the counter is not negative. -/
theorem braceDepthAt_nonneg {before : List Char}
    (hn : ∀ stop, braceGroupEnd? (before ++ '\x7b' :: cs) (byteLength before) = some stop →
      n ≤ stop) :
    0 ≤ braceDepthAt (before ++ '\x7b' :: cs) (byteLength before) n := by
  rcases Nat.lt_or_ge (byteLength before) n with hlt | hge
  · rcases hend : braceGroupEnd? (before ++ '\x7b' :: cs) (byteLength before) with _ | stop
    · exact (braceDepthAt_pos_of_none hend hlt).le
    · have hzero := firstZero_of_braceGroupEnd? hend
      rcases (hn stop hend).lt_or_eq with hlt' | rfl
      · exact (hzero.pos n hlt hlt').le
      · exact hzero.zero.ge
  · rw [braceDepthAt, Nat.sub_eq_zero_of_le hge]
    exact le_rfl

/-- At a brace that opens, the scan finds the end of the group that stands there, which is the only
one and ends where a character starts; without a group it finds nothing.  It finds just the byte at
which the number of open braces comes back to zero, and up to there this number is not negative. -/
theorem braceGroupEnd?_iff_groupAt (source : List Char) (start : Nat)
    (hstart : (utf8 source)[start]? = some '\x7b'.toUInt8) :
    (∀ stop, braceGroupEnd? source start = some stop ↔ GroupAt source start stop) ∧
    (∀ stop stop', GroupAt source start stop → GroupAt source start stop' → stop = stop') ∧
    (braceGroupEnd? source start = none ↔ ∀ stop, ¬ GroupAt source start stop) ∧
    (∀ stop, braceGroupEnd? source start = some stop → IsBoundary source stop) ∧
    (∀ stop, braceGroupEnd? source start = some stop ↔ FirstZero source start stop) ∧
    ∀ n, (∀ stop, braceGroupEnd? source start = some stop → n ≤ stop) →
      0 ≤ braceDepthAt source start n := by
  have hiff : ∀ stop, braceGroupEnd? source start = some stop ↔ GroupAt source start stop :=
    fun _ => braceGroupEnd?_eq_some_iff
  obtain ⟨before, cs, rfl, rfl⟩ := exists_of_getElem?_utf8 (by decide) hstart
  refine ⟨hiff, fun stop stop' h h' => ?_, ?_, fun stop h => ((hiff stop).mp h).isBoundary,
    fun _ => braceGroupEnd?_iff_firstZero, fun n hn => braceDepthAt_nonneg hn⟩
  · exact Option.some.inj (((hiff stop).mpr h).symm.trans ((hiff stop').mpr h'))
  · simp only [Option.eq_none_iff_forall_ne_some, ne_eq, hiff]

theorem braceGroupEnd?_iff_groupAt_accented :
    let source := "é\x7ba['\\'é\x7d'] + \x7bb\x7d\x7d \x7bc".toList
    ((utf8 source)[2]? = some '\x7b'.toUInt8 ∧ (utf8 source)[21]? = some '\x7b'.toUInt8) ∧
    GroupAt source 2 20 ∧ IsBoundary source 20 ∧ FirstZero source 2 20 ∧
    ∀ stop, ¬ GroupAt source 21 stop := by
  intro source
  have hfirst : (utf8 source)[2]? = some '\x7b'.toUInt8 := by decide +kernel
  have hsecond : (utf8 source)[21]? = some '\x7b'.toUInt8 := by decide +kernel
  have hend : braceGroupEnd? source 2 = some 20 := by decide +kernel
  have hnone : braceGroupEnd? source 21 = none := by decide +kernel
  obtain ⟨hgroup, -, -, hboundary, hzero, -⟩ := braceGroupEnd?_iff_groupAt source 2 hfirst
  obtain ⟨-, -, hopen, -⟩ := braceGroupEnd?_iff_groupAt source 21 hsecond
  exact ⟨⟨hfirst, hsecond⟩, (hgroup 20).mp hend, hboundary 20 hend, (hzero 20).mp hend,
    hopen.mp hnone⟩

end LiveMarkup
