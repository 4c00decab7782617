import LiveMarkup.Proofs.Template.Scanning
import LiveMarkup.Proofs.Text.Bytes

/-!
# The grammar of brace groups

A group is a pair of braces around ordinary characters, closed strings and groups (`IsGroup`).  The
scan for the end of a group passes over each of these as a whole (`scanGroup_insideGroup`), and a
text on which it fails has no brace that closes the first one (`insideGroup_or_scanGroup_eq_none`).
So what is found at the start of a text is just the group that stands there
(`braceGroup?_eq_some_iff`).
-/

namespace LiveMarkup

open Text

variable {q c : Char} {s w g cs rest : List Char} {depth : Nat}

/-! ## Groups -/

/-- What may stand between two braces that belong together. -/
inductive InsideGroup : List Char → Prop
  | nil : InsideGroup []
  | ordinary {c : Char} {w : List Char} : isGroupQuote c = false → c ≠ '\x7b' → c ≠ '\x7d' →
      InsideGroup w → InsideGroup (c :: w)
  | string {q : Char} {s w : List Char} : isGroupQuote q = true → StringRest q s →
      InsideGroup w → InsideGroup (q :: (s ++ w))
  | group {v w : List Char} : InsideGroup v → InsideGroup w →
      InsideGroup ('\x7b' :: (v ++ '\x7d' :: w))

/-- A group of braces. -/
def IsGroup (g : List Char) : Prop :=
  ∃ w, InsideGroup w ∧ g = '\x7b' :: (w ++ ['\x7d'])

/-- The text between two bytes, as far as they are where characters start, is a group. -/
def GroupAt (source : List Char) (start stop : Nat) : Prop :=
  ∃ before g after, source = before ++ (g ++ after) ∧ byteLength before = start ∧
    start + byteLength g = stop ∧ IsGroup g

theorem isGroupQuote_cases (hq : isGroupQuote q = true) : q = '"' ∨ q = '\'' ∨ q = '\x60' := by
  simpa [isGroupQuote, or_assoc] using hq

/-! ## The scan over a group -/

theorem scanGroup_char (hc : c ≠ '\\') (hq : c ≠ q) (cs : List Char) :
    scanGroup depth (some q) (c :: cs) =
      (scanGroup depth (some q) cs).map fun (a, b) => (c :: a, b) := by
  rw [scanGroup.eq_3 _ _ _ _ fun _ _ h _ => hc h, if_neg hq]

theorem scanGroup_close (hq : isGroupQuote q = true) (cs : List Char) :
    scanGroup depth (some q) (q :: cs) =
      (scanGroup depth none cs).map fun (a, b) => (q :: a, b) := by
  have hne : q ≠ '\\' := by
    rcases isGroupQuote_cases hq with rfl | rfl | rfl <;> decide
  rw [scanGroup.eq_3 _ _ _ _ fun _ _ h _ => hne h, if_pos rfl]

theorem scanGroup_ordinary (hquote : isGroupQuote c = false) (hopen : c ≠ '\x7b')
    (hclose : c ≠ '\x7d') (cs : List Char) :
    scanGroup depth none (c :: cs) = (scanGroup depth none cs).map fun (a, b) => (c :: a, b) := by
  rw [scanGroup, if_neg hclose, if_neg hopen, hquote]
  rfl

theorem scanGroup_quote (hq : isGroupQuote q = true) (cs : List Char) :
    scanGroup depth none (q :: cs) =
      (scanGroup depth (some q) cs).map fun (a, b) => (q :: a, b) := by
  have hne : q ≠ '\x7d' ∧ q ≠ '\x7b' := by
    rcases isGroupQuote_cases hq with rfl | rfl | rfl <;> decide
  rw [scanGroup, if_neg hne.1, if_neg hne.2, hq]
  rfl

theorem scanGroup_openBrace (cs : List Char) :
    scanGroup depth none ('\x7b' :: cs) =
      (scanGroup (depth + 1) none cs).map fun (a, b) => ('\x7b' :: a, b) := by
  rw [scanGroup, if_neg (by decide), if_pos rfl]

theorem scanGroup_closeBrace (cs : List Char) :
    scanGroup (depth + 2) none ('\x7d' :: cs) =
      (scanGroup (depth + 1) none cs).map fun (a, b) => ('\x7d' :: a, b) := by
  rw [scanGroup, if_pos rfl, if_neg (by omega)]
  rfl

theorem scanGroup_lastBrace (cs : List Char) :
    scanGroup 1 none ('\x7d' :: cs) = some (['\x7d'], cs) := by
  rw [scanGroup, if_pos rfl, if_pos (Nat.le_refl 1)]

/-- The scan passes over the rest of a string. -/
theorem scanGroup_stringRest (hq : isGroupQuote q = true) (hs : StringRest q s) (cs : List Char) :
    scanGroup depth (some q) (s ++ cs) =
      (scanGroup depth none cs).map fun (a, b) => (s ++ a, b) := by
  induction hs with
  | close => exact scanGroup_close hq cs
  | escape c _ ih =>
    rw [List.cons_append, List.cons_append, scanGroup, ih, Option.map_map]
    rfl
  | char hne hc _ ih =>
    rw [List.cons_append, scanGroup_char hc hne, ih, Option.map_map]
    rfl

/-- The scan passes over what stands between two braces that belong together. -/
theorem scanGroup_insideGroup (hw : InsideGroup w) (depth : Nat) (cs : List Char) :
    scanGroup (depth + 1) none (w ++ cs) =
      (scanGroup (depth + 1) none cs).map fun (a, b) => (w ++ a, b) := by
  induction hw generalizing depth cs with
  | nil => simp
  | ordinary hquote hopen hclose _ ih =>
    rw [List.cons_append, scanGroup_ordinary hquote hopen hclose, ih, Option.map_map]
    rfl
  | string hq hs _ ih =>
    rw [List.cons_append, scanGroup_quote hq, List.append_assoc, scanGroup_stringRest hq hs, ih,
      Option.map_map, Option.map_map]
    simp only [Function.comp_def, List.cons_append, List.append_assoc]
  | group _ _ ihv ihw =>
    rw [List.cons_append, scanGroup_openBrace, List.append_assoc, ihv, List.cons_append,
      scanGroup_closeBrace, ihw, Option.map_map, Option.map_map, Option.map_map]
    simp only [Function.comp_def, List.cons_append, List.append_assoc]

/-! ## Texts without the brace that closes -/

theorem stringRest_or_scanGroup_eq_none (hq : isGroupQuote q = true) : ∀ cs : List Char,
    (∃ s rest, StringRest q s ∧ cs = s ++ rest) ∨ ∀ depth, scanGroup depth (some q) cs = none
  | [] => .inr fun depth => by rw [scanGroup]
  | c :: cs => by
    by_cases hc : c = '\\'
    · subst hc
      rcases cs with _ | ⟨d, cs⟩
      · exact .inr fun depth => by
          rw [scanGroup.eq_3 _ _ _ _ fun _ _ _ h => List.cons_ne_nil _ _ h.symm, scanGroup,
            Option.map_none]
      rcases stringRest_or_scanGroup_eq_none hq cs with ⟨s, rest, hs, rfl⟩ | hnone
      · exact .inl ⟨'\\' :: d :: s, rest, hs.escape d, rfl⟩
      · exact .inr fun depth => by rw [scanGroup, hnone, Option.map_none]
    rcases eq_or_ne c q with rfl | hne
    · exact .inl ⟨[c], cs, .close, rfl⟩
    rcases stringRest_or_scanGroup_eq_none hq cs with ⟨s, rest, hs, rfl⟩ | hnone
    · exact .inl ⟨c :: s, rest, hs.char hne hc, rfl⟩
    · exact .inr fun depth => by rw [scanGroup_char hc hne, hnone, Option.map_none]
termination_by cs => cs.length

/-- If no brace closes the braces that are open, the scan fails. -/
theorem insideGroup_or_scanGroup_eq_none : ∀ cs : List Char,
    (∃ w rest, InsideGroup w ∧ cs = w ++ '\x7d' :: rest) ∨
      ∀ depth, scanGroup (depth + 1) none cs = none
  | [] => .inr fun depth => by rw [scanGroup]
  | c :: cs => by
    by_cases hclose : c = '\x7d'
    · exact .inl ⟨[], cs, .nil, by rw [hclose, List.nil_append]⟩
    by_cases hopen : c = '\x7b'
    · rcases insideGroup_or_scanGroup_eq_none cs with ⟨v, rest, hv, rfl⟩ | hnone
      · rcases insideGroup_or_scanGroup_eq_none rest with ⟨w, rest', hw, rfl⟩ | hnone
        · exact .inl ⟨_, rest', hv.group hw, by simp [hopen]⟩
        · exact .inr fun depth => by
            rw [hopen, scanGroup_openBrace, scanGroup_insideGroup hv, scanGroup_closeBrace, hnone]
            rfl
      · exact .inr fun depth => by rw [hopen, scanGroup_openBrace, hnone, Option.map_none]
    rcases hq : isGroupQuote c with _ | _
    · rcases insideGroup_or_scanGroup_eq_none cs with ⟨w, rest, hw, rfl⟩ | hnone
      · exact .inl ⟨c :: w, rest, hw.ordinary hq hopen hclose, rfl⟩
      · exact .inr fun depth => by rw [scanGroup_ordinary hq hopen hclose, hnone, Option.map_none]
    · rcases stringRest_or_scanGroup_eq_none hq cs with ⟨s, rest, hs, rfl⟩ | hnone
      · rcases insideGroup_or_scanGroup_eq_none rest with ⟨w, rest', hw, rfl⟩ | hnone
        · exact .inl ⟨c :: (s ++ w), rest', hw.string hq hs, by simp⟩
        · exact .inr fun depth => by
            rw [scanGroup_quote hq, scanGroup_stringRest hq hs, hnone]
            rfl
      · exact .inr fun depth => by rw [scanGroup_quote hq, hnone, Option.map_none]
termination_by cs => cs.length

/-! ## The group at the start of a text -/

theorem IsGroup.braceGroup? (hg : IsGroup g) (rest : List Char) :
    LiveMarkup.braceGroup? (g ++ rest) = some (g, rest) := by
  obtain ⟨w, hw, rfl⟩ := hg
  rw [List.cons_append, LiveMarkup.braceGroup?, List.append_assoc, scanGroup_insideGroup hw]
  show (((scanGroup 1 none ('\x7d' :: rest)).map _).map _) = _
  rw [scanGroup_lastBrace]
  rfl

theorem braceGroup?_eq_some_iff : braceGroup? cs = some (g, rest) ↔ IsGroup g ∧ cs = g ++ rest := by
  refine ⟨fun h => ?_, fun ⟨hg, hcs⟩ => hcs ▸ hg.braceGroup? rest⟩
  unfold braceGroup? at h
  split at h
  · rename_i cs
    rcases insideGroup_or_scanGroup_eq_none cs with ⟨w, rest', hw, rfl⟩ | hnone
    · have hg : IsGroup ('\x7b' :: (w ++ ['\x7d'])) := ⟨w, hw, rfl⟩
      have hread := hg.braceGroup? rest'
      rw [List.cons_append, List.append_assoc, List.singleton_append, braceGroup?, h] at hread
      cases hread
      exact ⟨hg, by simp⟩
    · rw [hnone 0] at h
      cases h
  · cases h

/-! ## Positions -/

/-- The scan finds where the group at a byte ends. -/
theorem braceGroupEnd?_eq_some_iff {source : List Char} {start stop : Nat} :
    braceGroupEnd? source start = some stop ↔ GroupAt source start stop := by
  simp only [braceGroupEnd?, Option.bind_eq_bind, Option.bind_eq_some_iff, Option.pure_def,
    Option.some.injEq, Prod.exists, splitAtByte?_eq_some_iff, braceGroup?_eq_some_iff]
  constructor
  · rintro ⟨before, rest, ⟨rfl, hstart⟩, g, after, ⟨hg, rfl⟩, hstop⟩
    exact ⟨before, g, after, rfl, hstart, hstop, hg⟩
  · rintro ⟨before, g, after, rfl, hstart, hstop, hg⟩
    exact ⟨before, g ++ after, ⟨rfl, hstart⟩, g, after, ⟨hg, rfl⟩, hstop⟩

end LiveMarkup
