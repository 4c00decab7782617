/-!
# Scanning a text

A text is read as a list of characters.  A scanner cuts it in two and returns both parts, so that
nothing is lost and no position can point outside the text (`cut_eq`).  Positions that are
shown to a reader count UTF-8 bytes, and are the `byteLength` of what stands before them.
-/

namespace LiveMarkup.Text

/-- The number of bytes a text takes in UTF-8. -/
def byteLength : List Char → Nat
  | [] => 0
  | c :: cs => c.utf8Size + byteLength cs

@[simp] theorem byteLength_append (a b : List Char) :
    byteLength (a ++ b) = byteLength a + byteLength b := by
  induction a with
  | nil => simp [byteLength]
  | cons c a ih => simp only [List.cons_append, byteLength, ih]; omega

/-- The text after a given beginning. -/
def after? : (start : List Char) → List Char → Option (List Char)
  | [], cs => some cs
  | _ :: _, [] => none
  | s :: start, c :: cs => if s = c then after? start cs else none

/-- Whether a text begins with a given one. -/
def startsWith (start cs : List Char) : Bool :=
  (after? start cs).isSome

theorem after?_eq_some_iff {start cs rest : List Char} :
    after? start cs = some rest ↔ cs = start ++ rest := by
  induction start generalizing cs with
  | nil => simp [after?]
  | cons s start ih =>
    cases cs with
    | nil => simp [after?]
    | cons c cs =>
      by_cases h : s = c
      · simp [after?, h, ih]
      · simp [after?, h, Ne.symm h]

theorem startsWith_iff {start cs : List Char} : startsWith start cs = true ↔ ∃ rest, cs = start ++ rest := by
  simp only [startsWith, Option.isSome_iff_exists, after?_eq_some_iff]

/-- The text before and after the first place where a given one stands. -/
def cut? (mark : List Char) : List Char → Option (List Char × List Char)
  | [] => (after? mark []).map ([], ·)
  | c :: cs =>
    match after? mark (c :: cs) with
    | some rest => some ([], rest)
    | none => (cut? mark cs).map fun (a, b) => (c :: a, b)

/-- A cut loses nothing but the mark. -/
theorem cut_eq {mark cs a b : List Char} (h : cut? mark cs = some (a, b)) :
    cs = a ++ mark ++ b := by
  induction cs generalizing a with
  | nil =>
    simp only [cut?, Option.map_eq_some_iff] at h
    obtain ⟨r, hr, h⟩ := h
    cases h
    simpa using after?_eq_some_iff.mp hr
  | cons c cs ih =>
    simp only [cut?] at h
    split at h
    · rename_i rest hr
      cases h
      simpa using after?_eq_some_iff.mp hr
    · obtain ⟨⟨a', b'⟩, hc, h⟩ := Option.map_eq_some_iff.mp h
      cases h
      simp [ih hc]

/-- The pieces of a text between the occurrences of a character. -/
def splitAt (mark : Char) : List Char → List (List Char)
  | [] => [[]]
  | c :: cs =>
    match splitAt mark cs with
    | [] => [[c]]
    | piece :: pieces => if c = mark then [] :: piece :: pieces else (c :: piece) :: pieces

/-- The members of a list, each at its first place. -/
def distinct {α : Type} [DecidableEq α] (xs : List α) : List α :=
  xs.foldl (fun seen x => if x ∈ seen then seen else seen ++ [x]) []

/-- The text before and from a given byte on, if a character starts there. -/
def splitAtByte? : Nat → List Char → Option (List Char × List Char)
  | 0, cs => some ([], cs)
  | _ + 1, [] => none
  | n + 1, c :: cs =>
    if c.utf8Size ≤ n + 1 then
      (splitAtByte? (n + 1 - c.utf8Size) cs).map fun (a, b) => (c :: a, b)
    else none

/-- A text with every occurrence of a given, non-empty one replaced, from left to right. -/
def replaceAll (mark new cs : List Char) : List Char :=
  go cs.length cs
where
  /-- Each round passes over one character at least. -/
  go : Nat → List Char → List Char
    | 0, cs => cs
    | fuel + 1, cs =>
      match cut? mark cs with
      | none => cs
      | some (a, b) => a ++ new ++ go fuel b

end LiveMarkup.Text
