import LiveMarkup.Proofs.Json.Strings

/-!
# Values in JSON

A value that is written with one item a line is read back by its shape: what it is made of, with
its strings as they are spelled (`readValue_pretty`).  The reader passes over the line breaks and
blanks that the layout adds, and tells a value from the end of the array or object around it by its
first character.  Numbers are left out, as nothing that is stored has any.
-/

namespace LiveMarkup.Json

/-! ## What a written value is read as -/

mutual

/-- The shape that a value is written in. -/
def shape : Json → Raw
  | .null => .null
  | .bool b => .bool b
  | .number n => .number n.write
  | .string s => .text (escaped s)
  | .array items => .array (itemShapes items)
  | .object members => .object (memberShapes members)

/-- The shapes of items. -/
def itemShapes : List Json → List Raw
  | [] => []
  | item :: items => shape item :: itemShapes items

/-- The shapes of members, with their keys as they are spelled. -/
def memberShapes : List (String × Json) → List (List Char × Raw)
  | [] => []
  | (key, value) :: members => (escaped key, shape value) :: memberShapes members

end

/-- A value without numbers in it. -/
inductive NumberFree : Json → Prop where
  | null : NumberFree .null
  | bool (b : Bool) : NumberFree (.bool b)
  | string (s : String) : NumberFree (.string s)
  | array {items : List Json} (h : ∀ item ∈ items, NumberFree item) : NumberFree (.array items)
  | object {members : List (String × Json)} (h : ∀ m ∈ members, NumberFree m.2) :
      NumberFree (.object members)

/-! ## Blanks -/

theorem length_newLine (depth : Nat) : (newLine depth).length = 2 * depth + 1 := by
  rw [newLine, List.length_cons, List.length_replicate]

theorem skipBlanks_newLine (depth : Nat) (cs : List Char) :
    skipBlanks (newLine depth ++ cs) = skipBlanks cs := by
  have h : ∀ n, skipBlanks (List.replicate n ' ' ++ cs) = skipBlanks cs := by
    intro n
    induction n with
    | zero => rfl
    | succ n ih => rw [List.replicate_succ, List.cons_append, ← ih]; rfl
  exact h _

theorem readValue_newLine (fuel depth : Nat) (cs : List Char) :
    readValue fuel (newLine depth ++ cs) = readValue fuel cs := by
  rw [← readValue_skipBlanks, skipBlanks_newLine, readValue_skipBlanks]

/-! ## The start of a value -/

/-- The characters that a value without numbers starts with. -/
def valueStarts : List Char := ['n', 't', 'f', '"', '[', '{']

theorem skipBlanks_valueStart {c : Char} (h : c ∈ valueStarts) (cs : List Char) :
    skipBlanks (c :: cs) = c :: cs := by
  simp only [valueStarts, List.mem_cons, List.not_mem_nil, or_false] at h
  rcases h with rfl | rfl | rfl | rfl | rfl | rfl <;> rfl

theorem NumberFree.prettyChars_starts {j : Json} (h : NumberFree j) (depth : Nat) :
    ∃ c ∈ valueStarts, ∃ cs, prettyChars depth j = c :: cs := by
  cases h with
  | null => exact ⟨'n', by decide, _, prettyChars_null depth⟩
  | bool b =>
    cases b with
    | false => exact ⟨'f', by decide, _, prettyChars_false depth⟩
    | true => exact ⟨'t', by decide, _, prettyChars_true depth⟩
  | string s => exact ⟨'"', by decide, _, (prettyChars_string depth s).trans (quote_eq s)⟩
  | @array items _ =>
    cases items with
    | nil => exact ⟨'[', by decide, _, prettyChars_array_nil depth⟩
    | cons item items => exact ⟨'[', by decide, _, prettyChars_array_cons depth item items⟩
  | @object members _ =>
    cases members with
    | nil => exact ⟨'\x7b', by decide, _, prettyChars_object_nil depth⟩
    | cons m members => exact ⟨'\x7b', by decide, _, prettyChars_object_cons depth m members⟩

theorem prettyItems_starts {item : Json} (h : NumberFree item) (items : List Json) (depth : Nat)
    (tail : List Char) :
    ∃ c ∈ valueStarts, (skipBlanks (prettyItems depth (item :: items) ++ tail)).head? = some c := by
  obtain ⟨c, hc, cs, heq⟩ := h.prettyChars_starts depth
  refine ⟨c, hc, ?_⟩
  cases items with
  | nil =>
    rw [prettyItems_singleton, List.append_assoc, skipBlanks_newLine, heq, List.cons_append,
      skipBlanks_valueStart hc]
    rfl
  | cons next items =>
    rw [prettyItems_cons_cons, List.append_assoc, List.append_assoc, skipBlanks_newLine, heq,
      List.cons_append, skipBlanks_valueStart hc]
    rfl

theorem prettyMembers_starts (member : String × Json) (members : List (String × Json))
    (depth : Nat) (tail : List Char) :
    (skipBlanks (prettyMembers depth (member :: members) ++ tail)).head? = some '"' := by
  obtain ⟨key, value⟩ := member
  cases members with
  | nil =>
    rw [prettyMembers_singleton, List.append_assoc, List.append_assoc, skipBlanks_newLine, quote_eq]
    rfl
  | cons next members =>
    rw [prettyMembers_cons_cons, List.append_assoc, List.append_assoc, List.append_assoc,
      skipBlanks_newLine, quote_eq]
    rfl

/-! ## Reading what was written -/

theorem readValue_array {r : List Char} (h : (skipBlanks r).head? ≠ some ']') (fuel : Nat) :
    readValue (fuel + 1) ('[' :: r) =
      (readItems fuel r).map fun (items, rest) => (.array items, rest) := by
  have hstart : skipBlanks ('[' :: r) = '[' :: r := skipBlanks_valueStart (by decide) r
  simp only [readValue, hstart]
  split
  · next heq => exact absurd (by rw [heq]; rfl) h
  · rw [readItems_skipBlanks]

theorem readValue_object {r : List Char} (h : (skipBlanks r).head? ≠ some '}') (fuel : Nat) :
    readValue (fuel + 1) ('{' :: r) =
      (readMembers fuel r).map fun (members, rest) => (.object members, rest) := by
  have hstart : skipBlanks ('{' :: r) = '{' :: r := skipBlanks_valueStart (by decide) r
  simp only [readValue, hstart]
  split
  · next heq => exact absurd (by rw [heq]; rfl) h
  · rw [readMembers_skipBlanks]

/-- A value is read back, whatever follows, with fuel for each of its characters. -/
def ReadsBack (j : Json) : Prop :=
  ∀ depth fuel rest, (prettyChars depth j).length ≤ fuel →
    readValue fuel (prettyChars depth j ++ rest) = some (j.shape, rest)

theorem readItems_pretty {item : Json} {items : List Json} {depth : Nat}
    (h : ∀ i ∈ item :: items, ReadsBack i) (outer : Nat) (rest : List Char) :
    ∀ fuel, (prettyItems depth (item :: items)).length ≤ fuel →
      readItems fuel (prettyItems depth (item :: items) ++ (newLine outer ++ ']' :: rest)) =
        some (itemShapes (item :: items), rest) := by
  induction items generalizing item with
  | nil =>
    intro fuel hfuel
    simp only [prettyItems_singleton, List.length_append, length_newLine] at hfuel
    obtain ⟨fuel, rfl⟩ : ∃ n, fuel = n + 1 := ⟨fuel - 1, by omega⟩
    have hitem := h item (List.mem_singleton_self item) depth fuel (newLine outer ++ ']' :: rest)
      (by omega)
    simp only [prettyItems_singleton, readItems, List.append_assoc, readValue_newLine, hitem, itemShapes,
      Option.bind_eq_bind, Option.bind_some, skipBlanks_newLine]
    rfl
  | cons next items ih =>
    intro fuel hfuel
    simp only [prettyItems_cons_cons, List.length_append, List.length_cons, length_newLine]
      at hfuel
    obtain ⟨fuel, rfl⟩ : ∃ n, fuel = n + 1 := ⟨fuel - 1, by omega⟩
    have hitem := fun rest => h item List.mem_cons_self depth fuel rest (by omega)
    have hitems := ih (fun i hi => h i (List.mem_cons_of_mem item hi)) fuel (by omega)
    have hcomma : ∀ cs, skipBlanks (',' :: cs) = ',' :: cs := fun _ => rfl
    simp only [prettyItems_cons_cons, readItems, List.append_assoc, List.cons_append,
      readValue_newLine, hitem, hcomma, hitems, itemShapes, Option.bind_eq_bind, Option.bind_some,
      Option.map_some]

/-- One member is read, and what follows decides whether there is another. -/
theorem readMembers_member {value : Json} (h : ReadsBack value) (key : String) {depth fuel : Nat}
    (hfuel : (prettyChars depth value).length ≤ fuel) {tail r : List Char} :
    (skipBlanks tail = '}' :: r →
      readMembers (fuel + 1)
          (newLine depth ++ (quote key ++ ':' :: ' ' :: (prettyChars depth value ++ tail))) =
        some ([(escaped key, value.shape)], r)) ∧
      (skipBlanks tail = ',' :: r →
        readMembers (fuel + 1)
            (newLine depth ++ (quote key ++ ':' :: ' ' :: (prettyChars depth value ++ tail))) =
          (readMembers fuel r).map fun (members, rest) =>
            ((escaped key, value.shape) :: members, rest)) := by
  have hquote : ∀ cs, skipBlanks ('"' :: cs) = '"' :: cs := fun _ => rfl
  have hcolon : ∀ cs, skipBlanks (':' :: cs) = ':' :: cs := fun _ => rfl
  have hblank : ∀ cs, readValue fuel (' ' :: cs) = readValue fuel cs := by
    intro cs
    rw [← readValue_skipBlanks, ← readValue_skipBlanks fuel cs]
    rfl
  constructor <;> intro htail <;>
    simp only [readMembers, skipBlanks_newLine, quote_eq, List.cons_append, List.append_assoc,
      List.nil_append, hquote, readText_escaped, hcolon, hblank, h depth fuel _ hfuel, htail,
      Option.bind_eq_bind, Option.bind_some]

theorem readMembers_pretty {member : String × Json} {members : List (String × Json)} {depth : Nat}
    (h : ∀ m ∈ member :: members, ReadsBack m.2) (outer : Nat) (rest : List Char) :
    ∀ fuel, (prettyMembers depth (member :: members)).length ≤ fuel →
      readMembers fuel (prettyMembers depth (member :: members) ++ (newLine outer ++ '}' :: rest)) =
        some (memberShapes (member :: members), rest) := by
  induction members generalizing member with
  | nil =>
    obtain ⟨key, value⟩ := member
    intro fuel hfuel
    simp only [prettyMembers_singleton, List.length_append, List.length_cons, length_newLine] at hfuel
    obtain ⟨fuel, rfl⟩ : ∃ n, fuel = n + 1 := ⟨fuel - 1, by omega⟩
    have hvalue : ReadsBack value := h _ (List.mem_singleton_self _)
    simp only [prettyMembers_singleton, List.append_assoc, List.cons_append]
    exact (readMembers_member hvalue key (by omega)).1 (by rw [skipBlanks_newLine]; rfl)
  | cons next members ih =>
    obtain ⟨key, value⟩ := member
    intro fuel hfuel
    simp only [prettyMembers_cons_cons, List.length_append, List.length_cons, length_newLine]
      at hfuel
    obtain ⟨fuel, rfl⟩ : ∃ n, fuel = n + 1 := ⟨fuel - 1, by omega⟩
    have hvalue : ReadsBack value := h _ List.mem_cons_self
    have hmembers := ih (fun m hm => h m (List.mem_cons_of_mem _ hm)) fuel (by omega)
    simp only [prettyMembers_cons_cons, List.append_assoc, List.cons_append]
    rw [(readMembers_member hvalue key (by omega)).2 rfl]
    simp only [hmembers, memberShapes, Option.map_some]

theorem NumberFree.readsBack {j : Json} (hfree : NumberFree j)
    (h : ∀ depth fuel rest, (prettyChars depth j).length ≤ fuel + 1 →
      readValue (fuel + 1) (prettyChars depth j ++ rest) = some (j.shape, rest)) :
    ReadsBack j := by
  intro depth fuel rest hfuel
  obtain ⟨c, -, cs, heq⟩ := hfree.prettyChars_starts depth
  have hpos : fuel ≠ 0 := by
    rintro rfl
    simp [heq] at hfuel
  obtain ⟨n, rfl⟩ := Nat.exists_eq_succ_of_ne_zero hpos
  exact h depth n rest hfuel

/-- A value without numbers is read back by its shape, whatever follows it. -/
theorem readValue_pretty {j : Json} (hfree : NumberFree j) : ReadsBack j := by
  induction hfree with
  | null =>
    refine NumberFree.null.readsBack fun depth fuel rest _ => ?_
    rw [prettyChars_null]
    rfl
  | bool b =>
    refine (NumberFree.bool b).readsBack fun depth fuel rest _ => ?_
    cases b with
    | false =>
      rw [prettyChars_false]
      rfl
    | true =>
      rw [prettyChars_true]
      rfl
  | string s =>
    refine (NumberFree.string s).readsBack fun depth fuel rest _ => ?_
    have hquote : ∀ cs, skipBlanks ('"' :: cs) = '"' :: cs := fun _ => rfl
    simp only [prettyChars_string, quote_eq, List.cons_append, List.append_assoc, List.nil_append, readValue,
      hquote, readText_escaped, Option.map_some, shape]
  | @array items hitems ih =>
    refine (NumberFree.array hitems).readsBack fun depth fuel rest hfuel => ?_
    cases items with
    | nil =>
      rw [prettyChars_array_nil]
      rfl
    | cons item items =>
      simp only [prettyChars_array_cons, List.length_cons, List.length_append] at hfuel
      obtain ⟨c, hc, hstart⟩ := prettyItems_starts (hitems item List.mem_cons_self) items
        (depth + 1) (newLine depth ++ ']' :: rest)
      have hopen : some c ≠ some ']' := by
        rintro ⟨⟩
        revert hc
        decide
      simp only [prettyChars_array_cons, List.cons_append, List.append_assoc, List.nil_append]
      rw [readValue_array (by rwa [hstart]), readItems_pretty ih depth rest fuel (by omega)]
      rfl
  | @object members hmembers ih =>
    refine (NumberFree.object hmembers).readsBack fun depth fuel rest hfuel => ?_
    cases members with
    | nil =>
      rw [prettyChars_object_nil]
      rfl
    | cons member members =>
      simp only [prettyChars_object_cons, List.length_cons, List.length_append] at hfuel
      have hstart := prettyMembers_starts member members (depth + 1) (newLine depth ++ '}' :: rest)
      simp only [prettyChars_object_cons, List.cons_append, List.append_assoc, List.nil_append]
      rw [readValue_object (by rw [hstart]; decide),
        readMembers_pretty ih depth rest fuel (by omega)]
      rfl

/-- The shape of a written value without numbers is read from its text. -/
theorem Raw.read?_pretty {j : Json} (hfree : NumberFree j) : Raw.read? j.pretty = some j.shape := by
  have hread := readValue_pretty hfree 0 (2 * (prettyChars 0 j).length + 2) [] (by omega)
  rw [List.append_nil] at hread
  rw [Raw.read?, Json.pretty, String.toList_ofList, hread]
  rfl

end LiveMarkup.Json
