import LiveMarkup.Expr.Evaluate
import LiveMarkup.Proofs.Decimal.Positions
import LiveMarkup.Proofs.Expr.Renamed

/-!
# Evaluating with items named

With its fixed items named an expression has the value that it has without, or fails in the same way,
if every access that is replaced is read as an access (`ReadsItems`) and the expression uses no name
of an item itself (`evaluate_namesItems`).  The accesses are looked for in the text before it is read;
one in a string is replaced too, and the string is another one (`evaluate_namesItems_string`).
-/

namespace LiveMarkup

open Text

variable {scope s' : Scope} {name digits cs rest : List Char} {temp x : String} {value : Value}

/-! ## Names of items -/

theorem namedItem?_eq_some (h : namedItem? scope name digits = some (temp, value)) :
    ∃ items n, scope.find? (String.ofList name) = some (.array items) ∧
      Value.readPosition? digits = some n ∧ temp = itemName name n ∧
      value = items[n]?.getD .undefined := by
  unfold namedItem? at h
  simp only [Option.bind_eq_bind, Option.bind_eq_some_iff, Option.pure_def, Option.some.injEq,
    Prod.mk.injEq] at h
  obtain ⟨v, hv, items, hitems, n, hn, rfl, rfl⟩ := h
  refine ⟨items, n, ?_, hn, rfl, rfl⟩
  cases v with
  | array => rw [hv, Option.some.inj hitems]
  | _ => cases hitems

theorem eq_nil_of_last {c : Char} {a b b' : List Char} (hb : c ∉ b) (h : c :: b = a ++ c :: b') :
    a = [] := by
  rcases a with _ | ⟨x, a⟩
  · rfl
  · rw [List.cons_append, List.cons.injEq] at h
    exact absurd (h.2 ▸ by simp) hb

theorem underscore_notMem_numeral (n : Nat) : '_' ∉ Decimal.numeral n := fun h => by
  cases isDigit_of_mem_numeral h

theorem itemName_injective {name' : List Char} {n n' : Nat} (h : itemName name n = itemName name' n') :
    name = name' ∧ n = n' := by
  have h := congrArg String.toList h
  rw [itemName_toList, itemName_toList, List.append_cancel_left_eq] at h
  have hname : name = name' := by
    rcases List.append_eq_append_iff.mp h with ⟨a, rfl, ha⟩ | ⟨a, rfl, ha⟩
    · rw [eq_nil_of_last (underscore_notMem_numeral n) ha, List.append_nil]
    · rw [eq_nil_of_last (underscore_notMem_numeral n') ha, List.append_nil]
  rw [hname, List.append_cancel_left_eq, List.cons.injEq] at h
  refine ⟨hname, ?_⟩
  rw [← Nat.ofDigitChars_toDigits (b := 10) (n := n) (by decide) (by decide),
    show Nat.toDigits 10 n = Nat.toDigits 10 n' from h.2,
    Nat.ofDigitChars_toDigits (by decide) (by decide)]

/-- What an item is read as that goes by a name. -/
def NamesItem (scope : Scope) (temp : String) (value : Value) : Prop :=
  ∃ name digits, namedItem? scope name digits = some (temp, value)

theorem NamesItem.unique {value' : Value} (h : NamesItem scope temp value) (h' : NamesItem scope temp value') :
    value = value' := by
  obtain ⟨name, digits, h⟩ := h
  obtain ⟨name', digits', h'⟩ := h'
  obtain ⟨items, n, hfind, -, rfl, rfl⟩ := namedItem?_eq_some h
  obtain ⟨items', n', hfind', -, htemp, rfl⟩ := namedItem?_eq_some h'
  obtain ⟨rfl, rfl⟩ := itemName_injective htemp
  rw [hfind] at hfind'
  cases hfind'
  rfl

/-! ## The scope with the names -/

section

variable {bound : List (String × Value)}

theorem find?_foldl_set_of_notMem (hx : x ∉ bound.map (·.1)) (s : Scope) :
    (bound.foldl (fun s (name, value) => s.set name value) s).find? x = s.find? x := by
  induction bound generalizing s with
  | nil => rfl
  | cons e bound ih =>
    rw [List.map_cons, List.mem_cons, not_or] at hx
    rw [List.foldl_cons, ih hx.2, Scope.find?_set, if_neg hx.1]

theorem find?_foldl_set_of_mem (hx : x ∈ bound.map (·.1)) (hvalue : ∀ v, (x, v) ∈ bound → v = value)
    (s : Scope) :
    (bound.foldl (fun s (name, value) => s.set name value) s).find? x = some value := by
  induction bound generalizing s with
  | nil => cases hx
  | cons e bound ih =>
    have hvalue' : ∀ v, (x, v) ∈ bound → v = value := fun v hv => hvalue v (by simp [hv])
    rw [List.foldl_cons]
    by_cases hmem : x ∈ bound.map (·.1)
    · exact ih hmem hvalue' _
    · obtain rfl : x = e.1 := by simpa [hmem] using hx
      rw [find?_foldl_set_of_notMem hmem, Scope.find?_set, if_pos rfl, hvalue e.2 (by simp)]

end

/-! ## Looking for accesses -/

theorem scanFixedAccess_eq_some (h : scanFixedAccess cs = some (name, digits, rest)) :
    cs = access name digits ++ rest ∧ name ≠ [] ∧ (∀ c ∈ name.head?, isNameStart c = true) ∧
      (∀ c ∈ name, isNameRest c = true) ∧ digits ≠ [] ∧ ∀ c ∈ digits, c.isDigit = true := by
  rcases cs with _ | ⟨c, cs⟩
  · cases h
  unfold scanFixedAccess at h
  dsimp only at h
  split_ifs at h with hstart
  split at h
  · rename_i r hbracket
    split at h
    · rename_i rest' hclose
      split_ifs at h with hdigits
      cases h
      have hname := List.takeWhile_append_dropWhile (p := isNameRest) (l := c :: cs)
      have hcut := List.takeWhile_append_dropWhile (p := Char.isDigit) (l := r)
      rw [hclose] at hcut
      rw [hbracket, ← hcut] at hname
      have htake : (c :: cs).takeWhile isNameRest = c :: cs.takeWhile isNameRest :=
        List.takeWhile_cons_of_pos (isNameRest_of_isNameStart hstart)
      refine ⟨?_, ?_, ?_, List.all_eq_true.mp List.all_takeWhile, hdigits,
        List.all_eq_true.mp List.all_takeWhile⟩
      · simpa [access] using hname.symm
      · rw [htake]
        exact List.cons_ne_nil _ _
      · rw [htake]
        rintro d ⟨⟩
        exact hstart
    · cases h
  · cases h

theorem subset_nameItemsFrom : ∀ {fuel : Nat} {previous : Option Char} {bound : List (String × Value)}
    {cs : List Char}, bound ⊆ (nameItemsFrom scope fuel previous bound cs).2
  | 0, _, _, _ => List.Subset.refl _
  | _ + 1, _, _, [] => List.Subset.refl _
  | fuel + 1, previous, bound, c :: cs => by
    unfold nameItemsFrom
    split
    · exact subset_nameItemsFrom
    · split
      · exact subset_nameItemsFrom
      · dsimp only
        split
        · exact subset_nameItemsFrom
        · exact List.Subset.trans (List.subset_append_left _ _) subset_nameItemsFrom

/-- A name is bound that was looked up or else added. -/
theorem mem_keys_bind (bound : List (String × Value)) (temp : String) (value : Value) :
    temp ∈ (if (bound.lookup temp).isSome then bound else bound ++ [(temp, value)]).map (·.1) := by
  split
  · rename_i hlookup
    rw [List.lookup_isSome_iff] at hlookup
    obtain ⟨e, he, heq⟩ := hlookup
    exact List.mem_map.mpr ⟨e, he, (eq_of_beq heq).symm⟩
  · simp

theorem namesItem_of_mem_nameItemsFrom : ∀ {fuel : Nat} {previous : Option Char}
    {bound : List (String × Value)} {cs : List Char}, (∀ e ∈ bound, NamesItem scope e.1 e.2) →
    ∀ e ∈ (nameItemsFrom scope fuel previous bound cs).2, NamesItem scope e.1 e.2
  | 0, _, _, _, h => h
  | _ + 1, _, _, [], h => h
  | fuel + 1, previous, bound, c :: cs, h => by
    unfold nameItemsFrom
    split
    · exact namesItem_of_mem_nameItemsFrom h
    · rename_i name digits rest _
      split
      · exact namesItem_of_mem_nameItemsFrom h
      · rename_i temp item hitem
        dsimp only
        split
        · exact namesItem_of_mem_nameItemsFrom h
        · refine namesItem_of_mem_nameItemsFrom fun e he => ?_
          rcases List.mem_append.mp he with he | he
          · exact h e he
          · obtain rfl := List.mem_singleton.mp he
            split at hitem
            · cases hitem
            · exact ⟨name, digits, hitem⟩

/-! ## Accesses that are read as such -/

/-- Every access in a text that is replaced is read as an access. -/
def ReadsItems (scope : Scope) (text : List Char) : Prop :=
  ∀ n name digits rest, scanFixedAccess (text.drop n) = some (name, digits, rest) →
    attaches (text.take n).getLast? = false → (namedItem? scope name digits).isSome = true →
      ReadsAccess (text.take n) name rest

/-- What follows is read after a text as it is read by itself. -/
def Restarts (d : List Char) : Prop :=
  ∀ b, (∀ us, Lexes b us → ∃ ws, Lexes (d ++ b) (ws ++ us)) ∧ (InString b → InString (d ++ b))

theorem restarts_nil : Restarts [] :=
  fun _ => ⟨fun _ hus => ⟨[], hus⟩, id⟩

theorem InString.access_append (haccess : IsAccess name digits) (h : InString rest) :
    InString (access name digits ++ rest) := by
  have hname := haccess.scanToken_name rest
  have hspelled : access name digits ++ rest = name ++ '[' :: (digits ++ ']' :: rest) := by
    simp [access]
  rw [hspelled]
  exact .of_scanToken hname (.of_scanToken (scanToken_openBracket _)
    (.of_scanToken (scanToken_digits haccess.digits_ne haccess.digits rest)
      (.of_scanToken (scanToken_closeBracket rest) h)))

theorem Restarts.access {d b : List Char} (h : Restarts d) (hb : ∃ us, Lexes b us)
    (halone : attaches b.getLast? = false) (haccess : IsAccess name digits) :
    Restarts (d ++ (b ++ LiveMarkup.access name digits)) := by
  obtain ⟨us, hus⟩ := hb
  intro r
  have hspelled : d ++ (b ++ LiveMarkup.access name digits) ++ r =
      d ++ (b ++ (LiveMarkup.access name digits ++ r)) := by
    simp
  rw [hspelled]
  refine ⟨fun vs hvs => ?_, fun hin => ?_⟩
  · have hr := (seam_access haccess halone).lexes_append hus
      ((lexes_access_append_iff haccess).mpr ⟨vs, rfl, hvs⟩)
    obtain ⟨ws, hws⟩ := (h _).1 _ hr
    exact ⟨ws ++ us ++ accessTokens name digits, by simpa using hws⟩
  · exact (h _).2 ((seam_access haccess halone).inString_append hus (hin.access_append haccess))

theorem ReadsAccess.of_restarts {d b : List Char} (h : ReadsAccess (d ++ b) name rest)
    (hd : Restarts d) : ReadsAccess b name rest := by
  refine ⟨fun hin => h.outside ((hd b).2 hin), fun us hus hlast => ?_, h.unreserved, h.apart⟩
  obtain ⟨ws, hws⟩ := (hd b).1 us hus
  refine h.noProperty _ hws ?_
  rw [List.getLast?_append, hlast]
  rfl

theorem attaches_of_append {d b : List Char} (h : attaches (d ++ b).getLast? = false) :
    attaches b.getLast? = false := by
  rcases b.eq_nil_or_concat with rfl | ⟨b, c, rfl⟩
  · rfl
  · rw [List.concat_eq_append] at h ⊢
    rwa [← List.append_assoc, List.getLast?_concat, ← List.getLast?_concat (l := b)] at h

section

variable (hlen : ∀ name items, scope.find? name = some (.array items) → items.length ≤ 2 ^ 53)
include hlen

/-- The index that an access reads is the item that its name is bound to. -/
theorem at?_namedItem (hdigits : ∀ c ∈ digits, c.isDigit = true)
    (h : namedItem? scope name digits = some (temp, value)) :
    ∃ target n, scope.find? (String.ofList name) = some target ∧ temp = itemName name n ∧
      target.at? (.number ((Decimal.read? digits).getD 0)) = .ok value := by
  obtain ⟨items, n, hfind, hn, rfl, rfl⟩ := namedItem?_eq_some h
  refine ⟨_, n, hfind, rfl, ?_⟩
  show Except.ok (((Value.array items).item? _).getD .undefined) = _
  rw [Decimal.item?_number_eq (hlen _ _ hfind) (List.all_eq_true.mpr hdigits) hn]

/-- The text that the search for accesses goes through becomes one with names of items. -/
theorem renamed_nameItemsFrom {text : List Char} (hreads : ReadsItems scope text) :
    ∀ {fuel : Nat} {previous : Option Char} {bound : List (String × Value)} {d b cs : List Char},
      text = d ++ b ++ cs → previous = (d ++ b).getLast? → Restarts d →
      (∀ temp value, NamesItem scope temp value →
        temp ∈ (nameItemsFrom scope fuel previous bound cs).2.map (·.1) →
          s'.find? temp = some value) →
      Renamed scope s' (b ++ cs) (b ++ (nameItemsFrom scope fuel previous bound cs).1)
  | 0, _, _, _, _, _, _, _, _, _ => .text
  | _ + 1, _, _, _, _, [], _, _, _, _ => .text
  | fuel + 1, previous, bound, d, b, c :: cs, htext, hprevious, hd, hfound => by
    unfold nameItemsFrom at hfound ⊢
    rcases hscan : scanFixedAccess (c :: cs) with _ | ⟨name, digits, rest⟩ <;>
      simp only [hscan] at hfound ⊢
    · have hrest := renamed_nameItemsFrom hreads (d := d) (b := b ++ [c]) (by simpa using htext)
        (by simp [← List.append_assoc]) hd hfound
      simpa using hrest
    obtain ⟨hcs, hword, hstart, hname, hne, hdigits⟩ := scanFixedAccess_eq_some hscan
    rcases hitem : (if attaches previous then none else namedItem? scope name digits) with
      _ | ⟨temp, item⟩ <;> simp only [hitem] at hfound ⊢
    · have hrest := renamed_nameItemsFrom hreads (d := d) (b := b ++ access name digits)
        (by simpa [hcs] using htext) (by simp [access, ← List.append_assoc]) hd hfound
      simpa [hcs, access] using hrest
    · split at hitem
      · cases hitem
      rename_i hattaches
      have halone : attaches (d ++ b).getLast? = false := by
        rwa [← hprevious, ← Bool.not_eq_true]
      have hreads' := hreads (d ++ b).length name digits rest (by simpa [htext] using hscan)
        (by rwa [htext, List.take_left]) (by rw [hitem]; rfl)
      rw [htext, List.take_left] at hreads'
      have hb := hreads'.of_restarts hd
      have haccess : IsAccess name digits := ⟨hword, hstart, hname, hb.unreserved, hne, hdigits⟩
      obtain ⟨target, n, htarget, rfl, hat⟩ := at?_namedItem hlen hdigits hitem
      rw [hcs]
      by_cases hlexes : ∃ us, Lexes b us
      · have hrest := renamed_nameItemsFrom hreads (d := d ++ (b ++ access name digits)) (b := [])
          (by simpa [hcs] using htext) (by simp [access, ← List.append_assoc])
          (hd.access hlexes (attaches_of_append halone) haccess) hfound
        exact .item (attaches_of_append halone) hb haccess htarget
          (hfound _ _ ⟨_, _, hitem⟩ (List.map_subset _ subset_nameItemsFrom (mem_keys_bind _ _ _)))
          hat hrest
      · exact .stuck (seam_access haccess (attaches_of_append halone))
          (seam_itemName (attaches_of_append halone)) hb.outside hlexes

end

/-! ## Evaluating -/

theorem Alike.mapError_eq {α β γ : Type} {r : α → β → Prop} {x : Except ExprError α}
    {y : Except ExprError β} {f : α → Except ExprError γ} {g : β → Except ExprError γ}
    (h : Alike r x y) (hfg : ∀ a b, r a b → f a = g b) :
    (x >>= f).mapError ExprError.kind = (y >>= g).mapError ExprError.kind := by
  cases h with
  | ok hab => exact congrArg _ (hfg _ _ hab)
  | error he => exact congrArg Except.error he

theorem evaluate_false (scope : Scope) (source : List Char) :
    evaluate false scope source = (parseExpr (normalize source) >>= fun e => e.eval scope) :=
  rfl

theorem evaluate_true {source : List Char} (h : (nameItems scope (normalize source)).2 ≠ []) :
    evaluate true scope source =
      (parseExpr (nameItems scope (normalize source)).1 >>= fun e =>
        e.eval ((nameItems scope (normalize source)).2.foldl
          (fun s (name, value) => s.set name value) scope.child)) := by
  unfold evaluate
  simp only [Bool.true_and]
  rw [if_pos (by simpa using h)]

/-- With its items named an expression has the same value, or fails in the same way. -/
theorem evaluate_namesItems {source : List Char}
    (hlen : ∀ name items, scope.find? name = some (.array items) → items.length ≤ 2 ^ 53)
    (hreads : ReadsItems scope (normalize source))
    (hfresh : ∀ ts, Lexes (normalize source) ts → ∀ x, .ident x ∈ ts →
      startsWith "__temp_".toList x.toList = false) :
    (evaluate true scope source).mapError ExprError.kind =
      (evaluate false scope source).mapError ExprError.kind := by
  have hnames : ∀ e ∈ (nameItems scope (normalize source)).2, NamesItem scope e.1 e.2 :=
    namesItem_of_mem_nameItemsFrom nofun
  let inner := (nameItems scope (normalize source)).2.foldl
    (fun s (name, value) => s.set name value) scope.child
  have hrenamed : Renamed scope inner (normalize source) (nameItems scope (normalize source)).1 := by
    have hfound : ∀ temp value, NamesItem scope temp value →
        temp ∈ (nameItems scope (normalize source)).2.map (·.1) → inner.find? temp = some value :=
      fun temp value htemp hmem =>
        find?_foldl_set_of_mem hmem (fun v hv => (hnames _ hv).unique htemp) scope.child
    exact renamed_nameItemsFrom hlen hreads (d := []) (b := []) rfl rfl restarts_nil hfound
  have hkept : ∀ ts, Lexes (normalize source) ts → ∀ x, .ident x ∈ ts →
      scope.find? x = inner.find? x := by
    intro ts hts x hx
    refine (find?_foldl_set_of_notMem (fun hmem => ?_) scope.child).symm
    obtain ⟨e, he, rfl⟩ := List.mem_map.mp hmem
    obtain ⟨name, digits, hitem⟩ := hnames e he
    obtain ⟨items, n, -, -, htemp, -⟩ := namedItem?_eq_some hitem
    have hstart := hfresh ts hts e.1 hx
    rw [htemp, itemName_toList, startsWith_iff.mpr ⟨_, rfl⟩] at hstart
    cases hstart
  have halike := (hrenamed.alike_parseExpr hkept).mapError_eq fun e e' he => he
  by_cases hbound : (nameItems scope (normalize source)).2 = []
  · have htrue : evaluate true scope source = evaluate false scope source := by
      unfold evaluate
      simp [hbound]
    rw [htrue]
  · rw [evaluate_true hbound, evaluate_false, halike]

/-- One array, under the name `items`. -/
def itemsScope : Scope :=
  ⟨[("items", .array [.string "a"])], []⟩

theorem find?_itemsScope (h : x ≠ "items") : itemsScope.find? x = none := by
  have hx : (x == "items") = false := by simpa using h
  simp [itemsScope, Scope.find?, List.lookup, hx]

theorem InString.not_lexes (h : InString cs) : ∀ us, ¬ Lexes cs us := by
  induction h with
  | here hb hq hopen =>
    intro us hus
    rcases (hus.of_blank_append hb).of_cons with ⟨hblank, -⟩ | ⟨t, us, rest, -, hs, -⟩
    · have hquote := (isTokenBlank_spec hblank).2.1
      rw [hq] at hquote
      cases hquote
    · rw [scanToken_of_open hq hopen] at hs
      cases hs
  | later hb hs _ ih =>
    intro us hus
    obtain ⟨us', -, hrest⟩ := (lexes_iff_of_scanToken hs).mp (hus.of_blank_append hb)
    exact ih us' hrest

/-- An access behind a text that can be read. -/
theorem ReadsAccess.of_tokenize {before : List Char} {l : List Lexeme}
    (hl : tokenize before = .ok l) (hdot : (l.map Lexeme.token).getLast? ≠ some (.symbol .dot))
    (hunreserved : Reserved.ofSpelling? (String.ofList name) = none)
    (hapart : ∀ c ∈ rest.head?, isIdentRest c = false) : ReadsAccess before name rest := by
  refine ⟨fun hin => hin.not_lexes _ (lexes_iff_tokenize.mpr ⟨l, hl, rfl⟩), fun us hus => ?_,
    hunreserved, hapart⟩
  obtain ⟨l', hl', rfl⟩ := lexes_iff_tokenize.mp hus
  rw [hl] at hl'
  cases hl'
  exact hdot

theorem readsItems_sum : ReadsItems itemsScope "items[0]+items[1]".toList := by
  intro n name digits rest hscan halone _
  have hplaces : ∀ n < 17, n ≠ 0 → n ≠ 9 →
      (scanFixedAccess ("items[0]+items[1]".toList.drop n)).isSome = true →
        attaches ("items[0]+items[1]".toList.take n).getLast? = true := by
    decide +kernel
  have hlt : n < 17 := by
    by_contra hge
    rw [List.drop_eq_nil_of_le (by simpa using hge)] at hscan
    cases hscan
  by_cases h0 : n = 0
  · subst h0
    have hfirst : scanFixedAccess ("items[0]+items[1]".toList.drop 0) =
        some ("items".toList, ['0'], "+items[1]".toList) := by decide +kernel
    rw [hscan] at hfirst
    cases hfirst
    have hapart : "+items[1]".toList.head? = some '+' := by decide +kernel
    refine .of_tokenize (l := []) rfl (by decide) (by decide) fun c hc => ?_
    rw [hapart] at hc
    cases hc
    decide
  · by_cases h9 : n = 9
    · subst h9
      have hsecond : scanFixedAccess ("items[0]+items[1]".toList.drop 9) =
          some ("items".toList, ['1'], []) := by decide +kernel
      have hbefore : "items[0]+items[1]".toList.take 9 = "items[0]+".toList := by decide +kernel
      rw [hscan] at hsecond
      cases hsecond
      rw [hbefore]
      exact .of_tokenize (l := [⟨.ident "items", 0, 5⟩, ⟨.symbol .openBracket, 5, 6⟩,
        ⟨.number "0", 6, 7⟩, ⟨.symbol .closeBracket, 7, 8⟩, ⟨.symbol .plus, 8, 9⟩]) (by rfl)
        (by decide) (by decide) nofun
    · rw [hplaces n hlt h0 h9 (by rw [hscan]; rfl)] at halone
      cases halone

theorem evaluate_namesItems_sum :
    (∀ name items, itemsScope.find? name = some (.array items) → items.length ≤ 2 ^ 53) ∧
      ReadsItems itemsScope (normalize "items[0]+items[1]".toList) ∧
      (∀ ts, Lexes (normalize "items[0]+items[1]".toList) ts → ∀ x, .ident x ∈ ts →
        startsWith "__temp_".toList x.toList = false) ∧
      (evaluate true itemsScope "items[0]+items[1]".toList).mapError ExprError.kind =
        (evaluate false itemsScope "items[0]+items[1]".toList).mapError ExprError.kind := by
  have hnormal : normalize "items[0]+items[1]".toList = "items[0]+items[1]".toList := by
    decide +kernel
  have hlen : ∀ name items, itemsScope.find? name = some (.array items) → items.length ≤ 2 ^ 53 := by
    intro name items hfind
    by_cases hname : name = "items"
    · subst hname
      cases hfind
      decide
    · rw [find?_itemsScope hname] at hfind
      cases hfind
  have hreads : ReadsItems itemsScope (normalize "items[0]+items[1]".toList) :=
    hnormal ▸ readsItems_sum
  have hfresh : ∀ ts, Lexes (normalize "items[0]+items[1]".toList) ts → ∀ x, .ident x ∈ ts →
      startsWith "__temp_".toList x.toList = false := by
    intro ts hts x hx
    obtain ⟨ls, hls, rfl⟩ := lexes_iff_tokenize.mp hts
    have htokens : tokenize "items[0]+items[1]".toList = .ok
        [⟨.ident "items", 0, 5⟩, ⟨.symbol .openBracket, 5, 6⟩, ⟨.number "0", 6, 7⟩,
          ⟨.symbol .closeBracket, 7, 8⟩, ⟨.symbol .plus, 8, 9⟩, ⟨.ident "items", 9, 14⟩,
          ⟨.symbol .openBracket, 14, 15⟩, ⟨.number "1", 15, 16⟩, ⟨.symbol .closeBracket, 16, 17⟩] := by
      rfl
    rw [hnormal, htokens] at hls
    cases hls
    obtain rfl : x = "items" := by simpa using hx
    decide
  exact ⟨hlen, hreads, hfresh, evaluate_namesItems hlen hreads hfresh⟩

/-- An access in a string is replaced as well. -/
theorem evaluate_namesItems_string :
    (∀ x, startsWith "__temp_".toList x.toList = true → itemsScope.find? x = none) ∧
      evaluate false itemsScope "'items[0]'".toList = .ok (.string "items[0]") ∧
      evaluate true itemsScope "'items[0]'".toList = .ok (.string "__temp_items_0") := by
  have hnormal : normalize "'items[0]'".toList = "'items[0]'".toList := by decide +kernel
  have hplain : parseExpr "'items[0]'".toList = .ok (.literal (.string "items[0]") ⟨0, 10⟩) := by cbv
  have hnamed : (nameItems itemsScope "'items[0]'".toList).1 = "'__temp_items_0'".toList := by
    decide +kernel
  have hbound : (nameItems itemsScope "'items[0]'".toList).2.isEmpty = false := by decide +kernel
  have hother : parseExpr "'__temp_items_0'".toList =
      .ok (.literal (.string "__temp_items_0") ⟨0, 16⟩) := by cbv
  refine ⟨fun x hx => find?_itemsScope ?_, ?_, ?_⟩
  · rintro rfl
    revert hx
    decide
  · rw [evaluate_false, hnormal, hplain]
    rfl
  · rw [evaluate_true (by rw [hnormal]; exact fun h => by rw [h] at hbound; cases hbound), hnormal, hnamed,
      hother]
    rfl

end LiveMarkup
