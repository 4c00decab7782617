import LiveMarkup.Proofs.Template.Recovery
import LiveMarkup.Proofs.Template.Rounds

/-!
# Strings in the headers of directives

The header of a condition is read with its strings, but the closer is found by counting openers and
closers whatever they stand in (`scanBlock_counts`), and the header of a loop ends at the first
brace.  So a condition with any strings is compiled as it is written just if what opens and closes in
them belongs to each other, and an array just if it has no closing brace and nothing opens in it
(`compile_header_iff`).
-/

namespace LiveMarkup

open Text

variable {s t u cs : List Char} {kind : DirectiveKind} {depth : Nat} {c : Char}

/-! ## Counting openers and closers -/

/-- How many directives of a kind open in a text. -/
def openerCount (kind : DirectiveKind) (s : List Char) : Nat :=
  s.tails.countP fun t => (opener? kind t).isSome

/-- How many directives of a kind close in a text. -/
def closerCount (kind : DirectiveKind) (s : List Char) : Nat :=
  s.tails.countP fun t => startsWith kind.closer t

/-- Openers and closers belong to each other: there are as many of both, and behind no place are there
more openers than closers. -/
def Paired (kind : DirectiveKind) (s : List Char) : Prop :=
  closerCount kind s = openerCount kind s ∧ ∀ t ∈ s.tails, openerCount kind t ≤ closerCount kind t

instance (kind : DirectiveKind) (s : List Char) : Decidable (Paired kind s) :=
  inferInstanceAs (Decidable (_ ∧ _))

theorem openerCount_cons : openerCount kind (c :: s) =
    openerCount kind s + if (opener? kind (c :: s)).isSome then 1 else 0 := by
  rw [openerCount, List.tails_cons, List.countP_cons, ← openerCount]

theorem closerCount_cons : closerCount kind (c :: s) =
    closerCount kind s + if startsWith kind.closer (c :: s) then 1 else 0 := by
  rw [closerCount, List.tails_cons, List.countP_cons, ← closerCount]

theorem openerCount_nil : openerCount kind [] = 0 := by
  cases kind <;> rfl

theorem closerCount_nil : closerCount kind [] = 0 := by
  cases kind <;> rfl

theorem openerCount_le_of_suffix (h : t <:+ s) : openerCount kind t ≤ openerCount kind s := by
  induction s with
  | nil => rw [List.suffix_nil.mp h]
  | cons c s ih =>
    rcases List.suffix_cons_iff.mp h with rfl | h
    · exact le_rfl
    · rw [openerCount_cons]
      exact (ih h).trans (Nat.le_add_right _ _)

theorem closerCount_eq_zero (h : '\x7d' ∉ s) : closerCount kind s = 0 := by
  refine List.countP_eq_zero.mpr fun t ht hc => ?_
  obtain ⟨rest, rfl⟩ := startsWith_iff.mp hc
  have hbrace : '\x7d' ∈ kind.closer := by cases kind <;> decide
  exact h (((List.mem_tails _ _).mp ht).subset (List.mem_append_left rest hbrace))

theorem paired_of_none (ho : openerCount kind s = 0) (hc : closerCount kind s = 0) : Paired kind s := by
  refine ⟨hc.trans ho.symm, fun t ht => ?_⟩
  have hle : openerCount kind t ≤ openerCount kind s := openerCount_le_of_suffix ((List.mem_tails _ _).mp ht)
  omega

theorem not_closer_of_opener (h : (opener? kind cs).isSome = true) : startsWith kind.closer cs = false := by
  obtain ⟨r, hr⟩ := Option.isSome_iff_exists.mp h
  rw [startsWith, opener?_eq hr,
    after?_of_ne (closer_mem kind) (opener_mem kind) (by cases kind <;> decide), Option.isSome_none]

/-! ## The end of a directive -/

/-- The scan for the end of a directive goes on at the next character, one deeper behind an opener and
one less deep at a closer, or the closer is the one that it looks for. -/
theorem scanBlock_cons (kind : DirectiveKind) (c : Char) (cs : List Char) (hdepth : 1 ≤ depth) :
    (∃ d, 1 ≤ d ∧ d + (if startsWith kind.closer (c :: cs) then 1 else 0) =
        depth + (if (opener? kind (c :: cs)).isSome then 1 else 0) ∧
      scanBlock kind depth (c :: cs) = (scanBlock kind d cs).map fun (a, b) => (c :: a, b)) ∨
    (depth = 1 ∧ (opener? kind (c :: cs)).isSome = false ∧ startsWith kind.closer (c :: cs) = true ∧
      ∃ rest, scanBlock kind depth (c :: cs) = some ([], rest)) := by
  rw [scanBlock]
  rcases ho : (opener? kind (c :: cs)).isSome with _ | _
  · rw [if_neg Bool.false_ne_true]
    rcases hc : after? kind.closer (c :: cs) with _ | rest
    · have hclose : startsWith kind.closer (c :: cs) = false := by rw [startsWith, hc]; rfl
      exact .inl ⟨depth, hdepth, by rw [hclose]; rfl, rfl⟩
    · have hclose : startsWith kind.closer (c :: cs) = true := by rw [startsWith, hc]; rfl
      by_cases hd : depth ≤ 1
      · exact .inr ⟨by omega, rfl, hclose, rest, if_pos hd⟩
      · refine .inl ⟨depth - 1, by omega, ?_, if_neg hd⟩
        rw [hclose]
        simp
        omega
  · rw [if_pos rfl]
    exact .inl ⟨depth + 1, by omega, by rw [not_closer_of_opener ho]; rfl, rfl⟩

/-- What opens or closes in a text does so whatever follows. -/
def ReadAlone (kind : DirectiveKind) (u s : List Char) : Prop :=
  ∀ c t, c :: t <:+ s → (opener? kind (c :: (t ++ u))).isSome = (opener? kind (c :: t)).isSome ∧
    startsWith kind.closer (c :: (t ++ u)) = startsWith kind.closer (c :: t)

/-- The scan for the end of a directive comes to the end of a text, as deep as more directives have
opened than closed, or it stops where one more has closed. -/
theorem scanBlock_counts : ∀ {s : List Char} {depth : Nat}, ReadAlone kind u s → 1 ≤ depth →
    (∃ d, depth + openerCount kind s = d + closerCount kind s ∧
      (∀ t, t <:+ s → 1 + openerCount kind t ≤ d + closerCount kind t) ∧
      scanBlock kind depth (s ++ u) = (scanBlock kind d u).map fun (a, b) => (s ++ a, b)) ∨
    (∃ t, t <:+ s ∧
      depth + openerCount kind s + closerCount kind t = closerCount kind s + openerCount kind t) ∧
      ∃ a b, scanBlock kind depth (s ++ u) = some (a, b) ∧ a.length < s.length
  | [], depth, _, hdepth => by
    refine .inl ⟨depth, by rw [openerCount_nil, closerCount_nil], fun t ht => ?_, by simp⟩
    rw [List.suffix_nil.mp ht, openerCount_nil, closerCount_nil]
    omega
  | c :: s, depth, hs, hdepth => by
    have hs' : ReadAlone kind u s := fun c' t ht => hs c' t (ht.trans (List.suffix_cons c s))
    obtain ⟨hopen, hclose⟩ := hs c s List.suffix_rfl
    rw [List.cons_append, openerCount_cons, closerCount_cons, ← hopen, ← hclose]
    rcases scanBlock_cons kind c (s ++ u) hdepth with
      ⟨d, hd, hcount, hscan⟩ | ⟨hone, ho, hc, rest, hscan⟩
    · rw [hscan]
      rcases scanBlock_counts hs' hd with ⟨d', hd', hpass, hrest⟩ | ⟨⟨t, ht, hstop⟩, a, b, hrest, hlen⟩
      · refine .inl ⟨d', by omega, fun t ht => ?_, ?_⟩
        · rcases List.suffix_cons_iff.mp ht with rfl | ht
          · rw [openerCount_cons, closerCount_cons, ← hopen, ← hclose]
            omega
          · exact hpass t ht
        · rw [hrest, Option.map_map]
          rfl
      · refine .inr ⟨⟨t, ht.trans (List.suffix_cons c s), by omega⟩, c :: a, b, ?_, ?_⟩
        · rw [hrest]
          rfl
        · rw [List.length_cons, List.length_cons]
          omega
    · refine .inr ⟨⟨s, List.suffix_cons c s, ?_⟩, [], rest, hscan, by simp⟩
      rw [ho, hc]
      simp
      omega

/-- The closer of a directive is found at its end just if what opens and closes in between belongs to
each other.  If not, none is found, or one before. -/
theorem scanBlock_between {before after r : List Char} (hbefore : '\x7b' ∉ before) (hafter : '\x7b' ∉ after)
    (hs : ReadAlone kind (after ++ kind.closer) s) (hr : r = before ++ (s ++ (after ++ kind.closer))) :
    (Paired kind s ∧ scanBlock kind 1 r = some (before ++ (s ++ after), [])) ∨
    (¬ Paired kind s ∧ (closerCount kind s = 0 → scanBlock kind 1 r = none) ∧
      ∀ a b, scanBlock kind 1 r = some (a, b) → a.length < before.length + s.length) := by
  have hskip : Skips kind 1 (s ++ (after ++ kind.closer)) before := skips_of_no_brace hbefore
  rw [hr, hskip]
  rcases scanBlock_counts hs le_rfl with ⟨d, hd, hpass, hscan⟩ | ⟨⟨t, ht, hstop⟩, a, b, hscan, hlen⟩
  · have hend : scanBlock kind d (after ++ kind.closer) = if d ≤ 1 then some (after, []) else none := by
      have hskip : Skips kind d (kind.closer ++ []) after := skips_of_no_brace hafter
      rw [Skips, List.append_nil] at hskip
      have hcloser : scanBlock kind d (kind.closer ++ []) = _ := scanBlock_closer
      rw [List.append_nil] at hcloser
      rw [hskip, hcloser]
      split
      · simp
      · simp [scanBlock]
    rw [hscan, hend]
    by_cases hle : d ≤ 1
    · refine .inl ⟨⟨?_, fun t ht => ?_⟩, by rw [if_pos hle]; rfl⟩
      · have := hpass [] List.nil_suffix
        rw [openerCount_nil, closerCount_nil] at this
        omega
      · have := hpass t ((List.mem_tails _ _).mp ht)
        omega
    · rw [if_neg hle]
      refine .inr ⟨fun hb => ?_, fun _ => rfl, fun _ _ h => by cases h⟩
      have := hb.1
      omega
  · refine .inr ⟨fun hb => ?_, fun hzero => ?_, fun a' b' h => ?_⟩
    · have := hb.1
      have := hb.2 t ((List.mem_tails _ _).mpr ht)
      omega
    · have hle : openerCount kind t ≤ openerCount kind s := openerCount_le_of_suffix ht
      omega
    · rw [hscan] at h
      cases h
      rw [List.length_append]
      omega

/-! ## Headers are read alone -/

theorem after?_append_of_not_mem {m y : List Char} (h : c ∉ m) :
    after? m (y ++ c :: u) = (after? m y).map (· ++ c :: u) := by
  induction m generalizing y with
  | nil => rfl
  | cons a m ih =>
    rw [List.mem_cons, not_or] at h
    rcases y with _ | ⟨b, y⟩
    · simp [after?, Ne.symm h.1]
    · rw [List.cons_append, after?, after?, ih h.2]
      split <;> rfl

theorem startsWith_append_of_not_mem {m y : List Char} (h : c ∉ m) :
    startsWith m (y ++ c :: u) = startsWith m y := by
  rw [startsWith, startsWith, after?_append_of_not_mem h, Option.isSome_map]

theorem head?_dropWhile_append {p : Char → Bool} {y : List Char} (hp : p c = false) {d : Char} (hd : d ≠ c) :
    ((y ++ c :: u).dropWhile p).head? = some d ↔ (y.dropWhile p).head? = some d := by
  induction y with
  | nil =>
    rw [List.nil_append, List.dropWhile_cons_of_neg (by simp [hp])]
    simp [Ne.symm hd]
  | cons b y ih =>
    by_cases hb : p b = true
    · rw [List.cons_append, List.dropWhile_cons_of_pos hb, List.dropWhile_cons_of_pos hb, ih]
    · rw [List.cons_append, List.dropWhile_cons_of_neg hb, List.dropWhile_cons_of_neg hb]
      rfl

/-- A parenthesis ends what opens or closes. -/
theorem readAlone_condition : ReadAlone .condition (')' :: u) s := by
  intro c t _
  rw [← List.cons_append, startsWith_append_of_not_mem (by decide), opener?, opener?,
    after?_append_of_not_mem (by decide)]
  refine ⟨?_, rfl⟩
  rcases after? DirectiveKind.condition.opener (c :: t) with _ | r
  · rfl
  · have hhead := head?_dropWhile_append (y := r) (u := u) (show isBlank ')' = false by decide)
      (show '(' ≠ ')' by decide)
    simp only [Option.map_some, Option.filter_some, hhead]
    split <;> simp

/-- A blank ends what opens or closes. -/
theorem readAlone_loop : ReadAlone .loop u (s ++ [' ']) := by
  intro c t ht
  rcases List.suffix_concat_iff.mp ht with h | ⟨y, hy, -⟩
  · cases h
  rw [← List.cons_append, hy, List.append_assoc, List.singleton_append,
    startsWith_append_of_not_mem (by decide), startsWith_append_of_not_mem (by decide), opener?, opener?,
    after?_append_of_not_mem (by decide), after?_append_of_not_mem (by decide)]
  refine ⟨?_, rfl⟩
  rcases after? DirectiveKind.loop.opener y with _ | r
  · rfl
  · have hhead : (r ++ ' ' :: u).head? = (r ++ [' ']).head? := by cases r <;> rfl
    simp only [Option.map_some, Option.filter_some, hhead]
    split <;> rfl

/-! ## Compilation -/

variable {o : CompileOptions} {source gap body test array item : List Char} {compiled : Compiled}

/-- Nothing is wrong with the directives of a template. -/
def Compiled.Clean (o : CompileOptions) (compiled : Compiled) : Prop :=
  compiled.warnings = if o.checkExpressions then compiled.template.check else []

theorem compile_of_yields {f : Findings} {out : List Char} (hwarnings : f.warnings = [])
    (h : Yields source { names := .ofPath o.path } out f) :
    ∃ compiled, compile o source = .ok compiled ∧ compiled.Clean o ∧ compiled.template =
      o.applyScope ⟨String.ofList (bindMarkup out), f.conditions, f.loops, none⟩ := by
  rw [compile, h _ 0 (Nat.lt_succ_self _), ok_bind]
  refine ⟨_, rfl, ?_, rfl⟩
  rw [Compiled.Clean, hwarnings]
  rfl

/-- If a directive that starts a text is not opened, then the compilation fails or warns of it. -/
theorem not_clean_of_not_opens {r : List Char} (ho : opener? kind source = some r)
    (hn : ∀ body rest, ¬ Opens source body rest) (h : compile o source = .ok compiled) :
    ¬ compiled.Clean o := by
  rcases source with _ | ⟨c, cs⟩
  · cases kind <;> cases ho
  unfold compile at h
  obtain ⟨⟨skeleton, f⟩, hfrom, h⟩ := bind_eq_ok_iff.mp h
  cases h
  intro hclean
  have hwarnings : f.warnings = [] := List.append_left_eq_self.mp hclean
  rw [compileFrom, directive?_eq_some_iff.mpr ho] at hfrom
  simp only at hfrom
  rcases hop : openDirective kind 0 r with e | w | ⟨opened, rest⟩ <;> rw [hop] at hfrom
  · cases hfrom
  · rw [ok_bind] at hfrom
    obtain ⟨⟨out, f'⟩, h1, h2⟩ := bind_eq_ok_iff.mp hfrom
    cases h2
    have hprefix := warnings_of_compileFrom h1
    rw [hwarnings, List.prefix_nil] at hprefix
    cases hprefix
  · exact hn _ _ ((opens_iff 0 ho).mpr ⟨opened, hop, rfl⟩)

theorem yields_of_no_brace {f : Findings} (h : '\x7b' ∉ body) : Yields body f body f := by
  have hyields := (Yields.nil f).pass (s := body) fun kind => passes_of_no_brace (opener_mem kind) h
  rwa [List.append_nil] at hyields

/-! ## Conditions -/

theorem blocks_of_no_brace {group : String} (h : '\x7b' ∉ body) :
    blocks group test body = ([⟨.first, some (String.ofList test), blockContent body⟩], []) := by
  rw [blocks, blocksFrom, findBranch?_nil_of_passes (passes_of_no_brace branchOpener_mem h)]
  rfl

theorem applyScope_conditions {t : Template} {name : String} {b : Block} (h : t.conditions = [⟨name, [b]⟩]) :
    ∃ content, (o.applyScope t).conditions = [⟨name, [{ b with content }]⟩] := by
  rcases o.applyScope_cases t with heq | ⟨path, heq⟩ <;> rw [heq]
  · exact ⟨b.content, h⟩
  · exact ⟨_, by rw [Template.scopeClasses, h]; rfl⟩

section

variable (hgap : ∀ c ∈ gap, isAsciiBlank c = true) (hbody : '\x7b' ∉ body) (htest : HeaderText test)
  (hne : trim test ≠ [])
include hgap hbody htest hne

/-- A condition is opened just if what opens and closes in it belongs to each other. -/
theorem compile_condition_iff (o : CompileOptions) :
    (∃ compiled name content,
      compile o ((Directive.group test (.text body) .done).source gap) = .ok compiled ∧
        compiled.Clean o ∧ compiled.template.conditions =
          [⟨name, [⟨.first, some (String.ofList (trim test)), content⟩]⟩]) ↔ Paired .condition test := by
  set r := testHeader gap test ++ (body ++ DirectiveKind.condition.closer) with hr
  have hsource : (Directive.group test (.text body) .done).source gap =
      DirectiveKind.condition.opener ++ r := by
    simp [Directive.source, Outline.source, Branches.source, hr]
  have hopen : opener? .condition (DirectiveKind.condition.opener ++ r) = some r := opener?_testHeader hgap
  have hheader : conditionHeader? r =
      some (trim test, testHeader gap test, body ++ DirectiveKind.condition.closer) :=
    conditionHeader?_headerText htest hne hgap
  have hbefore : '\x7b' ∉ gap ++ ['('] := by
    rw [List.mem_append, not_or]
    exact ⟨fun hmem => absurd (hgap _ hmem) (by decide), by decide⟩
  have hafter : '\x7b' ∉ ')' :: '\x7d' :: body := by simpa using hbody
  rw [hsource]
  rcases scanBlock_between (r := r) hbefore hafter (readAlone_condition (s := test))
    (by simp [hr, testHeader]) with ⟨hpaired, hscan⟩ | ⟨hpaired, -, hscan⟩
  · refine iff_of_true ?_ hpaired
    have hinside : gap ++ ['('] ++ (test ++ ')' :: '\x7d' :: body) = testHeader gap test ++ body := by
      simp [testHeader]
    rw [hinside] at hscan
    have hyields := Yields.group (f := { names := .ofPath o.path }) hopen
      (fun pos => openDirective_of_conditionHeader pos hscan hheader) (yields_of_no_brace hbody)
      (blocks_of_no_brace hbody) (.nil _)
    obtain ⟨compiled, hcompile, hclean, htemplate⟩ := compile_of_yields rfl hyields
    obtain ⟨content, hcontent⟩ := applyScope_conditions (o := o) (t := ⟨_, _, _, none⟩) rfl
    exact ⟨compiled, _, content, hcompile, hclean, htemplate ▸ hcontent⟩
  · refine iff_of_false ?_ hpaired
    rintro ⟨compiled, -, -, hcompile, hclean, -⟩
    refine not_clean_of_not_opens hopen (fun body' rest hopens => ?_) hcompile hclean
    -- a closer that is found lies in the header, so the header does not end before it
    cases hopens with
    | condition ho hs hc =>
      rw [hopen, Option.some.injEq] at ho
      subst ho
      rw [hheader, Option.some.injEq] at hc
      cases hc
      have hlen := hscan _ _ hs
      simp only [testHeader, List.length_append, List.length_cons] at hlen
      omega
    | loop ho =>
      rw [opener?_condition_of_loop ho] at hopen
      cases hopen

end

/-! ## Loops -/

theorem subset_of_loopHeader? {header : List Char} (h : loopHeader? header = some (array, item)) :
    array ⊆ header := by
  simp only [loopHeader?] at h
  split at h
  · rename_i before heq
    have hbefore : before ⊆ header := fun c hc => by
      have hmem : c ∈ 's' :: 'a' :: before := by simp [hc]
      rw [← heq] at hmem
      exact List.mem_reverse.mp ((List.dropWhile_suffix _).subset
        ((List.dropWhile_suffix _).subset ((List.dropWhile_suffix _).subset hmem)))
    split_ifs at h
    · cases h
      exact List.nil_subset _
    · cases h
      exact fun c hc => hbefore ((List.dropWhile_suffix _).subset
        (List.mem_reverse.mp ((List.dropWhile_suffix _).subset hc)))
  · cases h

/-- No array that is read has a closing brace. -/
theorem arrays_of_compileFrom : ∀ {fuel pos : Nat} {cs out : List Char} {f f' : Findings},
    compileFrom fuel pos cs f = .ok (out, f') → (∀ l ∈ f.loops, '\x7d' ∉ l.array.toList) →
      ∀ l ∈ f'.loops, '\x7d' ∉ l.array.toList
  | 0, _, _, _, _, _, h, hf => by
    cases h
    exact hf
  | _ + 1, _, [], _, _, _, h, hf => by
    cases h
    exact hf
  | fuel + 1, pos, c :: cs, out, f, f', h, hf => by
    cases compileFrom_round h with
    | pass _ h1 => exact arrays_of_compileFrom h1 hf
    | condition _ _ h1 h2 =>
      have hbody := arrays_of_compileFrom h1 hf
      exact arrays_of_compileFrom h2 hbody
    | loop _ hfree hh h1 h2 =>
      have hbody := arrays_of_compileFrom h1 hf
      refine arrays_of_compileFrom h2 fun l hl => ?_
      rcases List.mem_append.mp hl with hl | hl
      · exact hbody l hl
      · rw [List.mem_singleton.mp hl, String.toList_ofList]
        exact fun hmem => hfree (subset_of_loopHeader? hh hmem)

theorem arrays_applyScope (o : CompileOptions) (t : Template) :
    (o.applyScope t).loops.map LoopDefinition.array = t.loops.map LoopDefinition.array := by
  rcases o.applyScope_cases t with h | ⟨path, h⟩ <;> rw [h]
  simp [Template.scopeClasses, Function.comp_def]

theorem arrays_of_compile (h : compile o source = .ok compiled) {array : String}
    (ha : array ∈ compiled.template.loops.map LoopDefinition.array) : '\x7d' ∉ array.toList := by
  unfold compile at h
  obtain ⟨⟨skeleton, f⟩, hfrom, h⟩ := bind_eq_ok_iff.mp h
  cases h
  rw [arrays_applyScope] at ha
  obtain ⟨l, hl, rfl⟩ := List.mem_map.mp ha
  exact arrays_of_compileFrom hfrom nofun l hl

theorem applyScope_loops {t : Template} {l : LoopDefinition} (h : t.loops = [l]) :
    ∃ content, (o.applyScope t).loops = [{ l with content }] := by
  rcases o.applyScope_cases t with heq | ⟨path, heq⟩ <;> rw [heq]
  · exact ⟨l.content, h⟩
  · exact ⟨_, by rw [Template.scopeClasses, h]; rfl⟩

section

variable (hbody : '\x7b' ∉ body) (hne : trim array ≠ []) (hline : '\n' ∉ array)
  (hitem : isIdentifier item = true)
include hbody hne hline hitem

/-- A loop is opened just if no brace closes in its array, and no loop opens in it. -/
theorem compile_loop_iff (o : CompileOptions) :
    (∃ compiled name content,
      compile o ((Directive.loop array item (.text body)).source gap) = .ok compiled ∧
        compiled.Clean o ∧ compiled.template.loops =
          [⟨name, String.ofList (trim array), String.ofList item, content⟩]) ↔
      '\x7d' ∉ array ∧ openerCount .loop (array ++ [' ']) = 0 := by
  set r := loopHeader array item ++ '\x7d' :: (body ++ DirectiveKind.loop.closer) with hr
  have hsource : (Directive.loop array item (.text body)).source gap = DirectiveKind.loop.opener ++ r := by
    simp [Directive.source, Outline.source, hr]
  have hopen : opener? .loop (DirectiveKind.loop.opener ++ r) = some r := opener?_loopHeader
  rw [hsource]
  by_cases hbrace : '\x7d' ∈ array
  · refine iff_of_false ?_ fun h => h.1 hbrace
    rintro ⟨compiled, name, content, hcompile, -, hloops⟩
    have hfree : '\x7d' ∉ (String.ofList (trim array)).toList :=
      arrays_of_compile hcompile (by rw [hloops]; simp)
    rw [String.toList_ofList] at hfree
    rcases mem_trim_or_isBlank hbrace with hmem | hblank
    · exact hfree hmem
    · exact absurd hblank (by decide)
  rw [and_iff_right hbrace]
  have hclosings : closerCount .loop (array ++ [' ']) = 0 := closerCount_eq_zero (by simpa using hbrace)
  have hafter : '\x7b' ∉ "as ".toList ++ (item ++ '\x7d' :: body) := by
    simp only [List.mem_append, List.mem_cons, not_or]
    exact ⟨by decide, not_mem_of_isIdentifier hitem (by decide), by decide, hbody⟩
  have hbefore : '\x7b' ∉ [' '] := by decide
  rcases scanBlock_between (r := r) hbefore hafter (readAlone_loop (s := array))
    (by simp [hr, loopHeader]) with ⟨hpaired, hscan⟩ | ⟨hpaired, hscan, -⟩
  · refine iff_of_true ?_ (hpaired.1.symm.trans hclosings)
    have hinside : [' '] ++ (array ++ [' '] ++ ("as ".toList ++ (item ++ '\x7d' :: body))) =
        loopHeader array item ++ '\x7d' :: body := by
      simp [loopHeader]
    rw [hinside] at hscan
    have hheader : '\x7d' ∉ loopHeader array item :=
      not_mem_loopHeader hbrace hitem (by decide) (by decide)
    have hyields := Yields.loop (f := { names := .ofPath o.path }) hopen
      (fun pos => openDirective_of_loopHeader pos hscan hheader (loopHeader?_eq hne hline hitem))
      (yields_of_no_brace hbody) (.nil _)
    obtain ⟨compiled, hcompile, hclean, htemplate⟩ := compile_of_yields rfl hyields
    obtain ⟨content, hcontent⟩ := applyScope_loops (o := o) (t := ⟨_, _, _, none⟩) rfl
    exact ⟨compiled, _, content, hcompile, hclean, htemplate ▸ hcontent⟩
  · refine iff_of_false ?_ fun hzero => hpaired (paired_of_none hzero hclosings)
    rintro ⟨compiled, -, -, hcompile, hclean, -⟩
    refine not_clean_of_not_opens hopen (fun body' rest hopens => ?_) hcompile hclean
    cases hopens with
    | condition ho =>
      rw [opener?_condition_of_loop hopen] at ho
      cases ho
    | loop ho hs =>
      rw [hopen, Option.some.injEq] at ho
      subst ho
      rw [hscan hclosings] at hs
      cases hs

end

/-- What is written in the strings of a header makes no difference to a condition if what opens and
closes there belongs to each other, and none to a loop if no brace closes and no loop opens there.
Otherwise the directive is not compiled as it is written, or a warning tells of it. -/
theorem compile_header_iff (o : CompileOptions) (hgap : ∀ c ∈ gap, isAsciiBlank c = true)
    (hbody : '\x7b' ∉ body) :
    (∀ test, HeaderText test → trim test ≠ [] →
      ((∃ compiled name content,
        compile o ((Directive.group test (.text body) .done).source gap) = .ok compiled ∧
          compiled.Clean o ∧ compiled.template.conditions =
            [⟨name, [⟨.first, some (String.ofList (trim test)), content⟩]⟩]) ↔ Paired .condition test)) ∧
    ∀ array item, trim array ≠ [] → '\n' ∉ array → isIdentifier item = true →
      ((∃ compiled name content,
        compile o ((Directive.loop array item (.text body)).source gap) = .ok compiled ∧
          compiled.Clean o ∧ compiled.template.loops =
            [⟨name, String.ofList (trim array), String.ofList item, content⟩]) ↔
        '\x7d' ∉ array ∧ openerCount .loop (array ++ [' ']) = 0) :=
  ⟨fun _ htest hne => compile_condition_iff hgap hbody htest hne o,
    fun _ _ hne hline hitem => compile_loop_iff hbody hne hline hitem o⟩

/-- Delimiters and an escaped quote in the strings of a condition, and words of a header in the string
of an array. -/
theorem compile_header_iff_delimiters :
    (∃ compiled name content,
      compile {} "\x7b@if('\x7b@if(\\')\x7d'+\"\x7b/if\x7d\" )\x7dy\x7b/if\x7d".toList = .ok compiled ∧
        compiled.warnings = [] ∧ compiled.template.conditions =
          [⟨name, [⟨.first, some "'\x7b@if(\\')\x7d'+\"\x7b/if\x7d\"", content⟩]⟩]) ∧
    ∃ compiled name content,
      compile {} "\x7b@loop xs['\x7b@if(] as y'] as x\x7dy\x7b/loop\x7d".toList = .ok compiled ∧
        compiled.warnings = [] ∧ compiled.template.loops =
          [⟨name, "xs['\x7b@if(] as y']", "x", content⟩] := by
  have hopener : StringRest '\'' "\x7b@if(\\')\x7d'".toList := by
    repeat first | exact .close | refine .escape _ ?_ | refine .char (by decide) (by decide) ?_
  have hcloser : StringRest '"' "\x7b/if\x7d\"".toList := by
    repeat first | exact .close | refine .char (by decide) (by decide) ?_
  have htest : HeaderText "'\x7b@if(\\')\x7d'+\"\x7b/if\x7d\" ".toList :=
    .string (by decide) hopener (.char (by decide) (.string (by decide) hcloser
      (.char (by decide) .nil)))
  have hgap : ∀ c ∈ ([] : List Char), isAsciiBlank c = true := nofun
  have hbody : '\x7b' ∉ ['y'] := by decide
  obtain ⟨hcondition, hloop⟩ := compile_header_iff {} hgap hbody
  obtain ⟨c, name, content, h1, h2, h3⟩ := (hcondition _ htest (by decide)).mpr (by decide +kernel)
  obtain ⟨c', name', content', h1', h2', h3'⟩ :=
    (hloop "xs['\x7b@if(] as y']".toList ['x'] (by decide) (by decide) (by decide)).mpr
      ⟨by decide, by decide +kernel⟩
  exact ⟨⟨c, name, content, h1, h2, h3⟩, c', name', content', h1', h2', h3'⟩

/-- The brace in the string ends the header of the loop. -/
theorem compile_stops_at_brace_in_string :
    ∃ compiled, compile {} "\x7b@loop groups['\x7d'] as x\x7dy\x7b/loop\x7d".toList = .ok compiled ∧
      compiled.template.loops = [] ∧
      compiled.warnings = [.malformed .loop "\x7b@loop groups['\x7d'] as x\x7dy" 0] :=
  ⟨_, by cbv, rfl, rfl⟩

end LiveMarkup
