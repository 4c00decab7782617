import LiveMarkup.Proofs.Expr.Accepted
import LiveMarkup.Proofs.Expr.Partition

/-!
# Spans

A node of a tree is derived from the tokens between the ends of its span, and the nodes right below
it from parts of them that lie apart (`Derives.owns`).  What is derived does not depend on where the
tokens stand (`Derives.relocate`), so the text of a span is read as the node itself, but for its
place (`spans_faithful`).
-/

namespace LiveMarkup

open Text

variable {ts us vs : List Lexeme} {parts : List (List Lexeme)} {c : Category} {e k n : Expr}
  {cs : List Char} {f : Nat → Nat} {pos : Nat}

/-! ## Nodes -/

/-- The nodes right below a node, in the order of the text. -/
def Expr.children : Expr → List Expr
  | literal _ _ | ident _ _ => []
  | member e _ _ | unary _ e _ => [e]
  | index e k _ => [e, k]
  | binary _ l r _ => [l, r]
  | conditional t a b _ => [t, a, b]

/-- A node of a tree. -/
inductive Expr.IsNode (n : Expr) : Expr → Prop where
  | self : IsNode n n
  | under {k e : Expr} : k ∈ e.children → IsNode n k → IsNode n e

/-- Lists that stand in a list one after the other, with others between them. -/
inductive Interspersed : List (List Lexeme) → List Lexeme → Prop where
  | nil (ts : List Lexeme) : Interspersed [] ts
  | cons (ts us : List Lexeme) {vs : List Lexeme} {parts : List (List Lexeme)} :
    Interspersed parts vs → Interspersed (us :: parts) (ts ++ (us ++ vs))

theorem Interspersed.isInfix (h : Interspersed parts ts) : ∀ us ∈ parts, us <:+: ts := by
  induction h with
  | nil => simp
  | @cons ts us vs parts _ ih =>
    refine List.forall_mem_cons.mpr ⟨⟨ts, vs, List.append_assoc ..⟩, fun p hp => ?_⟩
    exact (ih p hp).trans ((List.suffix_append us vs).trans (List.suffix_append ts _)).isInfix

theorem Interspersed.pairwise {R : Lexeme → Lexeme → Prop} (h : Interspersed parts ts)
    (hts : ts.Pairwise R) : parts.Pairwise fun us vs => ∀ l ∈ us, ∀ l' ∈ vs, R l l' := by
  induction h with
  | nil => exact .nil
  | cons ts us hrest ih =>
    obtain ⟨-, hts, -⟩ := List.pairwise_append.mp hts
    obtain ⟨-, hvs, hcross⟩ := List.pairwise_append.mp hts
    exact .cons (fun p hp l hl l' hl' => hcross l hl l' ((hrest.isInfix p hp).subset hl')) (ih hvs)

/-! ## The tokens of a node -/

theorem Derives.level_le {m : Nat} (h : Derives (.level m) ts e) : m ≤ operatorTable.length := by
  cases h with
  | tighter hm _ => exact hm.le
  | binary hrow => exact (List.getElem?_eq_some_iff.mp hrow).1.le
  | level => exact Nat.le_refl _

theorem Derives.choice_of_level {m : Nat} (h : Derives (.level m) ts e) : Derives .choice ts e := by
  induction m with
  | zero => exact .choice h
  | succ m ih => exact ih (.tighter h.level_le h)

theorem Derives.to_choice (h : Derives c ts e) : Derives .choice ts e := by
  cases c with
  | choice => exact h
  | level m => exact h.choice_of_level
  | unary => exact h.level.choice_of_level
  | access => exact h.noPrefix.level.choice_of_level
  | operand => exact h.choice_of_operand

/-- Tokens from which a node is derived, with its span from the first to the last of them, and those
of the nodes right below it among them. -/
structure Owns (us : List Lexeme) (n : Expr) : Prop where
  derives : Derives .choice us n
  span : n.span = spanOf us
  children : ∃ parts, Interspersed parts us ∧ List.Forall₂ (Derives .choice) parts n.children

/-- Of the tokens of an expression the node owns all but the groups around it. -/
theorem Derives.owns (h : Derives c ts e) : ∃ us, us <:+: ts ∧ Owns us e := by
  induction h with
  | choice _ ih | tighter _ _ ih | level _ ih | noPrefix _ ih | access _ ih => exact ih
  | @conditional ts as bs _ _ _ question colon ht hq ha hk hb =>
    refine ⟨_, List.infix_rfl, .conditional ht hq ha hk hb, rfl, [ts, as, bs], ?_,
      .cons ht.to_choice (.cons ha (.cons hb .nil))⟩
    simpa using Interspersed.cons [] ts (.cons [question] as (.cons [colon] bs (.nil [])))
  | @binary _ ls rs _ _ _ _ _ o hrow hmem hl ho hr =>
    refine ⟨_, List.infix_rfl, .to_choice (.binary hrow hmem hl ho hr), rfl, [ls, rs], ?_,
      .cons hl.to_choice (.cons hr.to_choice .nil)⟩
    simpa using Interspersed.cons [] ls (.cons [o] rs (.nil []))
  | @unary ts _ _ _ o hmem ho he =>
    refine ⟨_, List.infix_rfl, .to_choice (.unary hmem ho he), rfl, [ts], ?_,
      .cons he.to_choice .nil⟩
    simpa using Interspersed.cons [o] ts (.nil [])
  | @member ts _ _ dot property he hdot hproperty =>
    exact ⟨_, List.infix_rfl, .to_choice (.member he hdot hproperty), rfl, [ts],
      .cons [] ts (.nil _), .cons he.to_choice .nil⟩
  | @index ts ks _ _ opening closing he hopening hk hclosing =>
    refine ⟨_, List.infix_rfl, .to_choice (.index he hopening hk hclosing), rfl, [ts, ks], ?_,
      .cons he.to_choice (.cons hk .nil)⟩
    simpa using Interspersed.cons [] ts (.cons [opening] ks (.nil [closing]))
  | literal ht => exact ⟨_, List.infix_rfl, .to_choice (.literal ht), rfl, [], .nil _, .nil⟩
  | ident ht => exact ⟨_, List.infix_rfl, .to_choice (.ident ht), rfl, [], .nil _, .nil⟩
  | group _ _ _ _ ih =>
    -- the node is the one inside, and its span leaves out the symbols around it
    obtain ⟨us, hus, h⟩ := ih
    exact ⟨us, hus.trans ⟨[_], [_], rfl⟩, h⟩

theorem exists_part {R : List Lexeme → Expr → Prop} {ks : List Expr}
    (h : List.Forall₂ R parts ks) (hk : k ∈ ks) : ∃ us ∈ parts, R us k := by
  induction h with
  | nil => cases hk
  | @cons us _ parts _ hR _ ih =>
    rcases List.mem_cons.mp hk with rfl | hk
    · exact ⟨us, List.mem_cons_self, hR⟩
    · obtain ⟨vs, hvs, hR⟩ := ih hk
      exact ⟨vs, List.mem_cons_of_mem us hvs, hR⟩

theorem Derives.owns_node (hn : n.IsNode e) : ∀ {ts : List Lexeme}, Derives .choice ts e →
    ∃ us, us <:+: ts ∧ Owns us n := by
  induction hn with
  | self => exact fun h => h.owns
  | under hk _ ih =>
    intro ts h
    obtain ⟨us, hus, ho⟩ := h.owns
    obtain ⟨parts, hparts, hall⟩ := ho.children
    obtain ⟨ps, hps, hd⟩ := exists_part hall hk
    obtain ⟨vs, hvs, hv⟩ := ih hd
    exact ⟨vs, hvs.trans ((hparts.isInfix ps hps).trans hus), hv⟩

/-! ## The order of spans -/

/-- Tokens that take bytes of their own, in the order of the text. -/
structure InOrder (ts : List Lexeme) : Prop where
  nonempty : ∀ l ∈ ts, l.start < l.stop
  ordered : ts.Pairwise fun l l' => l.stop ≤ l'.start

theorem LexesAt.inOrder (h : LexesAt pos cs ts) : InOrder ts :=
  ⟨fun l hl => (h.bounds l hl).2.1, h.ordered⟩

theorem InOrder.of_part (h : InOrder ts) (hus : us <:+: ts) : InOrder us :=
  ⟨fun l hl => h.nonempty l (hus.subset hl), h.ordered.sublist hus.sublist⟩

theorem exists_firstByte (h : us ≠ []) : ∃ l ∈ us, l.start = firstByte us := by
  obtain ⟨l, us, rfl⟩ := List.exists_cons_of_ne_nil h
  exact ⟨l, List.mem_cons_self, rfl⟩

theorem exists_lastByte (h : us ≠ []) : ∃ l ∈ us, l.stop = lastByte us := by
  obtain ⟨us, l, rfl⟩ := (List.eq_nil_or_concat' us).resolve_left h
  exact ⟨l, by simp, lastByte_concat.symm⟩

theorem InOrder.firstByte_le (h : InOrder us) {l : Lexeme} (hl : l ∈ us) :
    firstByte us ≤ l.start := by
  rcases us with _ | ⟨t, us⟩
  · cases hl
  · rcases List.mem_cons.mp hl with rfl | hmem
    · exact Nat.le_refl _
    · have hlt := h.nonempty t List.mem_cons_self
      have hle := (List.pairwise_cons.mp h.ordered).1 l hmem
      exact (hlt.trans_le hle).le

theorem InOrder.le_lastByte (h : InOrder us) {l : Lexeme} (hl : l ∈ us) :
    l.stop ≤ lastByte us := by
  obtain ⟨us, t, rfl⟩ := (List.eq_nil_or_concat' us).resolve_left (List.ne_nil_of_mem hl)
  rw [lastByte_concat]
  rcases List.mem_append.mp hl with hmem | hmem
  · have hlt := h.nonempty t (by simp)
    have hle := (List.pairwise_append.mp h.ordered).2.2 l hmem t (by simp)
    exact (hle.trans_lt hlt).le
  · rw [List.mem_singleton.mp hmem]

theorem Owns.ne_nil (h : Owns us n) : us ≠ [] :=
  h.derives.ne_nil

theorem Derives.exists_ends (h : Derives .choice ts e) :
    (∃ l ∈ ts, l.start = e.span.start) ∧ ∃ l ∈ ts, l.stop = e.span.stop := by
  obtain ⟨us, hus, ho⟩ := h.owns
  obtain ⟨l, hl, hstart⟩ := exists_firstByte ho.ne_nil
  obtain ⟨l', hl', hstop⟩ := exists_lastByte ho.ne_nil
  rw [ho.span]
  exact ⟨⟨l, hus.subset hl, hstart⟩, l', hus.subset hl', hstop⟩

theorem Owns.inside (h : Owns us n) (hus : InOrder us) (hk : k ∈ n.children) :
    n.span.start ≤ k.span.start ∧ k.span.stop ≤ n.span.stop := by
  obtain ⟨parts, hparts, hall⟩ := h.children
  obtain ⟨ps, hps, hd⟩ := exists_part hall hk
  obtain ⟨⟨l, hl, hstart⟩, l', hl', hstop⟩ := hd.exists_ends
  have hsub := (hparts.isInfix ps hps).subset
  rw [h.span, ← hstart, ← hstop]
  exact ⟨hus.firstByte_le (hsub hl), hus.le_lastByte (hsub hl')⟩

theorem Owns.ordered (h : Owns us n) (hus : InOrder us) :
    n.children.Pairwise fun k k' => k.span.stop ≤ k'.span.start := by
  obtain ⟨parts, hparts, hall⟩ := h.children
  have hpairs := hparts.pairwise hus.ordered
  generalize n.children = ks at hall
  clear hparts
  induction hall with
  | nil => exact .nil
  | cons hd hrest ih =>
    obtain ⟨hfirst, hpairs⟩ := List.pairwise_cons.mp hpairs
    refine .cons (fun k' hk' => ?_) (ih hpairs)
    obtain ⟨ps, hps, hd'⟩ := exists_part hrest hk'
    obtain ⟨l, hl, hstop⟩ := hd.exists_ends.2
    obtain ⟨l', hl', hstart⟩ := hd'.exists_ends.1
    rw [← hstop, ← hstart]
    exact hfirst ps hps l hl l' hl'

/-! ## Parts of the text -/

theorem LexesAt.append_inv : ∀ {us : List Lexeme} {pos : Nat} {cs : List Char},
    LexesAt pos cs (us ++ vs) → ∃ a b, cs = a ++ b ∧ LexesAt pos a us ∧
      LexesAt (pos + byteLength a) b vs ∧
      pos + byteLength a = (us.getLast?.map Lexeme.stop).getD pos
  | [], pos, cs, h => ⟨[], cs, rfl, .nil (by simp), h, rfl⟩
  | l :: us, pos, _, h => by
    cases h with
    | @cons _ blanks _ _ _ hb hs hstart hstop hrest =>
      obtain ⟨a, b, rfl, ha, hb', hend⟩ := hrest.append_inv
      -- the token is read alike where the text behind the part is cut off
      rw [← List.append_assoc] at hs
      have hread := scanToken_of_append hs
      have hlen : pos + byteLength (blanks ++ (l.token.spelling.toList ++ a)) =
          l.stop + byteLength a := by
        rw [byteLength_append, byteLength_append, hstop, hstart]
        omega
      refine ⟨_, b, ?_, .cons hb hread hstart hstop ha, hlen ▸ hb', ?_⟩
      · rw [List.append_assoc, List.append_assoc]
      · rw [hlen, hend, List.getLast?_cons]
        cases us.getLast? <;> rfl

theorem LexesAt.cut_blanks {l : Lexeme} (h : LexesAt pos cs (l :: ts)) :
    ∃ a b, cs = a ++ b ∧ pos + byteLength a = l.start ∧ LexesAt l.start b (l :: ts) := by
  cases h with
  | cons hb hs hstart hstop hrest =>
    refine ⟨_, _, rfl, hstart.symm, ?_⟩
    exact @LexesAt.cons l.start [] _ _ _ (by simp) hs rfl hstop hrest

/-- The text from the first to the last of some tokens has just these tokens. -/
theorem LexesAt.slice_part (h : LexesAt pos cs ts) (hus : us <:+: ts) (hne : us ≠ []) :
    ∃ a w b, cs = a ++ (w ++ b) ∧ pos + byteLength a = firstByte us ∧
      firstByte us + byteLength w = lastByte us ∧ LexesAt (firstByte us) w us := by
  obtain ⟨xs, ys, rfl⟩ := hus
  rw [List.append_assoc] at h
  obtain ⟨a, cs, rfl, -, hcs, -⟩ := h.append_inv
  obtain ⟨l, us, rfl⟩ := List.exists_cons_of_ne_nil hne
  obtain ⟨blanks, cs, rfl, hfirst, hcs⟩ := hcs.cut_blanks
  obtain ⟨w, b, rfl, hw, -, hlast⟩ := @LexesAt.append_inv ys (l :: us) _ _ hcs
  refine ⟨a ++ blanks, w, b, ?_, ?_, ?_, hw⟩
  · rw [List.append_assoc]
  · rw [byteLength_append, ← Nat.add_assoc]
    exact hfirst
  · rw [firstByte, hlast, lastByte, List.getLast?_cons]
    rfl

/-! ## Places -/

/-- A span at another place. -/
def Span.relocate (f : Nat → Nat) (s : Span) : Span :=
  ⟨f s.start, f s.stop⟩

/-- A tree whose text is at another place. -/
def Expr.relocate (f : Nat → Nat) : Expr → Expr
  | literal value s => literal value (s.relocate f)
  | ident name s => ident name (s.relocate f)
  | member e property s => member (e.relocate f) property (s.relocate f)
  | index e k s => index (e.relocate f) (k.relocate f) (s.relocate f)
  | unary op e s => unary op (e.relocate f) (s.relocate f)
  | binary op l r s => binary op (l.relocate f) (r.relocate f) (s.relocate f)
  | conditional t a b s => conditional (t.relocate f) (a.relocate f) (b.relocate f) (s.relocate f)

/-- A token at another place. -/
def Lexeme.relocate (f : Nat → Nat) (l : Lexeme) : Lexeme :=
  ⟨l.token, f l.start, f l.stop⟩

theorem spanOf_map (hne : ts ≠ []) :
    spanOf (ts.map (Lexeme.relocate f)) = (spanOf ts).relocate f := by
  obtain ⟨us, l, rfl⟩ := (List.eq_nil_or_concat' ts).resolve_left hne
  have hfirst : firstByte ((us ++ [l]).map (Lexeme.relocate f)) = f (firstByte (us ++ [l])) := by
    cases us <;> rfl
  have hlast : lastByte ((us ++ [l]).map (Lexeme.relocate f)) = f (lastByte (us ++ [l])) := by
    rw [List.map_append, List.map_singleton, lastByte_concat, lastByte_concat]
    rfl
  rw [spanOf, hfirst, hlast]
  rfl

/-- Tokens at another place stand for the same tree there. -/
theorem Derives.relocate (h : Derives c ts e) (f : Nat → Nat) :
    Derives c (ts.map (Lexeme.relocate f)) (e.relocate f) := by
  have hne := h.ne_nil
  induction h with
  | choice h ih => exact .choice (ih h.ne_nil)
  | tighter hm h ih => exact .tighter hm (ih h.ne_nil)
  | level h ih => exact .level (ih h.ne_nil)
  | noPrefix h ih => exact .noPrefix (ih h.ne_nil)
  | access h ih => exact .access (ih h.ne_nil)
  | conditional ht hq ha hk hb iht iha ihb =>
    rw [Expr.relocate, ← spanOf_map hne]
    simp only [List.map_append, List.map_cons]
    exact .conditional (iht ht.ne_nil) hq (iha ha.ne_nil) hk (ihb hb.ne_nil)
  | binary hrow hmem hl ho hr ihl ihr =>
    rw [Expr.relocate, ← spanOf_map hne]
    simp only [List.map_append, List.map_cons]
    exact .binary hrow hmem (ihl hl.ne_nil) ho (ihr hr.ne_nil)
  | unary hmem ho he ih =>
    rw [Expr.relocate, ← spanOf_map hne]
    exact .unary hmem ho (ih he.ne_nil)
  | member he hdot hproperty ih =>
    rw [Expr.relocate, ← spanOf_map hne]
    simp only [List.map_append, List.map_cons, List.map_nil]
    exact .member (ih he.ne_nil) hdot hproperty
  | index he hopening hk hclosing ih ihk =>
    rw [Expr.relocate, ← spanOf_map hne]
    simp only [List.map_append, List.map_cons, List.map_nil]
    exact .index (ih he.ne_nil) hopening (ihk hk.ne_nil) hclosing
  | literal ht =>
    rw [Expr.relocate, ← spanOf_map hne]
    exact .literal ht
  | ident ht =>
    rw [Expr.relocate, ← spanOf_map hne]
    exact .ident ht
  | group hmem hopening he hclosing ih =>
    simp only [List.map_append, List.map_cons, List.map_nil]
    exact .group hmem hopening (ih he.ne_nil) hclosing

theorem Derives.unique {e' : Expr} (h : Derives .choice ts e) (h' : Derives .choice ts e') :
    e = e' := by
  have heq : parseTokens 0 ts = .ok e := parseTokens_eq_ok_iff.mpr h
  rw [parseTokens_eq_ok_iff.mpr h'] at heq
  exact (Except.ok.inj heq).symm

/-- A text at a later place has the same tokens, at their later places. -/
theorem LexesAt.exists_earlier {m p : Nat} (h : LexesAt p cs ts) :
    ∀ pos : Nat, p = m + pos →
      ∃ us, LexesAt pos cs us ∧ ts = us.map (Lexeme.relocate (m + ·)) := by
  induction h with
  | nil hb => exact fun pos _ => ⟨[], .nil hb, rfl⟩
  | @cons p blanks rest l ls hb hs hstart hstop _ ih =>
    intro pos hp
    obtain ⟨t, start, stop⟩ := l
    dsimp only at hs hstart hstop ih ⊢
    obtain ⟨us, hus, hls⟩ := ih (pos + byteLength blanks + byteLength t.spelling.toList) (by omega)
    refine ⟨_, .cons (l := ⟨t, _, _⟩) hb hs rfl rfl hus, ?_⟩
    simp only [List.map_cons, ← hls, Lexeme.relocate, List.cons.injEq, Lexeme.mk.injEq, true_and,
      and_true]
    omega

/-- What is derived from the tokens of a text is what the text is read as, but for the place of the
text. -/
theorem LexesAt.parseExpr {m : Nat} (h : LexesAt m cs ts) (hd : Derives .choice ts e) :
    ∃ e', parseExpr cs = .ok e' ∧ e'.relocate (m + ·) = e := by
  obtain ⟨us, hus, rfl⟩ := h.exists_earlier 0 (Nat.add_zero m).symm
  have hback : (us.map (Lexeme.relocate (m + ·))).map (Lexeme.relocate (· - m)) = us := by
    simp [Function.comp_def, Lexeme.relocate]
  -- moved to the start and back again, the tree is derived from the same tokens as before
  have hd' := hd.relocate (· - m)
  rw [hback] at hd'
  refine ⟨_, ?_, (hd'.relocate (m + ·)).unique hd⟩
  rw [LiveMarkup.parseExpr, lexesAt_iff_tokenize.mp hus]
  exact parseTokens_eq_ok_iff.mpr hd'

/-! ## Faithful spans -/

/-- The span of a node tells its text. -/
structure Faithful (source : List Char) (n : Expr) : Prop where
  nonempty : n.span.start < n.span.stop
  bounded : n.span.stop ≤ byteLength source
  /-- The span starts where a token starts, and stops where one stops. -/
  boundaries : ∃ ts, tokenize source = .ok ts ∧ (∃ l ∈ ts, l.start = n.span.start) ∧
    ∃ l ∈ ts, l.stop = n.span.stop
  inside : ∀ k ∈ n.children, n.span.start ≤ k.span.start ∧ k.span.stop ≤ n.span.stop
  ordered : n.children.Pairwise fun k k' => k.span.stop ≤ k'.span.start
  /-- The text of the span is read as the node, but with the places counted from its start. -/
  reread : ∃ a w b n', source = a ++ (w ++ b) ∧ byteLength a = n.span.start ∧
    byteLength (a ++ w) = n.span.stop ∧ parseExpr w = .ok n' ∧
    n'.relocate (n.span.start + ·) = n

/-- The span of every node of a tree tells its text. -/
theorem spans_faithful {source : List Char} (h : parseExpr source = .ok e) (hn : n.IsNode e) :
    Faithful source n := by
  obtain ⟨ts, hts, hparse⟩ := bind_eq_ok_iff.mp h
  have hlexes := lexesAt_iff_tokenize.mpr hts
  obtain ⟨us, hus, ho⟩ := Derives.owns_node hn (derives_of_parseTokens hparse)
  have horder := hlexes.inOrder.of_part hus
  obtain ⟨⟨l, hl, hstart⟩, l', hl', hstop⟩ := ho.derives.exists_ends
  obtain ⟨a, w, b, rfl, ha, hw, hread⟩ := hlexes.slice_part hus ho.ne_nil
  rw [Nat.zero_add] at ha
  have hspan : n.span.start = firstByte us ∧ n.span.stop = lastByte us := by
    rw [ho.span]
    exact ⟨rfl, rfl⟩
  refine ⟨?_, ?_, ⟨ts, hts, ⟨l, hus.subset hl, hstart⟩, l', hus.subset hl', hstop⟩,
    fun k hk => ho.inside horder hk, ho.ordered horder, a, w, b, ?_⟩
  · rw [hspan.1, hspan.2]
    exact (horder.nonempty l hl).trans_le' (horder.firstByte_le hl) |>.trans_le
      (horder.le_lastByte hl)
  · rw [← hstop]
    have := (hlexes.bounds l' (hus.subset hl')).2.2
    omega
  · obtain ⟨n', hn', hsame⟩ := hread.parseExpr ho.derives
    refine ⟨n', rfl, ha.trans hspan.1.symm, ?_, hn', ?_⟩
    · rw [byteLength_append, ha, hw, hspan.2]
    · rw [hspan.1, hsame]

/-- The sum in `(a + b)*c.d`. -/
def groupedSum : Expr :=
  .binary .add (.ident "a" ⟨1, 2⟩) (.ident "b" ⟨5, 6⟩) ⟨1, 6⟩

theorem spans_faithful_groupedSum :
    parseExpr "(a + b)*c.d".toList = .ok (.binary .multiply groupedSum
      (.member (.ident "c" ⟨8, 9⟩) "d" ⟨8, 11⟩) ⟨0, 11⟩) ∧
      Faithful "(a + b)*c.d".toList groupedSum := by
  have h : parseExpr "(a + b)*c.d".toList = .ok (.binary .multiply groupedSum
      (.member (.ident "c" ⟨8, 9⟩) "d" ⟨8, 11⟩) ⟨0, 11⟩) := by cbv
  exact ⟨h, spans_faithful h (.under List.mem_cons_self .self)⟩

end LiveMarkup
