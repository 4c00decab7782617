import Mathlib
import LiveMarkup.Proofs.Template.Numbering
import LiveMarkup.Proofs.Template.Rewriting
import LiveMarkup.Proofs.Template.Rounds

/-!
# How groups are nested

A compilation of a text without comments and loops leaves no more markers in its output than groups
have been found, and the marker of a group stands nowhere but in what is found after it
(`Nested`).  So to any weights of groups that are heavier than their contents belong weights of
all markers in the output (`compileFrom_nested`).
-/

namespace LiveMarkup

open Text

variable {a b cs body test header rest before : List Char} {v : String → Nat} {group : String}

/-! ## Blocks -/

theorem textWeight_trim (h : Shut cs) : textWeight v (trim cs) ≤ textWeight v cs := by
  obtain ⟨a, b, hcs, -, hb⟩ := trim_eq cs
  have hmark : ∀ c ∈ b, isMark c = true := fun c hc => by
    rw [isMark, hb c hc]
    rfl
  rw [hcs] at h
  obtain ⟨-, hle⟩ := h.suffix.cut (v := v) fun r hr hgt => by
    rw [run?_eq_self hmark, Option.some.injEq] at hr
    subst hr
    have := hmark _ hgt
    rw [isMark_gt] at this
    cases this
  have hsuffix : textWeight v (trim cs ++ b) ≤ textWeight v cs :=
    textWeight_le_of_suffix ⟨a, hcs.symm⟩
  omega

theorem textWeight_blockContent (h : Shut cs) :
    textWeight v (blockContent cs).toList ≤ textWeight v cs := by
  rw [blockContent, String.toList_ofList]
  exact ((refines_bindMarkup (trim cs)).below.weight v).trans (textWeight_trim h)

/-- A text that is cut before a brace. -/
theorem Shut.cut_brace (h : Shut (a ++ '\x7b' :: b)) (hs : rest <:+ b) : Shut a ∧ Shut rest ∧
    textWeight v a + textWeight v rest ≤ textWeight v (a ++ '\x7b' :: b) := by
  obtain ⟨h1, h2⟩ := h.cut (v := v) fun r hr => by
    rw [run?, if_neg (by decide), if_neg (by decide)] at hr
    cases hr
  obtain ⟨x, rfl⟩ := hs
  refine ⟨h1, h.suffix.2.suffix, (Nat.add_le_add_left ?_ _).trans h2⟩
  exact textWeight_le_append ('\x7b' :: x) rest

theorem findBranch?_eq {branch : Branch} (h : findBranch? cs = some (before, branch, rest)) :
    cs = before ++ (branchOpener ++ ((if branch = .otherwise then ['\x7d'] else ['i', 'f']) ++ rest)) := by
  induction cs generalizing before with
  | nil => cases h
  | cons c cs ih =>
    rw [findBranch?] at h
    split at h
    · rename_i branch' rest' hb
      cases h
      obtain ⟨x, hx, hx'⟩ := Option.bind_eq_some_iff.mp hb
      rw [after?_eq_some_iff.mp hx, List.nil_append]
      congr 1
      unfold branchAfter? at hx'
      split at hx'
      · cases hx'
        rfl
      · split at hx'
        · cases hx'
          rfl
        · cases hx'
      · cases hx'
    · obtain ⟨⟨a', b', c'⟩, h', he⟩ := Option.map_eq_some_iff.mp h
      cases he
      exact congrArg (c :: ·) (ih h')

/-- The blocks of a group together weigh no more than the text that they are cut out of. -/
theorem blocksFrom_weight (group : String) : ∀ (fuel : Nat) (kind : BlockKind) (condition : Option String)
    (segment : List Char) (pos : Nat) (cs : List Char), Shut (segment ++ cs) →
    ((blocksFrom group fuel kind condition segment pos cs).1.map
      fun b => textWeight v b.content.toList).sum ≤ textWeight v (segment ++ cs) := by
  intro fuel
  induction fuel with
  | zero =>
    intro kind condition segment pos cs h
    simpa [blocksFrom] using textWeight_blockContent h
  | succ fuel ih =>
    intro kind condition segment pos cs h
    have hopener : ∀ x, branchOpener ++ x = '\x7b' :: ("@else".toList ++ x) := fun x => by
      rw [show branchOpener = '\x7b' :: "@else".toList from by decide, List.cons_append]
    rw [blocksFrom]
    split
    · simpa using textWeight_blockContent h
    · rename_i before rest hb
      have hcs := findBranch?_eq hb
      rw [hopener] at hcs
      rw [hcs, ← List.append_assoc] at h ⊢
      obtain ⟨h1, h2, h3⟩ := h.cut_brace (v := v)
        ((List.suffix_append _ rest).trans (List.suffix_append _ _))
      have hb1 := textWeight_blockContent (v := v) h1
      have hb2 := textWeight_blockContent (v := v) h2
      simp only [List.map_cons, List.map_nil, List.sum_cons, List.sum_nil]
      exact le_trans (Nat.add_le_add hb1 hb2) h3
    · rename_i before rest hb
      have hcs := findBranch?_eq hb
      rw [if_neg (by decide)] at hcs
      split
      · rename_i next header rest' hh
        rw [conditionHeader?_eq hh, hopener] at hcs
        rw [hcs, ← List.append_assoc] at h ⊢
        obtain ⟨h1, h2, h3⟩ := h.cut_brace (v := v) ((List.suffix_append header rest').trans
          ((List.suffix_append _ _).trans (List.suffix_append _ _)))
        have hb1 := textWeight_blockContent (v := v) h1
        have hb2 := ih .elseIf (some (String.ofList next)) []
          (pos + byteLength before + byteLength (branchOpener ++ ['i', 'f']) + byteLength header) rest' h2
        rw [List.nil_append] at hb2
        simp only [List.map_cons, List.sum_cons]
        exact le_trans (Nat.add_le_add hb1 hb2) h3
      · have hsame : segment ++ cs = segment ++ before ++ (branchOpener ++ ['i', 'f']) ++ rest := by
          rw [hcs]
          simp only [List.append_assoc]
        rw [hsame] at h ⊢
        exact ih kind condition _ _ rest h

theorem textWeight_blocks (h : Shut body) :
    ((blocks group test body).1.map fun b => textWeight v b.content.toList).sum ≤
      textWeight v body := by
  have hsum := blocksFrom_weight (v := v) group (body.length + 1) .first
    (some (String.ofList test)) [] 0 body h
  rwa [List.nil_append] at hsum

theorem textWeight_block {b : Block} (h : Shut body) (hb : b ∈ (blocks group test body).1) :
    textWeight v b.content.toList ≤ textWeight v body :=
  (List.single_le_sum (fun _ _ => Nat.zero_le _) _ (List.mem_map_of_mem hb)).trans
    (textWeight_blocks h)

/-! ## Markers -/

/-- The text of the comment that a marker is. -/
def Marker.comment (m : Marker) : String :=
  String.ofList (' ' :: (m.text.toList ++ [' ']))

/-- The text of the comment that marks a group. -/
def groupComment (name : String) : String :=
  String.ofList (' ' :: 'i' :: 'f' :: ':' :: (name.toList ++ [' ']))

theorem comment_condition (name : String) : (Marker.mk .condition name).comment = groupComment name := by
  simp [Marker.comment, Marker.text, DirectiveKind.keyword, groupComment]

section

variable {m : Marker} (hname : ∀ c ∈ m.name.toList, isMark c = true)

/-- The text after the bracket of a marker. -/
theorem markup_eq (m : Marker) (out : List Char) : m.markup ++ out =
    '<' :: ("!--".toList ++ (m.comment.toList ++ ("-->".toList ++ out))) := by
  simp [Marker.markup_def, Marker.comment]

include hname

theorem isMark_comment : ∀ c ∈ m.comment.toList, isMark c = true := by
  intro c hc
  simp only [Marker.comment, Marker.text, String.toList_ofList, String.toList_append, List.mem_cons,
    List.mem_append, List.not_mem_nil, or_false] at hc
  rcases hc with rfl | ((hc | hc) | hc) | rfl
  · decide
  · exact isMark_keyword m.kind c hc
  · exact List.all_eq_true.mp (by decide : ":".toList.all isMark = true) c hc
  · exact hname c hc
  · decide

theorem not_mem_comment {c : Char} (hc : isMark c = false) : c ∉ m.comment.toList := fun hmem => by
  rw [isMark_comment hname c hmem] at hc
  cases hc

theorem run?_marker (out : List Char) :
    run? ("!--".toList ++ (m.comment.toList ++ ("-->".toList ++ out))) =
      some ("!--".toList ++ (m.comment.toList ++ ("-->".toList ++ []))) := by
  have hall : ∀ c ∈ "!--".toList ++ (m.comment.toList ++ "--".toList), isMark c = true := by
    intro c hc
    rcases List.mem_append.mp hc with hc | hc
    · exact List.all_eq_true.mp (by decide : "!--".toList.all isMark = true) c hc
    · rcases List.mem_append.mp hc with hc | hc
      · exact isMark_comment hname c hc
      · exact List.all_eq_true.mp (by decide : "--".toList.all isMark = true) c hc
  have h := run?_append_cons (b := out) hall isMark_gt
  rw [if_pos rfl] at h
  simpa using h

theorem placeWeight_marker (out : List Char) :
    placeWeight v ("!--".toList ++ (m.comment.toList ++ ("-->".toList ++ out))) = v m.comment := by
  rw [placeWeight, run?_marker hname, Option.bind_some, commentAfter?, after?_eq_some_iff.mpr rfl,
    Option.map_some, cut?_append (not_mem_comment hname isMark_gt)]
  simp

theorem textWeight_marker (out : List Char) :
    textWeight v (m.markup ++ out) = v m.comment + textWeight v out := by
  rw [markup_eq, textWeight, if_pos rfl, placeWeight_marker hname,
    textWeight_append_of_not_mem (by decide),
    textWeight_append_of_not_mem (not_mem_comment hname (by decide)),
    textWeight_append_of_not_mem (by decide)]

end

/-! ## Texts with markers in them -/

theorem Shut.append_of_not_mem (ha : '<' ∉ a) (hb : Shut b) : Shut (a ++ b) := by
  induction a with
  | nil => exact hb
  | cons c a ih =>
    rw [List.mem_cons, not_or] at ha
    exact ⟨fun hc => absurd hc (Ne.symm ha.1), ih ha.2⟩

/-- In a text nothing opens a comment. -/
def NoComment (cs : List Char) : Prop :=
  ¬ "<!--".toList <:+: cs

/-- Markers have taken the place of parts of a text: comments are closed, and up to the first bracket
the text is as it was. -/
structure Marked (cs out : List Char) : Prop where
  shut : Shut out
  starts : ∀ p, '<' ∉ p → p <+: out → p <+: cs

namespace Marked

variable {c : Char} {out : List Char}

theorem nil : Marked [] [] :=
  ⟨trivial, fun _ _ h => h⟩

/-- No comment opens at a character that is passed over. -/
theorem startsWith_eq_false (h : Marked cs out) (hc : NoComment (c :: cs)) (heq : c = '<') :
    startsWith "!--".toList out = false := by
  subst heq
  rcases hs : startsWith "!--".toList out with _ | _
  · rfl
  · obtain ⟨x, hx⟩ := Option.isSome_iff_exists.mp hs
    obtain ⟨y, hy⟩ := h.starts "!--".toList (by decide) ⟨x, (after?_eq_some_iff.mp hx).symm⟩
    exact absurd ⟨[], y, by rw [← hy]; rfl⟩ hc

theorem cons (h : Marked cs out) (hc : NoComment (c :: cs)) : Marked (c :: cs) (c :: out) where
  shut := by
    refine ⟨fun heq hs => ?_, h.shut⟩
    rw [h.startsWith_eq_false hc heq] at hs
    cases hs
  starts p hp hpre := by
    rcases p with _ | ⟨d, p⟩
    · exact List.nil_prefix
    · rw [List.cons_prefix_cons] at hpre ⊢
      exact ⟨hpre.1, h.starts p (fun hm => hp (List.mem_cons_of_mem d hm)) hpre.2⟩

theorem textWeight_cons (h : Marked cs out) (hc : NoComment (c :: cs)) :
    textWeight v (c :: out) = textWeight v out := by
  rw [textWeight]
  split
  · rename_i heq
    rw [placeWeight_eq_zero (h.startsWith_eq_false hc heq), Nat.zero_add]
  · rw [Nat.zero_add]

/-- A marker has taken the place of the start of a text. -/
theorem marker {m : Marker} (hname : ∀ c ∈ m.name.toList, isMark c = true) (hout : Shut out) :
    Marked cs (m.markup ++ out) where
  shut := by
    have hrun := run?_marker hname out
    have hmem := not_mem_comment hname (show isMark '<' = false by decide)
    rw [markup_eq]
    generalize m.comment.toList = s at hrun hmem
    refine ⟨fun _ _ => ⟨_, hrun, by simp⟩, ?_⟩
    exact .append_of_not_mem (by decide) (.append_of_not_mem hmem (.append_of_not_mem (by decide) hout))
  starts p hp hpre := by
    rcases p with _ | ⟨d, p⟩
    · exact List.nil_prefix
    · rw [markup_eq, List.cons_prefix_cons] at hpre
      exact absurd (hpre.1 ▸ List.mem_cons_self) hp

end Marked

/-! ## Weights of groups -/

/-- Weights of comments give the marker of each group between two numbers the weight of its
number. -/
def Gives (v : String → Nat) (seed : String) (weight : Nat → Nat) (lo hi : Nat) : Prop :=
  ∀ n, lo ≤ n → n < hi → v (groupComment (Names.nameOf seed .condition n)) = weight n

/-- What the compilation of a text without loops finds: each group that is new weighs more than its
blocks together, and all that is left of the text weighs no more than the number of new groups. -/
structure Nested (cs : List Char) (f : Findings) (out : List Char) (f' : Findings) : Prop where
  seed : f'.names.seed = f.names.seed
  le : f.names.conditions ≤ f'.names.conditions
  length : 9 * f'.names.conditions ≤ 9 * f.names.conditions + cs.length
  shut : Shut out
  starts : ∀ p, '<' ∉ p → p <+: out → p <+: cs
  groups : ∃ groups weight, f'.conditions = f.conditions ++ groups ∧
    (∀ n, f.names.conditions ≤ n → n < f'.names.conditions →
      ∃ g ∈ groups, g.name = Names.nameOf f.names.seed .condition n) ∧
    (∀ v, Gives v f.names.seed weight f.names.conditions f'.names.conditions →
      textWeight v out ≤ f'.names.conditions - f.names.conditions) ∧
    ∀ g ∈ groups, ∃ n, f.names.conditions ≤ n ∧ n < f'.names.conditions ∧
      g.name = Names.nameOf f.names.seed .condition n ∧
      ∀ v, Gives v f.names.seed weight f.names.conditions f'.names.conditions →
        ∀ b ∈ g.blocks, textWeight v b.content.toList < weight n

theorem Nested.nil (f : Findings) : Nested [] f [] f where
  seed := rfl
  le := le_rfl
  length := Nat.le_add_right _ _
  shut := trivial
  starts _ _ h := h
  groups := ⟨[], fun _ => 0, (List.append_nil _).symm, fun n h1 h2 => absurd h2 (by omega),
    fun _ _ => Nat.zero_le _,
    fun _ h => absurd h List.not_mem_nil⟩

theorem Nested.marked {f f' : Findings} {out : List Char} (h : Nested cs f out f') : Marked cs out :=
  ⟨h.shut, h.starts⟩

theorem Nested.cons {c : Char} {f f' : Findings} {out : List Char} {ws : List Warning}
    (hc : NoComment (c :: cs)) (h : Nested cs { f with warnings := ws } out f') :
    Nested (c :: cs) f (c :: out) f' := by
  have hmarked := h.marked.cons hc
  obtain ⟨groups, weight, h1, hn, h2, h3⟩ := h.groups
  refine ⟨h.seed, h.le, ?_, hmarked.shut, hmarked.starts, groups, weight, h1, hn, fun v hv => ?_, h3⟩
  · have : 9 * f'.names.conditions ≤ 9 * f.names.conditions + cs.length := h.length
    rw [List.length_cons]
    omega
  · rw [h.marked.textWeight_cons hc]
    exact h2 v hv

theorem Opens.length_add_le (h : Opens cs body rest) : 9 + body.length + rest.length ≤ cs.length := by
  obtain ⟨kind, header, rfl⟩ := h.eq
  have hmarks : 9 ≤ kind.opener.length + kind.closer.length := by cases kind <;> decide
  simp only [List.length_append]
  omega

/-- Weights of a group, of the groups in its text and of the groups after it: the group weighs as
many groups as there are in it, and itself. -/
def joinedWeight (lo mid : Nat) (inner after : Nat → Nat) (n : Nat) : Nat :=
  if n = lo then mid - lo else if n < mid then inner n else after n

section JoinedWeight

variable {lo mid hi n : Nat} {inner after : Nat → Nat} {seed : String}

theorem joinedWeight_self : joinedWeight lo mid inner after lo = mid - lo :=
  if_pos rfl

theorem joinedWeight_inner (h1 : lo + 1 ≤ n) (h2 : n < mid) :
    joinedWeight lo mid inner after n = inner n := by
  rw [joinedWeight, if_neg (by omega), if_pos h2]

theorem joinedWeight_after (h1 : lo < mid) (h2 : mid ≤ n) :
    joinedWeight lo mid inner after n = after n := by
  rw [joinedWeight, if_neg (by omega), if_neg (by omega)]

theorem Gives.within (hv : Gives v seed (joinedWeight lo mid inner after) lo hi) (h : mid ≤ hi) :
    Gives v seed inner (lo + 1) mid := fun n h1 h2 => by
  rw [hv n (by omega) (by omega), joinedWeight_inner h1 h2]

theorem Gives.following (hv : Gives v seed (joinedWeight lo mid inner after) lo hi) (h : lo < mid) :
    Gives v seed after mid hi := fun n h1 h2 => by
  rw [hv n (by omega) h2, joinedWeight_after h h1]

end JoinedWeight

theorem Nested.condition {f f₁ f₂ f' : Findings} {body' out : List Char} {test : List Char}
    (hmarks : ∀ n, ∀ c ∈ (Names.nameOf f.names.seed .condition n).toList, isMark c = true)
    (hopens : Opens cs body rest) (hbody : Nested body (f.nextName .condition).2 body' f₁)
    (hrest : Nested rest f₂ out f') (hnames : f₂.names = f₁.names)
    (hconditions : f₂.conditions = f₁.conditions ++
      [⟨(f.nextName .condition).1, (blocks (f.nextName .condition).1 test body').1⟩]) :
    Nested cs f ((Marker.mk .condition (f.nextName .condition).1).markup ++ out) f' := by
  set name := (f.nextName .condition).1
  have hname : name = Names.nameOf f.names.seed .condition f.names.conditions := rfl
  have hseed1 : f₁.names.seed = f.names.seed := hbody.seed
  have hseed2 : f₂.names.seed = f.names.seed := hnames ▸ hseed1
  have hle1 : f.names.conditions + 1 ≤ f₁.names.conditions := hbody.le
  have hle2 : f₁.names.conditions ≤ f'.names.conditions := hnames ▸ hrest.le
  obtain ⟨groups1, weight1, hg1, hn1, hw1, hb1⟩ := hbody.groups
  obtain ⟨groups2, weight2, hg2, hn2, hw2, hb2⟩ := hrest.groups
  rw [show (f.nextName .condition).2.names.seed = f.names.seed from rfl,
    show (f.nextName .condition).2.names.conditions = f.names.conditions + 1 from rfl] at hn1 hw1 hb1
  rw [show (f.nextName .condition).2.conditions = f.conditions from rfl] at hg1
  rw [hseed2, hnames] at hn2 hw2 hb2
  set lo := f.names.conditions
  set mid := f₁.names.conditions
  have hmarked : Marked cs ((Marker.mk .condition name).markup ++ out) :=
    .marker (hmarks lo) hrest.shut
  refine ⟨hrest.seed.trans hseed2, by omega, ?_, hmarked.shut, hmarked.starts,
    groups1 ++ ⟨name, (blocks name test body').1⟩ :: groups2, joinedWeight lo mid weight1 weight2,
    ?_, fun n h1 h2 => ?_, fun v hv => ?_, ?_⟩
  · have h1 := hbody.length
    have h2 := hrest.length
    have h3 := hopens.length_add_le
    rw [hnames] at h2
    rw [show (f.nextName .condition).2.names.conditions = lo + 1 from rfl] at h1
    omega
  · rw [hg2, hconditions, hg1]
    simp only [List.append_assoc, List.singleton_append]
  -- a number belongs to the group itself, to one in its text or to one after it
  · rcases Nat.lt_or_ge n mid with h3 | h3
    · rcases Nat.eq_or_lt_of_le h1 with rfl | h4
      · exact ⟨_, List.mem_append_right _ List.mem_cons_self, hname⟩
      · obtain ⟨g, hg, h⟩ := hn1 n h4 h3
        exact ⟨g, List.mem_append_left _ hg, h⟩
    · obtain ⟨g, hg, h⟩ := hn2 n h3 h2
      exact ⟨g, List.mem_append_right _ (List.mem_cons_of_mem _ hg), h⟩
  · rw [textWeight_marker (m := ⟨.condition, name⟩) (hmarks lo), comment_condition, hname,
      hv lo le_rfl (by omega), joinedWeight_self]
    have := hw2 v (hv.following (by omega))
    omega
  · intro g hg
    rcases List.mem_append.mp hg with hg | hg
    · obtain ⟨n, h1, h2, h3, h4⟩ := hb1 g hg
      exact ⟨n, by omega, by omega, h3,
        fun v hv => joinedWeight_inner h1 h2 ▸ h4 v (hv.within hle2)⟩
    · rcases List.mem_cons.mp hg with rfl | hg
      · refine ⟨lo, le_rfl, by omega, hname, fun v hv b hb => ?_⟩
        have h1 := textWeight_block (v := v) hbody.shut hb
        have h2 := hw1 v (hv.within hle2)
        rw [joinedWeight_self]
        omega
      · obtain ⟨n, h1, h2, h3, h4⟩ := hb2 g hg
        exact ⟨n, by omega, h2, h3,
          fun v hv => (joinedWeight_after (show lo < mid by omega) h1).symm ▸ h4 v (hv.following (by omega))⟩

theorem compileFrom_nested : ∀ {fuel pos : Nat} {cs out : List Char} {f f' : Findings},
    compileFrom fuel pos cs f = .ok (out, f') → cs.length < fuel → f'.loops = [] → NoComment cs →
    (∀ n, ∀ c ∈ (Names.nameOf f.names.seed .condition n).toList, isMark c = true) →
    Nested cs f out f' := by
  intro fuel
  induction fuel with
  | zero => exact fun _ h => absurd h (Nat.not_lt_zero _)
  | succ fuel ih =>
    intro pos cs out f f' h hlt hl hc hmarks
    rcases cs with _ | ⟨c, cs⟩
    · cases h
      exact .nil f
    · rw [List.length_cons] at hlt
      cases compileFrom_round h with
      | pass _ h1 =>
        exact .cons hc (ih h1 (by omega) hl
          (fun hi => hc (hi.trans (List.suffix_cons c cs).isInfix)) hmarks)
      | @condition _ _ _ _ body _ rest _ f₁ _ ho _ h1 h2 =>
        have hlen := ho.length_lt
        rw [List.length_cons] at hlen
        have hbody : body <:+: c :: cs ∧ rest <:+: c :: cs := by
          obtain ⟨kind, header, heq⟩ := ho.eq
          rw [heq]
          exact ⟨⟨kind.opener ++ header, kind.closer ++ rest, by simp⟩,
            (List.suffix_append _ rest).isInfix⟩
        have hl1 : f₁.loops = [] := List.prefix_nil.mp (hl ▸ (loops_of_compileFrom h2 :))
        have hnested := ih h1 (by omega) hl1 (fun hi => hc (hi.trans hbody.1)) hmarks
        have hseed : f₁.names.seed = f.names.seed := hnested.seed
        have hrest := ih h2 (by omega) hl (fun hi => hc (hi.trans hbody.2)) (hseed ▸ hmarks)
        exact .condition hmarks ho hnested hrest rfl rfl
      | loop _ _ _ _ h2 =>
        have hempty := List.prefix_nil.mp (hl ▸ (loops_of_compileFrom h2 :))
        exact absurd hempty (by simp)

end LiveMarkup
