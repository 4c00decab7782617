import LiveMarkup.Proofs.Template.Shaped

/-!
# Markers and their records

If a source has no comments, then in what is compiled from it no marker stands twice, and none stands
without its record, whatever the options and wherever the directives stand
(`compile_occurrences_le`).  A compilation puts the marker of a record in one place, and
whatever is done to the text later makes no comments: all that it can do to a marker is to lose it.
-/

namespace LiveMarkup

open Text

variable {gs gs' : List ConditionGroup} {ls ls' : List LoopDefinition} {ms : List Marker}
  {names names' : Names} {v : String → Nat} {w w' : List Char → Nat} {cs body body' out rest : List Char}

/-! ## Numbered markers -/

theorem Numbers.isMark (h : Numbers names names' ms) (hseed : ∀ c ∈ names.seed.toList, isMark c = true)
    {m : Marker} (hm : m ∈ ms) : ∀ c ∈ m.name.toList, isMark c = true := by
  have hmem : m ∈ ms.filter (·.kind = m.kind) := List.mem_filter.mpr ⟨hm, by simp⟩
  rw [h.eq] at hmem
  obtain ⟨n, -, hn⟩ := List.mem_map.mp hmem
  rw [← hn]
  exact isMark_nameOf hseed m.kind n

theorem comment_injective : Function.Injective Marker.comment := by
  intro m m' h
  have h := congrArg String.toList h
  obtain ⟨kind, name⟩ := m
  obtain ⟨kind', name'⟩ := m'
  simp only [Marker.comment, Marker.text, String.toList_ofList, String.toList_append,
    List.cons.injEq, true_and] at h
  cases kind <;> cases kind' <;> simp [DirectiveKind.keyword] at h ⊢
  all_goals exact String.toList_injective h

/-! ## Sums over markup -/

/-- A sum over the contents of records. -/
def contentTotal (w : List Char → Nat) (gs : List ConditionGroup) (ls : List LoopDefinition) : Nat :=
  (gs.map fun g => (g.blocks.map fun b => w b.content.toList).sum).sum +
    (ls.map fun l => w l.content.toList).sum

theorem contentTotal_append : contentTotal w (gs ++ gs') (ls ++ ls') =
    contentTotal w gs ls + contentTotal w gs' ls' := by
  simp only [contentTotal, List.map_append, List.sum_append]
  omega

theorem contentTotal_mono (h : ∀ cs, w cs ≤ w' cs) : contentTotal w gs ls ≤ contentTotal w' gs ls :=
  Nat.add_le_add (List.sum_le_sum fun _ _ => List.sum_le_sum fun _ _ => h _)
    (List.sum_le_sum fun _ _ => h _)

/-- A sum over the comments that mark records. -/
def recordWeight (v : String → Nat) (gs : List ConditionGroup) (ls : List LoopDefinition) : Nat :=
  ((recordMarkers gs ls).map fun m => v m.comment).sum

theorem recordWeight_append : recordWeight v (gs ++ gs') (ls ++ ls') =
    recordWeight v gs ls + recordWeight v gs' ls' := by
  simp only [recordWeight, recordMarkers, List.map_append, List.sum_append]
  omega

namespace Template

/-- A sum over all the markup of a template. -/
def total (w : List Char → Nat) (t : Template) : Nat :=
  w t.html.toList + contentTotal w t.conditions t.loops

theorem total_mono (h : ∀ cs, w cs ≤ w' cs) (t : Template) : t.total w ≤ t.total w' :=
  Nat.add_le_add (h _) (contentTotal_mono h)

theorem total_scopeClasses (scope : List Char) (t : Template) :
    (t.scopeClasses scope).total w = t.total fun cs => w (LiveMarkup.scopeClasses scope cs) := by
  simp [total, contentTotal, scopeClasses, Function.comp_def]

theorem total_applyScope_le (o : CompileOptions) (t : Template) :
    (o.applyScope t).total (textWeight v) ≤ t.total (textWeight v) := by
  rcases o.applyScope_cases t with h | ⟨path, h⟩ <;> rw [h]
  rw [total_scopeClasses]
  exact total_mono (fun cs => scopeClasses_weight v path.toList cs) t

end Template

/-! ## Compilation -/

/-- What is found in a text: in the output and the contents together there are no comments but those
that mark the new records. -/
structure Anchored (cs : List Char) (f : Findings) (out : List Char) (f' : Findings) : Prop where
  marked : Marked cs out
  records : ∃ gs ls, f'.conditions = f.conditions ++ gs ∧ f'.loops = f.loops ++ ls ∧
    ∀ v, textWeight v out + contentTotal (textWeight v) gs ls ≤ recordWeight v gs ls

variable {f f₁ f₂ f' : Findings}

theorem Anchored.nil (f : Findings) : Anchored [] f [] f where
  marked := .nil
  records := ⟨[], [], (List.append_nil _).symm, (List.append_nil _).symm, fun _ => le_rfl⟩

theorem Anchored.cons {c : Char} {ws : List Warning} (hc : NoComment (c :: cs))
    (h : Anchored cs { f with warnings := ws } out f') : Anchored (c :: cs) f (c :: out) f' where
  marked := h.marked.cons hc
  records := by
    obtain ⟨gs, ls, h1, h2, h3⟩ := h.records
    refine ⟨gs, ls, h1, h2, fun v => ?_⟩
    rw [h.marked.textWeight_cons hc]
    exact h3 v

/-- A directive of any kind was taken out: its content weighs no more than what is left of its body. -/
theorem Anchored.directive {kind : DirectiveKind} (hseed : ∀ c ∈ f.names.seed.toList, isMark c = true)
    (hbody : Anchored body (f.nextName kind).2 body' f₁) (hrest : Anchored rest f₂ out f')
    (hconditions : f₂.conditions = f₁.conditions ++ gs) (hloops : f₂.loops = f₁.loops ++ ls)
    (hrecord : recordMarkers gs ls = [⟨kind, (f.nextName kind).1⟩])
    (hcontent : ∀ v, contentTotal (textWeight v) gs ls ≤ textWeight v body') :
    Anchored cs f ((Marker.mk kind (f.nextName kind).1).markup ++ out) f' := by
  have hname : ∀ c ∈ (Marker.mk kind (f.nextName kind).1).name.toList, isMark c = true := by
    show ∀ c ∈ (f.names.next kind).1.toList, isMark c = true
    rw [Names.next_fst]
    exact isMark_nameOf hseed kind _
  obtain ⟨gs₁, ls₁, hgs₁, hls₁, hw₁⟩ := hbody.records
  obtain ⟨gs₂, ls₂, hgs₂, hls₂, hw₂⟩ := hrest.records
  refine ⟨.marker hname hrest.marked.shut, gs₁ ++ gs ++ gs₂, ls₁ ++ ls ++ ls₂, ?_, ?_, fun v => ?_⟩
  · rw [hgs₂, hconditions, hgs₁]
    simp only [List.append_assoc]
    rfl
  · rw [hls₂, hloops, hls₁]
    simp only [List.append_assoc]
    rfl
  · have h₁ := hw₁ v
    have h₂ := hw₂ v
    have h := hcontent v
    have hmark : recordWeight v gs ls = v (Marker.mk kind (f.nextName kind).1).comment := by
      rw [recordWeight, hrecord, List.map_singleton, List.sum_singleton]
    rw [textWeight_marker hname, contentTotal_append, contentTotal_append, recordWeight_append,
      recordWeight_append, hmark]
    omega

theorem contentTotal_blocks {group : String} {test : List Char} (h : Shut body) :
    contentTotal (textWeight v) [⟨group, (blocks group test body).1⟩] [] ≤ textWeight v body := by
  have hsum : ((blocks group test body).1.map fun b => textWeight v b.content.toList).sum ≤ textWeight v body :=
    textWeight_blocks h
  simpa [contentTotal] using hsum

theorem contentTotal_loop {name array item : String} (h : Shut body) :
    contentTotal (textWeight v) [] [⟨name, array, item, blockContent body⟩] ≤ textWeight v body := by
  simpa [contentTotal] using textWeight_blockContent h

theorem compileFrom_anchored : ∀ {fuel pos : Nat} {cs out : List Char} {f f' : Findings},
    compileFrom fuel pos cs f = .ok (out, f') → cs.length < fuel → NoComment cs →
    (∀ c ∈ f.names.seed.toList, isMark c = true) → Anchored cs f out f' := by
  intro fuel
  induction fuel with
  | zero => exact fun _ h => absurd h (Nat.not_lt_zero _)
  | succ fuel ih =>
    intro pos cs out f f' h hlt hc hseed
    rcases cs with _ | ⟨c, cs⟩
    · cases h
      exact .nil f
    rw [List.length_cons] at hlt
    -- the body of a directive and what follows it are parts of the text
    have hinside : ∀ {body rest}, Opens (c :: cs) body rest →
        (body.length < fuel ∧ NoComment body) ∧ rest.length < fuel ∧ NoComment rest := by
      intro body rest ho
      have hlen := ho.length_lt
      rw [List.length_cons] at hlen
      obtain ⟨kind, header, heq⟩ := ho.eq
      rw [heq] at hc
      exact ⟨⟨by omega, fun hi => hc (hi.trans ⟨kind.opener ++ header, kind.closer ++ rest, by simp⟩)⟩,
        by omega, fun hi => hc (hi.trans (List.suffix_append _ rest).isInfix)⟩
    have hseed₁ : ∀ {kind : DirectiveKind} {body body' : List Char} {f₁ : Findings},
        compileFrom fuel 0 body (f.nextName kind).2 = .ok (body', f₁) → f₁.names.seed = f.names.seed := by
      intro kind body body' f₁ h
      obtain ⟨_, _, _, _, _, hn, _⟩ := compileFrom_recorded h
      exact hn.seed.trans (f.names.next_seed kind)
    have hseed' : ∀ kind, ∀ c ∈ (f.nextName kind).2.names.seed.toList, isMark c = true := fun kind => by
      show ∀ c ∈ (f.names.next kind).2.seed.toList, isMark c = true
      rwa [Names.next_seed]
    cases compileFrom_round h with
    | pass _ h1 =>
      exact .cons hc (ih h1 (by omega) (fun hi => hc (hi.trans (List.suffix_cons c cs).isInfix)) hseed)
    | condition ho _ h1 h2 =>
      obtain ⟨⟨hlen, hc₁⟩, hlen', hc₂⟩ := hinside ho
      have hbody := ih h1 hlen hc₁ (hseed' .condition)
      have hrest := ih h2 hlen' hc₂ ((hseed₁ h1).symm ▸ hseed)
      exact .directive hseed hbody hrest rfl (List.append_nil _).symm rfl
        fun v => contentTotal_blocks hbody.marked.shut
    | loop ho _ _ h1 h2 =>
      obtain ⟨⟨hlen, hc₁⟩, hlen', hc₂⟩ := hinside ho
      have hbody := ih h1 hlen hc₁ (hseed' .loop)
      have hrest := ih h2 hlen' hc₂ ((hseed₁ h1).symm ▸ hseed)
      exact .directive hseed hbody hrest (List.append_nil _).symm rfl rfl
        fun v => contentTotal_loop hbody.marked.shut

/-- In a compiled template there are no comments but the markers of its records. -/
theorem compile_anchored {o : CompileOptions} {source : List Char} {c : Compiled}
    (h : compile o source = .ok c) (hsource : NoComment source) (v : String → Nat) :
    c.template.total (textWeight v) ≤ (c.template.markers.map fun m => v m.comment).sum := by
  unfold compile at h
  obtain ⟨⟨skeleton, f⟩, hfrom, h⟩ := bind_eq_ok_iff.mp h
  cases h
  have hanchored := compileFrom_anchored hfrom (Nat.lt_succ_self _) hsource (isMark_seed o.path)
  obtain ⟨gs, ls, hgs, hls, hw⟩ := hanchored.records
  rw [Template.markers_applyScope, Template.markers]
  refine (Template.total_applyScope_le o _).trans (le_trans ?_ ((hw v).trans_eq ?_))
  · rw [Template.total, String.toList_ofList, hgs, hls]
    exact Nat.add_le_add_right ((refines_bindMarkup skeleton).below.weight v) _
  · rw [hgs, hls]
    rfl

/-! ## Occurrences -/

/-- How often a text occurs in another one. -/
def occurrences (p cs : List Char) : Nat :=
  cs.tails.countP fun s => p.isPrefixOf s

/-- How often a marker occurs in the markup of a template. -/
def Template.occurrences (t : Template) (m : Marker) : Nat :=
  t.total (LiveMarkup.occurrences m.markup)

/-- A marker occurs at most as often as comments that say the same would be read. -/
theorem occurrences_le_textWeight {m : Marker} (hname : ∀ c ∈ m.name.toList, isMark c = true)
    (cs : List Char) : occurrences m.markup cs ≤ textWeight (fun s => if s = m.comment then 1 else 0) cs := by
  induction cs with
  | nil =>
    have hnil : m.markup.isPrefixOf [] = false := rfl
    simp [occurrences, hnil]
  | cons c cs ih =>
    rw [occurrences, List.tails_cons, List.countP_cons, ← occurrences, textWeight, Nat.add_comm]
    refine Nat.add_le_add ?_ ih
    split
    · rename_i hpre
      obtain ⟨r, hr⟩ := List.isPrefixOf_iff_prefix.mp hpre
      rw [markup_eq] at hr
      obtain ⟨rfl, rfl⟩ := List.cons.inj hr
      rw [if_pos rfl, placeWeight_marker hname, if_pos rfl]
    · exact Nat.zero_le _

theorem sum_comment_eq (m : Marker) (ms : List Marker) :
    (ms.map fun m' => if m'.comment = m.comment then 1 else 0).sum = ms.count m := by
  induction ms with
  | nil => rfl
  | cons m' ms ih =>
    rw [List.map_cons, List.sum_cons, List.count_cons, ih, Nat.add_comm]
    simp [comment_injective.eq_iff]

/-- In what is compiled from a source without comments, no two records have the same marker, and a
marker occurs at most once, and not at all without a record. -/
theorem compile_occurrences_le {o : CompileOptions} {source : List Char} {c : Compiled}
    (h : compile o source = .ok c) (hsource : NoComment source) : c.template.markers.Nodup ∧
      ∀ m : Marker, (∀ ch ∈ m.name.toList, isMark ch = true) →
        c.template.occurrences m ≤ c.template.markers.count m := by
  obtain ⟨names', ms, hn, hp, -⟩ := compile_recorded h
  refine ⟨hp.nodup_iff.mpr hn.nodup, fun m hname => ?_⟩
  rw [← sum_comment_eq]
  exact (Template.total_mono (fun cs => occurrences_le_textWeight hname cs) c.template).trans
    (compile_anchored h hsource _)

end LiveMarkup
