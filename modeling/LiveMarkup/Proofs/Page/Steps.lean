import LiveMarkup.Proofs.Page.Shown

/-!
# The steps of showing a state, in documents

Each step goes through the nodes of a document as they were before it, and passes over those that
are gone when their turn comes.  What becomes of the forest in the document is what the functions on
forests say (`foldl_markers`, `foldl_texts`, `foldl_updateElement`).
-/

namespace LiveMarkup

open Text

namespace Document

variable {d d' : Document} {id p under : NodeId} {data : NodeData} {s sp : Slot} {o : Option NodeId}
  {f g cs ow rest : Forest NodeId} {L R path : List NodeId}

theorem foldl_keep {α β : Type} {step : β → α → β} {b : β} : ∀ {xs : List α},
    (∀ x ∈ xs, step b x = b) → xs.foldl step b = b
  | [], _ => rfl
  | x :: xs, h => by
    rw [List.foldl_cons, h x List.mem_cons_self]
    exact foldl_keep fun y hy => h y (List.mem_cons_of_mem x hy)

theorem snd_foldl {α β γ : Type} {step : γ × β → α → γ × β} {next : β → α → β}
    (h : ∀ c b x, (step (c, b) x).2 = next b x) :
    ∀ (xs : List α) (c : γ) (b : β), (xs.foldl step (c, b)).2 = xs.foldl next b
  | [], _, _ => rfl
  | x :: xs, c, b => by
    rw [List.foldl_cons, List.foldl_cons, ← h c b x]
    exact snd_foldl h xs _ _

theorem mem_elements {x : NodeId} (hx : x ∈ f.elements) :
    x.index ∈ f.ids ∧ x ∈ f.nodes.map (·.1) := by
  obtain ⟨n, hn, rfl⟩ := List.mem_map.mp hx
  have hn := (List.mem_filter.mp hn).1
  exact ⟨Forest.ids_eq f ▸ List.mem_map_of_mem hn, List.mem_map_of_mem hn⟩

theorem mem_comments {n : NodeId × String} (hn : n ∈ f.comments) :
    n.1.index ∈ f.ids ∧ n.1 ∈ f.nodes.map (·.1) := by
  obtain ⟨m, hm, heq⟩ := List.mem_filterMap.mp hn
  obtain ⟨text, -, rfl⟩ := Option.map_eq_some_iff.mp heq
  exact ⟨Forest.ids_eq f ▸ List.mem_map_of_mem hm, List.mem_map_of_mem hm⟩

/-! ## Elements -/

theorem updateElement_eq (change : Element → Element) :
    d.updateElement id change = d.update id fun s => { s with data := s.data.mapElement change } := by
  unfold updateElement updateData
  congr 1

theorem foldl_updateElement (change : Element → Element) (hd : d.Sound)
    (hst : Stands d p sp o L R f) : ∃ g,
      Turns p sp o L R f g d (f.elements.foldl (fun d n => d.updateElement n change) d) ∧
      g.shape = f.shape.mapElements change ∧
      Aged (fun _ => 0) (fun _ => 0) d (f.elements.foldl (fun d n => d.updateElement n change) d) := by
  induction f generalizing d p sp o L R with
  | nil => exact ⟨.nil, Turns.refl hst, rfl, Aged.refl hd⟩
  | node id data cs ow rest ihc iho ihr =>
    set step := fun (d : Document) n => d.updateElement n change with hstep
    obtain ⟨d1, heq, ht1, hag1⟩ : ∃ d1,
        (if data.element?.isSome then [id] else []).foldl step d = d1 ∧
        Turns p sp o L R (.node id data cs ow rest) (.node id (data.mapElement change) cs ow rest)
          d d1 ∧ Aged (fun _ => 0) (fun _ => 0) d d1 := by
      have h1 := hst.held.1
      rcases he : data.element? with _ | e
      · have hdata : data.mapElement change = data := by
          cases data <;> first | rfl | cases he
        rw [hdata]
        exact ⟨d, rfl, Turns.refl hst, Aged.refl hd⟩
      · refine ⟨d.updateElement id change, rfl, ?_, ?_⟩ <;> rw [updateElement_eq]
        · exact hst.turns_data (swapped_update (fun _ => rfl) h1)
            (h1.update (f := fun s => { s with data := s.data.mapElement change }) fun _ => rfl)
        · exact aged_update (fun _ => rfl) hd h1
    have hd1 := ht1.swapped.sound hd
    obtain ⟨cs', htc, hsc, hagc⟩ := ihc hd1 ht1.stands.inChildren
    have ht2 := ht1.trans (ht1.stands.turns_inChildren htc)
    have hd2 := htc.swapped.sound hd1
    obtain ⟨ow', hto, hso, hago⟩ := iho hd2 ht2.stands.inOwned
    have ht3 := ht2.trans (ht2.stands.turns_inOwned hto)
    have hd3 := hto.swapped.sound hd2
    obtain ⟨rest', htr, hsr, hagr⟩ := ihr hd3 ht3.stands.inRest
    rw [Forest.elements_node, List.foldl_append, List.foldl_append, List.foldl_append, heq]
    refine ⟨_, ht3.trans (ht3.stands.turns_inRest htr), ?_,
      (hag1.trans (hagc.trans (hago.trans hagr))).mono (by simp) (by simp)⟩
    simp only [Forest.shape, Forest.mapElements, hsc, hso, hsr]

/-! ## Texts -/

section

variable (o' : ViewOptions) (scope : Scope) (u : Update)

theorem showText_stale (h : d.slot? id = none) : (d.showText o'.namesItems scope u id).2 = d := by
  have hattr : d.attribute? id (String.ofList textBinding) = none := by
    rw [attribute?, element?, data, h]
    rfl
  rw [showText, hattr]

theorem showText_eq (hs : d.Holds id s) : (d.showText o'.namesItems scope u id).2 =
    match View.newText o' scope u s.data with
    | none => d
    | some _ => d.setInnerHtml id (Interpolation.render (shownValue o'.namesItems scope)
        ((s.data.boundText?).getD "").toList) := by
  have hattr : d.attribute? id (String.ofList textBinding) = s.data.boundText? := by
    rw [attribute?, element?, hs.data_eq]
    rfl
  rw [showText, hattr, View.newText]
  rcases s.data.boundText? with _ | text
  · rfl
  · by_cases hm : u.meetsText text.toList = true
    · simp [hm, Option.filter]
    · simp [hm, Option.filter]

theorem foldl_texts (hd : d.Sound) (hst : Stands d p sp o L R f) : ∃ g,
    Turns p sp o L R f g d
      (f.elements.foldl (fun d n => (d.showText o'.namesItems scope u n).2) d) ∧
    g.shape = f.shape.showTexts (View.newText o' scope u) ∧
    Aged (fun _ => 0) (once f.ids) d
      (f.elements.foldl (fun d n => (d.showText o'.namesItems scope u n).2) d) := by
  induction f generalizing d p sp o L R with
  | nil => exact ⟨.nil, Turns.refl hst, rfl, (Aged.refl hd).mono (by simp) (by simp [Forest.ids])⟩
  | node id data cs ow rest ihc iho ihr =>
    set step := fun (d : Document) n => (d.showText o'.namesItems scope u n).2 with hstep
    -- the node itself and its children
    obtain ⟨d1, cs', heq, ht1, hs1, hag1⟩ : ∃ d1 cs',
        cs.elements.foldl step ((if data.element?.isSome then [id] else []).foldl step d) = d1 ∧
        Turns p sp o L R (.node id data cs ow rest) (.node id data cs' ow rest) d d1 ∧
        cs'.shape = (View.newText o' scope u data).getD
          (cs.shape.showTexts (View.newText o' scope u)) ∧
        Aged (fun _ => 0) (once cs.ids) d d1 := by
      have h1 := hst.held.1
      rcases hnew : View.newText o' scope u data with _ | c
      · have hself : (if data.element?.isSome then [id] else []).foldl step d = d := by
          refine foldl_keep fun x hx => ?_
          obtain rfl : x = id := by
            split at hx
            exacts [List.mem_singleton.mp hx, absurd hx List.not_mem_nil]
          rw [hstep]
          simp only [showText_eq o' scope u h1, hnew]
        rw [hself]
        obtain ⟨cs', ht, hs, hag⟩ := ihc hd hst.inChildren
        exact ⟨_, cs', rfl, hst.turns_inChildren ht, hs, hag⟩
      · obtain ⟨e, rfl⟩ : ∃ e, data = .element e := by
          cases data <;> first | exact ⟨_, rfl⟩ | cases hnew
        obtain ⟨cs', ht, hs, hag⟩ := setInnerHtml_spec hd hst.inChildren
          (Interpolation.render (shownValue o'.namesItems scope)
            (((NodeData.element e).boundText?).getD "").toList)
        have hself : step d id = d.setInnerHtml id (Interpolation.render
            (shownValue o'.namesItems scope) (((NodeData.element e).boundText?).getD "").toList) := by
          rw [hstep]
          simp only [showText_eq o' scope u h1, hnew]
        refine ⟨_, cs', ?_, hst.turns_inChildren ht, ?_, hag.mono (by simp) fun i => le_rfl⟩
        · rw [show (NodeData.element e).element?.isSome = true from rfl, if_pos rfl, List.foldl_cons,
            List.foldl_nil, hself]
          refine foldl_keep fun x hx => showText_stale o' scope u ?_
          obtain ⟨hi, hx⟩ := mem_elements hx
          obtain ⟨t, ht⟩ := hst.held.2.1.nodes x hx
          refine hag.slot?_eq_none ht hd ?_ ?_ <;> rw [once_eq_one hi] <;> simp [generations]
        · rw [hs]
          rw [View.newText] at hnew
          obtain ⟨text, htext, rfl⟩ := Option.map_eq_some_iff.mp hnew
          rw [(Option.filter_eq_some_iff.mp htext).1]
          rfl
    have hd1 := ht1.swapped.sound hd
    obtain ⟨ow', hto, hso, hago⟩ := iho hd1 ht1.stands.inOwned
    have ht2 := ht1.trans (ht1.stands.turns_inOwned hto)
    obtain ⟨rest', htr, hsr, hagr⟩ := ihr (hto.swapped.sound hd1) ht2.stands.inRest
    rw [Forest.elements_node, List.foldl_append, List.foldl_append, List.foldl_append, heq]
    refine ⟨_, ht2.trans (ht2.stands.turns_inRest htr), ?_,
      (hag1.trans (hago.trans hagr)).mono (by simp) fun i => ?_⟩
    · simp only [Forest.shape, Forest.showTexts, hs1, hso, hsr]
    · rw [once_node hst.nodup]
      exact Nat.add_le_add_right (once_mono (fun j hj => List.mem_cons_of_mem _ hj) i) _

end

end Document

/-! ## Markers -/

namespace View

open Document

variable {v : View} {id p under : NodeId} {data : NodeData} {sp : Slot} {o : Option NodeId}
  {f cs ow rest : Forest NodeId} {L R path : List NodeId} {r : Records} {w : NodeData → Nat}
  {kind : DirectiveKind} {shows : NodeId → String → View → Option View}
  {new : NodeData → Option (Forest Unit)}

/-- A view after the turn of one comment. -/
def markerStep (kind : DirectiveKind) (shows : NodeId → String → View → Option View)
    (under : NodeId) (v : View) (n : NodeId × String) : View :=
  match Marker.ofComment? n.2 with
  | none => v
  | some m =>
    if m.kind = kind && v.document.isDescendant under n.1 then (shows n.1 m.name v).getD v else v

theorem showMarkers_eq : (v.showMarkers kind shows under).2 =
    (v.document.comments under).foldl (markerStep kind shows under) v := by
  refine snd_foldl (fun n v x => ?_) _ 0 v
  obtain ⟨id, text⟩ := x
  unfold markerStep
  simp only
  rcases hm : Marker.ofComment? text with _ | m <;> simp only
  split
  · rcases shows id m.name v with _ | v' <;> rfl
  · rfl

theorem markerStep_stale {n : NodeId × String} (h : v.document.slot? n.1 = none) :
    markerStep kind shows under v n = v := by
  have hdesc : v.document.isDescendant under n.1 = false := by
    have hanc : v.document.ancestors n.1 = [] := by
      unfold ancestors
      rcases v.document.capacity with _ | k
      · rfl
      · rw [ancestorsTo, parent?, h]
        rfl
    rw [isDescendant, hanc]
    simp
  unfold markerStep
  rcases Marker.ofComment? n.2 with _ | m
  · rfl
  · simp [hdesc]

/-- What the markers of a kind show is what `new` says: a marker of the kind shows new content of
the right shape, at the cost of a bounded number of slots that are freed, or nothing new. -/
structure ShowsAs (kind : DirectiveKind) (shows : NodeId → String → View → Option View)
    (new : NodeData → Option (Forest Unit)) (w : NodeData → Nat) (r : Records) : Prop where
  ofKind : ∀ data c, new data = some c → ∃ text m, data = .comment text ∧
    Marker.ofComment? text = some m ∧ m.kind = kind
  skips : ∀ v id text m, v.records = r → Marker.ofComment? text = some m → m.kind = kind →
    new (.comment text) = none → shows id m.name v = none
  shows : ∀ v p sp o L R id text m cs ow rest c, v.records = r → v.document.Sound →
    Stands v.document p sp o L R (.node id (.comment text) cs ow rest) →
    Marker.ofComment? text = some m → m.kind = kind → new (.comment text) = some c →
    ∃ v' ow', shows id m.name v = some v' ∧ v'.records = r ∧
      Turns p sp (some id) (L ++ [id]) (rest.tops ++ R) ow ow' v.document v'.document ∧
      ow'.shape = c ∧
      Aged (once ow.ids) (fun i => once ow.ids i + w (.comment text)) v.document v'.document

/-- The comments of a forest show new content one after the other.  Those that come into the place
of others are passed over if nothing was owned before, or if handles do not come round. -/
theorem foldl_markers (hshows : ShowsAs kind shows new w r) (hr : v.records = r)
    (hd : v.document.Sound) (hst : Stands v.document p sp o L R f)
    (hpath : Path v.document f under p path)
    (hcost : f.Bare ∨ f.cost new w + 1 < generations) : ∃ g,
    (f.comments.foldl (markerStep kind shows under) v).records = r ∧
    Turns p sp o L R f g v.document (f.comments.foldl (markerStep kind shows under) v).document ∧
    g.shape = f.shape.showMarkers new ∧
    Aged (fun _ => 0) (fun i => once f.ids i + f.cost new w) v.document
      (f.comments.foldl (markerStep kind shows under) v).document := by
  induction f generalizing v p sp o L R path with
  | nil =>
    exact ⟨.nil, hr, Turns.refl hst, rfl, (Aged.refl hd).mono (by simp) (by simp [Forest.ids])⟩
  | node id data cs ow rest ihc iho ihr =>
    set step := markerStep kind shows under with hstep
    simp only [Forest.Bare, Forest.cost] at hcost
    obtain ⟨hid, hnds, hcow, hcr, howr⟩ := Forest.nodup_node hst.nodup
    -- the node itself, its children and what it owns
    obtain ⟨v1, cs', ow', heq, hr1, ht1, hs1, hs1', hag1⟩ : ∃ v1 cs' ow',
        ow.comments.foldl step (cs.comments.foldl step
          ((data.comment?.map (id, ·)).toList.foldl step v)) = v1 ∧ v1.records = r ∧
        Turns p sp o L R (.node id data cs ow rest) (.node id data cs' ow' rest) v.document
          v1.document ∧ cs'.shape = cs.shape.showMarkers new ∧
        ow'.shape = (new data).getD (ow.shape.showMarkers new) ∧
        Aged (fun _ => 0) (fun i => (once cs.ids i + cs.cost new w) + (once ow.ids i +
          if (new data).isSome then w data else ow.cost new w)) v.document v1.document := by
      rcases hnew : new data with _ | c
      · have hself : (data.comment?.map (id, ·)).toList.foldl step v = v := by
          refine foldl_keep fun x hx => ?_
          rcases hc : data.comment? with _ | text <;> rw [hc] at hx
          · cases hx
          · obtain rfl : x = (id, text) := by simpa using hx
            obtain rfl : data = .comment text := by
              cases data <;> first | rfl | cases hc
              rfl
            rw [hstep]
            unfold markerStep
            rcases hm : Marker.ofComment? text with _ | m <;> simp only
            split
            · rename_i hk
              simp only [Bool.and_eq_true, decide_eq_true_eq] at hk
              rw [hshows.skips v id text m hr hm hk.1 hnew]
              rfl
            · rfl
        rw [hself]
        simp only [hnew, Option.isSome_none, Bool.false_eq_true, if_false] at hcost ⊢
        obtain ⟨cs', hr1, htc, hsc, hagc⟩ := ihc hr hd hst.inChildren (hpath.inChildren hst)
          (hcost.imp (fun h => h.1) fun h => by omega)
        have ht1 := hst.turns_inChildren htc
        have hpath1 := hpath.turn ht1 hst
        obtain ⟨ow', hr2, hto, hso, hago⟩ := iho hr1 (htc.swapped.sound hd) ht1.stands.inOwned
          (hpath1.mono fun i hi => by simp [Forest.ids, hi])
          (hcost.imp (fun h => by rw [h.2.1]; trivial) fun h => by omega)
        exact ⟨_, cs', ow', rfl, hr2, ht1.trans (ht1.stands.turns_inOwned hto), hsc, hso,
          (hagc.trans hago).mono (by simp) fun i => le_rfl⟩
      · obtain ⟨text, m, rfl, hm, hkind⟩ := hshows.ofKind data c hnew
        simp only [hnew, Option.isSome_some, if_true] at hcost ⊢
        obtain ⟨v1, ow', hv1, hr1, hto, hso, hago⟩ := hshows.shows v p sp o L R id text m cs ow rest c
          hr hd hst hm hkind hnew
        have hself : ((NodeData.comment text).comment?.map (id, ·)).toList.foldl step v = v1 := by
          show step v (id, text) = v1
          rw [hstep]
          unfold markerStep
          simp only [hm]
          rw [if_pos (by simp [hkind, hpath.isDescendant_eq hst.held.1 rfl]), hv1, Option.getD_some]
        rw [hself]
        have ht1 := hst.turns_inOwned hto
        obtain ⟨cs', hr2, htc, hsc, hagc⟩ := ihc hr1 (hto.swapped.sound hd) ht1.stands.inChildren
          ((hpath.turn ht1 hst).inChildren ht1.stands) (hcost.imp (fun h => h.1) fun h => by omega)
        have hag := hago.trans hagc
        have hgone : ow.comments.foldl step (cs.comments.foldl step v1) =
            cs.comments.foldl step v1 := by
          rcases hcost with ⟨-, rfl, -⟩ | hcost
          · rfl
          refine foldl_keep fun x hx => markerStep_stale ?_
          obtain ⟨hi, hx⟩ := mem_comments hx
          obtain ⟨t, ht⟩ := hst.held.2.2.1.nodes _ hx
          have hcs : once cs.ids x.1.index = 0 := by rw [once, if_neg fun h => hcow h hi]
          refine hag.slot?_eq_none ht hd ?_ ?_ <;> simp only [once_eq_one hi, hcs] <;> omega
        refine ⟨_, cs', ow', hgone, hr2, ht1.trans (ht1.stands.turns_inChildren htc), hsc, hso,
          hag.mono (fun i => Nat.zero_le _) fun i => ?_⟩
        omega
    have hd1 := ht1.swapped.sound hd
    obtain ⟨rest', hr2, htr, hsr, hagr⟩ := ihr hr1 hd1 ht1.stands.inRest
      ((hpath.turn ht1 hst).mono fun i hi => by simp [Forest.ids, hi])
      (hcost.imp (fun h => h.2.2) fun h => by omega)
    rw [Forest.comments_node, List.foldl_append, List.foldl_append, List.foldl_append, heq]
    refine ⟨_, hr2, ht1.trans (ht1.stands.turns_inRest htr), ?_,
      (hag1.trans hagr).mono (by simp) fun i => ?_⟩
    · simp only [Forest.shape, Forest.showMarkers, hs1, hs1', hsr]
    · have := once_mono (A := cs.ids) (fun j hj => List.mem_cons_of_mem id.index hj) i
      rw [once_node hst.nodup, Forest.cost]
      omega

end View

end LiveMarkup
