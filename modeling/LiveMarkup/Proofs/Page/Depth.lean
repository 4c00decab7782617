import LiveMarkup.Proofs.Page.Attached

/-!
# How deep directives are nested

The levels that the contents of directives may be nested are counted down.  Where they suffice, so that
no fragment is left as it was made (`Event.cut`), a pass shows just what it shows with any number of
levels more (`showUnder_stable`).  The induction is on the levels: what shows a state with some way of
making fragments shows the same with one that goes on where the first is not cut short (`Prolongs`).
-/

namespace LiveMarkup

namespace View

open Document

variable {build build' : Build} {tells : Telling} {o : ViewOptions} {scope : Scope} {up : Update}
  {v : View} {under marker target : NodeId} {kind : DirectiveKind}
  {shows shows' : NodeId → String → View → Option View} {told : NodeId → String → View → List Event}

/-- A way of making fragments makes what another one makes where that is not cut short. -/
def Prolongs (build' build : Build) (tells : Telling) : Prop :=
  ∀ scope html v, .cut ∉ tells scope html v → build' scope html v = build scope html v

theorem showGroup_stable (h : Prolongs build' build tells) (g : ConditionGroup)
    (hcut : .cut ∉ groupEvents build tells o scope marker g v) :
    v.showGroup build' o scope marker g = v.showGroup build o scope marker g := by
  unfold groupEvents at hcut
  unfold showGroup
  rcases hchosen : chosenBlock o scope g with _ | b
  · rfl
  · simp only [hchosen] at hcut ⊢
    split
    · rfl
    · rename_i hblank
      rw [if_neg hblank, List.mem_cons, List.mem_append, not_or, not_or] at hcut
      rw [h _ _ _ hcut.2.1]

theorem addItems_stable (h : Prolongs build' build tells) (l : LoopDefinition) :
    ∀ (items : List Value) (i : Nat) (v : View),
      .cut ∉ itemEvents build tells o scope l target i items v →
        addItems build' o scope l target i items v = addItems build o scope l target i items v
  | [], _, _, _ => rfl
  | item :: items, i, v, hcut => by
    rw [itemEvents, List.mem_append, List.mem_cons, not_or, not_or] at hcut
    rw [addItems_cons, addItems_cons, h _ _ _ hcut.1]
    exact addItems_stable h l items (i + 1) _ hcut.2.2

theorem showLoop_stable (h : Prolongs build' build tells) (t : Turn) (items : List Value)
    (hcut : .cut ∉ loopEvents build tells o t items v) :
    v.showLoop build' o t.scope t.marker t.loop items =
      v.showLoop build o t.scope t.marker t.loop items := by
  simp only [loopEvents, List.mem_cons, List.mem_append, not_or] at hcut
  unfold showLoop
  simp only [addItems_stable h t.loop items 0 _ hcut.2.2.1]

theorem groupShower_stable (h : Prolongs build' build tells) (id : NodeId) (name : String) (v : View)
    (hcut : .cut ∉ groupTeller build tells o scope up id name v) :
    groupShower build' o scope up id name v = groupShower build o scope up id name v := by
  unfold groupTeller at hcut
  unfold groupShower
  rcases hg : v.records.group? name with _ | g
  · rfl
  · simp only [hg, Option.bind_eq_bind, Option.bind_some] at hcut ⊢
    split
    · rename_i hmeets
      rw [if_pos hmeets] at hcut
      rw [showGroup_stable h g hcut]
    · rfl

theorem loopShower_stable (h : Prolongs build' build tells) (start : Document) (id : NodeId)
    (name : String) (v : View) (hcut : .cut ∉ loopTeller build tells o scope up start id name v) :
    loopShower build' o scope up id name v = loopShower build o scope up id name v := by
  unfold loopTeller at hcut
  unfold loopShower
  rcases hl : v.records.loop? name with _ | l
  · rfl
  · simp only [hl, Option.bind_eq_bind, Option.bind_some] at hcut ⊢
    split
    · rename_i hmeets
      rw [if_pos hmeets] at hcut
      rcases hitems : (valueOf o.namesItems scope l.array.toList).items? with _ | items
      · rfl
      · simp only [Turn.items?, hitems] at hcut
        exact congrArg some (showLoop_stable h ⟨id, l, scope, start⟩ items hcut)
    · rfl

/-- Markers show the same if each one does that is not cut short. -/
theorem showMarkers_stable
    (h : ∀ id name v, .cut ∉ told id name v → shows' id name v = shows id name v)
    (hcut : .cut ∉ markersEvents kind shows told under (v.document.comments under) v) :
    v.showMarkers kind shows' under = v.showMarkers kind shows under := by
  unfold showMarkers
  generalize v.document.comments under = ns at hcut ⊢
  generalize 0 = count
  induction ns generalizing v count with
  | nil => rfl
  | cons n ns ih =>
    obtain ⟨id, text⟩ := n
    rw [markersEvents, List.mem_append, not_or] at hcut
    obtain ⟨hself, hrest⟩ := hcut
    rw [List.foldl_cons, List.foldl_cons]
    unfold markerEvents at hself
    unfold markerStep at hrest
    rcases hm : Marker.ofComment? text with _ | m <;> simp only [hm] at hself hrest ⊢
    · exact ih hrest count
    · split <;> rename_i hcond
      · rw [if_pos hcond] at hself hrest
        rw [h id m.name v hself]
        rcases hv : shows id m.name v with _ | v' <;> rw [hv] at hrest
        · exact ih hrest count
        · exact ih hrest (count + 1)
      · rw [if_neg hcond] at hrest
        exact ih hrest count

theorem showWith_stable (h : Prolongs build' build tells)
    (hcut : .cut ∉ showEvents build tells o scope up under v) :
    v.showWith build' o scope up under = v.showWith build o scope up under := by
  simp only [showEvents, List.mem_append, not_or] at hcut
  have hgroups : v.showGroups build' o scope up under = v.showGroups build o scope up under :=
    showMarkers_stable (groupShower_stable h) hcut.1
  have hloops := showMarkers_stable (loopShower_stable h _) hcut.2.1
  unfold showWith
  rw [hgroups]
  dsimp only
  rw [show (v.showGroups build o scope up under).2.showLoops build' o scope up under =
    (v.showGroups build o scope up under).2.showLoops build o scope up under from hloops]

/-- A fragment that is not cut short is made just so with more levels. -/
theorem prolongs_build (o : ViewOptions) (more : Nat) :
    ∀ levels, Prolongs (View.build o (levels + more)) (View.build o levels) (buildEvents o levels)
  | 0 => fun scope html v hcut => by simp [buildEvents] at hcut
  | levels + 1 => fun scope html v hcut => by
    simp only [buildEvents, List.mem_append, not_or] at hcut
    rw [Nat.add_right_comm, build_succ, build_succ, showWith_stable (prolongs_build o more levels) hcut.2]

/-- A pass in which no fragment is cut short shows what it shows with any number of levels more. -/
theorem showUnder_stable (o : ViewOptions) (scope : Scope) (up : Update) (under : NodeId) (v : View)
    (hcut : .cut ∉ v.trace o scope up under) (more : Nat) (hchanged : up.isEmpty = false) :
    v.showWith (View.build o (v.records.size + 1 + o.depth + more)) o scope up under =
      v.showUnder o scope up under := by
  rw [trace, hchanged, if_neg Bool.false_ne_true] at hcut
  rw [showUnder, hchanged, if_neg Bool.false_ne_true]
  exact showWith_stable (prolongs_build o more _) hcut

end View

end LiveMarkup
