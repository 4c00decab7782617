import LiveMarkup.Proofs.Page.Meaning
import LiveMarkup.Proofs.Page.Turns

/-!
# Showing the same state twice

A view of a template without loops that is shown in full a second time stays as it is
(`View.render_twice`): the contents of groups are made anew just as they were, and what they cost is
bounded by the weight of the skeleton, so that no handle comes round.

With loops a second pass can find records that the first one has made.  These leave the others as they
are, and the contents of items are placed once and then kept: a loop that has its turn in both passes,
for as many items, shows in the second what it has shown in the first (`View.showUnder_looks_again`).
-/

namespace LiveMarkup

open Text Document Forest

namespace View

variable {o : ViewOptions} {scope : Scope} {r : Records} {w : NodeData → Nat} {ts : List Tree}
  {make : List Char → Forest Unit}

theorem cost_expanded (h : TextsOnly o scope r ts) :
    ((ofTrees ts).expanded o scope r make).cost (newContent o scope r make .all) w ≤
      (ofTrees ts).weigh w := by
  induction ts using ofTrees.induct with
  | case1 =>
    rw [ofTrees]
    exact le_rfl
  | case2 data ts rest ihc ihr =>
    rw [ofTrees, expanded, cost, Forest.weigh]
    have hrest := ihr h.next
    have hchildren : (((newText o scope .all data).map (mapElements (newAttributes o scope .all))).getD
        ((ofTrees ts).expanded o scope r make)).cost (newContent o scope r make .all) w ≤
        (ofTrees ts).weigh w := by
      rcases hlive : data.liveText? with _ | text <;> rw [newText_all, hlive]
      · exact ihc (h.child hlive)
      · rw [Option.map_some, Option.map_some, Option.getD_some, mapElements_text (h.text hlive),
          cost_text (h.text hlive)]
        exact Nat.zero_le _
    have hself : (if (newContent o scope r make .all
          (data.mapElement (newAttributes o scope .all))).isSome
        then w (data.mapElement (newAttributes o scope .all))
        else (((r.groupAt? data).map (groupContent o scope make)).getD .nil).cost
          (newContent o scope r make .all) w) ≤ w data := by
      rw [newContent_all, NodeData.groupAt?_mapElement]
      rcases hg : r.groupAt? data with _ | g
      · exact Nat.zero_le _
      · cases data <;> first | exact le_rfl | cases hg
    omega

/-- Of a template without loops, a view that is shown in full stays as it is when it is shown in full
again.  A source of less than the given length has too few groups for the handle of a node that is
gone to come round to another one. -/
theorem render_twice {co : CompileOptions} {source : List Char} {compiled : Compiled}
    (hcompile : compile co source = .ok compiled) (hno : NoComment source)
    (hloops : compiled.template.loops = []) (hlength : source.length + 3 < 3 * generations)
    (hplain : ∀ e, .element e ∈ compiled.template.nodes → e.Plain)
    (htexts : TextsOnly o scope (.ofTemplate compiled.template)
      (Tree.parse compiled.template.html.toList))
    {once : View} (honce : ((View.ofTemplate compiled.template
      (.parse compiled.template.html.toList)).render o scope .all).2 = once) :
    (once.render o scope .all).2.document.toHtml = once.document.toHtml := by
  obtain ⟨w, hw, hsize, hweight⟩ := weighs_of_compile hcompile hno hloops
  generalize compiled.template = t at *
  obtain ⟨f, sp, hsp, hd, hst, hshape⟩ := parse_spec t.html.toList
  have hs : (Records.ofTemplate t).Settles o := settles_ofTemplate hplain hloops
  have hweigh : f.weigh w ≤ (Records.ofTemplate t).size := by rwa [← weigh_shape, hshape]
  have hbare : f.Bare := bare_shape.mp (hshape ▸ bare_ofTrees _)
  have hl := loops_ofTemplate hloops
  obtain ⟨g, hrec, hd', hst', hshape'⟩ := render_bare (o := o)
    (v := .ofTemplate t (.parse t.html.toList)) scope hw hs hl rfl hd hst hbare hweigh
  rw [honce] at hrec hd' hst'
  clear honce
  have hcost : g.cost (newContent o scope (.ofTemplate t)
      (made o scope (.ofTemplate t) ((Records.ofTemplate t).size + 1 + o.depth)) .all) w ≤
      (ofTrees (Tree.parse t.html.toList)).weigh w := by
    rw [← cost_shape, hshape', hshape]
    exact cost_expanded htexts
  obtain ⟨g', -, ht, hshape'', -⟩ := showWith_spec (o := o) (u := .all) hw
    (build_spec hw hl o scope ((Records.ofTemplate t).size + 1 + o.depth)) hrec hl hd' hst' (.inr (by omega))
  rw [← render_all_eq hrec] at ht
  have hready : Ready o scope (.ofTemplate t)
      (made o scope (.ofTemplate t) ((Records.ofTemplate t).size + 1 + o.depth)) f.shape :=
    ready_made hw hs _ _ (by rw [weigh_shape]; omega)
  have hsettles : ∀ n ∈ f.shape.nodes, n.2.Settles :=
    hshape ▸ settles_of_mem_markups hplain List.mem_cons_self
  rw [hshape', shown_expanded hsettles (bare_shape.mpr hbare) hready, ← hshape'] at hshape''
  have htree : (once.render o scope .all).2.document.subtree root = once.document.subtree root := by
    rw [subtree_eq ht.stands, subtree_eq hst', ← trees_shape, hshape'', trees_shape]
  rw [toHtml, toHtml, innerHtml, innerHtml, htree]

theorem render_twice_guarded :
    let once := ((View.ofTemplate Page.guarded (.parse Page.guarded.html.toList)).render {}
      ⟨[("a", .string "y"), ("x", .string "v")], []⟩ .all).2
    (once.render {} ⟨[("a", .string "y"), ("x", .string "v")], []⟩ .all).2.document.toHtml =
      once.document.toHtml := by
  have htexts : TextsOnly {} ⟨[("a", .string "y"), ("x", .string "v")], []⟩
      (.ofTemplate Page.guarded) (Tree.parse Page.guarded.html.toList) :=
    textsOnly_guarded (v := "v") rfl rfl rfl (by decide)
  intro once
  have honce : ((View.ofTemplate Page.guarded (.parse Page.guarded.html.toList)).render {}
      ⟨[("a", .string "y"), ("x", .string "v")], []⟩ .all).2 = once := rfl
  clear_value once
  exact render_twice Page.compile_guarded Page.noComment_guarded rfl (by decide) Page.plain_guarded
    htexts honce

/-! ## Loops -/

section

open Operation

variable {r' : Records} {d d' : Document} {t t' : Turn}

/-- Turns at one marker are turns of one loop. -/
theorem Turn.Marked.loop_eq (h : t.Marked r d) (h' : t'.Marked r' d') (hr : r.Extends r')
    (hm : t'.marker = t.marker) (hlook : (d'.data t.marker).look = (d.data t.marker).look) :
    t'.loop = t.loop := by
  obtain ⟨text, name, hdata, hname, hloop⟩ := h.of_look_eq hlook
  obtain ⟨text', name', hdata', hname', hloop'⟩ := h'
  rw [hm, hdata] at hdata'
  obtain rfl := NodeData.comment.inj hdata'
  obtain rfl := congrArg Marker.name (Option.some.inj (hname.symm.trans hname'))
  exact Option.some.inj (hloop'.symm.trans (hr.loop _ _ hloop))

/-- A loop that is shown with as many items as before shows what it showed. -/
theorem Turn.Shown.looks_eq (h : t.Shown o r d) (h' : t'.Shown o r' d') (hr : r.Extends r')
    (hm : t'.marker = t.marker) (hlook : (d'.data t.marker).look = (d.data t.marker).look)
    {items items' : List Value} (hitems : t.items? o = some items) (hitems' : t'.items? o = some items')
    (hn : items'.length = items.length) :
    d'.looks (d'.instances t.marker) = d.looks (d.instances t.marker) := by
  have hloop := h.marked.loop_eq h'.marked hr hm hlook
  have hlooks := h'.items items' hitems'
  rw [hm, hloop, hn] at hlooks
  rw [hlooks, h.items items hitems]
  refine List.flatMap_congr fun i hi => ?_
  obtain ⟨html, hplaced⟩ := h.placed items hitems i (List.mem_range.mp hi)
  rw [Records.body_of_lookup hplaced, Records.body_of_lookup (hr.bodies _ _ hplaced)]

/-- A loop that has its turn in two passes, for as many items, shows in the second what it has shown in
the first. -/
theorem showUnder_looks_again {scope scope' : Scope} {up up' : Update} {under under' : NodeId} {v w : View}
    (hw : (v.showUnder o scope up under).2 = w) (hd : v.document.WellFormed)
    (hu : v.document.Live under) (hu' : w.document.Live under')
    (howners : v.document.OwnersSettled ((operations (v.trace o scope up under)).length +
      (operations (w.trace o scope' up' under')).length))
    (hlen : (operations (v.trace o scope up under)).length +
      (operations (w.trace o scope' up' under')).length < generations)
    (hlast : LastTurn (v.trace o scope up under) t) (hlast' : LastTurn (w.trace o scope' up' under') t')
    (hm : t'.marker = t.marker) (hlive : w.document.Live t.marker)
    (hlive' : (w.showUnder o scope' up' under').2.document.Live t.marker)
    {items items' : List Value} (hitems : t.items? o = some items) (hitems' : t'.items? o = some items')
    (hn : items'.length = items.length) :
    (w.showUnder o scope' up' under').2.document.looks
        ((w.showUnder o scope' up' under').2.document.instances t.marker) =
      w.document.looks (w.document.instances t.marker) := by
  have hfaithful := recounted_trace o scope up hd hu (by omega) (howners.mono (Nat.le_add_right ..))
  have hsettled := ownersSettled_showUnder o scope up hd hu howners hlen
  obtain ⟨hlegal, hrun⟩ := run_operations_trace o scope up under v hd hu
  rw [hw] at hfaithful hsettled hrun
  have hd' : w.document.WellFormed := hrun ▸ (hlegal.sane hd).1
  have hfaithful' := recounted_trace o scope' up' hd' hu' (by omega) hsettled
  obtain ⟨hlegal', hrun'⟩ := run_operations_trace o scope' up' under' w hd' hu'
  have hextends := extends_showUnder o scope' up' under' w
  rw [← hrun'] at hlive' ⊢
  have hstays := mem_stays_of_live hd' hlegal' hlive hlive' (by omega)
  have hlook := hfaithful'.allOrderly.look_eq hd' hlegal' hstays
  have hshown := hfaithful.shown hd hlegal (by omega) hlast (hrun.symm ▸ hlive)
  have hshown' := hfaithful'.shown hd' hlegal' (by omega) hlast' (hm ▸ hlive')
  rw [hrun] at hshown
  exact hshown.looks_eq hshown' hextends hm hlook hitems hitems' hn

end

end View

end LiveMarkup
