import ZXRewriting.Proofs.GraphLike.Expansion
import ZXRewriting.Proofs.GraphLike.Runs
import ZXRewriting.Proofs.GraphLike.Strings

/-!
# The graph-like form of diagrams with boxes of any size

Boxes may have any number of wires, to each other and to the same spider, and be numbered in any way:
the graph-like form denotes the same linear map up to a scalar
(`GraphLike.exists_ofDiagram_linearMap`), unless a string of boxes with two wires leads from a box back
to it. A box without wires is a scalar (`Web.Valid.amplitude_alone`), one with a single wire a half
turn (`Web.Valid.amplitude_leaf`), one with two an edge or a half turn (`Web.Hung.removes_unbox`), and
one with more becomes Z spiders with the phases of its parities. Whichever comes in its place, the
other boxes have no more wires than before, and there are no new strings (`Web.Removes`).
-/

namespace ZXRewriting

open Function (update update_self update_of_ne update_idem)

namespace Web

variable {w w' w₂ w₃ : Web} {a b h v : Vertex} {k k₁ k₂ : EdgeKind} {D : ℕ} {Φ : Bits → ℂ}
  {ends : List (Vertex × EdgeKind)}

/-! ### Short boxes -/

/-- A box without wires is a scalar. -/
theorem Valid.amplitude_alone (hw : w.Valid) (hbox : w.kind h = some .box)
    (hends : w.EndsAre h []) :
    Proportional (w.tensors 1).amplitude ((w.remove h).tensors 1).amplitude := by
  have hinner : h ∈ (w.tensors 1).inner := hw.mem_tensors_of_kind hbox rfl
  refine ⟨-1, by norm_num,
    Network.amplitude_eq_of_sum hinner (hw.tensors_inner_remove h) fun b => ?_⟩
  rw [← sumOver_singleton, hw.sumOver_box hbox hends]
  simp
  ring

/-- A Z spider with a half turn in place of a vertex. -/
def leaf (w : Web) (h : Vertex) : Web :=
  { w.setPhase h .pi with kind := update w.kind h (some .z) }

theorem isZ_leaf : (w.leaf h).IsZ h := update_self _ _ _

theorem kind_leaf (hv : v ≠ h) : (w.leaf h).kind v = w.kind v := update_of_ne hv _ _

theorem remove_leaf : (w.leaf h).remove h = w.remove h :=
  Web.ext rfl (update_idem _ _ _) (update_idem _ _ _) rfl rfl rfl rfl

theorem has_leaf (hh : w.Has h) : (w.leaf h).Has v ↔ w.Has v := by
  by_cases hv : v = h
  · exact iff_of_true (hv ▸ isZ_leaf.has) (hv ▸ hh)
  · rw [Has, kind_leaf hv, Has]

theorem Valid.leaf (hw : w.Valid) (hh : w.Has h) : (w.leaf h).Valid :=
  ⟨fun v hv => hw.lt v ((has_leaf hh).1 hv), hw.symm, hw.self,
    fun s t k hpos => (has_leaf hh).2 (hw.has s t k hpos)⟩

theorem loosened_leaf : Loosened w h (w.leaf h) where
  box v := by
    by_cases hv : v = h
    · subst hv
      rw [show (w.leaf v).kind v = some .z from isZ_leaf]
      simp
    · rw [kind_leaf hv, and_iff_left hv]
  degree _ _ := rfl
  joins _ _ _ _ := rfl

theorem Valid.tensors_inner_leaf (hw : w.Valid) (hbox : w.kind h = some .box) :
    ((w.leaf h).tensors 1).inner = (w.tensors 1).inner := by
  have hh := has_of_kind hbox
  ext v
  rw [(hw.leaf hh).mem_tensors, hw.mem_tensors, has_leaf hh]
  refine and_congr_right fun _ => not_congr ?_
  by_cases hv : v = h
  · exact iff_of_false (hv ▸ isZ_leaf.not_isEnd) (hv ▸ not_isEnd_of_kind hbox rfl)
  · rw [IsEnd, kind_leaf hv, IsEnd]

/-- A box with one wire is a Z spider with a half turn. -/
theorem Valid.amplitude_leaf (hw : w.Valid) (hbox : w.kind h = some .box)
    (hends : w.EndsAre h [(a, k)]) :
    Proportional (w.tensors 1).amplitude ((w.leaf h).tensors 1).amplitude := by
  have hval := hw.leaf (has_of_kind hbox)
  have hah := (hw.has_of_endsAre hends List.mem_cons_self).2
  have hmem : h ∈ ((w.leaf h).tensors 1).inner := hval.mem_tensors_of_kind isZ_leaf rfl
  have hinner := hw.tensors_inner_leaf hbox
  have hends' : (w.leaf h).EndsAre h [(a, k)] := hends
  have hleg : (w.leaf h).leg a = (w.remove h).leg a := by
    rw [leg, leg, kindAt, kindAt, kind_leaf hah, kind_remove, update_of_ne hah]
  have hphase : (w.leaf h).phase h = .pi := update_self _ _ _
  refine ⟨1, one_ne_zero, Network.amplitude_eq_of_sumOver (S := {h}) (T := {h})
    (by simpa using hinner ▸ hmem) (by simpa using hmem) (by rw [hinner]) fun b => ?_⟩
  rw [hw.sumOver_box hbox hends, sumOver_singleton, hval.tensors_star hmem hends',
    hval.tensors_star hmem hends', remove_leaf, leg_of_isZ isZ_leaf, kindAt_eq isZ_leaf]
  simp [hphase, wireFactor, SpiderKind.factor, hleg]
  ring

/-! ### Long boxes -/

/-- A box with many wires goes, and Z spiders come. -/
theorem Valid.loosened_expanded (hw : w.Valid) (hends : w.EndsAre h ends)
    (hl : Legged D (w.remove h) ends w₂) (hb : Brings D Φ w₂ w₃) : Loosened w h w₃ := by
  have hbox (v : Vertex) : w₃.kind v = some .box ↔ w.kind v = some .box ∧ v ≠ h :=
    (hl.grown.trans hb.grown).box_iff
  have hold {c : Vertex} (hc : w₃.kind c = some .box) :
      (w.remove h).Has c ∧ c ≠ h ∧ w₃.joins c = w₂.joins c := by
    have hkind := isBox_remove.2 ((hbox c).1 hc)
    have hhas := has_of_kind hkind
    have hkind₂ : w₂.kind c = some .box := (hl.grown.kind_eq hhas).trans hkind
    refine ⟨hhas, ((hbox c).1 hc).2, funext fun x => ?_⟩
    rw [joins, joins, hb.count c (hl.grown.has hhas) (by rw [IsZ, hkind₂]; simp)]
  refine ⟨hbox, fun c hc => ?_, fun c x hc hx => ?_⟩
  · obtain ⟨hhas, hne, hjoins⟩ := hold hc
    have hends' : (ends.map Prod.fst).count c = w.joins c h := by
      rw [count_map_fst, ← hends, ← hends, hw.joins_comm, joins]
    rw [← hw.degree_remove (v := h) hne, ← hends', ← hl.degree c hhas,
      hl.valid.degree_eq_of_le hb.next_le, Web.degree, hjoins]
  · obtain ⟨hhas, hne, hjoins⟩ := hold hc
    obtain ⟨hhas', hne', -⟩ := hold hx
    rw [hjoins, joins, hl.count c x hhas hhas', ← joins, joins_remove,
      if_neg (not_or.2 ⟨hne, hne'⟩)]

/-! ### Taking out a box -/

/-- A web made from another one by taking out a box: it denotes the same up to a scalar, other boxes
    have no more edges than before, and there are no new strings. -/
structure Removes (D : ℕ) (w w' : Web) : Prop where
  inputs : w'.inputs = w.inputs
  outputs : w'.outputs = w.outputs
  onGrid : w'.OnGrid D
  amplitude : Proportional (w.tensors 1).amplitude (w'.tensors 1).amplitude
  degree_le : ∀ c, w'.kind c = some .box → w'.degree c ≤ w.degree c
  unlooped : w'.Unlooped

theorem Loosened.removes (hl : Loosened w h w') (hw : w.Valid) (hw' : w'.Valid) (hu : w.Unlooped)
    (hin : w'.inputs = w.inputs) (hout : w'.outputs = w.outputs) (hg : w'.OnGrid D)
    (hamp : Proportional (w.tensors 1).amplitude (w'.tensors 1).amplitude) : Removes D w w' :=
  ⟨hin, hout, hg, hamp, fun c hc => (hl.degree c hc).le, hl.unlooped hw hw' hu⟩

/-- A box with two wires is an edge, or a half turn where both lead to the same spider. -/
theorem Hung.removes_unbox (hw : w.Hung) (hD : Phase.IsGrid D) (hg : w.OnGrid D) (hu : w.Unlooped)
    (hbox : w.kind h = some .box) (hends : w.EndsAre h [(a, k₁), (b, k₂)]) :
    Removes D w (w.unbox h a b (k₁.merge k₂).opposite) := by
  set k := (k₁.merge k₂).opposite
  have hval := hw.valid
  have hbetween : w.Between h a b := joins_of_endsAre hends
  have ha := hval.has_of_endsAre hends List.mem_cons_self
  have hamp : Proportional (w.tensors 1).amplitude ((w.unbox h a b k).tensors 1).amplitude :=
    hval.amplitude_unbox hD hg hbox hends (fun hab => by
      subst hab
      exact hw.isPhased_of_twice hends fun hκ => hu.ne hbox hbetween hκ rfl) rfl
  by_cases hab : a = b
  · subst hab
    have hfree (c : Vertex) (hc : w.kind c = some .box) : w.joins h c = 0 := by
      rw [hbetween, if_neg]
      rintro rfl
      exact hu.ne hbox hbetween hc rfl
    have hl : Loosened w h (w.unbox h a a k) := by
      refine (hval.loosened_remove hfree).congr next_unbox kind_unbox ?_
      rw [Web.unbox, if_pos rfl]
      split_ifs <;> rfl
    exact hl.removes hval (hval.unbox ha.1 ha.1 ha.2 ha.2) hu inputs_unbox outputs_unbox
      (hg.unbox hD) hamp
  · exact ⟨inputs_unbox, outputs_unbox, hg.unbox hD, hamp,
      fun c hc => hval.degree_unbox_le (has_of_kind hbox) hends (isBox_unbox.1 hc).2,
      Unlooped.unbox hval hbox hbetween hab hu⟩

end Web

namespace GraphLike

variable {g : GraphLike} {w₀ : Web} {h : Vertex} {D : ℕ} {d : Diagram}

/-- Taking out a box denotes the same. -/
theorem exists_removes (hg : g.Coherent) (hw : g.web.Hung) (hD : Phase.IsGrid D)
    (hgrid : g.web.OnGrid D) (hu : g.web.Unlooped) (hbox : g.web.kind h = some .box)
    (hdvd : 2 ^ (g.web.degree h - 1) ∣ D) :
    ∃ g', g.removeBox h = .ok g' ∧ g'.Coherent ∧ Web.Removes D g.web g'.web := by
  have hval := hg.valid
  have hh := Web.has_of_kind hbox
  obtain ⟨links, hok, hlinks⟩ := exists_links hg hh
  have hends := hlinks.endsAre
  have hprogram := removeBox_eq hok
  rcases hl : links.flatMap fun l => List.replicate l.count (l.node, l.kind) with
    - | ⟨⟨a, k₁⟩, - | ⟨⟨b, k₂⟩, - | ⟨e, rest⟩⟩⟩
  · rw [hl] at hprogram hends
    obtain ⟨g', hok', hg', hw', -⟩ := Gives.removeSpider hg hh
    have hloose := hval.loosened_remove (h := h) fun c _ => by
      rw [Web.joins, hends, hends]
      rfl
    refine ⟨g', hprogram.trans hok', hg', ?_⟩
    rw [hw']
    exact hloose.removes hval (hval.remove h) hu rfl rfl (hgrid.remove h)
      (hval.amplitude_alone hbox hends)
  · rw [hl] at hprogram hends
    obtain ⟨g', hok', hg', hw', -⟩ := Gives.leaf hg hh
    have hleaf : g'.web = g.web.leaf h := hw'
    refine ⟨g', hprogram.trans hok', hg', ?_⟩
    rw [hleaf]
    exact Web.loosened_leaf.removes hval (hval.leaf hh) hu rfl rfl
      (hgrid.setPhase Phase.onGrid_pi h) (hval.amplitude_leaf hbox hends)
  · obtain ⟨g', hok', hg', hw', -⟩ := Gives.removeBox hg hh hok hlinks hl
    rw [hl] at hends
    refine ⟨g', hok', hg', ?_⟩
    rw [hw']
    exact hw.removes_unbox hD hgrid hu hbox hends
  · rw [hl] at hprogram hends
    rw [hends.degree_eq hval] at hdvd
    obtain ⟨g', w₂, hok', hg', hlegs, hb⟩ := exists_expandBox_brings hg hD hgrid hbox hends
      (List.cons_ne_nil _ _) hdvd
    exact ⟨g', hprogram.trans hok', hg', (hval.loosened_expanded hends hlegs hb).removes hval
      hg'.valid hu (hb.inputs.trans hlegs.inputs) (hb.outputs.trans hlegs.outputs) hb.onGrid
      (hval.amplitude_expanded hbox hends hlegs hb)⟩

/-- A diagram the boxes of which are being taken out. -/
structure Opening (D : ℕ) (w₀ : Web) (g : GraphLike) : Prop where
  coherent : g.Coherent
  recorded : g.Recorded
  framed : g.web.Framed
  onGrid : g.web.OnGrid D
  dvd : ∀ h, g.web.kind h = some .box → 2 ^ (g.web.degree h - 1) ∣ D
  unlooped : g.web.Unlooped
  inputs : g.web.inputs = w₀.inputs
  outputs : g.web.outputs = w₀.outputs
  amplitude : Proportional (w₀.tensors 1).amplitude (g.web.tensors 1).amplitude

/-- One box less. -/
theorem Opening.exists_removeBox (hs : Opening D w₀ g) (hD : Phase.IsGrid D)
    (hbox : g.web.kind h = some .box) : ∃ g', g.removeBox h = .ok g' ∧ Opening D w₀ g' ∧
      ∀ v, g'.web.kind v = some .box ↔ g.web.kind v = some .box ∧ v ≠ h := by
  obtain ⟨g', hok, hgrown⟩ :=
    GraphLike.exists_removeBox hs.coherent hs.recorded hs.framed.toHung hbox
  obtain ⟨g'', hok', hg', hr⟩ := exists_removes hs.coherent hs.framed.toHung hD hs.onGrid
    hs.unlooped hbox (hs.dvd h hbox)
  obtain rfl : g'' = g' := Except.ok.inj (hok'.symm.trans hok)
  have hung := hgrown.awaits.hung hgrown.coherent.valid
  have hdvd (c : Vertex) (hc : g''.web.kind c = some .box) : 2 ^ (g''.web.degree c - 1) ∣ D :=
    (pow_dvd_pow 2 (Nat.sub_le_sub_right (hr.degree_le c hc) 1)).trans
      (hs.dvd c (hgrown.grown.box_iff.1 hc).1)
  exact ⟨g'', hok, ⟨hg', hgrown.recorded,
    hs.framed.of_hung hung hr.inputs hr.outputs (hgrown.grown.sameEnds hbox), hr.onGrid, hdvd,
    hr.unlooped, hr.inputs.trans hs.inputs, hr.outputs.trans hs.outputs,
    hs.amplitude.trans hr.amplitude⟩, fun v => hgrown.grown.box_iff⟩

/-- Taking out all boxes. -/
theorem Opening.exists_removeBoxes (hs : Opening D w₀ g) (hD : Phase.IsGrid D) :
    ∃ g', g.removeBoxes = .ok g' ∧ Opening D w₀ g' ∧ ∀ v, g'.web.kind v ≠ some .box :=
  GraphLike.exists_removeBoxes (fun _ h => h.coherent)
    (fun _ _ hs hbox _ => hs.exists_removeBox hD hbox) hs

/-! ### The conversion -/

section Conversion

variable (hd : d.Coherent) (hw : d.web.Framed) (hD : Phase.IsGrid D) (hgrid : d.web.OnGrid D)
  (hu : d.web.Unlooped) (hdvd : ∀ h, d.web.kind h = some .box → 2 ^ (d.web.degree h - 1) ∣ D)
include hd hw hD hgrid hu hdvd

/-- A diagram has a graph-like form that denotes the same up to a scalar, if its boxes make no loops
    and the phases that they are written with are on the grid, too. -/
theorem exists_ofDiagram_amplitude : ∃ g, ofDiagram d = .ok g ∧ g.Coherent ∧ g.web.InForm ∧
    g.web.OnGrid D ∧ g.web.inputs = d.web.inputs ∧ g.web.outputs = d.web.outputs ∧
      Proportional (d.web.tensors 1).amplitude (g.web.tensors 1).amplitude := by
  obtain ⟨g₁, hok₁, -, hr₁, -, -, -, -, hn₁, -⟩ := exists_start hd
  obtain ⟨g₁', hok₁', hs₁, hk₁, hc₁⟩ := exists_start_stage hd hw hgrid
  obtain rfl : g₁ = g₁' := Except.ok.inj (hok₁.symm.trans hok₁')
  have hopening : Opening D d.web g₁ := by
    refine ⟨hs₁.coherent, hr₁, hs₁.framed, hs₁.onGrid, fun h hh => ?_, hu.congr hk₁ hc₁,
      hs₁.converts.inputs, hs₁.converts.outputs, hs₁.converts.amplitude 1 fun _ _ => rfl⟩
    rw [Web.degree, hn₁]
    simp only [Web.joins, hc₁]
    exact hdvd h (hk₁ ▸ hh)
  obtain ⟨g₂, hok₂, h₂, hbox₂⟩ := hopening.exists_removeBoxes hD
  have hs₂ : Stage D g₂.web g₂ := ⟨h₂.coherent, h₂.framed, h₂.onGrid, .refl _⟩
  obtain ⟨g, g', hok, hs, hform, hclear, hg', hw', -⟩ :=
    (Stage.lasting hD).exists_reduced hok₁ hok₂ hs₂ hbox₂
  have hconverts : Web.Converts g₂.web g'.web :=
    hs.converts.trans (hw' ▸ hform.converts_reduced)
  refine ⟨g', hok, hg', ?_, ?_, hconverts.inputs.trans h₂.inputs,
    hconverts.outputs.trans h₂.outputs, h₂.amplitude.trans (hconverts.amplitude 1 fun _ _ => rfl)⟩
  · rw [hw']
    exact hs.framed.inForm_reduced hform hclear
  · rw [hw']
    exact hs.onGrid

/-- A diagram with plain edges, the boxes of which may be of any size, has a graph-like form that
    denotes the same linear map up to a scalar. -/
theorem exists_ofDiagram_linearMap (hplain : d.web.Plain) : ∃ g, ofDiagram d = .ok g ∧
    g.Coherent ∧ g.web.InForm ∧ g.inputs = d.inputs ∧ g.outputs = d.outputs ∧
      ∃ c : ℂ, c ≠ 0 ∧ d.linearMap d.outputs.length d.inputs.length =
        c • g.linearMap d.outputs.length d.inputs.length := by
  obtain ⟨g, hok, hg, hform, -, hin, hout, hamp⟩ :=
    exists_ofDiagram_amplitude hd hw hD hgrid hu hdvd
  rw [Web.tensors_eq_network hform.simple.colour] at hamp
  obtain ⟨c, hc, hamp⟩ := (hd.valid.contraction hplain).trans hamp
  refine ⟨g, hok, hg, hform, hin, hout, c, hc, ?_⟩
  ext y x
  rw [Diagram.linearMap, linearMap, show g.inputs = d.inputs from hin,
    show g.outputs = d.outputs from hout, Matrix.smul_apply, smul_eq_mul]
  exact hamp _

end Conversion

end GraphLike

/-! ### An example -/

/-- Two boxes with three wires each, two of which lead from the one to the other. -/
def twinBoxes : Diagram where
  graph := ⟨#[some [⟨2, .plain, 1⟩], some [⟨3, .plain, 1⟩], some [⟨0, .plain, 1⟩, ⟨3, .plain, 2⟩],
    some [⟨2, .plain, 2⟩, ⟨1, .plain, 1⟩]], 4, 3⟩
  kinds := .ofList [(0, .input), (1, .output), (2, .box), (3, .box)] compare
  phases := ∅
  layout := .new 1
  inputs := [0]
  outputs := [1]
  carriers := ∅

theorem twinBoxes_plain : twinBoxes.Coherent ∧ twinBoxes.web.Plain := by decide +kernel

theorem twinBoxes_framed : twinBoxes.web.Framed := by
  have hval := twinBoxes_plain.1.valid
  have hdegree : ∀ v < 4, twinBoxes.web.IsEnd v → twinBoxes.web.degree v = 1 := by decide +kernel
  have hin : ∀ v < 4, twinBoxes.web.kind v = some .input → v ∈ twinBoxes.web.inputs := by
    decide +kernel
  have hout : ∀ v < 4, twinBoxes.web.kind v = some .output → v ∈ twinBoxes.web.outputs := by
    decide +kernel
  have hin' : ∀ v ∈ twinBoxes.web.inputs, twinBoxes.web.kind v = some .input := by decide +kernel
  have hout' : ∀ v ∈ twinBoxes.web.outputs, twinBoxes.web.kind v = some .output := by
    decide +kernel
  exact ⟨hval.hung fun v hv => hdegree v (hval.lt v hv.has) hv, List.nodup_singleton _,
    List.nodup_singleton _,
    fun v => ⟨hin' v, fun hv => hin v (hval.lt v (Web.has_of_kind hv)) hv⟩,
    fun v => ⟨hout' v, fun hv => hout v (hval.lt v (Web.has_of_kind hv)) hv⟩⟩

theorem twinBoxes_degree (h : Vertex) (hbox : twinBoxes.web.kind h = some .box) :
    twinBoxes.web.degree h = 3 := by
  have hall : ∀ v < 4, twinBoxes.web.kind v = some .box → twinBoxes.web.degree v = 3 := by
    decide +kernel
  exact hall h (twinBoxes_plain.1.valid.lt h (Web.has_of_kind hbox)) hbox

theorem exists_ofDiagram_twinBoxes : ∃ g, GraphLike.ofDiagram twinBoxes = .ok g ∧
    g.Coherent ∧ g.web.InForm ∧ g.inputs = [0] ∧ g.outputs = [1] ∧
      ∃ c : ℂ, c ≠ 0 ∧ twinBoxes.linearMap 1 1 = c • g.linearMap 1 1 :=
  GraphLike.exists_ofDiagram_linearMap (D := 4) twinBoxes_plain.1 twinBoxes_framed
    ⟨by decide, by decide⟩ (by decide +kernel)
    (twinBoxes_plain.1.valid.unlooped_of_open fun h hbox hdeg => by
      rw [twinBoxes_degree h hbox] at hdeg
      cases hdeg)
    (fun h hbox => by
      rw [twinBoxes_degree h hbox]
      decide)
    twinBoxes_plain.2

end ZXRewriting
