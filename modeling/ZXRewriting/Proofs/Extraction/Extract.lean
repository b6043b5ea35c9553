import ZXRewriting.Proofs.Extraction.Routing
import ZXRewriting.Proofs.GraphLike.Decide

/-!
# What is extracted

An extraction that stops gives gates and a diagram that together denote what the graph-like diagram
denoted, and an extraction that comes to its end gives a circuit that does, if the diagram has as
many inputs as outputs and does not denote zero.
-/

namespace ZXRewriting

/-! ### Gadgets -/

namespace GraphLike

variable {g : GraphLike} {v : Vertex}

open Web

/-- The gadget centres are the neighbours of the leaves. -/
theorem gadgetCentres_eq (hg : g.Coherent) (hw : g.web.Simple) : Extraction.gadgetCentres g =
    .ok ((g.spiders.filter fun v => g.web.IsLeaf v).map g.web.nearby).flatten := by
  have hspider : ∀ v ∈ g.spiders, g.web.Has v := fun v hv => by
    rw [Diagram.spiders_eq hg] at hv
    simpa using (List.mem_filter.1 hv).2
  have hleaves : g.spiders.filterM g.isLeaf =
      .ok (g.spiders.filter fun v => g.web.IsLeaf v) :=
    filterM_eq fun v hv => isLeaf_eq hg hw (hspider v hv)
  have hnear : (g.spiders.filter fun v => g.web.IsLeaf v).mapM g.neighborSet =
      .ok ((g.spiders.filter fun v => g.web.IsLeaf v).map g.web.nearby) :=
    mapM_eq fun v hv => neighborSet_eq hg (hspider v (List.mem_filter.1 hv).1)
  rw [Extraction.gadgetCentres, hleaves]
  change (List.mapM g.neighborSet (g.spiders.filter fun v => g.web.IsLeaf v) >>= _) = _
  rw [hnear]
  rfl

theorem gadgetCentres_of_no_leaf (hg : g.Coherent) (hw : g.web.Simple)
    (h : ∀ v, ¬g.web.IsLeaf v) : Extraction.gadgetCentres g = .ok [] := by
  rw [gadgetCentres_eq hg hw, List.filter_eq_nil_iff.2 fun v _ => by simpa using h v]
  rfl

end GraphLike

namespace Extraction

variable {w : Web} {s : State} {gadgets : Prop} {D : ℕ}

section

variable (hD : Phase.IsGrid D) (hw : w.InForm) (hg : w.OnGrid D)
include hD hw hg

/-- The gates taken off and the diagram that is left denote what the diagram denoted. -/
theorem State.Reached.composed (h : s.Reached gadgets w) (n m : ℕ) (hn : w.outputs.length = n) :
    s.circuit.qubits = n ∧ s.circuit.Valid D ∧ ∃ c : ℂ, c ≠ 0 ∧
      toMatrix n m w.outputs w.inputs w.amplitude =
        c • (s.circuit.unitary n * toMatrix n m w.outputs w.inputs s.web.amplitude) := by
  have hs := h.peels.sound hD hw hg
  have hvalid : ∀ g ∈ s.circuit.gates, g.Valid n := fun g hg => hn ▸ hs.valid g hg
  obtain ⟨c, hc, hamp⟩ := hs.amplitude
  obtain ⟨d, hd, hmat⟩ := gatesMatrix_mul_toMatrix m w.inputs hw.outputs_nodup hn
    (fun q hq => Web.getElem?_outputs hq) hvalid s.web.amplitude
  refine ⟨h.qubits.trans hn, ⟨fun g hg => ?_, fun g hg _ => hs.phases g hg⟩, c * d,
    mul_ne_zero hc hd, ?_⟩
  · rw [h.qubits, hn]
    exact hvalid g hg
  · rw [Circuit.unitary, mul_smul, ← hmat]
    ext y x
    exact hamp _

omit hD hg in
/-- Where each output is wired. -/
theorem State.Reached.permute (h : s.Reached gadgets w)
    (hprep : s.web.Prepared [] w.outputs.length) :
    Meets s.permute (fun s' => ∃ arrivals, s.web.Wired arrivals ∧ s' = { s with
        circuit := { s.circuit with gates :=
          ((List.range arrivals.length).foldl (State.routeWire arrivals)
            (List.range arrivals.length, [])).2 ++ s.circuit.gates } })
      (State.Stopped gadgets w fun w _ => w = s.web ∧ ∃ t t', w.kind t = some .output ∧
        w.kind t' = some .output ∧ w.link t t' = some .plain) := by
  have hs := h.keeps hw
  have hval := hs.form.simple.valid
  rw [State.permute]
  refine Meets.bind (P := List.Forall₂ (fun o r => r < s.web.inputs.length ∧
    s.web.link (s.web.input r) o = some .plain) s.web.outputs) (Meets.mapM fun o ho => ?_)
    fun arrivals harr => ?_
  · obtain ⟨q, hq⟩ := List.getElem?_of_mem ho
    have hqlt : q < w.outputs.length := hs.outputs ▸ (List.getElem?_eq_some_iff.1 hq).1
    have hend := hs.form.isEnd_output hq
    have hnot : ¬∃ v, (q, v) ∈ ([] : List (ℕ × Vertex)) := by simp
    obtain ⟨t, ht, hlink⟩ := (hprep.covered q hqlt).resolve_left hnot
    rw [Web.output_eq hq] at hlink
    have hnear := hs.form.nearby_end hend (hval.mem_nearby_comm.1 (hval.mem_nearby_of_link hlink))
    rw [State.sourceOf]
    refine Meets.bind (P := fun l => l = [t]) (Meets.lift (by
      rw [show s.graph.toDiagram.neighborSet o = _ from
        GraphLike.neighborSet_eq h.coherent hend.has]
      exact hnear)) fun l hl => ?_
    subst hl
    rw [List.head?_cons, Option.bind_some]
    -- an output that is wired to an end which is no input is wired to an output
    cases hidx : s.graph.inputs.idxOf? t with
    | some r =>
      obtain ⟨hr, heq, -⟩ := List.idxOf?_eq_some_iff.1 hidx
      have hget : s.web.inputs[r]? = some t := (List.getElem?_eq_getElem hr).trans (congrArg some heq)
      refine ⟨hr, ?_⟩
      rw [Web.input, List.getD_eq_getElem?_getD, hget]
      exact hlink
    | none =>
      refine ⟨⟨h.coherent, h.peels, h.qubits⟩, rfl, t, o, ?_, ?_, hlink⟩
      · have hnot : t ∉ s.web.inputs := List.idxOf?_eq_none_iff.1 hidx
        obtain ⟨k, hk⟩ := Option.isSome_iff_exists.1 ht.has
        rw [Web.IsEnd, hk] at ht
        cases k with
        | input => exact absurd ((hs.form.mem_inputs t).2 hk) hnot
        | output => exact hk
        | z => simp [SpiderKind.isBoundary] at ht
        | x => simp [SpiderKind.isBoundary] at ht
        | box => simp [SpiderKind.isBoundary] at ht
      · exact (hs.form.mem_outputs o).1 ho
  · have hlen := harr.length_eq
    refine ⟨arrivals, ⟨hlen.symm, fun r hr => ?_, fun q r hqr => ?_⟩, rfl⟩
    · obtain ⟨q, hq⟩ := List.getElem?_of_mem hr
      obtain ⟨hq', rfl⟩ := List.getElem?_eq_some_iff.1 hq
      exact (harr.get (hlen ▸ hq') hq').1
    · obtain ⟨hq', rfl⟩ := List.getElem?_eq_some_iff.1 hqr
      have := (harr.get (hlen ▸ hq') hq').2
      have hout := List.getElem?_eq_getElem (hlen ▸ hq' : q < s.web.outputs.length)
      rw [Web.output_eq hout]
      exact this

/-- A diagram of wires that is left is the identity after the swaps for its permutation. -/
theorem State.Reached.routed (h : s.Reached gadgets w) {arrivals : List ℕ}
    (hwired : s.web.Wired arrivals) {n : ℕ} (hin : w.inputs.length = n)
    (hn : w.outputs.length = n) (hne : toMatrix n n w.outputs w.inputs w.amplitude ≠ 0) :
    ∃ swaps, ((List.range arrivals.length).foldl (State.routeWire arrivals)
        (List.range arrivals.length, [])).2 = swaps ∧
      (Circuit.mk n (swaps ++ s.circuit.gates)).Valid D ∧ ∃ c : ℂ, c ≠ 0 ∧
        toMatrix n n w.outputs w.inputs w.amplitude =
          c • gatesMatrix n (swaps ++ s.circuit.gates) := by
  have hs := h.peels.sound hD hw hg
  have hout : s.web.outputs.length = n := by rw [hs.outputs, hn]
  have hin' : s.web.inputs.length = n := by rw [hs.inputs, hin]
  have houtput : s.web.output = w.output := by
    funext q
    rw [Web.output, hs.outputs, Web.output]
  have hinput : s.web.input = w.input := by
    funext r
    rw [Web.input, hs.inputs, Web.input]
  have hlen : arrivals.length = n := hwired.length.trans hout
  have hrouted := Routed.foldl (o := w.output) (i := w.input) (n := n)
    (fun p p' hp hp' => hw.output_inj (hn.symm ▸ hp) (hn.symm ▸ hp'))
    (fun r p hr hp => hw.input_ne_output (hin.symm ▸ hr) (hn.symm ▸ hp)) hlen
    (hwired.nodup hs.form) (fun r hr => hin' ▸ hwired.lt r hr)
  have heq := hrouted.eq_arrivals hlen
  rw [hlen]
  set state := (List.range n).foldl (State.routeWire arrivals) (List.range n, [])
  have hvalid : ∀ g ∈ state.2 ++ s.circuit.gates, g.Valid n := fun g hg => by
    rcases List.mem_append.1 hg with hg | hg
    · exact hrouted.valid g hg
    · exact hn ▸ hs.valid g hg
  refine ⟨state.2, rfl, ⟨hvalid, fun g hg hp => ?_⟩, ?_⟩
  · rcases List.mem_append.1 hg with hg | hg
    · rw [hrouted.swaps g hg] at hp
      exact absurd hp (by decide)
    · exact hs.phases g hg
  -- what is left is a scalar times the permutation, and the swaps make that
  have hwires : s.web.amplitude = fun b => s.web.amplitude (fun _ => false) *
      actAll w.output state.2 (wiring w.output w.input (List.range n)) b := funext fun b => by
    rw [hrouted.acts, heq, ← houtput, ← hinput]
    exact hwired.amplitude hs.form (hin'.trans hout.symm) b
  obtain ⟨c, hc, hamp⟩ := hs.amplitude
  rw [hwires, actAll_mul_left, ← actAll_append] at hamp
  obtain ⟨d, hd, hmat⟩ := gatesMatrix_mul_toMatrix n w.inputs hw.outputs_nodup hn
    (fun q hq => Web.getElem?_outputs hq) hvalid (wiring w.output w.input (List.range n))
  rw [toMatrix_wiring hw.outputs_nodup hw.inputs_nodup
    (fun v hv hv' => absurd (((hw.mem_inputs v).1 hv).symm.trans ((hw.mem_outputs v).1 hv'))
      (by decide)) hn hin (fun q hq => Web.getElem?_outputs hq)
    (fun r hr => Web.getElem?_inputs hr), mul_one] at hmat
  set c₀ := s.web.amplitude fun _ => false
  have htotal : toMatrix n n w.outputs w.inputs w.amplitude =
      (c * c₀ * d) • gatesMatrix n (state.2 ++ s.circuit.gates) := by
    rw [mul_smul, ← hmat]
    ext y x
    rw [Matrix.smul_apply, smul_eq_mul, mul_assoc]
    exact hamp _
  refine ⟨c * c₀ * d, mul_ne_zero (mul_ne_zero hc fun h0 => hne ?_) hd, htotal⟩
  rw [htotal, h0, mul_zero, zero_mul, zero_smul]

end

/-! ### The results -/

/-- The start of an extraction. -/
theorem State.reached_start {g : GraphLike} (hg : g.Coherent) :
    (State.mk g (.empty g.outputs.length) []).Reached gadgets g.web := ⟨hg, .refl, rfl⟩

/-- What extraction gives where the rounds come to their end, and then the permutation. -/
theorem extract_of_run {g : GraphLike} {options : Options} {centres : List Vertex} {s' : State}
    (hcentres : gadgetCentres g = .ok centres) (hrun : (State.mk g (.empty g.outputs.length)
      []).runWithin options g.roundLimit centres = .ok s)
    (hrest : (if options.permute then s.permute else pure s) = .ok s') :
    extract options g = .ok (s'.graph, s'.circuit) := by
  rw [extract, hcentres]
  change ((State.mk g (.empty g.outputs.length) []).runWithin _ g.roundLimit centres >>= _) = _
  rw [hrun]
  change (if options.permute = true then s.permute >>= _ else _) = _
  split at hrest
  · next hp =>
    rw [if_pos hp, hrest]
    rfl
  · next hp =>
    rw [if_neg hp, ← Except.ok.inj hrest]
    rfl

/-- What extraction gives, and what it gives back when it stops, denotes what the diagram
    denoted. The final permutation is written only by a diagram that does not denote zero. -/
theorem extract_denotes {g : GraphLike} (hD : Phase.IsGrid D) (hg : g.Coherent)
    (hw : g.web.InForm) (hgrid : g.web.OnGrid D) (eliminate : Bool) (n m : ℕ)
    (hn : g.outputs.length = n) (hm : g.inputs.length = m) :
    (∀ u, extract ⟨eliminate, true⟩ g = .error (.refused u) →
      u.rest.web.InForm ∧ u.rest.outputs.length = n ∧ u.rest.inputs.length = m ∧
      u.circuit.qubits = n ∧ u.circuit.Valid D ∧ ∃ c : ℂ, c ≠ 0 ∧
        g.linearMap n m = c • (u.circuit.unitary n * u.rest.linearMap n m)) ∧
    ∀ r, extract ⟨eliminate, true⟩ g = .ok r → n = m → g.linearMap n m ≠ 0 →
      r.2.qubits = n ∧ r.2.Valid D ∧ ∃ c : ℂ, c ≠ 0 ∧ g.linearMap n n = c • r.2.unitary n := by
  have hmeets : Meets (extract ⟨eliminate, true⟩ g)
      (fun r => n = m → g.linearMap n m ≠ 0 → r.2.qubits = n ∧ r.2.Valid D ∧
        ∃ c : ℂ, c ≠ 0 ∧ g.linearMap n n = c • r.2.unitary n) (State.Ended True g.web) := by
    rw [extract]
    refine Meets.bind (P := fun _ => True) (Meets.lift (Meets.of_exists
      ⟨_, GraphLike.gadgetCentres_eq hg hw.simple, trivial⟩)) fun centres _ => ?_
    refine Meets.bind ((State.reached_start hg).runWithin hw ⟨eliminate, true⟩ _
      fun _ => trivial) fun s hinv => ?_
    obtain ⟨hs, hprep⟩ := hinv
    refine Meets.bind (P := fun s' => ∃ arrivals, s.web.Wired arrivals ∧ s' = { s with
        circuit := { s.circuit with gates :=
          ((List.range arrivals.length).foldl (State.routeWire arrivals)
            (List.range arrivals.length, [])).2 ++ s.circuit.gates } }) ?_ ?_
    · refine (hs.permute hw hprep).mono (fun _ h => h) fun e he => ?_
      cases e with
      | fault => exact he.elim
      | refused u => exact he.1
    · rintro _ ⟨arrivals, hwired, rfl⟩ rfl hne
      obtain ⟨swaps, hswaps, hvalid, hmat⟩ := hs.routed hD hw hgrid hwired hm hn hne
      rw [hswaps]
      have hqubits := hs.qubits.trans hn
      exact ⟨hqubits, ⟨hqubits ▸ hvalid.gates, hvalid.phases⟩, hmat⟩
  refine ⟨fun u hu => ?_, fun r hr => ?_⟩
  · rw [hu] at hmeets
    have hreached : (State.mk u.rest u.circuit []).Reached True g.web := hmeets
    have hs := hreached.keeps hw
    have hin : u.rest.inputs = g.inputs := hs.inputs
    have hout : u.rest.outputs = g.outputs := hs.outputs
    have hcomposed := hreached.composed hD hw hgrid n m hn
    refine ⟨hs.form, hout ▸ hn, hin ▸ hm, hcomposed.1, hcomposed.2.1, ?_⟩
    rw [GraphLike.linearMap, GraphLike.linearMap, hin, hout]
    exact hcomposed.2.2
  · rw [hr] at hmeets
    exact hmeets

/-- Extracting three spiders on a wire. -/
theorem quarterTurn_extracted : GraphLike.quarterTurn.Coherent ∧
    GraphLike.quarterTurn.web.InForm ∧ GraphLike.quarterTurn.web.OnGrid 2 ∧
    ∀ r, extract ⟨true, true⟩ GraphLike.quarterTurn = .ok r →
      GraphLike.quarterTurn.linearMap 1 1 ≠ 0 → r.2.qubits = 1 ∧ r.2.Valid 2 ∧
        ∃ c : ℂ, c ≠ 0 ∧ GraphLike.quarterTurn.linearMap 1 1 = c • r.2.unitary 1 := by
  obtain ⟨hg, hw⟩ := GraphLike.quarterTurn_inForm
  have hgrid := GraphLike.quarterTurn_onGrid
  exact ⟨hg, hw, hgrid, fun r hr => (extract_denotes ⟨by decide, by decide⟩ hg hw hgrid true 1 1
    rfl rfl).2 r hr rfl⟩

end Extraction

end ZXRewriting
