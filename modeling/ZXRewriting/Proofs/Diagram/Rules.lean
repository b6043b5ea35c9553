import ZXRewriting.Diagram.Rules
import ZXRewriting.Proofs.Diagram.PiCopy
import ZXRewriting.Proofs.GraphLike.Decide

/-!
# The rules for diagrams in circuit form are sound

At each match that its check accepts, a rule gives a diagram with the same inputs and outputs that
denotes the same linear map up to a scalar (`Diagram.sameMap_of_check`): the contraction of the
tensors of its spiders, whatever diagram is around the match. The rule that cancels wires and boxes
is not among them.
-/

namespace ZXRewriting

open Function (update update_self update_of_ne)

namespace Diagram

variable {d d' : Diagram} {w : Web} {u v : Vertex} {kind : SpiderKind} {p : Phase}
  {us : List Vertex} {D : ℕ}

open Web

/-- The linear map that a diagram denotes, from the bits of `m` inputs to those of `n` outputs. -/
noncomputable def linearMap (n m : ℕ) (d : Diagram) : Matrix (Fin n → Bool) (Fin m → Bool) ℂ :=
  toMatrix n m d.outputs d.inputs d.web.contraction

/-- Two diagrams with the same inputs and outputs that denote the same linear map up to a scalar. -/
def SameMap (d d' : Diagram) : Prop :=
  d'.inputs = d.inputs ∧ d'.outputs = d.outputs ∧ ∃ c : ℂ, c ≠ 0 ∧
    d.linearMap d.outputs.length d.inputs.length =
      c • d'.linearMap d.outputs.length d.inputs.length

theorem sameMap_of_denotes (hd : d.Coherent) (hd' : d'.Coherent) (hplain : d.web.Plain)
    (h : d.web.Denotes d'.web) : d.SameMap d' := by
  obtain ⟨c, hc, hamp⟩ := ((hd.valid.contraction hplain).trans h.amplitude).trans
    (hd'.valid.contraction h.plain).symm
  have hin : d'.inputs = d.inputs := h.inputs
  have hout : d'.outputs = d.outputs := h.outputs
  refine ⟨hin, hout, c, hc, ?_⟩
  ext y x
  rw [linearMap, linearMap, hin, hout, Matrix.smul_apply, smul_eq_mul]
  exact hamp _

/-- A program ends with a diagram that denotes the same. -/
def RewritesTo (d : Diagram) (x : Except Fault Diagram) : Prop :=
  ∃ d', x = .ok d' ∧ d'.Coherent ∧ d.web.Denotes d'.web

theorem Yields.rewritesTo {x : Except Fault Diagram} (h : Yields x w) (hw : d.web.Denotes w) :
    RewritesTo d x := by
  obtain ⟨d', hx, hd', rfl⟩ := h
  exact ⟨d', hx, hd', hw⟩

/-! ### Edits -/

theorem web_setPhase : (d.setPhase v p).web = d.web.setPhase v p := by
  refine Web.ext rfl rfl (funext fun u => ?_) rfl rfl rfl rfl
  rw [Web.phase_setPhase, Function.update_apply]
  refine (Diagram.phase_setPhase _ _ _ _).trans ?_
  simp only [eq_comm]
  rfl

theorem yields_addToPhase (hd : d.Coherent) (v : Vertex) (p : Phase) :
    Yields (.ok (d.addToPhase v p)) (d.web.addToPhase v p) :=
  ⟨_, rfl, ⟨hd.wf, hd.has⟩, web_setPhase⟩

theorem yields_removeSpider (hd : d.Coherent) (hv : d.web.Has v) :
    Yields (d.removeSpider v) (d.web.remove v) := (Gives.removeSpider hd hv).yields

theorem yields_addWire (hd : d.Coherent) (hu : d.web.Has u) (hv : d.web.Has v) (huv : u ≠ v) :
    Yields (d.addWire u v) (d.web.addEdges u v .plain 1) := (Gives.addWire hd hu hv huv).yields

theorem yields_wireTo (hd : d.Coherent) (hv : d.web.Has v)
    (hus : ∀ u ∈ us, d.web.Has u ∧ v ≠ u) :
    Yields (us.foldlM (fun d u => d.addWire v u) d) (d.web.wireTo v us) := by
  refine Yields.foldlM (fun us w => w.Has v ∧ ∀ u ∈ us, w.Has u ∧ v ≠ u) us
    (fun d u rest hd hI => ?_) d hd ⟨hv, hus⟩
  obtain ⟨hv, hus⟩ := hI
  obtain ⟨hu, hne⟩ := hus u List.mem_cons_self
  exact ⟨yields_addWire hd hv hu hne, hv, fun x hx => hus x (List.mem_cons_of_mem u hx)⟩

/-- A coloured spider comes to be of another colour. -/
theorem exists_setKind (hd : d.Coherent) (hv : d.web.Has v) (kind : SpiderKind) (hkind : kind.isPhased = true) :
    (d.setKind v kind).Coherent ∧ ∃ carrier,
      (d.setKind v kind).web = { d.web.paint v kind with carrier := carrier } := by
  have hk (u : Vertex) : (d.setKind v kind).kinds[u]? = update d.web.kind v (some kind) u := by
    rw [setKind, if_pos hkind]
    exact congrFun (VertexMap.insert_eq d.kinds v kind) u
  refine ⟨⟨?_, fun u => ?_⟩, fun u => (d.setKind v kind).carriers[u]?, ?_⟩
  · rw [setKind, if_pos hkind]
    exact hd.wf
  · have hgraph : (d.setKind v kind).graph = d.graph := by rw [setKind, if_pos hkind]
    rw [hgraph, ← hd.has]
    change ((d.setKind v kind).kinds[u]?).isSome ↔ _
    rw [hk]
    exact has_paint hv
  · refine Web.ext ?_ (funext hk) ?_ ?_ ?_ ?_ rfl <;> · rw [setKind, if_pos hkind]; rfl

/-! ### Checks -/

theorem kind_of_eq_ok {k : SpiderKind} (h : d.kind v = .ok k) : d.web.kind v = some k := by
  rw [Diagram.kind] at h
  change d.kinds[v]? = some k
  split at h
  · next heq => rw [heq, Except.ok.inj h]
  · cases h

theorem isPhased_of_check (h : (return (← d.kind v).isPhased : Except Fault Bool) = .ok true) :
    ∃ k, d.web.kind v = some k ∧ k.isPhased = true := by
  obtain ⟨k, hk, h⟩ := of_bind_eq_ok h
  exact ⟨k, kind_of_eq_ok hk, Except.ok.inj h⟩

/-- The degree counts the edges to each neighbour. -/
theorem degree_eq_sum (hw : w.Valid) (v : Vertex) :
    w.degree v = ((w.nearby v).map fun u => w.joins v u).sum := by
  rw [← List.sum_toFinset _ nodup_nearby, Web.degree]
  refine (Finset.sum_subset (fun u hu => ?_) fun u _ hu => ?_).symm
  · exact Finset.mem_range.2 (hw.lt u (hw.has_of_mem_nearby (List.mem_toFinset.1 hu)))
  · rw [List.mem_toFinset, hw.mem_nearby, Nat.pos_iff_ne_zero, not_not] at hu
    exact hu

/-- A spider with two wires to distinct neighbours. -/
theorem ends_of_degree_two (hw : w.Valid) (hplain : w.Plain) (hdeg : w.degree v = 2)
    (hlen : (w.nearby v).length = 2) :
    ∃ a c, a ≠ c ∧ w.nearby v = [a, c] ∧ w.EndsAre v [(a, .plain), (c, .plain)] := by
  obtain ⟨a, c, hac⟩ := List.length_eq_two.1 hlen
  have hne : a ≠ c := by
    have := hac ▸ (nodup_nearby (w := w) (v := v))
    simpa using this
  have hmem {x : Vertex} : 0 < w.joins v x ↔ x = a ∨ x = c := by
    rw [← hw.mem_nearby, hac]
    simp
  have ha := hmem.2 (.inl rfl)
  have hc := hmem.2 (.inr rfl)
  rw [degree_eq_sum hw, hac] at hdeg
  simp only [List.map_cons, List.map_nil, List.sum_cons, List.sum_nil, Nat.add_zero] at hdeg
  have hcount (u : Vertex) : [a, c].count u = w.joins v u := by
    rw [List.count_cons, List.count_cons, List.count_nil]
    by_cases hua : u = a
    · subst hua
      simp only [beq_self_eq_true, if_true, beq_iff_eq, if_neg hne.symm]
      omega
    · by_cases huc : u = c
      · subst huc
        simp only [beq_self_eq_true, if_true, beq_iff_eq, if_neg (Ne.symm hua)]
        omega
      · have := mt hmem.1 (not_or.2 ⟨hua, huc⟩)
        simp only [beq_iff_eq, if_neg (Ne.symm hua), if_neg (Ne.symm huc)]
        omega
  exact ⟨a, c, hne, hac, hplain.endsAre hcount⟩

/-- A spider with two wires to distinct neighbours, by the side of one of them. -/
theorem exists_farEnd (hw : w.Valid) (hplain : w.Plain) (hdeg : w.degree v = 2)
    (hlen : (w.nearby v).length = 2) (hu : u ∈ w.nearby v) :
    ∃ f, f ≠ u ∧ w.EndsAre v [(u, .plain), (f, .plain)] := by
  obtain ⟨a, c, hne, hac, hends⟩ := ends_of_degree_two hw hplain hdeg hlen
  rw [hac] at hu
  rcases List.mem_pair.1 hu with rfl | rfl
  · exact ⟨c, hne.symm, hends⟩
  · exact ⟨a, hne, fun x k => (hends x k).trans ((List.Perm.swap _ _ _).count_eq _)⟩

/-! ### Rewriting at a match -/

/-- Removing a spider with two neighbours joins them. -/
theorem gives_removeIdentity {a c : Vertex} (hd : d.Coherent) (hv : d.web.Has v)
    (hac : d.web.nearby v = [a, c]) :
    Gives (d.removeIdentity v) (d.web.bypass v a c .plain) (d.layout.remove v) := by
  have hne : a ≠ c := by simpa [hac] using nodup_nearby (w := d.web) (v := v)
  have hold {x : Vertex} (hx : x ∈ d.web.nearby v) : (d.web.remove v).Has x := by
    rw [Has, kind_remove, update_of_ne (hd.valid.ne_of_mem_nearby hx).symm]
    exact hd.valid.has_of_mem_nearby hx
  rw [Diagram.removeIdentity, Diagram.neighborSet, neighborSet_eq hd hv, hac]
  refine (Gives.removeSpider hd hv).bind fun d₁ hd₁ hw₁ hl₁ => ?_
  rw [bypass, ← hw₁, ← hl₁]
  refine Gives.addWire hd₁ ?_ ?_ hne
  · rw [hw₁]
    exact hold (by simp [hac])
  · rw [hw₁]
    exact hold (by simp [hac])

theorem yields_removeIdentity {a c : Vertex} (hd : d.Coherent) (hv : d.web.Has v)
    (hac : d.web.nearby v = [a, c]) :
    Yields (d.removeIdentity v) ((d.web.remove v).addEdges a c .plain 1) :=
  (gives_removeIdentity hd hv hac).yields

/-- Wires between two spiders of which the first one is no box go in pairs. -/
theorem yields_cancelWires (hd : d.Coherent) (hk : d.web.kind v = some kind) (hbox : kind ≠ .box) :
    Yields (d.cancel v u)
      (d.web.takeEdges v u .plain (d.web.count v u .plain - d.web.count v u .plain % 2)) := by
  have hv : d.web.Has v := by rw [Has, hk]; rfl
  obtain ⟨n, d', hok, hd', hw', -⟩ := Gives.removeWires hd hv u
    (d.web.count v u .plain - d.web.count v u .plain % 2)
  refine ⟨d', ?_, hd', hw'⟩
  rw [cancel, kind_eq hk, Diagram.wires, Multigraph.multiplicity_eq ((hd.has v).1 hv)]
  change (if kind = .box then _ else d.removeWires v u _ >>= _) = _
  rw [if_neg hbox]
  change (d.removeWires v u (d.web.count v u .plain - d.web.count v u .plain % 2) >>= _) = _
  rw [hok]
  rfl

/-- Two boxes next to each other go, and what lies on their far sides is joined unless it is the
    same. -/
theorem gives_cancel {a b : Vertex} (hd : d.Coherent) (hk : d.web.kind v = some .box)
    (hu : d.web.Has u) (hvu : v ≠ u) (ha : (d.web.nearby v).find? (· ≠ u) = some a)
    (hb : (d.web.nearby u).find? (· ≠ v) = some b) :
    Gives (d.cancel v u) (if a = b then (d.web.remove v).remove u
        else ((d.web.remove v).remove u).addEdges a b .plain 1)
      ((d.layout.remove v).remove u) := by
  have hv : d.web.Has v := by rw [Has, hk]; rfl
  have ha' := List.mem_of_find?_eq_some ha
  have hb' := List.mem_of_find?_eq_some hb
  have hau : a ≠ u := by simpa using List.find?_some ha
  have hbv : b ≠ v := by simpa using List.find?_some hb
  have hcancel : d.cancel v u = d.removeSpiders [v, u] >>= fun d =>
      if a ≠ b then d.addWire a b else return d := by
    rw [cancel, kind_eq hk]
    change (d.neighborSet v >>= fun ns => _) = _
    rw [neighborSet, neighborSet, neighborSet_eq hd hv, neighborSet_eq hd hu]
    dsimp only [bind, Except.bind]
    rw [ha, hb]
  have hkept {x : Vertex} (hx : d.web.Has x) (hxv : x ≠ v) (hxu : x ≠ u) :
      ((d.web.remove v).remove u).Has x := by
    rw [Has, kind_remove, kind_remove, update_of_ne hxu, update_of_ne hxv]
    exact hx
  have hremove : Gives (d.removeSpiders [v, u]) ((d.web.remove v).remove u)
      ((d.layout.remove v).remove u) := by
    refine (Gives.removeSpider hd hv).bind fun d₁ hd₁ hw₁ hl₁ => ?_
    have hu₁ : d₁.web.Has u := by
      rw [hw₁, Has, kind_remove, update_of_ne hvu.symm]
      exact hu
    rw [← hw₁, ← hl₁]
    refine (Gives.removeSpider hd₁ hu₁).bind fun d₂ hd₂ hw₂ hl₂ => ?_
    rw [← hw₂, ← hl₂]
    exact .ok hd₂
  rw [hcancel]
  refine hremove.bind fun d₂ hd₂ hw₂ hl₂ => ?_
  rw [← hw₂, ← hl₂]
  by_cases hab : a = b
  · rw [if_neg (not_not.2 hab), if_pos hab]
    exact .ok hd₂
  · rw [if_pos hab, if_neg hab]
    refine Gives.addWire hd₂ ?_ ?_ hab
    · exact hw₂ ▸ hkept (hd.valid.has_of_mem_nearby ha') (hd.valid.ne_of_mem_nearby ha').symm hau
    · exact hw₂ ▸ hkept (hd.valid.has_of_mem_nearby hb') hbv (hd.valid.ne_of_mem_nearby hb').symm

section

variable (hd : d.Coherent)
include hd

/-- Fusing moves the wires of the second spider. -/
theorem exists_fuse (hv : d.web.Has v) (hu : d.web.Has u) (h : d.checkFusion v u = .ok true) :
    ∃ k ns, d.web.kind v = some k ∧ d.web.kind u = some k ∧ k.isPhased = true ∧ v ≠ u ∧
      (∀ x, ns.count x = d.web.joins u x) ∧ v ∈ ns ∧
      Yields (d.fuse v u) (d.web.fuseWires v u ns) := by
  simp only [checkFusion, and_eq_true_iff] at h
  obtain ⟨hne, hphased, hsame, hjoined⟩ := h
  have hne : v ≠ u := of_decide_eq_true (Except.ok.inj hne)
  obtain ⟨k, hk, hphased⟩ := isPhased_of_check hphased
  obtain ⟨k', hk'⟩ := Option.isSome_iff_exists.1 hu
  rw [kind_eq hk, kind_eq hk'] at hsame
  obtain rfl : k = k' := eq_of_beq (Except.ok.inj hsame)
  have hjoins : 0 < d.web.joins v u := by
    have := connected_eq hd (t := u) hv
    rw [Diagram.connected, this] at hjoined
    exact of_decide_eq_true (Except.ok.inj hjoined)
  obtain ⟨ns, hns, hcount⟩ := exists_neighbors hd hu
  have hmem : v ∈ ns := by
    rw [← List.count_pos_iff, hcount, hd.valid.joins_comm]
    exact hjoins
  have hus : ∀ x ∈ ns.filter (· ≠ v), d.web.Has x ∧ v ≠ x := fun x hx => by
    obtain ⟨hx, hxv⟩ := List.mem_filter.1 hx
    rw [← List.count_pos_iff, hcount] at hx
    exact ⟨(hd.valid.has_of_joins hx).2, Ne.symm (of_decide_eq_true hxv)⟩
  refine ⟨k, ns, hk, hk', hphased, hne, hcount, hmem, ?_⟩
  rw [Diagram.fuse, hns]
  refine (yields_wireTo hd hv hus).bind fun d₁ hd₁ hw₁ => ?_
  obtain ⟨d₂, hok, hd₂, hw₂⟩ := yields_addToPhase hd₁ v (d₁.phase u)
  obtain ⟨-, hkinds, hphases, -, -⟩ := wireTo_fields d.web v (ns.filter (· ≠ v))
  have hphase : d₁.phase u = d.web.phase u := by
    change d₁.web.phase u = _
    rw [hw₁, hphases]
  rw [Except.ok.inj hok]
  have hweb : d₂.web.remove u = d.web.fuseWires v u ns := by
    rw [hw₂, hw₁, hphase]
    rfl
  rw [← hweb]
  refine yields_removeSpider hd₂ ?_
  rw [hw₂, Has, kind_addToPhase, hw₁, hkinds]
  exact hu

theorem rewritesTo_fuse (hplain : d.web.Plain) (hD : Phase.IsGrid D) (hgrid : d.web.OnGrid D)
    (hv : d.web.Has v) (hu : d.web.Has u) (h : d.checkFusion v u = .ok true) :
    RewritesTo d (d.fuse v u) := by
  obtain ⟨k, ns, hk, hk', hphased, hne, hcount, hmem, hyields⟩ := exists_fuse hd hv hu h
  exact hyields.rewritesTo (hd.valid.denotes_fuseWires hplain hk hk' hphased hne hcount hmem
    ((hgrid v).add hD (hgrid u)).2)

variable (hplain : d.web.Plain)
include hplain

/-- An X spider becomes a Z spider with boxes on all wires. -/
theorem exists_hadamard (hv : d.web.Has v) : ∃ carrier, Yields (d.hadamard v)
    { (d.web.insertAround v (d.web.nearby v) .box .zero).paint v .z with carrier := carrier } := by
  have haround : d.web.Around v (d.web.nearby v) :=
    ⟨hv, fun u hu => hd.valid.has_of_mem_nearby hu, hd.valid.notMem_nearby_self, nodup_nearby⟩
  obtain ⟨d₁, hok, hd₁, hw₁⟩ := yields_insertAround hd hplain haround .box .zero
  have hv₁ : d₁.web.Has v := by
    rw [hw₁, Has, kind_insertAround (hd.valid.lt v hv)]
    exact hv
  obtain ⟨hco, carrier, hweb⟩ := exists_setKind hd₁ hv₁ .z rfl
  refine ⟨carrier, d₁.setKind v .z, ?_, hco, by rw [hweb, hw₁]⟩
  rw [Diagram.hadamard, Diagram.neighborSet, neighborSet_eq hd hv]
  change (List.foldlM _ d _ >>= fun d => Except.ok (d.setKind v .z)) = _
  rw [hok]
  rfl

theorem rewritesTo_hadamard (hv : d.web.Has v) (h : d.checkHadamard v = .ok true) :
    RewritesTo d (d.hadamard v) := by
  obtain ⟨k, hk⟩ := Option.isSome_iff_exists.1 hv
  rw [checkHadamard, kind_eq hk] at h
  obtain rfl : k = .x := eq_of_beq (Except.ok.inj h)
  obtain ⟨carrier, hyields⟩ := exists_hadamard hd hplain hv
  exact hyields.rewritesTo ((hd.valid.denotes_boxed hplain hk).recarry carrier)

theorem rewritesTo_removeIdentity (hv : d.web.Has v) (h : d.checkIdentity v = .ok true) :
    RewritesTo d (d.removeIdentity v) := by
  simp only [checkIdentity, and_eq_true_iff] at h
  obtain ⟨hphased, hzero, hdeg, hlen⟩ := h
  obtain ⟨k, hk, hphased⟩ := isPhased_of_check hphased
  rw [Diagram.degree, degree_eq hd hv] at hdeg
  rw [Diagram.neighborSet, neighborSet_eq hd hv] at hlen
  obtain ⟨a, c, hne, hac, hends⟩ := ends_of_degree_two hd.valid hplain
    (eq_of_beq (Except.ok.inj hdeg)) (eq_of_beq (Except.ok.inj hlen))
  have hunit : (d.web.phase v).unit = 1 := Phase.unit_of_isZero (Except.ok.inj hzero)
  exact (yields_removeIdentity hd hv hac).rewritesTo
    (hd.valid.denotes_bypass hplain hk hphased hunit hne hends)

/-- Copies of a half turn come out on the other wires. -/
theorem exists_piCopy (hv : d.web.Has v) (hu : d.web.Has u) (h : d.checkPiCopy v u = .ok true) :
    ∃ k f, d.web.kind v = some k ∧ k.isPhased = true ∧ d.web.kind u = some k.opposite ∧
      (d.phase v).isPi = true ∧ (d.phase u).isPauli = true ∧ f ≠ u ∧
      d.web.EndsAre v [(u, .plain), (f, .plain)] ∧
      Yields (d.piCopy v u) (d.web.copyThrough v u f k) := by
  obtain ⟨k, hk, h⟩ := of_bind_eq_ok h
  simp only [and_eq_true_iff] at h
  obtain ⟨hphased, hpi, hdeg, hlen, hwire, hopp, hpauli⟩ := h
  obtain ⟨k', hk'⟩ := Option.isSome_iff_exists.1 hu
  rw [kind_eq hk'] at hopp
  obtain rfl : k' = k.opposite := eq_of_beq (Except.ok.inj hopp)
  rw [Diagram.degree, degree_eq hd hv] at hdeg
  rw [Diagram.neighborSet, neighborSet_eq hd hv] at hlen
  rw [Diagram.wires, Multigraph.multiplicity_eq ((hd.has v).1 hv)] at hwire
  have hwire : d.web.count v u .plain = 1 := eq_of_beq (Except.ok.inj hwire)
  obtain ⟨f, hfu, hends⟩ := exists_farEnd hd.valid hplain (eq_of_beq (Except.ok.inj hdeg))
    (eq_of_beq (Except.ok.inj hlen)) (hd.valid.mem_nearby.2 (joins_pos_iff.2
      ⟨.plain, hwire ▸ Nat.one_pos⟩))
  have hfar := hd.valid.find_nearby hfu hends
  have hvu : v ≠ u := by
    rintro rfl
    rw [hd.valid.self] at hwire
    exact absurd hwire Nat.zero_ne_one
  have hfv : f ≠ v ∧ d.web.Has f := by
    have hpos : 0 < d.web.joins v f := hends.joins_pos_iff.2 (by simp)
    refine ⟨fun e => ?_, (hd.valid.has_of_joins hpos).2⟩
    rw [e, hd.valid.joins_self] at hpos
    exact absurd hpos (Nat.lt_irrefl _)
  have haround : d.web.Around u ((d.web.nearby u).filter (· ≠ v)) :=
    ⟨hu, fun x hx => hd.valid.has_of_mem_nearby (List.mem_filter.1 hx).1,
      fun hx => hd.valid.notMem_nearby_self (List.mem_filter.1 hx).1, nodup_nearby.filter _⟩
  refine ⟨k, f, kind_of_eq_ok hk, Except.ok.inj hphased, hk', Except.ok.inj hpi,
    (Bool.and_eq_true_iff.1 (Except.ok.inj hpauli)).1, hfu, hends, ?_⟩
  rw [Diagram.piCopy, hk, Diagram.neighborSet, Diagram.neighborSet, neighborSet_eq hd hv,
    neighborSet_eq hd hu]
  change Yields (List.foldlM _ d _ >>= _) _
  rw [hfar]
  refine (yields_insertAround hd hplain haround k .pi).bind fun d₁ hd₁ hw₁ => ?_
  have hkept {x : Vertex} (hx : d.web.Has x) : d₁.web.Has x := by
    rw [hw₁, Has, kind_insertAround (hd.valid.lt x hx)]
    exact hx
  refine (yields_removeSpider hd₁ (hkept hv)).bind fun d₂ hd₂ hw₂ => ?_
  have hkept₂ {x : Vertex} (hx : d.web.Has x) (hxv : x ≠ v) : d₂.web.Has x := by
    rw [hw₂, Has, kind_remove, update_of_ne hxv]
    exact hkept hx
  have := yields_addWire hd₂ (hkept₂ hfv.2 hfv.1) (hkept₂ hu hvu.symm) hfu
  rwa [hw₂, hw₁] at this

theorem rewritesTo_piCopy (hv : d.web.Has v) (hu : d.web.Has u) (h : d.checkPiCopy v u = .ok true) :
    RewritesTo d (d.piCopy v u) := by
  obtain ⟨k, f, hkind, hphased, hk', hpi, hpauli, hfu, hends, hyields⟩ :=
    exists_piCopy hd hplain hv hu h
  have hsq : (d.web.phase u).unit * (d.web.phase u).unit = 1 := by
    rcases Phase.unit_of_isPauli hpauli with ⟨-, h⟩ | ⟨-, h⟩ <;>
    · rw [show d.web.phase u = d.phase u from rfl, h]
      norm_num
  exact hyields.rewritesTo (hd.valid.denotes_copyThrough hplain
    ⟨hkind, hphased, Phase.unit_of_isPi hpi, hk', hfu, hends⟩ hsq (Phase.unit_ne_zero _))

end

/-- Absorbing a box next to a spider. -/
theorem yields_absorbBox {h : Vertex} (hd : d.Coherent) (hv : d.web.Has v) (hh : d.web.Has h)
    (hne : h ≠ v) : Yields (absorbBox v d h) (Web.absorbBox .plain v d.web h) := by
  rw [absorbBox, Diagram.neighborSet, neighborSet_eq hd hh]
  refine (yields_removeSpider hd hh).bind fun d₁ hd₁ hw₁ => ?_
  have hold {x : Vertex} (hx : d.web.Has x) (hxh : x ≠ h) : d₁.web.Has x := by
    rw [hw₁, Has, kind_remove, update_of_ne hxh]
    exact hx
  rw [Web.absorbBox]
  cases hfind : (d.web.nearby h).find? (· ≠ v) with
  | none => exact hw₁ ▸ .ok hd₁
  | some u =>
    have huv : u ≠ v := by simpa using List.find?_some hfind
    have hmem := List.mem_of_find?_eq_some hfind
    have huh : u ≠ h := fun e => hd.valid.notMem_nearby_self (e ▸ hmem)
    have := yields_addWire hd₁ (hold hv hne.symm) (hold (hd.valid.has_of_mem_nearby hmem) huh)
      huv.symm
    rwa [hw₁] at this

theorem kind_absorbBox {k : EdgeKind} {x h : Vertex} (hxh : x ≠ h) :
    (Web.absorbBox k v w h).kind x = w.kind x := by
  rw [Web.absorbBox]
  split <;> exact update_of_ne hxh _ _

/-- Absorbing boxes next to a spider. -/
theorem yields_absorbBoxes {hs : List Vertex} (hd : d.Coherent) (hv : d.web.kind v = some kind)
    (hnodup : hs.Nodup) (hhs : ∀ h ∈ hs, d.web.Has h ∧ h ≠ v) :
    ∃ d', hs.foldlM (absorbBox v) d = .ok d' ∧ d'.Coherent ∧
      d'.web = hs.foldl (Web.absorbBox .plain v) d.web ∧ d'.web.kind v = some kind := by
  induction hs generalizing d with
  | nil => exact ⟨d, rfl, hd, rfl, hv⟩
  | cons h rest ih =>
    obtain ⟨hh, hne⟩ := hhs h List.mem_cons_self
    obtain ⟨hnotin, hnodup⟩ := List.nodup_cons.1 hnodup
    have hvhas : d.web.Has v := by rw [Has, hv]; rfl
    obtain ⟨d₁, hok, hd₁, hw₁⟩ := yields_absorbBox hd hvhas hh hne
    have hkind {x : Vertex} (hx : x ≠ h) : d₁.web.kind x = d.web.kind x := by
      rw [hw₁, kind_absorbBox hx]
    obtain ⟨d', hok', hd', hw', hv'⟩ := ih hd₁ ((hkind hne.symm).trans hv) hnodup fun x hx => by
      obtain ⟨hxhas, hxv⟩ := hhs x (List.mem_cons_of_mem h hx)
      have hxh : x ≠ h := fun e => hnotin (e ▸ hx)
      exact ⟨by rw [Has, hkind hxh]; exact hxhas, hxv⟩
    refine ⟨d', ?_, hd', by rw [hw', hw₁]; rfl, hv'⟩
    rw [List.foldlM_cons, hok]
    exact hok'

theorem of_isWireBox {h : Vertex} (hd : d.Coherent) (hh : d.web.Has h)
    (hbox : d.isWireBox h = .ok true) :
    d.web.kind h = some .box ∧ d.web.degree h = 2 ∧ (d.web.nearby h).length = 2 := by
  obtain ⟨k, hk⟩ := Option.isSome_iff_exists.1 hh
  rw [isWireBox, and_eq_true_iff, and_eq_true_iff, kind_eq hk, Diagram.degree, degree_eq hd hh,
    Diagram.neighborSet, neighborSet_eq hd hh] at hbox
  obtain ⟨hkind, hdeg, hlen⟩ := hbox
  exact ⟨hk.trans (congrArg some (eq_of_beq (Except.ok.inj hkind))),
    eq_of_beq (Except.ok.inj hdeg), eq_of_beq (Except.ok.inj hlen)⟩

/-- The boxes around a spider that can change its colour. -/
theorem boxed_of_check (hd : d.Coherent) (hplain : d.web.Plain) (hv : d.web.Has v)
    (h : d.checkColourChange v = .ok true) : ∃ k, d.web.Boxed v k (d.web.nearby v) := by
  simp only [checkColourChange, and_eq_true_iff] at h
  obtain ⟨hphased, -, hall⟩ := h
  obtain ⟨k, hk, hphased⟩ := isPhased_of_check hphased
  rw [Diagram.neighborSet, neighborSet_eq hd hv] at hall
  have hbox : ∀ h ∈ d.web.nearby v, d.web.kind h = some .box ∧ d.web.degree h = 2 ∧
      (d.web.nearby h).length = 2 ∧ d.web.count v h .plain = 1 := fun h hh => by
    have hcheck := of_allM_eq_true hall h hh
    rw [and_eq_true_iff, Diagram.wires, Multigraph.multiplicity_eq ((hd.has v).1 hv)] at hcheck
    obtain ⟨hkind, hdeg, hlen⟩ := of_isWireBox hd (hd.valid.has_of_mem_nearby hh) hcheck.1
    exact ⟨hkind, hdeg, hlen, eq_of_beq (Except.ok.inj hcheck.2)⟩
  refine ⟨k, hd.valid, hk, hphased, nodup_nearby, fun u => ?_, fun s t _ _ => hplain s t,
    fun h hh => ?_⟩
  · split
    · next hu => exact (hbox u hu).2.2.2
    · next hu =>
      rw [hd.valid.mem_nearby, hplain.joins] at hu
      exact Nat.eq_zero_of_not_pos hu
  · obtain ⟨hkind, hdeg, hlen, -⟩ := hbox h hh
    exact ⟨hkind, .inl (exists_farEnd hd.valid hplain hdeg hlen (hd.valid.mem_nearby_comm.1 hh))⟩

/-- The boxes around a spider are absorbed. -/
theorem exists_changeColour (hd : d.Coherent) (hplain : d.web.Plain) (hv : d.web.Has v)
    (h : d.checkColourChange v = .ok true) : ∃ k carrier, d.web.Boxed v k (d.web.nearby v) ∧
      Yields (d.changeColour v) { ((d.web.nearby v).foldl (Web.absorbBox .plain v) d.web).paint v
        k.opposite with carrier := carrier } := by
  obtain ⟨k, hboxed⟩ := boxed_of_check hd hplain hv h
  have hboxes : d.boxesAround v = .ok (d.web.nearby v) := by
    have hfilter : (d.web.nearby v).filterM
        (fun h => (return (← d.kind h) == .box : Except Fault Bool)) =
          .ok ((d.web.nearby v).filter fun _ => true) := filterM_eq fun h hh => by
      rw [kind_eq (hboxed.box h hh).1]
      rfl
    rw [boxesAround, Diagram.neighborSet, neighborSet_eq hd hv]
    exact hfilter.trans (congrArg Except.ok (List.filter_true _))
  obtain ⟨d₁, hok, hd₁, hw₁, hv₁⟩ := yields_absorbBoxes hd hboxed.coloured hboxed.nodup
    fun h hh => ⟨hd.valid.has_of_mem_nearby hh, hboxed.ne hh⟩
  have hopp : k.opposite.isPhased = true := by
    rw [SpiderKind.isPhased_opposite]
    exact hboxed.phased
  obtain ⟨hco, carrier, hweb⟩ := exists_setKind hd₁ (by rw [Has, hv₁]; rfl) k.opposite hopp
  refine ⟨k, carrier, hboxed, d₁.setKind v k.opposite, ?_, hco, by rw [hweb, hw₁]⟩
  rw [Diagram.changeColour, hboxes]
  change ((d.web.nearby v).foldlM (absorbBox v) d >>= _) = _
  rw [hok]
  change (d₁.kind v >>= fun k => Except.ok (d₁.setKind v k.opposite)) = _
  rw [kind_eq hv₁]
  rfl

theorem rewritesTo_changeColour (hd : d.Coherent) (hplain : d.web.Plain) (hv : d.web.Has v)
    (h : d.checkColourChange v = .ok true) : RewritesTo d (d.changeColour v) := by
  obtain ⟨k, carrier, hboxed, hyields⟩ := exists_changeColour hd hplain hv h
  exact hyields.rewritesTo ((hboxed.denotes hplain).recarry carrier)

/-! ### All rules -/

/-- Each rule but the one that cancels wires, at a match that its check accepts. -/
theorem rewritesTo_apply (hd : d.Coherent) (hplain : d.web.Plain) (hD : Phase.IsGrid D)
    (hgrid : d.web.OnGrid D) {rule : DiagramRule} (hrule : rule ≠ .cancel) {m : Match}
    (h : rule.check d m = .ok true) : RewritesTo d (rule.apply d m) := by
  rw [DiagramRule.check] at h
  split at h
  swap
  · cases h
  next hall =>
  have hhas : ∀ v ∈ m, d.web.Has v := fun v hv => by
    have := List.all_eq_true.1 hall v hv
    rwa [contains_eq hd, decide_eq_true_iff] at this
  rw [DiagramRule.checkPresent.eq_def] at h
  split at h
  · exact rewritesTo_fuse hd hplain hD hgrid (hhas _ List.mem_cons_self)
      (hhas _ (List.mem_cons_of_mem _ List.mem_cons_self)) h
  · exact rewritesTo_hadamard hd hplain (hhas _ List.mem_cons_self) h
  · exact rewritesTo_removeIdentity hd hplain (hhas _ List.mem_cons_self) h
  · exact absurd rfl hrule
  · exact rewritesTo_piCopy hd hplain (hhas _ List.mem_cons_self)
      (hhas _ (List.mem_cons_of_mem _ List.mem_cons_self)) h
  · exact rewritesTo_changeColour hd hplain (hhas _ List.mem_cons_self)
      (and_eq_true_iff.1 h).1
  · cases h

/-- Fusing spiders, turning an X spider into a Z spider with boxes, removing a spider that acts as a
    wire, copying a half turn and changing a colour give, at each match that the check of the rule
    accepts, a diagram that denotes the same linear map up to a scalar. Edges have to be plain, and
    phases on a grid, so that none is rounded. -/
theorem sameMap_of_check (hd : d.Coherent) (hplain : d.web.Plain) (hD : Phase.IsGrid D)
    (hgrid : d.web.OnGrid D) {rule : DiagramRule} (hrule : rule ≠ .cancel) {m : Match}
    (h : rule.check d m = .ok true) :
    ∃ d', rule.apply d m = .ok d' ∧ d'.Coherent ∧ d'.web.Plain ∧ d.SameMap d' := by
  obtain ⟨d', hok, hd', hden⟩ := rewritesTo_apply hd hplain hD hgrid hrule h
  exact ⟨d', hok, hd', hden.plain, sameMap_of_denotes hd hd' hplain hden⟩

/-! ### An example -/

/-- Only the edges between vertices below the next one have to be looked at. -/
theorem plain_iff (hw : w.Valid) :
    w.Plain ↔ ∀ s < w.next, ∀ t < w.next, w.count s t .hadamard = 0 := by
  refine ⟨fun h s _ t _ => h s t, fun h s t => ?_⟩
  by_contra hne
  have hpos := Nat.pos_of_ne_zero hne
  have hs := hw.has s t _ hpos
  have ht := hw.has t s _ (hw.symm s t _ ▸ hpos)
  exact hne (h s (hw.lt s hs) t (hw.lt t ht))

instance : Decidable (d.Coherent ∧ d.web.Plain) :=
  if h : d.Coherent then
    decidable_of_iff _ ((plain_iff h.valid).symm.trans (and_iff_right h).symm)
  else isFalse fun h' => h h'.1

/-- A half turn before an X spider with two wires to the same Z spider. -/
def halfTurn : Diagram where
  graph := ⟨#[some [⟨2, .plain, 1⟩], some [⟨4, .plain, 1⟩], some [⟨0, .plain, 1⟩, ⟨3, .plain, 1⟩],
    some [⟨2, .plain, 1⟩, ⟨4, .plain, 2⟩], some [⟨3, .plain, 2⟩, ⟨1, .plain, 1⟩]], 5, 5⟩
  kinds := .ofList [(0, .input), (1, .output), (2, .z), (3, .x), (4, .z)] compare
  phases := .ofList [(2, .pi), (4, .reduce 1 4)] compare
  layout := .new 1
  inputs := [0]
  outputs := [1]
  carriers := ∅

/-- The half turn is copied onto both wires. -/
theorem halfTurn_sameMap : DiagramRule.piCopy.check halfTurn [2, 3] = .ok true ∧
    ∃ d', DiagramRule.piCopy.apply halfTurn [2, 3] = .ok d' ∧ d'.Coherent ∧ d'.web.Plain ∧
      halfTurn.SameMap d' := by
  have hcheck : DiagramRule.piCopy.check halfTurn [2, 3] = .ok true := by decide +kernel
  have hplain : halfTurn.Coherent ∧ halfTurn.web.Plain := by decide +kernel
  have hgrid : halfTurn.web.OnGrid 4 := by decide +kernel
  have hD : Phase.IsGrid 4 := ⟨by decide, by decide⟩
  exact ⟨hcheck, sameMap_of_check hplain.1 hplain.2 hD hgrid (by decide) hcheck⟩

end Diagram

end ZXRewriting
