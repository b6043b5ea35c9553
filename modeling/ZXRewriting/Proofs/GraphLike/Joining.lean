import ZXRewriting.Proofs.GraphLike.Identities
import ZXRewriting.Proofs.GraphLike.Rules
import ZXRewriting.Proofs.GraphLike.Runs
import ZXRewriting.Proofs.Phase.Turns

/-!
# Adding edges between Z spiders is sound

In a diagram of Z spiders and ends that has edges of both kinds, but no two between the same vertices
(`Web.Mixed`), an edge more is reduced at once with the one that is there: two plain edges are one,
two Hadamard edges are none, and one of each is a plain edge and a half turn. A plain loop is nothing
and a Hadamard loop is a half turn. What this gives is again such a diagram, differs from the old one
in the edges between the two spiders and in one phase only (`Web.Rejoined`), and denotes what the
diagram with the edge as it is denotes, loops included (`Web.NoParallel.amplitude_addReduced`).

Taking out a spider without a phase joins its neighbours in the same way. These may be ends, but then
they are not joined already (`Web.Mixed.not_isEnd_of_link`), so that this never fails and keeps what
the diagram denotes (`GraphLike.joining_sound`).

A half turn is added exactly if the sum fits in words. Where it is rounded the diagram denotes
something else (`GraphLike.detour_misjoined`).
-/

namespace ZXRewriting

open Function (update update_self update_of_ne update_idem)
open Multigraph (SamePair)

namespace Web

variable {w w' : Web} {s t u v : Vertex} {k : EdgeKind} {τ : Vertex → ℂ} {b : Bits} {p : Phase}

/-! ### What stays -/

/-- A web that has other edges between two vertices, and another phase at the first of them. -/
structure Rejoined (s t : Vertex) (w w' : Web) : Prop where
  next : w'.next = w.next
  kind : w'.kind = w.kind
  inputs : w'.inputs = w.inputs
  outputs : w'.outputs = w.outputs
  carrier : w'.carrier = w.carrier
  phase : ∀ v, v ≠ s → w'.phase v = w.phase v
  count : ∀ u v k, ¬SamePair u v s t → w'.count u v k = w.count u v k

namespace Rejoined

theorem refl (s t : Vertex) (w : Web) : Rejoined s t w w :=
  ⟨rfl, rfl, rfl, rfl, rfl, fun _ _ => rfl, fun _ _ _ _ => rfl⟩

theorem setCount (w : Web) (s t : Vertex) (m : EdgeKind → ℕ) : Rejoined s t w (w.setCount s t m) :=
  ⟨rfl, rfl, rfl, rfl, rfl, fun _ _ => rfl, fun _ _ _ h => if_neg h⟩

theorem addToPhase (h : Rejoined s t w w') (p : Phase) : Rejoined s t w (w'.addToPhase s p) :=
  ⟨h.next, h.kind, h.inputs, h.outputs, h.carrier,
    fun v hv => (update_of_ne hv _ _).trans (h.phase v hv), h.count⟩

theorem sameEnds (h : Rejoined s t w w') : SameEnds w w' := fun v => .inl (congrFun h.kind v)

/-- The edges of other vertices. -/
theorem endsAre (h : Rejoined s t w w') {ends : List (Vertex × EdgeKind)} (hvs : v ≠ s)
    (hvt : v ≠ t) (hends : w.EndsAre v ends) : w'.EndsAre v ends := fun u k => by
  rw [h.count v u k (by rintro (⟨rfl, -⟩ | ⟨rfl, -⟩) <;> contradiction)]
  exact hends u k

end Rejoined

theorem rejoined_addReduced (w : Web) (s t : Vertex) (k : EdgeKind) :
    Rejoined s t w (w.addReduced s t k) :=
  addReduced_cases (fun _ _ => .refl s t w) (fun _ _ => (Rejoined.refl s t w).addToPhase .pi)
    (fun _ _ => .setCount w s t _) (fun _ _ _ => .refl s t w) (fun _ _ _ => .setCount w s t _)
    (fun _ _ _ => (Rejoined.setCount w s t _).addToPhase .pi)
    fun _ _ _ => (Rejoined.refl s t w).addToPhase .pi

theorem NoParallel.setPhase (hw : w.NoParallel) (v : Vertex) (p : Phase) :
    (w.setPhase v p).NoParallel := ⟨hw.valid.setPhase v p, hw.single⟩

theorem NoParallel.setCount (hw : w.NoParallel) (hs : w.Has s) (ht : w.Has t) (hst : s ≠ t)
    {m : EdgeKind → ℕ} (hm : m .plain + m .hadamard ≤ 1) : (w.setCount s t m).NoParallel where
  valid := hw.valid.setCount hs ht hst m
  single a c := by
    change (if SamePair a c s t then m .plain else w.count a c .plain) +
      (if SamePair a c s t then m .hadamard else w.count a c .hadamard) ≤ 1
    split
    · exact hm
    · exact hw.single a c

/-- An edge that is added and reduced is not parallel to another one. -/
theorem NoParallel.addReduced (hw : w.NoParallel) (hs : w.Has s) (ht : w.Has t) (k : EdgeKind) :
    (w.addReduced s t k).NoParallel := by
  refine addReduced_cases (P := NoParallel) (fun _ _ => hw) (fun _ _ => hw.setPhase s _)
    (fun hst hl => ?_) (fun _ _ _ => hw) (fun hst _ _ => hw.setCount hs ht hst (Nat.zero_le 1))
    (fun hst _ _ => ?_) fun _ _ _ => hw.setPhase s _
  · have hnone : w.count s t .plain + w.count s t .hadamard = 0 := link_eq_none_iff.1 hl
    refine hw.setCount hs ht hst ?_
    cases k <;> simp <;> omega
  · refine (hw.setCount hs ht hst ?_).setPhase s _
    simpa using hw.single s t

/-! ### Loops -/

/-- The factor of the edges from vertices to themselves. -/
noncomputable def loops (w : Web) (b : Bits) : ℂ :=
  ∏ v ∈ Finset.range w.next, (w.network 1).bond b v v

/-- What a diagram denotes that may have edges from Z spiders to themselves. -/
noncomputable def loopedAmplitude (w : Web) : Bits → ℂ :=
  sumOver (w.network 1).inner fun b => (w.network 1).weight b * w.loops b

theorem Valid.loops_eq (hw : w.Valid) : w.loops b = 1 :=
  Finset.prod_eq_one fun v _ => edge_network_eq_one (hw.self v) _ _

theorem Valid.loopedAmplitude_eq (hw : w.Valid) : w.loopedAmplitude = w.amplitude :=
  funext fun _ => sumOver_congr fun _ _ => by rw [hw.loops_eq, mul_one]

/-- A new edge brings its factor, also if it is a loop. -/
theorem Valid.weight_mul_loops (hw : w.Valid) (hs : w.Has s) (ht : w.Has t) :
    ((w.addEdges s t k 1).network 1).weight b * (w.addEdges s t k 1).loops b =
      (w.network 1).weight b * k.value (b s) (b t) := by
  by_cases hst : s = t
  · subst hst
    -- a loop is in the factor of the loops only, as no pair of different vertices has it
    have hoff {x y : Vertex} (hxy : x ≠ y) :
        ((w.addEdges s s k 1).network 1).bond b x y = (w.network 1).bond b x y := by
      refine Network.bond_congr (edge_network_congr (funext fun k => if_neg ?_)) rfl rfl
      rintro (⟨rfl, rfl⟩ | ⟨rfl, rfl⟩) <;> exact hxy rfl
    have hweight : ((w.addEdges s s k 1).network 1).weight b = (w.network 1).weight b :=
      congrArg₂ (· * ·) rfl
        (Finset.prod_congr rfl fun p hp => hoff (Network.mem_pairs.1 hp).1.ne)
    have hloops : (w.addEdges s s k 1).loops b =
        ∏ v ∈ Finset.range w.next, if v = s then k.value (b s) (b s) else 1 := by
      refine Finset.prod_congr rfl fun v _ => ?_
      rw [bond_network, hw.count_addEdges_eq, hw.count_addEdges_eq, hw.self, hw.self]
      by_cases hv : v = s
      · subst hv
        cases k <;> simp [SamePair]
      · simp [SamePair, hv]
    rw [hweight, hloops, Finset.prod_ite_eq', if_pos (Finset.mem_range.2 (hw.lt s hs))]
  · have hval : (w.addEdges s t k 1).Valid := hw.setCount hs ht hst _
    rw [hval.loops_eq, mul_one, hw.weight_addEdges hs ht hst, pow_one]

/-- Reducing an edge that is added keeps what is denoted, as long as a half turn is added exactly. -/
theorem NoParallel.amplitude_addReduced (hw : w.NoParallel) (hs : w.Has s) (ht : w.Has t)
    (hturn : w.MakesTurn s t k → w.IsZ s ∧ (w.phase s + .pi).unit = -(w.phase s).unit) :
    (w.addReduced s t k).amplitude = (w.addEdges s t k 1).loopedAmplitude := by
  have hsame := rejoined_addReduced w s t k
  have hinner : ((w.addReduced s t k).network 1).inner = ((w.addEdges s t k 1).network 1).inner :=
    inner_congr hsame.next hsame.kind
  funext b
  rw [amplitude, Network.amplitude, loopedAmplitude, hinner]
  exact sumOver_congr fun b' _ => by
    rw [hw.weight_addReduced hs ht hturn, hw.valid.weight_mul_loops hs ht]

/-! ### Edges of both kinds -/

/-- The spiders are Z spiders and ends of wires, each end has a single edge, and no two vertices are
    joined more than once, by an edge of either kind. -/
structure Mixed (w : Web) : Prop extends Hung w where
  colour : w.Uniform
  single : ∀ s t, w.joins s t ≤ 1

theorem Mixed.noParallel (hw : w.Mixed) : w.NoParallel := ⟨hw.valid, hw.single⟩

theorem Mixed.isZ (hw : w.Mixed) (hv : w.Has v) (hend : ¬w.IsEnd v) : w.IsZ v :=
  (hw.colour v hv).resolve_right hend

theorem Mixed.setPhase (hw : w.Mixed) (v : Vertex) (p : Phase) : (w.setPhase v p).Mixed :=
  ⟨⟨hw.valid.setPhase v p, hw.hangs⟩, hw.colour, hw.single⟩

theorem Uniform.of_kind (hw : w.Uniform) (h : w'.kind = w.kind) : w'.Uniform := by
  intro v
  simp only [Has, IsZ, IsEnd, h]
  exact hw v

theorem Uniform.remove (hw : w.Uniform) (v : Vertex) : (w.remove v).Uniform := fun u hu => by
  obtain ⟨huv, hu⟩ := has_remove.1 hu
  rw [IsZ, IsEnd, kind_remove, update_of_ne huv]
  exact hw u hu

/-- What has to be looked at. -/
theorem Valid.mixed (hw : w.Valid)
    (hspiders : ∀ v < w.next, (w.Has v → w.IsZ v ∨ w.IsEnd v) ∧ (w.IsEnd v → w.degree v = 1))
    (hedges : ∀ s < w.next, ∀ t < w.next, w.joins s t ≤ 1) : w.Mixed := by
  refine ⟨hw.hung fun t ht => (hspiders t (hw.lt t ht.has)).2 ht,
    fun v hv => (hspiders v (hw.lt v hv)).1 hv, fun s t => ?_⟩
  by_cases h : w.Has s ∧ w.Has t
  · exact hedges s (hw.lt s h.1) t (hw.lt t h.2)
  · exact Nat.le_of_not_lt fun hpos => h (hw.has_of_joins (Nat.lt_of_succ_lt hpos))

/-- Edges between Z spiders can be added. -/
theorem Mixed.addReduced (hw : w.Mixed) (hs : w.IsZ s) (ht : w.IsZ t) (k : EdgeKind) :
    (w.addReduced s t k).Mixed := by
  have hsame := rejoined_addReduced w s t k
  obtain ⟨hval, hsingle⟩ := hw.noParallel.addReduced hs.has ht.has k
  refine ⟨hw.toHung.of_ends hval hsame.sameEnds fun x u k hx hu => ⟨u, k, ?_⟩,
    hw.colour.of_kind hsame.kind, hsingle⟩
  exact hsame.endsAre (fun h => hs.not_isEnd (h ▸ hx)) (fun h => ht.not_isEnd (h ▸ hx)) hu

/-- An edge that is added beside a Hadamard edge. -/
theorem addReduced_setPhase (hst : s ≠ t) (hlink : w.link s t = some .hadamard) (p : Phase) :
    (w.setPhase s p).addReduced s t .plain = (w.setKind s t .plain).setPhase s (p + .pi) := by
  rw [addReduced, if_neg hst, show (w.setPhase s p).link s t = _ from hlink]
  refine Web.ext rfl rfl ?_ rfl rfl rfl rfl
  change update (update w.phase s p) s (update w.phase s p s + .pi) = _
  rw [update_self, update_idem]
  rfl

/-! ### Passing a spider by -/

/-- The edges of a vertex by their other ends. -/
theorem NoParallel.endsAre_incident (hw : w.NoParallel) (v : Vertex) :
    w.EndsAre v (w.incident v) := fun u k => by
  have hmem : (u, k) ∈ w.incident v ↔ w.link v u = some k := by
    rw [mem_incident]
    exact and_iff_right_of_imp hw.valid.mem_nearby_of_link
  rw [hw.count_eq, List.Nodup.count nodup_incident]
  simp only [hmem]

section Passed

variable {c d : Vertex} {k₁ k₂ : EdgeKind} (hw : w.Mixed) (hends : w.EndsAre v [(c, k₁), (d, k₂)])
include hw hends

/-- Neighbours of a spider that are joined to each other are no ends. -/
theorem Mixed.not_isEnd_of_link (hlink : w.link c d ≠ none) : ¬w.IsEnd c ∧ ¬w.IsEnd d := by
  have hvc := (hw.valid.has_of_endsAre hends List.mem_cons_self).2
  have hvd := (hw.valid.has_of_endsAre hends (List.mem_cons_of_mem _ List.mem_cons_self)).2
  have hc : 0 < w.joins c v := by
    rw [hw.valid.joins_comm, joins_of_endsAre hends]
    simp
  have hd : 0 < w.joins d v := by
    rw [hw.valid.joins_comm, joins_of_endsAre hends]
    simp
  -- an end has a single edge, which cannot go to the spider and to its neighbour both
  have hjoined : 0 < w.joins c d := Nat.pos_of_ne_zero fun h => hlink (link_eq_none_iff.2 h)
  exact ⟨fun h => hvd (hw.eq_of_joins h hjoined hc),
    fun h => hvc (hw.eq_of_joins h (hw.valid.joins_comm c d ▸ hjoined) hd)⟩

variable (hcd : c ≠ d)
include hcd

/-- The neighbours of a spider that is removed can be joined. -/
theorem Mixed.addReduced_remove (hend : ¬w.IsEnd v) (k : EdgeKind) :
    ((w.remove v).addReduced c d k).Mixed := by
  obtain ⟨hc, hcv⟩ := hw.valid.has_of_endsAre hends List.mem_cons_self
  obtain ⟨hd, hdv⟩ := hw.valid.has_of_endsAre hends (List.mem_cons_of_mem _ List.mem_cons_self)
  have hsame := rejoined_addReduced (w.remove v) c d k
  obtain ⟨hval, hsingle⟩ := (hw.noParallel.remove v).addReduced (has_remove.2 ⟨hcv, hc⟩)
    (has_remove.2 ⟨hdv, hd⟩) k
  refine ⟨?_, (hw.colour.remove v).of_kind hsame.kind, hsingle⟩
  -- the ends have the edges that they have with the new one not reduced
  have hadded : (w.unbox v c d k).Hung := hw.toHung.unbox hends hend
  have hunbox : w.unbox v c d k = (w.remove v).addEdges c d k 1 := if_neg hcd
  by_cases hlink : w.link c d = none
  · rw [← link_remove hcv hdv] at hlink
    rwa [Web.addReduced, if_neg hcd, hlink, ← hunbox]
  · obtain ⟨hce, hde⟩ := hw.not_isEnd_of_link hends hlink
    have hkind : ((w.remove v).addReduced c d k).kind = (w.unbox v c d k).kind := by
      rw [hsame.kind, kind_unbox, kind_remove]
    refine hadded.of_ends hval (fun x => .inl (congrFun hkind x)) fun x u k' hx hu => ⟨u, k', ?_⟩
    have hxw : w.IsEnd x := (sameEnds_unbox hend).isEnd.1 hx
    have hxc : x ≠ c := fun h => hce (h ▸ hxw)
    have hxd : x ≠ d := fun h => hde (h ▸ hxw)
    refine hsame.endsAre hxc hxd fun y k'' => ?_
    rw [← hu, hunbox, (hw.valid.remove v).count_addEdges_eq, if_neg, Nat.add_zero]
    rintro ⟨⟨rfl, -⟩ | ⟨rfl, -⟩, -⟩ <;> contradiction

/-- A Z spider without a phase is as good as an edge between its neighbours. -/
theorem Mixed.proportional_addReduced (hz : w.IsZ v) (hzero : (w.phase v).isZero)
    (hturn : w.MakesTurn c d (k₁.merge k₂) → (w.phase c + .pi).unit = -(w.phase c).unit) :
    Proportional w.amplitude ((w.remove v).addReduced c d (k₁.merge k₂)).amplitude := by
  obtain ⟨hc, hcv⟩ := hw.valid.has_of_endsAre hends List.mem_cons_self
  obtain ⟨hd, hdv⟩ := hw.valid.has_of_endsAre hends (List.mem_cons_of_mem _ List.mem_cons_self)
  have hc' : (w.remove v).Has c := has_remove.2 ⟨hcv, hc⟩
  have hd' : (w.remove v).Has d := has_remove.2 ⟨hdv, hd⟩
  set k := k₁.merge k₂
  have hval : ((w.remove v).addEdges c d k 1).Valid := (hw.valid.remove v).setCount hc' hd' hcd _
  have hreduced : ((w.remove v).addReduced c d k).amplitude =
      ((w.remove v).addEdges c d k 1).amplitude := by
    rw [(hw.noParallel.remove v).amplitude_addReduced hc' hd', hval.loopedAmplitude_eq]
    intro hmakes
    rw [makesTurn_iff hcd, link_remove hcv hdv] at hmakes
    have hlink : w.link c d ≠ none := by
      rw [hmakes]
      exact Option.some_ne_none _
    have hcz : w.IsZ c := hw.isZ hc (hw.not_isEnd_of_link hends hlink).1
    rw [IsZ, kind_remove, phase_remove, update_of_ne hcv, update_of_ne hcv]
    exact ⟨hcz, hturn ((makesTurn_iff hcd).2 hmakes)⟩
  have hphased : SpiderKind.z.isPhased = true := rfl
  obtain ⟨e, he, hbridge⟩ : ∃ e : ℂ, e ≠ 0 ∧ ∀ f g, (w.kindAt v).bridge
      ((w.kindAt v).factor (w.phase v) * (1 : Vertex → ℂ) v) k₁ k₂ f g = e * k.joint f g := by
    rw [kindAt_eq hz, SpiderKind.factor_of_isPhased hphased, Phase.unit_of_isZero hzero,
      Pi.one_apply, mul_one]
    exact SpiderKind.bridge_identity hphased k₁ k₂
  have hpassed := hw.valid.amplitude_bypass (hw.valid.mem_tensors_of_kind hz rfl) hends hcd he
    hbridge
  -- both webs have Z spiders only, so that their tensors are the factors of their networks
  rw [tensors_eq_network hw.colour, tensors_eq_network (w := (w.remove v).addEdges c d k 1)
    (hw.colour.remove v)] at hpassed
  rw [hreduced]
  exact hpassed

end Passed

end Web

/-! ### The program -/

namespace GraphLike

open Web

variable {g g' : GraphLike} {a b s t v : Vertex} {k k₁ k₂ : EdgeKind}

/-- A diagram that has the inputs and outputs of a web, and denotes the same linear map up to a
    scalar. The web may have loops. -/
def Realizes (g : GraphLike) (w : Web) : Prop :=
  g.inputs = w.inputs ∧ g.outputs = w.outputs ∧ ∃ c : ℂ, c ≠ 0 ∧
    toMatrix w.outputs.length w.inputs.length w.outputs w.inputs w.loopedAmplitude =
      c • g.linearMap w.outputs.length w.inputs.length

theorem realizes_web_iff (hg : g.Coherent) : g'.Realizes g.web ↔ g.SameMap g' := by
  rw [Realizes, SameMap, hg.valid.loopedAmplitude_eq]
  rfl

section

variable (hg : g.Coherent) (hw : g.web.Mixed)
include hg hw

theorem exists_addEdgeReduced (hs : g.web.IsZ s) (ht : g.web.IsZ t) (k : EdgeKind) :
    ∃ g', g.addEdgeReduced s t k = .ok g' ∧ g'.Coherent ∧ g'.web = g.web.addReduced s t k ∧
      ((g.web.MakesTurn s t k → (g.phase s + .pi).unit = -(g.phase s).unit) →
        g'.Realizes (g.web.addEdges s t k 1)) := by
  obtain ⟨g', hok, hg', hw', -⟩ := Gives.addReduced hg hs.has ht.has
    (fun _ => ⟨hs.not_isEnd, ht.not_isEnd⟩) k
  refine ⟨g', hok, hg', hw', fun hturn => ?_⟩
  have hsame := rejoined_addReduced g.web s t k
  rw [← hw'] at hsame
  have hin : g'.inputs = g.inputs := hsame.inputs
  have hout : g'.outputs = g.outputs := hsame.outputs
  have hamp : g'.web.amplitude = (g.web.addEdges s t k 1).loopedAmplitude := by
    rw [hw']
    exact hw.noParallel.amplitude_addReduced hs.has ht.has fun h => ⟨hs, hturn h⟩
  refine ⟨hin, hout, 1, one_ne_zero, ?_⟩
  rw [one_smul, linearMap, hin, hout, hamp]
  rfl

theorem exists_removeIdentity (hz : g.web.IsZ v) (hzero : (g.phase v).isZero)
    (hlist : g.web.incident v = [(a, k₁), (b, k₂)]) (hab : a ≠ b) :
    ∃ g', g.removeIdentity v = .ok g' ∧ g'.Coherent ∧
      g'.web = (g.web.remove v).addReduced a b (k₁.merge k₂) ∧ g'.web.Mixed ∧
      ((g.web.MakesTurn a b (k₁.merge k₂) → (g.phase a + .pi).unit = -(g.phase a).unit) →
        g.SameMap g') := by
  have hends : g.web.EndsAre v [(a, k₁), (b, k₂)] := hlist ▸ hw.noParallel.endsAre_incident v
  obtain ⟨g', hok, hg', hw', -⟩ := Gives.removeIdentity hg hw.noParallel hz.has hlist
    (hw.not_isEnd_of_link hends)
  have hsame := rejoined_addReduced (g.web.remove v) a b (k₁.merge k₂)
  refine ⟨g', hok, hg', hw', ?_, fun hturn => ?_⟩
  · rw [hw']
    exact hw.addReduced_remove hends hab hz.not_isEnd _
  · rw [← hw'] at hsame
    refine sameMap_of_proportional hsame.inputs hsame.outputs ?_
    rw [hw']
    exact hw.proportional_addReduced hends hab hz hzero hturn

/-- Adding an edge between two Z spiders, or from one to itself, always gives a diagram without
    parallel edges, and changes nothing but the edge between the two and the phase of the first. It
    denotes the map of the diagram with one edge more, up to a scalar, if the half turn that may be
    added gives a phase that fits in words. Taking out a spider that passes the check always gives
    such a diagram, and keeps the map under the same condition. -/
theorem joining_sound :
    (∀ s t k, g.web.IsZ s → g.web.IsZ t → ∃ g', g.addEdgeReduced s t k = .ok g' ∧
      g'.Coherent ∧ g'.web.Mixed ∧ Rejoined s t g.web g'.web ∧
      ((g.web.MakesTurn s t k → Phase.Representable ((g.phase s).value + 1)) →
        g'.Realizes (g.web.addEdges s t k 1))) ∧
    ∀ v, g.checkRemoveIdentity v = .ok true → ∃ a k₁ b k₂,
      g.incidentEdges v = .ok [(a, k₁), (b, k₂)] ∧ ∃ g', g.removeIdentity v = .ok g' ∧
      g'.Coherent ∧ g'.web.Mixed ∧
      ((g.web.MakesTurn a b (k₁.merge k₂) → Phase.Representable ((g.phase a).value + 1)) →
        g.SameMap g') := by
  constructor
  · intro s t k hs ht
    obtain ⟨g', hok, hg', hw', hreal⟩ := exists_addEdgeReduced hg hw hs ht k
    refine ⟨g', hok, hg', ?_, ?_, fun h => hreal fun hturn => Phase.unit_add_pi (h hturn)⟩
    · rw [hw']
      exact hw.addReduced hs ht k
    · rw [hw']
      exact rejoined_addReduced g.web s t k
  · intro v hv
    obtain ⟨hz, hzero, a, k₁, b, k₂, hlist, hab⟩ := of_checkRemoveIdentity hg hw.noParallel hv
    obtain ⟨g', hok, hg', -, hw', hmap⟩ := exists_removeIdentity hg hw hz hzero hlist hab
    refine ⟨a, k₁, b, k₂, ?_, g', hok, hg', hw', fun h => hmap fun hturn =>
      Phase.unit_add_pi (h hturn)⟩
    rw [incidentEdges_eq hg hw.noParallel hz.has, hlist]

end

/-! ### A way around an edge -/

/-- A wire through a Hadamard edge, the two spiders at which are joined through a third one too. -/
def doubled : GraphLike where
  graph := ⟨#[some [⟨2, .plain, 1⟩], some [⟨3, .plain, 1⟩],
    some [⟨0, .plain, 1⟩, ⟨3, .hadamard, 1⟩, ⟨4, .plain, 1⟩],
    some [⟨1, .plain, 1⟩, ⟨2, .hadamard, 1⟩, ⟨4, .plain, 1⟩],
    some [⟨2, .plain, 1⟩, ⟨3, .plain, 1⟩]], 5, 5⟩
  kinds := .ofList [(0, .input), (1, .output), (2, .z), (3, .z), (4, .z)] compare
  phases := ∅
  layout := .new 1
  inputs := [0]
  outputs := [1]
  carriers := ∅
  master := .blank 1

/-- The same with a phase at the first spider. -/
def detour (p : Phase) : GraphLike := doubled.setPhase 2 p

theorem doubled_coherent : doubled.Coherent := by decide

theorem doubled_mixed : doubled.web.Mixed :=
  doubled_coherent.valid.mixed (by decide) (by decide)

theorem doubled_isZ : doubled.web.IsZ 2 ∧ doubled.web.IsZ 3 := by decide

theorem doubled_middle : doubled.web.IsZ 4 ∧
    doubled.web.incident 4 = [(2, .plain), (3, .plain)] := by decide

theorem doubled_link : doubled.web.link 2 3 = some .hadamard := by decide

section Detour

variable {p q : Phase} {κ : Bits → ℂ}

theorem web_detour : (detour p).web = doubled.web.setPhase 2 p := web_setPhase

theorem phase_detour (v : Vertex) : (detour p).phase v = update doubled.phase 2 p v :=
  congrFun (congrArg Web.phase web_detour) v

theorem detour_coherent (p : Phase) : (detour p).Coherent := Coherent.setPhase doubled_coherent 2 p

theorem detour_mixed (p : Phase) : (detour p).web.Mixed := by
  rw [web_detour]
  exact doubled_mixed.setPhase 2 p

/-- With a plain edge more beside the Hadamard edge. -/
theorem addEdgeReduced_detour (p : Phase) : ∃ g', (detour p).addEdgeReduced 2 3 .plain = .ok g' ∧
    g'.web = (doubled.web.setKind 2 3 .plain).setPhase 2 (p + .pi) ∧
    ((p + .pi).unit = -p.unit → g'.Realizes ((detour p).web.addEdges 2 3 .plain 1)) := by
  obtain ⟨g', hok, -, hw, hreal⟩ := exists_addEdgeReduced (detour_coherent p) (detour_mixed p)
    doubled_isZ.1 doubled_isZ.2 .plain
  rw [phase_detour, update_self] at hreal
  refine ⟨g', hok, ?_, fun h => hreal fun _ => h⟩
  rw [hw, web_detour, addReduced_setPhase (by decide) doubled_link]

/-- Without the third spider. -/
theorem removeIdentity_detour (p : Phase) : ∃ g', (detour p).removeIdentity 4 = .ok g' ∧
    g'.web = ((doubled.web.remove 4).setKind 2 3 .plain).setPhase 2 (p + .pi) ∧
    ((p + .pi).unit = -p.unit → g'.Realizes (detour p).web) := by
  have hzero : ((detour p).phase 4).isZero := by
    rw [phase_detour, update_of_ne (by decide)]
    decide
  obtain ⟨g', hok, -, hw, -, hmap⟩ := exists_removeIdentity (detour_coherent p) (detour_mixed p)
    doubled_middle.1 hzero doubled_middle.2 (by decide)
  rw [phase_detour, update_self] at hmap
  refine ⟨g', hok, ?_, fun h => (realizes_web_iff (detour_coherent p)).2 (hmap fun _ => h)⟩
  rw [hw, web_detour, remove_setPhase (by decide)]
  refine addReduced_setPhase (by decide) ?_ p
  rw [link_remove (by decide) (by decide), doubled_link]

/-- The same bit at both ends of a wire. -/
def wireBits (x : Bool) : Bits := endBits [1] [0] (fun _ : Fin 1 => x) fun _ : Fin 1 => x

theorem wireBits_first (x : Bool) : wireBits x 0 = x := by cases x <;> rfl

theorem wireBits_last (x : Bool) : wireBits x 1 = x := by cases x <;> rfl

/-- The phase comes out of the weight. -/
theorem weight_detour (p : Phase) (b : Bits) : ((detour p).web.network 1).weight b =
    (doubled.web.network 1).weight b * if b 2 then p.unit else 1 := by
  have hzero : (doubled.web.phase 2).isZero := by decide
  rw [web_detour]
  exact doubled_coherent.valid.weight_setPhase doubled_isZ.1
    (by rw [Phase.unit_of_isZero hzero, one_mul])

/-- The plain edges make the bits equal at their ends. -/
theorem eq_of_weight_doubled {b : Bits} (h : (doubled.web.network 1).weight b ≠ 0) :
    b 0 = b 2 ∧ b 1 = b 3 ∧ b 2 = b 4 := by
  have hplain : 0 < doubled.web.count 0 2 .plain ∧ 0 < doubled.web.count 1 3 .plain ∧
      0 < doubled.web.count 2 4 .plain := by decide
  have heq {s t : Vertex} (hst : s < t) (ht : t < doubled.web.next)
      (hpos : 0 < doubled.web.count s t .plain) : b s = b t := by
    by_contra hne
    exact h (weight_eq_zero_of_ne hst ht hpos hne)
  exact ⟨heq (by decide) (by decide) hplain.1, heq (by decide) (by decide) hplain.2.1,
    heq (by decide) (by decide) hplain.2.2⟩

/-- All bits are those at the ends, so that the phase comes out of the sum. This holds with a further
    factor as well, if that is one where the bits of the two spiders are equal. -/
theorem sumOver_detour (hκ : ∀ b, b 2 = b 3 → κ b = 1) (x : Bool) : ∃ e : ℂ, e ≠ 0 ∧ ∀ p : Phase,
    sumOver {2, 3, 4} (fun b => ((detour p).web.network 1).weight b * κ b) (wireBits x) =
      e * if x then p.unit else 1 := by
  set c : Bits := fun v => if v ∈ ({2, 3, 4} : Finset Vertex) then x else wireBits x v with hc
  have hall : ∀ v < 5, c v = x := by
    intro v hv
    interval_cases v <;> simp [hc, wireBits_first, wireBits_last]
  refine ⟨(doubled.web.network 1).weight c, weight_ne_zero_of_eq hall, fun p => ?_⟩
  rw [sumOver_eq_of_forced x, ← hc, weight_detour, hall 2 (by decide), hκ c rfl, mul_one]
  -- a spider with another bit than the ends is on a plain edge that joins different bits
  intro b hends ⟨v, hv, hvx⟩
  have hzero : (doubled.web.network 1).weight b = 0 := by
    by_contra hne
    obtain ⟨h2, h3, h4⟩ := eq_of_weight_doubled hne
    rw [hends 0 (by decide), wireBits_first] at h2
    rw [hends 1 (by decide), wireBits_last] at h3
    simp only [Finset.mem_insert, Finset.mem_singleton] at hv
    rcases hv with rfl | rfl | rfl
    · exact hvx h2.symm
    · exact hvx h3.symm
    · exact hvx (h2.trans h4).symm
  rw [weight_detour, hzero, zero_mul, zero_mul]

theorem Realizes.exists_scalar {w : Web} (h : g.Realizes w) (hin : w.inputs = [0])
    (hout : w.outputs = [1]) : ∃ c : ℂ, c ≠ 0 ∧ ∀ x,
      w.loopedAmplitude (wireBits x) = c * g.web.amplitude (wireBits x) := by
  obtain ⟨hin', hout', c, hc, hmap⟩ := h
  rw [linearMap, hin', hout', hin, hout] at hmap
  exact ⟨c, hc, fun x => congrFun (congrFun hmap fun _ => x) fun _ => x⟩

/-- One diagram cannot denote the same as the detours with two phases. -/
theorem phase_eq_of_realizes {W : Phase → Web} (hκ : ∀ b, b 2 = b 3 → κ b = 1)
    (hin : ∀ p, (W p).inputs = [0]) (hout : ∀ p, (W p).outputs = [1])
    (hW : ∀ p b, (W p).loopedAmplitude b =
      sumOver {2, 3, 4} (fun b => ((detour p).web.network 1).weight b * κ b) b)
    (hweb : g.web = g'.web) (hp : g.Realizes (W p)) (hq : g'.Realizes (W q)) : p = q := by
  obtain ⟨c, hc, hp⟩ := hp.exists_scalar (hin p) (hout p)
  obtain ⟨d, hd, hq⟩ := hq.exists_scalar (hin q) (hout q)
  obtain ⟨e₀, he₀, hsum₀⟩ := sumOver_detour hκ false
  obtain ⟨e₁, he₁, hsum₁⟩ := sumOver_detour hκ true
  simp only [hW, hweb] at hp hq
  -- the scalars are equal as the phase does not show where the bits are zero
  have hp₀ := hp false
  have hq₀ := hq false
  rw [hsum₀, if_neg Bool.false_ne_true, mul_one] at hp₀ hq₀
  have hcd : c = d := by
    refine mul_right_cancel₀ (fun h => he₀ ?_) (hp₀.symm.trans hq₀)
    rw [hp₀, h, mul_zero]
  have hp₁ := hp true
  have hq₁ := hq true
  rw [hsum₁, if_pos rfl] at hp₁ hq₁
  refine Phase.unit_injective (mul_left_cancel₀ he₁ ?_)
  rw [hp₁, hq₁, hcd]

theorem inner_detour (p : Phase) : ((detour p).web.network 1).inner = {2, 3, 4} := by
  rw [web_detour]
  change (Finset.range doubled.web.next).filter (fun v => doubled.web.IsZ v) = {2, 3, 4}
  decide

theorem loopedAmplitude_detour (p : Phase) (b : Bits) : (detour p).web.loopedAmplitude b =
    sumOver {2, 3, 4} (fun b => ((detour p).web.network 1).weight b * 1) b := by
  rw [loopedAmplitude, inner_detour]
  exact sumOver_congr fun b' _ => by rw [(detour_coherent p).valid.loops_eq]

theorem loopedAmplitude_addEdges_detour (p : Phase) (b : Bits) :
    ((detour p).web.addEdges 2 3 .plain 1).loopedAmplitude b =
      sumOver {2, 3, 4} (fun b => ((detour p).web.network 1).weight b *
        EdgeKind.plain.value (b 2) (b 3)) b := by
  have hinner : (((detour p).web.addEdges 2 3 .plain 1).network 1).inner = {2, 3, 4} :=
    inner_detour p
  rw [loopedAmplitude, hinner]
  exact sumOver_congr fun b' _ =>
    (detour_coherent p).valid.weight_mul_loops doubled_isZ.1.has doubled_isZ.2.has

/-- Half a turn more than a quarter turn can be written. -/
theorem representable_quarter : Phase.Representable ((Phase.reduce 1 2).value + 1) := by
  refine ⟨.reduce 3 2, by decide, ?_⟩
  have hnum : (Phase.reduce 1 2).num = 1 := by decide
  have hden : (Phase.reduce 1 2).den = 2 := by decide
  rw [Phase.turns_reduce (by decide), Phase.value, hnum, hden]
  norm_num

/-- With a quarter turn the detour is joined as it is to be. -/
theorem detour_joined :
    (detour (.reduce 1 2)).Coherent ∧ (detour (.reduce 1 2)).web.Mixed ∧
    (∃ g', (detour (.reduce 1 2)).addEdgeReduced 2 3 .plain = .ok g' ∧ g'.Coherent ∧
      g'.web.Mixed ∧ Rejoined 2 3 (detour (.reduce 1 2)).web g'.web ∧
      g'.Realizes ((detour (.reduce 1 2)).web.addEdges 2 3 .plain 1)) ∧
    (detour (.reduce 1 2)).checkRemoveIdentity 4 = .ok true ∧
    ∃ g', (detour (.reduce 1 2)).removeIdentity 4 = .ok g' ∧ g'.Coherent ∧ g'.web.Mixed ∧
      (detour (.reduce 1 2)).SameMap g' := by
  have hphase : (detour (.reduce 1 2)).phase 2 = .reduce 1 2 := by rw [phase_detour, update_self]
  have hcheck : (detour (.reduce 1 2)).checkRemoveIdentity 4 = .ok true := by decide
  have hedges := incidentEdges_eq (detour_coherent (.reduce 1 2)) (detour_mixed _).noParallel
    doubled_middle.1.has
  obtain ⟨hjoin, hremove⟩ := joining_sound (detour_coherent (.reduce 1 2)) (detour_mixed _)
  obtain ⟨g₁, hok₁, hg₁, hw₁, hsame₁, hreal₁⟩ := hjoin 2 3 .plain doubled_isZ.1 doubled_isZ.2
  obtain ⟨a, k₁, b, k₂, hlist, g₂, hok₂, hg₂, hw₂, hmap₂⟩ := hremove 4 hcheck
  obtain rfl : 2 = a := by
    have hlist' := doubled_middle.2.symm.trans (Except.ok.inj (hedges.symm.trans hlist))
    exact congrArg Prod.fst (List.cons.inj hlist').1
  rw [hphase] at hreal₁ hmap₂
  exact ⟨detour_coherent _, detour_mixed _,
    ⟨g₁, hok₁, hg₁, hw₁, hsame₁, hreal₁ fun _ => representable_quarter⟩, hcheck,
    g₂, hok₂, hg₂, hw₂, hmap₂ fun _ => representable_quarter⟩

/-- A phase next to a quarter turn. Half a turn more is rounded to three quarters of a turn. -/
def almostQuarter : Phase := .reduce 3500000000000000001 7000000000000000001

/-- Next to a quarter turn the detour is joined as if it were one. -/
theorem detour_misjoined : almostQuarter.Fits ∧
    (detour almostQuarter).Coherent ∧ (detour almostQuarter).web.Mixed ∧
    (detour almostQuarter).web.IsZ 2 ∧ (detour almostQuarter).web.IsZ 3 ∧
    (∃ g', (detour almostQuarter).addEdgeReduced 2 3 .plain = .ok g' ∧
      ¬g'.Realizes ((detour almostQuarter).web.addEdges 2 3 .plain 1)) ∧
    (detour almostQuarter).checkRemoveIdentity 4 = .ok true ∧
    ∃ g', (detour almostQuarter).removeIdentity 4 = .ok g' ∧
      ¬(detour almostQuarter).SameMap g' := by
  have hne : almostQuarter ≠ .reduce 1 2 := by decide
  have hround : almostQuarter + .pi = .reduce 1 2 + .pi := by decide +kernel
  have hhalf := Phase.unit_add_pi representable_quarter
  obtain ⟨g₁, hok₁, hw₁, -⟩ := addEdgeReduced_detour almostQuarter
  obtain ⟨g₂, hok₂, hw₂, -⟩ := removeIdentity_detour almostQuarter
  -- where the phase is a quarter turn the result is the same, and right
  obtain ⟨g₁', -, hw₁', hreal₁⟩ := addEdgeReduced_detour (.reduce 1 2)
  obtain ⟨g₂', -, hw₂', hreal₂⟩ := removeIdentity_detour (.reduce 1 2)
  have hweb₁ : g₁.web = g₁'.web := by rw [hw₁, hw₁', hround]
  have hweb₂ : g₂.web = g₂'.web := by rw [hw₂, hw₂', hround]
  refine ⟨by decide, detour_coherent _, detour_mixed _, doubled_isZ.1, doubled_isZ.2,
    ⟨g₁, hok₁, fun h => hne ?_⟩, by decide, g₂, hok₂, fun h => hne ?_⟩
  · have hκ (b : Bits) (h : b 2 = b 3) : EdgeKind.plain.value (b 2) (b 3) = 1 := if_pos h
    exact phase_eq_of_realizes hκ (fun _ => rfl) (fun _ => rfl) loopedAmplitude_addEdges_detour hweb₁
      h (hreal₁ hhalf)
  · rw [← realizes_web_iff (detour_coherent _)] at h
    exact phase_eq_of_realizes (fun _ _ => rfl) (fun _ => rfl) (fun _ => rfl) loopedAmplitude_detour
      hweb₂ h (hreal₂ hhalf)

end Detour

end GraphLike

end ZXRewriting
