import ZXRewriting.Diagram.PiCopy
import ZXRewriting.Proofs.Diagram.Colours

/-!
# Copying a half turn is sound

A half turn next to a spider of the other colour turns over the bit of that spider on its wire.
Turning over the bit on all wires but this one is the same with the other bit, the factor of which
differs by a sign (`Valid.denotes_copyThrough`).
-/

namespace ZXRewriting

open Function (update update_self update_of_ne)
open Multigraph (SamePair)

/-- Summing over the opposite bit. -/
theorem sumOver_not {zs : Finset Vertex} {f : Bits → ℂ} {b : Bits} {v : Vertex} (hv : v ∈ zs) :
    sumOver zs (fun b => f (update b v (!b v))) b = sumOver zs f b := by
  have hv' := Finset.notMem_erase v zs
  rw [← Finset.insert_erase hv, sumOver_insert hv', sumOver_insert hv']
  refine sumOver_congr fun b' _ => ?_
  simp only [update_self, Function.update_idem]
  exact add_comm _ _

namespace Web

variable {w w' : Web} {s t u v f c : Vertex} {kind : SpiderKind} {p : Phase} {us : List Vertex}
  {b : Bits}

/-- The wires from a spider to those around it, at a bit of that spider. -/
noncomputable def spokes (w : Web) (v : Vertex) (us : List Vertex) (x : Bool) (b : Bits) : ℂ :=
  (us.map fun u => EdgeKind.plain.joint (w.leg v x) (w.leg u (b u)) ^ w.count v u .plain).prod

theorem Around.spokes_update (h : w.Around v us) (x y : Bool) :
    w.spokes v us x (update b v y) = w.spokes v us x b :=
  congrArg List.prod <| List.map_congr_left fun u hu => by rw [update_of_ne (h.ne hu).symm]

/-- The wires around a spider, the bit of which is turned over on each of them. -/
theorem splicedAround_pi (hkind : kind.isPhased = true) (hv : w.kind v = some kind.opposite)
    (us : List Vertex) : ∃ e : ℂ, e ≠ 0 ∧ ∀ b,
      w.splicedAround kind .pi v us b = e * w.spokes v us (!b v) b := by
  obtain ⟨e, he, hbridge⟩ := SpiderKind.bridge_pi hkind
  refine ⟨_, pow_ne_zero (us.map fun u => w.count v u .plain).sum he, fun b => ?_⟩
  refine splicedAround_eq v us fun u _ => ?_
  rw [spliced, if_pos hkind, SpiderKind.factor_of_isPhased hkind, Phase.unit_pi, leg,
    kindAt_eq hv, hbridge]

/-- A weight without the wires around a spider, and these. -/
theorem Valid.weight_spokes (hw : w.Valid) (hplain : w.Plain) (h : w.Around v us) (b : Bits) :
    (w.tensors 1).weight b = ((w.cutAround v us).tensors 1).weight b * w.spokes v us (b v) b := by
  rw [hw.tensors_cutAround h, spokes]
  congr 2
  refine List.map_congr_left fun u _ => ?_
  rw [bond_tensors, hplain, pow_zero, mul_one]

/-- Without edges a spider is only the factor of its bit. -/
theorem Valid.tensors_isolated (hw : w.Valid) (hv : w.kind v = some kind)
    (hkind : kind.isPhased = true) (hnone : ∀ u k, w.count v u k = 0)
    (hsq : (w.phase v).unit * (w.phase v).unit = 1) (b : Bits) :
    (w.tensors 1).weight (update b v (!b v)) = (w.phase v).unit * (w.tensors 1).weight b := by
  have hinner : v ∈ (w.tensors 1).inner :=
    hw.mem_tensors_of_kind hv (SpiderKind.isBoundary_of_isPhased hkind)
  have hends : w.EndsAre v [] := fun u k => by rw [hnone, List.count_nil]
  have hstar (x : Bool) : (w.tensors 1).weight (update b v x) =
      ((w.remove v).tensors 1).weight b * if x then (w.phase v).unit else 1 := by
    rw [hw.tensors_star hinner hends, kindAt_eq hv, SpiderKind.factor_of_isPhased hkind,
      Pi.one_apply, mul_one, List.map_nil, List.prod_nil, mul_one]
  have hself : (w.tensors 1).weight b = (w.tensors 1).weight (update b v (b v)) := by
    rw [Function.update_eq_self]
  rw [hself, hstar, hstar]
  cases b v
  · simp only [Bool.not_false, if_true, Bool.false_eq_true, if_false]
    ring
  · simp only [Bool.not_true, if_true, Bool.false_eq_true, if_false]
    linear_combination -((w.remove v).tensors 1).weight b * hsq

/-- Without the wires to all its neighbours, a spider is only the factor of its bit. -/
theorem Valid.weight_cutAround_not (hw : w.Valid) (h : w.Around v us) (hv : w.kind v = some kind)
    (hkind : kind.isPhased = true) (hsq : (w.phase v).unit * (w.phase v).unit = 1)
    (hall : ∀ u k, 0 < w.count v u k → u ∈ us) (b : Bits) :
    ((w.cutAround v us).tensors 1).weight (update b v (!b v)) =
      (w.phase v).unit * ((w.cutAround v us).tensors 1).weight b := by
  obtain ⟨-, hk, hp⟩ := cutAround_fields w v us
  have hnone (u : Vertex) (k : EdgeKind) : (w.cutAround v us).count v u k = 0 := by
    rw [count_cutAround]
    split
    · rfl
    · next hoff =>
      refine Nat.eq_zero_of_not_pos fun hpos => hoff (.inl ⟨rfl, hall u k hpos⟩)
  have := (hw.cutAround h).tensors_isolated (hk ▸ hv) hkind hnone (hp ▸ hsq) b
  rwa [hp] at this

/-- Pushes the spider `v` on the wire between `c` and `f` through `c`: a copy of it comes out on the
    other wires. -/
def copyThrough (w : Web) (v c f : Vertex) (kind : SpiderKind) : Web :=
  ((w.insertAround c ((w.nearby c).filter (· ≠ v)) kind .pi).remove v).addEdges f c .plain 1

/-- What a vertex is joined to without one of its neighbours. -/
theorem Valid.mem_others (hw : w.Valid) {k : EdgeKind} (hu : 0 < (w.remove v).count c u k) :
    u ∈ (w.nearby c).filter (· ≠ v) := by
  change 0 < (if c = v ∨ u = v then 0 else w.count c u k) at hu
  split at hu
  · exact absurd hu (Nat.lt_irrefl 0)
  · next hne =>
    exact List.mem_filter.2 ⟨hw.mem_nearby.2 (joins_pos_iff.2 ⟨k, hu⟩),
      decide_eq_true fun he => hne (.inr he)⟩

theorem notMem_others : v ∉ (w.nearby c).filter (· ≠ v) := fun hv =>
  of_decide_eq_true (List.mem_filter.1 hv).2 rfl

/-- A half turn on the wire between a spider of the other colour and another vertex. -/
structure HalfTurn (w : Web) (v c f : Vertex) (kind : SpiderKind) : Prop where
  turn : w.kind v = some kind
  isPhased : kind.isPhased = true
  unit_turn : (w.phase v).unit = -1
  centre : w.kind c = some kind.opposite
  ne : f ≠ c
  ends : w.EndsAre v [(c, .plain), (f, .plain)]

namespace HalfTurn

variable (h : w.HalfTurn v c f kind) (hw : w.Valid)
include h

theorem isBoundary : kind.isBoundary = false := SpiderKind.isBoundary_of_isPhased h.isPhased

include hw

theorem end_ne (x : Vertex) (hx : x = c ∨ x = f) : x ≠ v ∧ w.Has x := by
  have hpos : 0 < w.joins v x := h.ends.joins_pos_iff.2 (by simpa using hx)
  refine ⟨fun e => ?_, (hw.has_of_joins hpos).2⟩
  rw [e, hw.joins_self] at hpos
  exact absurd hpos (Nat.lt_irrefl _)

theorem centre_ne : c ≠ v := (h.end_ne hw c (.inl rfl)).1

theorem far_ne : f ≠ v := (h.end_ne hw f (.inr rfl)).1

theorem has_far : (w.remove v).Has f := by
  rw [Has, kind_remove, update_of_ne (h.far_ne hw)]
  exact (h.end_ne hw f (.inr rfl)).2

theorem kind_centre : (w.remove v).kind c = some kind.opposite := by
  rw [kind_remove, update_of_ne (h.centre_ne hw), h.centre]

theorem around : w.Around c ((w.nearby c).filter (· ≠ v)) where
  has := (h.end_ne hw c (.inl rfl)).2
  hasAll _ hu := hw.has_of_mem_nearby (List.mem_filter.1 hu).1
  notMem hc := hw.notMem_nearby_self (List.mem_filter.1 hc).1
  nodup := nodup_nearby.filter _

theorem around_remove : (w.remove v).Around c ((w.nearby c).filter (· ≠ v)) :=
  (h.around hw).remove (h.centre_ne hw).symm notMem_others

/-- Pushing it through and then taking it out is to put copies around the spider without it. -/
theorem copyThrough_eq : w.copyThrough v c f kind = ((w.remove v).insertAround c
    ((w.nearby c).filter (· ≠ v)) kind .pi).addEdges f c .plain 1 := by
  have hv : w.Has v := by
    rw [Has, h.turn]
    rfl
  rw [copyThrough, hw.remove_insertAround (h.around hw) hv (h.centre_ne hw).symm notMem_others]

/-- The bit is turned over on the wire that the half turn is on. -/
theorem exists_amplitude : ∃ e : ℂ, e ≠ 0 ∧ ∀ b, (w.tensors 1).amplitude b =
    sumOver ((w.remove v).tensors 1).inner (fun b => e * (((w.remove v).tensors 1).weight b *
      EdgeKind.plain.joint ((w.remove v).leg c !(b c)) ((w.remove v).leg f (b f)))) b := by
  obtain ⟨e, he, hbridge⟩ := SpiderKind.bridge_pi h.isPhased
  have hinner : v ∈ (w.tensors 1).inner := hw.mem_tensors_of_kind h.turn h.isBoundary
  have hleg {x : Vertex} (hxv : x ≠ v) : (w.remove v).leg x = w.leg x := by
    rw [leg, leg, kindAt, kindAt, kind_remove, update_of_ne hxv]
  have hlegc : w.leg c = kind.opposite.leg := by rw [leg, kindAt_eq h.centre]
  refine ⟨e, he, fun b => ?_⟩
  rw [Network.amplitude_sum hinner, hw.tensors_inner_remove]
  refine sumOver_congr fun b' _ => ?_
  rw [hw.sum_bridge hinner h.ends, kindAt_eq h.turn, SpiderKind.factor_of_isPhased h.isPhased,
    h.unit_turn, Pi.one_apply, mul_one, hlegc, hbridge, hleg (h.centre_ne hw), hleg (h.far_ne hw),
    hlegc]
  ring

/-- After pushing it through, the bit is turned over on all the other wires. -/
theorem exists_amplitude_copyThrough : ∃ e : ℂ, e ≠ 0 ∧ ∀ b,
    ((w.copyThrough v c f kind).tensors 1).amplitude b = sumOver ((w.remove v).tensors 1).inner
      (fun b => e * ((((w.remove v).cutAround c
        ((w.nearby c).filter (· ≠ v))).tensors 1).weight b *
          (w.remove v).spokes c ((w.nearby c).filter (· ≠ v)) (!b c) b *
            EdgeKind.plain.joint ((w.remove v).leg c (b c)) ((w.remove v).leg f (b f)))) b := by
  set us := (w.nearby c).filter (· ≠ v) with hus
  set q := w.remove v with hqdef
  have hq : q.Valid := hw.remove v
  have haround : q.Around c us := h.around_remove hw
  have hfar : q.Has f := h.has_far hw
  obtain ⟨e, he, hspliced⟩ := splicedAround_pi h.isPhased (h.kind_centre hw) us
  have hkept {x : Vertex} (hx : q.Has x) : (q.insertAround c us kind .pi).kind x = q.kind x :=
    kind_insertAround (hq.lt x hx)
  have hhas {x : Vertex} (hx : q.Has x) : (q.insertAround c us kind .pi).Has x := by
    rw [Has, hkept hx]
    exact hx
  have hlegs {x : Vertex} (hx : q.Has x) : (q.insertAround c us kind .pi).leg x = q.leg x := by
    rw [leg, leg, kindAt, kindAt, hkept hx]
  have hedge (b : Bits) : ((w.copyThrough v c f kind).tensors 1).weight b =
      EdgeKind.plain.joint (q.leg c (b c)) (q.leg f (b f)) *
        ((q.insertAround c us kind .pi).tensors 1).weight b := by
    rw [h.copyThrough_eq hw, (hq.insertAround haround).tensors_addEdges (hhas hfar)
      (hhas haround.has) h.ne, pow_one, hlegs hfar, hlegs haround.has, EdgeKind.joint_comm, mul_comm]
  have hinner : ((w.copyThrough v c f kind).tensors 1).inner =
      ((q.insertAround c us kind .pi).tensors 1).inner := by
    rw [h.copyThrough_eq hw]
    exact tensors_inner_congr rfl rfl
  refine ⟨e, he, fun b => ?_⟩
  rw [Network.amplitude, hinner, funext hedge,
    hq.sumOver_insertAround (τ := 1) haround h.isBoundary (fun _ _ => rfl) fun b b' hb => by
      rw [hb c haround.has, hb f hfar]]
  refine sumOver_congr fun b' _ => ?_
  rw [hspliced]
  ring

end HalfTurn

/-- Copying a half turn keeps what the diagram denotes up to a scalar. -/
theorem Valid.denotes_copyThrough (hw : w.Valid) (hplain : w.Plain)
    (h : w.HalfTurn v c f kind) (hsq : (w.phase c).unit * (w.phase c).unit = 1)
    (hne : (w.phase c).unit ≠ 0) : w.Denotes (w.copyThrough v c f kind) := by
  have hq : (w.remove v).Valid := hw.remove v
  have hcq := h.kind_centre hw
  have haround := h.around_remove hw
  have hopp : kind.opposite.isPhased = true := by rw [SpiderKind.isPhased_opposite, h.isPhased]
  have hphase : (w.remove v).phase c = w.phase c := by
    rw [phase_remove, update_of_ne (h.centre_ne hw)]
  obtain ⟨e, he, hbefore⟩ := h.exists_amplitude hw
  obtain ⟨e', he', hafter⟩ := h.exists_amplitude_copyThrough hw
  have hmem : c ∈ ((w.remove v).tensors 1).inner :=
    hq.mem_tensors_of_kind hcq (SpiderKind.isBoundary_of_isPhased hopp)
  obtain ⟨hin, hout⟩ := ends_insertAround (w.remove v) c ((w.nearby c).filter (· ≠ v)) kind .pi
  refine ⟨?_, ?_, ?_, Proportional.symm ⟨e' * e⁻¹ * (w.phase c).unit,
    mul_ne_zero (mul_ne_zero he' (inv_ne_zero he)) hne, fun b => ?_⟩⟩
  · rw [h.copyThrough_eq hw]
    exact hplain.remove.insertAround.addEdges
  · rw [h.copyThrough_eq hw]
    exact hin
  · rw [h.copyThrough_eq hw]
    exact hout
  · -- the sum over the other bit of the spider is the same sum
    rw [hafter, hbefore, ← sumOver_not hmem, ← sumOver_mul_left]
    refine sumOver_congr fun b' _ => ?_
    rw [hq.weight_cutAround_not haround hcq hopp (hphase ▸ hsq) fun _ _ => hw.mem_others, update_self,
      Bool.not_not, haround.spokes_update, update_of_ne h.ne, hphase,
      hq.weight_spokes hplain.remove haround]
    field_simp

end Web

end ZXRewriting
