import ZXRewriting.Proofs.Diagram.Splits
import ZXRewriting.Proofs.Semantics.Unitary

/-!
# Gates put onto the ends of wires

A spider put onto the wire at an end acts on the bit there (`SpiderKind.act`, `Valid.amplitude_splice`),
an edge or a box between the spiders of two wires acts on the two bits, and so does letting two
wires cross. These are the gates, up to scalars: what is denoted once a gate is put onto the ends of
the wires is the action of the gate on what was denoted before.
-/

namespace ZXRewriting

open Function (update update_self update_of_ne update_comm)
open Multigraph (SamePair)

/-- A spider on a wire: the sum over the bit before it, its own bit having the factor `c`. -/
noncomputable def SpiderKind.act (kind : SpiderKind) (c : ℂ) (o : Vertex) (f : Bits → ℂ) (b : Bits) :
    ℂ :=
  ∑ s, f (update b o s) *
    (kind.leg false s * kind.leg false (b o) + c * (kind.leg true s * kind.leg true (b o)))

namespace SpiderKind

theorem act_z (c : ℂ) (o : Vertex) (f : Bits → ℂ) (b : Bits) :
    z.act c o f b = (if b o then c else 1) * f b := by
  have hself : update b o (b o) = b := Function.update_eq_self o b
  cases hb : b o with
  | false =>
    rw [hb] at hself
    simp [act, leg, EdgeKind.value, hb, hself]
  | true =>
    rw [hb] at hself
    simp [act, leg, EdgeKind.value, hb, hself, mul_comm]

theorem act_box (o : Vertex) (f : Bits → ℂ) : box.act (-2) o f = hadamardAt o f := by
  funext b
  cases hb : b o <;> simp [act, leg, EdgeKind.value, hadamardAt, hb] <;> ring

theorem act_x (c : ℂ) (o : Vertex) (f : Bits → ℂ) :
    x.act c o f = hadamardAt o (fun b => (if b o then c else 1) * hadamardAt o f b) := by
  funext b
  cases hb : b o <;> simp [act, leg, EdgeKind.value, hadamardAt, hb] <;> ring

/-- Turning over the bit of a wire, or not, as another bit says. -/
theorem act_flip (o : Vertex) (y : Bool) (f : Bits → ℂ) (b : Bits) :
    x.act (EdgeKind.hadamard.value true y) o f b = 2 * f (update b o (b o ^^ y)) := by
  cases hb : b o <;> cases y <;> simp [act, leg, EdgeKind.value, hb] <;> ring

end SpiderKind

namespace EdgeKind

/-- A leg that copies the bit `x` says what the bit at the other leg is. -/
theorem joint_copy (x : Bool) (g : Bool → ℂ) : plain.joint (plain.value x) g = g x := by
  cases x <;> simp [joint_plain, value]

end EdgeKind

namespace Web

variable {w : Web} {o o' s t u u' v : Vertex} {k : EdgeKind} {kind : SpiderKind} {p : Phase}
  {τ : Vertex → ℂ} {b : Bits}

/-! ### Ends of wires -/

/-- A vertex with a single edge, a plain one to `u`. -/
def Tied (w : Web) (t u : Vertex) : Prop :=
  ∀ x k, w.count t x k = if x = u ∧ k = .plain then 1 else 0

/-- Splits the wire at an end with a new spider. -/
def splice (w : Web) (o u : Vertex) (kind : SpiderKind) (p : Phase) : Web :=
  (w.cut o u).addBetween u o kind p

/-- Lets the wires at two ends change places. -/
def cross (w : Web) (o o' u u' : Vertex) : Web :=
  (((w.cut o u).cut o' u').addEdges o u' .plain 1).addEdges o' u .plain 1

namespace Tied

theorem joins (h : w.Tied t u) (x : Vertex) : w.joins t x = if x = u then 1 else 0 := by
  rw [Web.joins, h, h]
  by_cases hx : x = u <;> simp [hx]

theorem joins_pos_iff (h : w.Tied t u) {x : Vertex} : 0 < w.joins t x ↔ x = u := by
  rw [h.joins]
  split <;> simp [*]

theorem has (h : w.Tied t u) (hw : w.Valid) : w.Has t ∧ w.Has u :=
  hw.has_of_joins (h.joins_pos_iff.2 rfl)

theorem ne (h : w.Tied t u) (hw : w.Valid) : t ≠ u := fun he => by
  have := h u .plain
  rw [if_pos ⟨rfl, rfl⟩, he, hw.self] at this
  exact absurd this Nat.zero_ne_one

theorem unique (h : w.Tied t u) (h' : w.Tied t u') : u = u' := by
  have h₁ := h u .plain
  have h₂ := h' u .plain
  rw [if_pos ⟨rfl, rfl⟩] at h₁
  by_contra hne
  rw [if_neg fun hc => hne hc.1, h₁] at h₂
  exact absurd h₂ Nat.one_ne_zero

theorem valid_cut (h : w.Tied o u) (hw : w.Valid) : (w.cut o u).Valid :=
  hw.cut (h.has hw).1 (h.has hw).2 (h.ne hw)

theorem valid_splice (h : w.Tied o u) (hw : w.Valid) : (w.splice o u kind p).Valid :=
  (h.valid_cut hw).addBetween (h.has hw).2 (h.has hw).1

end Tied

theorem leg_of_isEnd (ho : w.IsEnd o) : w.leg o = EdgeKind.plain.value := by
  have hkind := (isEnd_iff_kindAt ho.has).1 ho
  rw [leg]
  cases hk : w.kindAt o with
  | input | output => rfl
  | z | x | box => rw [hk] at hkind; cases hkind

theorem IsEnd.notMem_tensors (ho : w.IsEnd o) : o ∉ (w.tensors τ).inner := fun h =>
  (mem_tensors_inner.1 h).2 ho

section Wire

variable (hw : w.Valid) (ho : w.IsEnd o) (ht : w.Tied o u)
include hw ho ht

/-- The edge at an end brings a factor for the bit there. -/
theorem Tied.weight (b : Bits) : (w.tensors τ).weight b =
    ((w.cut o u).tensors τ).weight b * w.leg u (b u) (b o) := by
  rw [hw.tensors_cut (ht.has hw).1 (ht.has hw).2 (ht.ne hw), bond_tensors, ht, ht, leg_of_isEnd ho,
    EdgeKind.joint_copy]
  simp

/-- Without its edge, the bit at an end does not matter. -/
theorem Tied.weight_cut_update (b : Bits) (x : Bool) :
    ((w.cut o u).tensors τ).weight (update b o x) = ((w.cut o u).tensors τ).weight b := by
  refine Network.weight_update_isolated ((ht.valid_cut hw).tensors τ) (IsEnd.notMem_tensors ho)
    (fun y => edge_tensors_eq_one fun k => ?_) b x
  change (if SamePair o y o u then 0 else w.count o y k) = 0
  split
  · rfl
  · next hs => rw [ht, if_neg fun hx => hs (.inl ⟨rfl, hx.1⟩)]

/-- The amplitude at another bit of an end. -/
theorem Tied.amplitude_update (b : Bits) (x : Bool) : (w.tensors τ).amplitude (update b o x) =
    sumOver (w.tensors τ).inner
      (fun b => ((w.cut o u).tensors τ).weight b * w.leg u (b u) x) b := by
  rw [Network.amplitude, sumOver_update_of_notMem (IsEnd.notMem_tensors ho)]
  refine sumOver_congr fun b' _ => ?_
  rw [ht.weight hw ho, ht.weight_cut_update hw ho, update_self, update_of_ne (ht.ne hw).symm]

omit ho in
theorem Tied.inner_splice (hkind : kind.isBoundary = false) :
    ((w.splice o u kind p).tensors τ).inner = insert w.next (w.tensors τ).inner := by
  ext x
  have hv : (w.splice o u kind p).Valid := ht.valid_splice hw
  rw [hv.mem_tensors, Finset.mem_insert, hw.mem_tensors, Has, Has, IsEnd, IsEnd,
    show (w.splice o u kind p).kind = update w.kind w.next (some kind) from rfl]
  by_cases hx : x = w.next
  · simp [hx, hkind]
  · simp [hx]

/-- A spider put onto the wire at an end. -/
theorem Tied.amplitude_splice (hkind : kind.isBoundary = false) (p : Phase) :
    ((w.splice o u kind p).tensors τ).amplitude =
      kind.act (kind.factor (if kind.isPhased then p else .zero) * τ w.next) o
        (w.tensors τ).amplitude := by
  obtain ⟨ho', hu'⟩ := ht.has hw
  have hnew : w.next ∉ (w.tensors τ).inner := fun h =>
    Nat.lt_irrefl _ (mem_tensors_inner.1 h).1.1
  have hlego : (w.cut o u).leg o = EdgeKind.plain.value := leg_of_isEnd (w := w.cut o u) ho
  have hlegu : (w.cut o u).leg u = w.leg u := rfl
  funext b
  set c := kind.factor (if kind.isPhased then p else .zero) * τ w.next
  have hsum (b : Bits) : ((w.splice o u kind p).tensors τ).weight (update b w.next false) +
        ((w.splice o u kind p).tensors τ).weight (update b w.next true) =
      ((w.cut o u).tensors τ).weight b * ∑ s, w.leg u (b u) s *
        (kind.leg false s * kind.leg false (b o) + c * (kind.leg true s * kind.leg true (b o))) := by
    refine ((ht.valid_cut hw).sum_addBetween hu' ho' hkind b).trans ?_
    rw [SpiderKind.bridge, hlego, hlegu, EdgeKind.joint_comm _ _ (EdgeKind.plain.value _),
      EdgeKind.joint_comm _ _ (EdgeKind.plain.value _), EdgeKind.joint_copy, EdgeKind.joint_copy,
      EdgeKind.joint_plain, EdgeKind.joint_plain, Fintype.sum_bool]
    change _ * (_ + c * _) = _
    ring
  have hsplit (b : Bits) : ((w.splice o u kind p).tensors τ).amplitude b =
      sumOver (w.tensors τ).inner (fun b => ((w.cut o u).tensors τ).weight b * ∑ s, w.leg u (b u) s *
        (kind.leg false s * kind.leg false (b o) + c * (kind.leg true s * kind.leg true (b o)))) b := by
    rw [Network.amplitude, ht.inner_splice hw hkind, sumOver_insert hnew]
    exact sumOver_congr fun b' _ => hsum b'
  -- the bit of the end is not summed over
  have hagree {b b' : Bits} (h : ∀ x ∉ (w.tensors τ).inner, b x = b' x) : b o = b' o :=
    h o (IsEnd.notMem_tensors ho)
  rw [hsplit, SpiderKind.act, Fintype.sum_bool, ht.amplitude_update hw ho,
    ht.amplitude_update hw ho, mul_comm (sumOver _ _ _), mul_comm (sumOver _ _ _),
    ← sumOver_mul_left, ← sumOver_mul_left, ← sumOver_add]
  refine sumOver_congr fun b' hb' => ?_
  rw [hb' o (IsEnd.notMem_tensors ho), Fintype.sum_bool]
  ring

end Wire

/-! ### Two wires -/

/-- A spider that copies the bit of the end it is tied to. -/
theorem Tied.weight_mul (hw : w.Valid) (ho : w.IsEnd o) (ht : w.Tied o u) (hu : w.kind u = some .z)
    (f : Bool → ℂ) (b : Bits) :
    (w.tensors τ).weight b * f (b u) = (w.tensors τ).weight b * f (b o) := by
  rw [ht.weight hw ho, leg, kindAt_eq hu]
  by_cases hb : b u = b o
  · rw [hb]
  · simp [SpiderKind.leg, EdgeKind.value, hb]

/-- A wire from a spider that copies the bit of an end to an X spider: for given bits at the ends it
    is a factor of the X spider. -/
theorem Tied.amplitude_control (hw : w.Valid) (ho : w.IsEnd o) (ht : w.Tied o u)
    (hu : w.kind u = some .z) (hv : w.kind v = some .x) (b : Bits) :
    ((w.addEdges u v .plain 1).tensors τ).amplitude b =
      (w.tensors (update τ v (τ v * EdgeKind.hadamard.value true (b o)))).amplitude b := by
  have hne : u ≠ v := by
    rintro rfl
    rw [hu] at hv
    cases hv
  have huh : w.Has u := by rw [Has, hu]; rfl
  have hvh : w.Has v := by rw [Has, hv]; rfl
  have hmem : v ∈ (w.tensors τ).inner := hw.mem_tensors_of_kind hv rfl
  rw [Network.amplitude, Network.amplitude, show ((w.addEdges u v .plain 1).tensors τ).inner =
    (w.tensors τ).inner from tensors_inner_congr rfl rfl,
    show (w.tensors (update τ v _)).inner = (w.tensors τ).inner from tensors_inner_congr rfl rfl]
  refine sumOver_congr fun b' hb' => ?_
  rw [hw.tensors_addEdges huh hvh hne, pow_one, leg, leg, kindAt_eq hu, kindAt_eq hv,
    show SpiderKind.z.leg (b' u) = EdgeKind.plain.value (b' u) from rfl, EdgeKind.joint_copy,
    show SpiderKind.x.leg (b' v) (b' u) = EdgeKind.hadamard.value (b' v) (b' u) from rfl,
    ht.weight_mul hw ho hu (fun x => EdgeKind.hadamard.value (b' v) x),
    hb' o (IsEnd.notMem_tensors ho),
    tensors_twist (w := w) (τ := τ) (b := b') hmem (update_self v _ τ)
      fun u _ hne => update_of_ne hne _ _]
  cases b' v <;> simp

/-- A box between two spiders that copy the bits of ends. -/
theorem Tied.amplitude_link (hw : w.Valid) (ho : w.IsEnd o) (ht : w.Tied o u)
    (hu : w.kind u = some .z) (ho' : w.IsEnd o') (ht' : w.Tied o' u') (hu' : w.kind u' = some .z)
    (hτ : τ w.next = 1) (b : Bits) :
    ((w.addBetween u u' .box .zero).tensors τ).amplitude b =
      EdgeKind.hadamard.value (b o) (b o') * (w.tensors τ).amplitude b := by
  have huh : w.Has u := by rw [Has, hu]; rfl
  have huh' : w.Has u' := by rw [Has, hu']; rfl
  have hinner : ((w.addBetween u u' .box .zero).tensors τ).inner =
      insert w.next (w.tensors τ).inner := by
    ext x
    have hv : (w.addBetween u u' .box .zero).Valid := hw.addBetween huh huh'
    rw [hv.mem_tensors, Finset.mem_insert, hw.mem_tensors, Has, Has, IsEnd, IsEnd,
      show (w.addBetween u u' .box .zero).kind = update w.kind w.next (some .box) from rfl]
    by_cases hx : x = w.next
    · simp [hx, SpiderKind.isBoundary]
    · simp [hx]
  have hnew : w.next ∉ (w.tensors τ).inner := fun h =>
    Nat.lt_irrefl _ (mem_tensors_inner.1 h).1.1
  rw [Network.amplitude, hinner, sumOver_insert hnew, Network.amplitude, ← sumOver_mul_left]
  refine sumOver_congr fun b' hb' => ?_
  rw [hw.sum_addBetween huh huh' rfl, hτ, mul_one]
  rw [SpiderKind.factor_box, SpiderKind.bridge_box, if_pos ⟨rfl, rfl⟩, one_mul, leg, leg, kindAt_eq hu, kindAt_eq hu']
  change _ * EdgeKind.hadamard.joint (EdgeKind.plain.value (b' u)) (EdgeKind.plain.value (b' u')) = _
  rw [EdgeKind.joint_value,
    ht.weight_mul hw ho hu (fun x => EdgeKind.hadamard.value x (b' u')),
    ht'.weight_mul hw ho' hu' (fun x => EdgeKind.hadamard.value (b' o) x),
    hb' o (IsEnd.notMem_tensors ho), hb' o' (IsEnd.notMem_tensors ho'), mul_comm]

/-- Two wires that cross. -/
theorem Tied.amplitude_cross (hw : w.Valid) (ho : w.IsEnd o) (ht : w.Tied o u) (ho' : w.IsEnd o')
    (ht' : w.Tied o' u') (hne : o ≠ o') (hou : u ≠ o') (hou' : u' ≠ o) (b : Bits) :
    ((w.cross o o' u u').tensors τ).amplitude b =
      (w.tensors τ).amplitude (update (update b o (b o')) o' (b o)) := by
  obtain ⟨hoh, huh⟩ := ht.has hw
  obtain ⟨hoh', huh'⟩ := ht'.has hw
  have hcut := ht.valid_cut hw
  have htied : (w.cut o u).Tied o' u' := fun x k => by
    refine (if_neg ?_).trans (ht' x k)
    rintro (⟨h, -⟩ | ⟨h, -⟩)
    · exact hne h.symm
    · exact hou h.symm
  have hcut' := htied.valid_cut hcut
  have hou₁ : o ≠ u' := hou'.symm
  have hou₂ : o' ≠ u := hou.symm
  set w₀ := (w.cut o u).cut o' u' with hw₀
  have hadd : (w₀.addEdges o u' .plain 1).Valid := hcut'.setCount hoh huh' hou₁ _
  have hleg {x : Vertex} : w₀.leg x = w.leg x := rfl
  have hend : w₀.leg o = EdgeKind.plain.value := leg_of_isEnd (w := w) ho
  have hend' : w₀.leg o' = EdgeKind.plain.value := leg_of_isEnd (w := w) ho'
  have hinner : ((w.cross o o' u u').tensors τ).inner = (w.tensors τ).inner :=
    tensors_inner_congr rfl rfl
  -- the bits at the two ends do not matter once both edges are cut
  have hfree (b : Bits) (x y : Bool) :
      (w₀.tensors τ).weight (update (update b o x) o' y) = (w₀.tensors τ).weight b := by
    rw [hw₀, htied.weight_cut_update hcut ho']
    refine Network.weight_update_isolated (hcut'.tensors τ) (IsEnd.notMem_tensors (w := w) (τ := τ) ho)
      (fun z => edge_tensors_eq_one fun k => ?_) b x
    change (if SamePair o z o' u' then 0 else if SamePair o z o u then 0 else w.count o z k) = 0
    split_ifs with h₁ h₂
    · rfl
    · rfl
    · rw [ht, if_neg fun hz => h₂ (.inl ⟨rfl, hz.1⟩)]
  have hold (b : Bits) : (w.tensors τ).weight b =
      (w₀.tensors τ).weight b * w.leg u' (b u') (b o') * w.leg u (b u) (b o) := by
    rw [ht.weight hw ho, htied.weight hcut ho']
    rfl
  have hnew (b : Bits) : ((w.cross o o' u u').tensors τ).weight b =
      (w₀.tensors τ).weight b * w.leg u' (b u') (b o) * w.leg u (b u) (b o') := by
    rw [cross, hadd.tensors_addEdges hoh' huh hou₂, hcut'.tensors_addEdges hoh huh' hou₁, pow_one,
      pow_one]
    change _ * EdgeKind.plain.joint (w₀.leg o (b o)) (w₀.leg u' (b u')) *
      EdgeKind.plain.joint (w₀.leg o' (b o')) (w₀.leg u (b u)) = _
    rw [hend, hend', EdgeKind.joint_copy, EdgeKind.joint_copy]
    rfl
  rw [Network.amplitude, hinner, Network.amplitude,
    sumOver_update_of_notMem (IsEnd.notMem_tensors ho'),
    sumOver_update_of_notMem (IsEnd.notMem_tensors ho)]
  refine sumOver_congr fun b' hb' => ?_
  rw [hnew, hold, ← hb' o (IsEnd.notMem_tensors ho), ← hb' o' (IsEnd.notMem_tensors ho'), hfree,
    update_self, update_of_ne hne, update_self, update_of_ne hou, update_of_ne (htied.ne hcut).symm,
    update_of_ne hou', update_of_ne (ht.ne hw).symm]

end Web

end ZXRewriting
