import ZXRewriting.Proofs.GraphLike.Form
import ZXRewriting.Proofs.Phase.Unit
import ZXRewriting.Proofs.Semantics.Unitary

/-!
# What a graph-like diagram denotes

The network of a web sums over the bits of the Z spiders, each with the factor of its phase
(`Web.network`); `Web.amplitude` is what a graph-like diagram denotes, a function of the bits at
the ends of the wires.

The factors can be twisted by further ones, so that what is shown of a rewrite holds also with
other phases at the spiders the rewrite does not look at. Phases are added exactly on a grid
(`Web.OnGrid`). Each edit changes the weights by the factor it names.
-/

namespace ZXRewriting

open Function (update update_self update_of_ne)
open Multigraph (SamePair)

namespace Web

variable {w w' : Web} {s t u v : Vertex} {k : EdgeKind} {D : ℕ} {τ : Vertex → ℂ} {b : Bits}
  {vs : List Vertex}

/-- The network of the Z spiders of a web, their factors being twisted by `τ`. -/
noncomputable def network (w : Web) (τ : Vertex → ℂ) : Network where
  bound := w.next
  inner := (Finset.range w.next).filter fun v => w.IsZ v
  factor v := (w.phase v).unit * τ v
  edge s t x y := EdgeKind.plain.value x y ^ w.count s t .plain *
    EdgeKind.hadamard.value x y ^ w.count s t .hadamard

@[simp] theorem bound_network : (w.network τ).bound = w.next := rfl

theorem bond_network : (w.network τ).bond b s t =
    EdgeKind.plain.value (b s) (b t) ^ w.count s t .plain *
      EdgeKind.hadamard.value (b s) (b t) ^ w.count s t .hadamard := rfl

theorem edge_network_congr (h : w'.count s t = w.count s t) {τ' : Vertex → ℂ} :
    (w'.network τ').edge s t = (w.network τ).edge s t := by
  simp only [network, h]

/-- There is no factor where there are no edges. -/
theorem edge_network_eq_one (h : ∀ k, w.count s t k = 0) (x y : Bool) :
    (w.network τ).edge s t x y = 1 := by
  simp [network, h]

@[simp] theorem factor_network : (w.network τ).factor v = (w.phase v).unit * τ v := rfl

/-- What a graph-like diagram denotes: a function of the bits at the ends of its wires. -/
noncomputable def amplitude (w : Web) : Bits → ℂ := (w.network 1).amplitude

/-- All phases are multiples of `1 / D`. -/
def OnGrid (D : ℕ) (w : Web) : Prop := ∀ v, (w.phase v).OnGrid D

theorem mem_inner_iff : v ∈ (w.network τ).inner ↔ v < w.next ∧ w.IsZ v := by
  rw [network, Finset.mem_filter, Finset.mem_range]

theorem inner_congr {τ' : Vertex → ℂ} (hn : w'.next = w.next) (hk : w'.kind = w.kind) :
    (w'.network τ').inner = (w.network τ).inner := by
  ext v
  rw [mem_inner_iff, mem_inner_iff, hn, IsZ, IsZ, hk]

/-- The network does not see which spiders are carried. -/
theorem network_congr (hn : w'.next = w.next) (hk : w'.kind = w.kind) (hp : w'.phase = w.phase)
    (hc : w'.count = w.count) : w'.network τ = w.network τ := by
  obtain ⟨next, kind, phase, count, inputs, outputs, carrier⟩ := w
  obtain ⟨next', kind', phase', count', inputs', outputs', carrier'⟩ := w'
  subst hn hk hp hc
  rfl

theorem Valid.mem_inner (hw : w.Valid) : v ∈ (w.network τ).inner ↔ w.IsZ v := by
  rw [mem_inner_iff, and_iff_right_iff_imp]
  exact fun h => hw.lt v h.has

theorem Valid.network (hw : w.Valid) (τ : Vertex → ℂ) : (w.network τ).Valid where
  lt _ hv := Finset.mem_range.1 (Finset.mem_filter.1 hv).1
  symm s t x y := by
    simp only [Web.network, hw.symm s t, EdgeKind.value_comm _ x y]
  self v _ := edge_network_eq_one (hw.self v) _ _

theorem OnGrid.setPhase (h : w.OnGrid D) {p : Phase} (hp : p.OnGrid D) (v : Vertex) :
    (w.setPhase v p).OnGrid D := fun u => by
  rw [phase_setPhase, Function.update_apply]
  split
  · exact hp
  · exact h u

theorem OnGrid.addToPhase (hD : Phase.IsGrid D) (h : w.OnGrid D) {p : Phase} (hp : p.OnGrid D)
    (v : Vertex) : (w.addToPhase v p).OnGrid D := h.setPhase ((h v).add hD hp).1 v

theorem OnGrid.toggle (hD : Phase.IsGrid D) (h : w.OnGrid D) (s t : Vertex) :
    (w.toggle s t).OnGrid D := by
  rw [Web.toggle]
  split
  · exact h.addToPhase hD Phase.onGrid_pi s
  · exact h

theorem OnGrid.remove (h : w.OnGrid D) (v : Vertex) : (w.remove v).OnGrid D := fun u => by
  rw [phase_remove, Function.update_apply]
  split
  · exact Phase.onGrid_zero
  · exact h u

theorem OnGrid.addSpider (h : w.OnGrid D) {p : Phase} (hp : p.OnGrid D) :
    (w.addSpider p).OnGrid D := fun u => by
  rw [phase_addSpider, Function.update_apply]
  split
  · exact hp
  · exact h u

/-! ### Weights that vanish -/

/-- A plain edge makes the bits at its ends equal. -/
theorem weight_eq_zero_of_ne (hst : s < t) (ht : t < w.next) (hplain : 0 < w.count s t .plain)
    (hne : b s ≠ b t) : (w.network τ).weight b = 0 := by
  have hbond : (w.network τ).bond b s t = 0 := by
    rw [bond_network, EdgeKind.value, if_neg hne, zero_pow hplain.ne', zero_mul]
  have hmem : (s, t) ∈ Network.pairs w.next := Network.mem_pairs.2 ⟨hst, ht⟩
  exact mul_eq_zero_of_right _ (Finset.prod_eq_zero hmem hbond)

/-- No factor vanishes where all bits are the same. -/
theorem weight_ne_zero_of_eq {x : Bool} (h : ∀ v < w.next, b v = x) :
    (w.network 1).weight b ≠ 0 := by
  refine mul_ne_zero (Finset.prod_ne_zero_iff.2 fun v _ => ?_)
    (Finset.prod_ne_zero_iff.2 fun p hp => ?_)
  · rw [Network.spin, factor_network, Pi.one_apply, mul_one]
    split
    · exact Phase.unit_ne_zero _
    · exact one_ne_zero
  · obtain ⟨hlt, hlt'⟩ := Network.mem_pairs.1 hp
    rw [bond_network, h p.1 (hlt.trans hlt'), h p.2 hlt', EdgeKind.value_plain_self, one_pow, one_mul]
    refine pow_ne_zero _ ?_
    cases x <;> simp [EdgeKind.value]

/-! ### Weights of edited webs -/

/-- Setting a phase to one that stands for another number. -/
theorem Valid.weight_setPhase (hw : w.Valid) (hv : w.IsZ v) {p : Phase} {c : ℂ}
    (hp : p.unit = (w.phase v).unit * c) :
    ((w.setPhase v p).network τ).weight b = (w.network τ).weight b * if b v then c else 1 := by
  have hinner : ((w.setPhase v p).network τ).inner = (w.network τ).inner := inner_congr rfl rfl
  have hat : ((w.setPhase v p).network τ).factor v = (w.network τ).factor v * c := by
    rw [factor_network, factor_network, phase_setPhase, update_self, hp]
    ring
  have hoff : ∀ u ∈ (w.network τ).inner, u ≠ v →
      ((w.setPhase v p).network τ).factor u = (w.network τ).factor u := fun u _ hu => by
    rw [factor_network, factor_network, phase_setPhase, update_of_ne hu]
  exact Network.weight_mul_factor hinner rfl rfl (hw.mem_inner.2 hv) hat hoff

/-- Changing the twist of one spider. -/
theorem weight_twist (hv : v ∈ (w.network τ).inner) {τ' : Vertex → ℂ} {c : ℂ}
    (hat : τ' v = τ v * c) (hoff : ∀ u ∈ (w.network τ).inner, u ≠ v → τ' u = τ u) :
    (w.network τ').weight b = (w.network τ).weight b * if b v then c else 1 := by
  have hinner : (w.network τ').inner = (w.network τ).inner := inner_congr rfl rfl
  refine Network.weight_mul_factor hinner rfl rfl hv ?_ fun u hu hne => ?_
  · rw [factor_network, factor_network, hat, mul_assoc]
  · rw [factor_network, factor_network, hoff u hu hne]

theorem Valid.weight_addToPhase (hw : w.Valid) (hD : Phase.IsGrid D) (hg : w.OnGrid D)
    (hv : w.IsZ v) {p : Phase} (hp : p.OnGrid D) :
    ((w.addToPhase v p).network τ).weight b =
      (w.network τ).weight b * if b v then p.unit else 1 := by
  rw [Web.addToPhase]
  exact hw.weight_setPhase hv ((hg v).add hD hp).2

/-- Replacing the edges between two vertices. -/
theorem Valid.weight_setCount (hw : w.Valid) (hs : w.Has s) (ht : w.Has t) (hst : s ≠ t)
    {m : EdgeKind → ℕ} {c : ℂ}
    (hc : EdgeKind.plain.value (b s) (b t) ^ m .plain *
        EdgeKind.hadamard.value (b s) (b t) ^ m .hadamard =
      (w.network τ).bond b s t * c) :
    ((w.setCount s t m).network τ).weight b = (w.network τ).weight b * c := by
  refine Network.weight_mul_edge (hw.network τ) ((hw.setCount hs ht hst m).network τ) rfl
    (inner_congr rfl rfl) (fun _ _ => rfl) (hw.lt s hs) (hw.lt t ht) hst (c := c) ?_ fun p q hpq => ?_
  · rw [← hc]
    simp [bond_network, Web.setCount, SamePair]
  · exact edge_network_congr (funext fun k => if_neg hpq)

/-- A new edge brings its factor. -/
theorem Valid.weight_addEdges (hw : w.Valid) (hs : w.Has s) (ht : w.Has t) (hst : s ≠ t)
    (k : EdgeKind) (m : ℕ) : ((w.addEdges s t k m).network τ).weight b =
      (w.network τ).weight b * k.value (b s) (b t) ^ m := by
  refine hw.weight_setCount hs ht hst ?_
  cases k <;> simp [bond_network, pow_add] <;> ring

/-- Removed edges take their factor away. -/
theorem Valid.weight_cut (hw : w.Valid) (hs : w.Has s) (ht : w.Has t) (hst : s ≠ t) :
    (w.network τ).weight b = ((w.cut s t).network τ).weight b * (w.network τ).bond b s t := by
  have hcut := hw.setCount hs ht hst fun _ => 0
  have h := hcut.weight_setCount (τ := τ) (b := b) (m := w.count s t) hs ht hst
    (c := (w.network τ).bond b s t) (by simp [bond_network, Web.setCount, SamePair])
  rw [← Web.cut] at h
  rw [← h]
  congr 2
  refine Web.ext rfl rfl rfl (funext fun p => funext fun q => funext fun k => ?_) rfl rfl rfl
  simp only [Web.cut, Web.setCount]
  by_cases hpq : SamePair p q s t
  · rw [if_pos hpq]
    rcases hpq with ⟨rfl, rfl⟩ | ⟨rfl, rfl⟩
    · rfl
    · exact hw.symm _ _ _
  · rw [if_neg hpq, if_neg hpq]

/-- The factor of the only edge between two vertices. -/
theorem NoParallel.bond_eq (hw : w.NoParallel) (s t : Vertex) : (w.network τ).bond b s t =
    match w.link s t with
    | some k => k.value (b s) (b t)
    | none => 1 := by
  rw [bond_network, hw.count_eq, hw.count_eq]
  cases w.link s t with
  | none => simp
  | some k => cases k <;> simp

/-- A half turn brings a sign. -/
theorem Valid.weight_halfTurn (hw : w.Valid) (hs : w.IsZ s)
    (hp : (w.phase s + .pi).unit = -(w.phase s).unit) :
    ((w.addToPhase s .pi).network τ).weight b =
      (w.network τ).weight b * if b s then -1 else 1 :=
  hw.weight_setPhase hs (by rw [hp, mul_neg_one])

/-- An edge that is added and reduced brings its factor, as long as a half turn is added exactly. -/
theorem NoParallel.weight_addReduced (hw : w.NoParallel) (hs : w.Has s) (ht : w.Has t)
    (hturn : w.MakesTurn s t k → w.IsZ s ∧ (w.phase s + .pi).unit = -(w.phase s).unit) :
    ((w.addReduced s t k).network τ).weight b =
      (w.network τ).weight b * k.value (b s) (b t) := by
  have hval := hw.valid
  have hcut (hst : s ≠ t) {old : EdgeKind} (hl : w.link s t = some old) :
      (w.network τ).weight b = ((w.cut s t).network τ).weight b * old.value (b s) (b t) := by
    rw [hval.weight_cut hs ht hst, hw.bond_eq, hl]
  refine addReduced_cases (P := fun w' => (w'.network τ).weight b = _) ?_ ?_ ?_ ?_ ?_ ?_ ?_
  · rintro rfl rfl
    rw [EdgeKind.value_plain_self, mul_one]
  · rintro rfl rfl
    obtain ⟨hz, hp⟩ := hturn (makesTurn_self.2 rfl)
    rw [hval.weight_halfTurn hz hp]
    cases b s <;> simp [EdgeKind.value]
  · intro hst _
    rw [hval.weight_addEdges hs ht hst, pow_one]
  · rintro hst hl rfl
    rw [hcut hst hl]
    cases b s <;> cases b t <;> simp [EdgeKind.value]
  · rintro hst hl rfl
    rw [hcut hst hl, mul_assoc, EdgeKind.value_hadamard_mul_self, mul_one]
  -- where the bits are equal the sign of the Hadamard edge is that of the half turn
  · rintro hst hl rfl
    obtain ⟨hz, hp⟩ := hturn ((makesTurn_iff hst).2 hl)
    have hjoins : w.joins s t = 1 :=
      Nat.le_antisymm (hw.single s t) (link_isSome_iff.1 (by rw [hl]; rfl))
    have hkind : ((w.setKind s t .plain).network τ).weight b = (w.network τ).weight b *
        (EdgeKind.hadamard.value (b s) (b t) * EdgeKind.plain.value (b s) (b t)) := by
      refine hval.weight_setCount hs ht hst ?_
      rw [hw.bond_eq, hl, ← mul_assoc, EdgeKind.value_hadamard_mul_self]
      simp [hjoins]
    have hvalk : (w.setKind s t .plain).Valid := hval.setCount hs ht hst _
    rw [hvalk.weight_halfTurn hz hp, hkind]
    cases b s <;> cases b t <;> simp [EdgeKind.value]
  · rintro hst hl rfl
    obtain ⟨hz, hp⟩ := hturn ((makesTurn_iff hst).2 hl)
    rw [hval.weight_halfTurn hz hp, hcut hst hl]
    cases b s <;> cases b t <;> simp [EdgeKind.value]

/-- Toggling a Hadamard edge brings its sign. Only that of a loop is a phase, which is to fit. -/
theorem Simple.weight_toggle (hw : w.Simple) (hpi : s = t → Phase.IsGrid D ∧ w.OnGrid D)
    (hs : w.IsZ s) (ht : w.IsZ t) : ((w.toggle s t).network τ).weight b =
      (w.network τ).weight b * EdgeKind.hadamard.value (b s) (b t) := by
  have hone : w.count s t .hadamard ≤ 1 := hw.hadamard_eq hs ht ▸ hw.single s t
  rw [← addReduced_hadamard (hw.plain s t hs ht) hone]
  refine hw.noParallel.weight_addReduced hs.has ht.has fun hturn => ⟨hs, ?_⟩
  by_cases hst : s = t
  · obtain ⟨hD, hg⟩ := hpi hst
    rw [((hg s).add hD Phase.onGrid_pi).2, Phase.unit_pi, mul_neg_one]
  · rw [makesTurn_iff hst, hw.link_eq hs ht] at hturn
    split at hturn <;> cases hturn

theorem Valid.inner_remove (hw : w.Valid) (v : Vertex) :
    ((w.remove v).network τ).inner = (w.network τ).inner.erase v := by
  ext u
  rw [(hw.remove v).mem_inner, Finset.mem_erase, hw.mem_inner, IsZ, IsZ, kind_remove]
  by_cases hu : u = v
  · simp [hu]
  · simp [hu]

theorem Valid.inner_addSpider (hw : w.Valid) (p : Phase) :
    ((w.addSpider p).network τ).inner = insert w.next (w.network τ).inner := by
  ext u
  rw [(hw.addSpider p).mem_inner, Finset.mem_insert, hw.mem_inner, IsZ, IsZ, kind_addSpider]
  by_cases hu : u = w.next
  · simp [hu]
  · simp [hu]

/-- A new spider brings the factor of its phase. -/
theorem Valid.weight_addSpider (hw : w.Valid) (p : Phase) :
    ((w.addSpider p).network τ).weight b =
      (w.network τ).weight b * if b w.next then p.unit * τ w.next else 1 := by
  have hfree (u : Vertex) (k : EdgeKind) : w.count u w.next k = 0 :=
    (hw.symm _ _ _).trans (hw.count_next u k)
  rw [Network.weight_grow (n := w.network τ) rfl (fun u hu => (mem_inner_iff.1 hu).1)
    (hw.inner_addSpider p) (fun u hu => ?_) (fun _ _ _ _ => rfl)
    (fun u => edge_network_eq_one (hfree u)), bound_network, factor_network, phase_addSpider,
    update_self]
  rw [factor_network, factor_network, phase_addSpider,
    update_of_ne (Nat.ne_of_lt (mem_inner_iff.1 hu).1)]

/-- What is left without a spider. -/
theorem Valid.weight_remove (hw : w.Valid) (v : Vertex) :
    ((w.remove v).network τ).weight b = ((w.network τ).without v).weight b := by
  have hinner : ((w.remove v).network τ).inner = ((w.network τ).without v).inner := by
    ext u
    rw [(hw.remove v).mem_inner, Network.without, Finset.mem_erase, hw.mem_inner, IsZ, IsZ,
      kind_remove]
    by_cases hu : u = v
    · simp [hu]
    · simp [hu]
  have hbond (s t : Vertex) : ((w.remove v).network τ).bond b s t =
      ((w.network τ).without v).bond b s t := by
    change ((w.remove v).network τ).edge s t _ _ = if s = v ∨ t = v then 1 else _
    split
    · next h => exact edge_network_eq_one (fun k => if_pos h) _ _
    · next h => exact congrFun₂ (edge_network_congr (funext fun k => if_neg h)) _ _
  rw [Network.weight, Network.weight, hinner, Finset.prod_congr rfl fun (p : ℕ × ℕ) _ => hbond p.1 p.2]
  congr 1
  refine Finset.prod_congr rfl fun u hu => ?_
  have hne : u ≠ v := Finset.ne_of_mem_erase hu
  rw [Network.spin, Network.spin, factor_network, phase_remove, update_of_ne hne]
  rfl

/-! ### Bits of spiders -/

/-- The product of the signs of the bits at a list of vertices. -/
noncomputable def signs (vs : List Vertex) (b : Bits) : ℂ :=
  (vs.map fun u => EdgeKind.hadamard.value true (b u)).prod

theorem signs_mul_self (vs : List Vertex) (b : Bits) : signs vs b * signs vs b = 1 := by
  induction vs with
  | nil => simp [signs]
  | cons u rest ih =>
    have h := EdgeKind.value_hadamard_mul_self true (b u)
    rw [signs] at ih
    rw [signs, List.map_cons, List.prod_cons, mul_mul_mul_comm, h, ih, one_mul]

/-- The signs of the Hadamard edges from a vertex with the bit `x`. -/
theorem prod_value_hadamard (vs : List Vertex) (b : Bits) (x : Bool) :
    (vs.map fun u => EdgeKind.hadamard.value x (b u)).prod = if x then signs vs b else 1 := by
  cases x
  · simp
  · rfl

theorem signs_update (h : v ∉ vs) (b : Bits) (x : Bool) : signs vs (update b v x) = signs vs b := by
  rw [signs, signs]
  congr 1
  exact List.map_congr_left fun u hu => by rw [update_of_ne (ne_of_mem_of_not_mem hu h)]

/-- The factors of a spider and its edges. -/
theorem Simple.weight_star (hw : w.Simple) (hv : w.IsZ v) : (w.network τ).weight b =
    ((w.remove v).network τ).weight b * (if b v then (w.phase v).unit * τ v else 1) *
      ((w.incident v).map fun p => p.2.value (b v) (b p.1)).prod := by
  have hprod (l : List Vertex) : ((l.filterMap fun u => (w.link v u).map fun k => (u, k)).map
      fun p => p.2.value (b v) (b p.1)).prod =
        (l.map fun u => (w.network τ).bond b v u).prod := by
    induction l with
    | nil => rfl
    | cons u rest ih =>
      rw [List.filterMap_cons, List.map_cons, List.prod_cons, hw.noParallel.bond_eq]
      cases w.link v u with
      | none => rw [Option.map_none, ih, one_mul]
      | some k => rw [Option.map_some, List.map_cons, List.prod_cons, ih]
  have hall : ∏ u ∈ Finset.range w.next, (w.network τ).bond b v u =
      ((w.nearby v).map fun u => (w.network τ).bond b v u).prod := by
    rw [← List.prod_toFinset _ nodup_nearby]
    refine (Finset.prod_subset (fun u hu => ?_) fun u _ hu => ?_).symm
    · have := hw.valid.has_of_mem_nearby (List.mem_toFinset.1 hu)
      exact Finset.mem_range.2 (hw.valid.lt u this)
    · rw [List.mem_toFinset, hw.valid.mem_nearby, Nat.not_lt, Nat.le_zero,
        ← link_eq_none_iff] at hu
      rw [hw.noParallel.bond_eq, hu]
  rw [Network.weight_star (hw.valid.network τ) (hw.valid.mem_inner.2 hv), hw.valid.weight_remove,
    Network.star, bound_network, hall, incident, hprod, Network.spin, factor_network]
  ring

theorem Valid.weight_remove_update (hw : w.Valid) (v : Vertex) (x : Bool) :
    ((w.remove v).network τ).weight (update b v x) = ((w.remove v).network τ).weight b := by
  rw [hw.weight_remove, hw.weight_remove, Network.weight_without_update]

/-- Without plain edges at a spider, its edges bring signs. -/
theorem Simple.weight_signs (hw : w.Simple) (hv : w.IsZ v) (hplain : ∀ u, w.count v u .plain = 0)
    (x : Bool) : (w.network τ).weight (update b v x) = ((w.remove v).network τ).weight b *
      if x then (w.phase v).unit * τ v * signs (w.nearby v) b else 1 := by
  have hincident : (w.incident v) = (w.nearby v).map fun u => (u, .hadamard) := by
    rw [incident, ← List.filterMap_eq_map]
    refine List.filterMap_congr fun u hu => ?_
    have hpos := hw.valid.mem_nearby.1 hu
    rw [joins, hplain] at hpos
    simp [link, hplain, show 0 < w.count v u .hadamard by omega]
  have hself : v ∉ w.nearby v := hw.valid.notMem_nearby_self
  rw [hw.weight_star hv, hw.valid.weight_remove_update, hincident, List.map_map, update_self]
  have : ((w.nearby v).map
      ((fun p : Vertex × EdgeKind => p.2.value x (update b v x p.1)) ∘ fun u => (u, .hadamard))) =
      (w.nearby v).map fun u => EdgeKind.hadamard.value x (b u) :=
    List.map_congr_left fun u hu => by
      rw [Function.comp_apply, update_of_ne (ne_of_mem_of_not_mem hu hself)]
  rw [this, prod_value_hadamard]
  cases x <;> simp [mul_assoc]

end Web

/-- The linear map that a graph-like diagram denotes, from the bits of `m` inputs to those of `n`
    outputs. -/
noncomputable def GraphLike.linearMap (n m : ℕ) (g : GraphLike) :
    Matrix (Fin n → Bool) (Fin m → Bool) ℂ := toMatrix n m g.outputs g.inputs g.web.amplitude

end ZXRewriting
