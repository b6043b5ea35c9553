import ZXRewriting.Proofs.Diagram.Edits
import ZXRewriting.Proofs.Semantics.Tensors

/-!
# Edits of diagrams of spiders of all kinds

Each edit changes the weights of the network of tensors by the factor it names
(`Valid.tensors_addEdges`, `Valid.tensors_cut`, `Valid.tensors_addNode`), and a spider comes out of a
weight with the factors of its edges (`Valid.tensors_star`). From this come the rules for a single
spider: one with two legs is a factor between its neighbours (`bridge`), and one of the other colour
has edges of the other kinds (`Valid.amplitude_flip`).
-/

namespace ZXRewriting

open Function (update update_self update_of_ne)
open Multigraph (SamePair)

namespace Network

variable {n n' : Network} {b : Bits}

/-- A network that differs in factors at the edges which do not depend on the bits. -/
theorem weight_scale (hbound : n'.bound = n.bound) (hinner : n'.inner = n.inner)
    (hfactor : ∀ v ∈ n.inner, n'.factor v = n.factor v) {c : Vertex → Vertex → ℂ}
    (hedge : ∀ p q x y, p < q → n.edge p q x y = c p q * n'.edge p q x y) :
    n.weight b = (∏ p ∈ pairs n.bound, c p.1 p.2) * n'.weight b := by
  have hbond : ∀ p ∈ pairs n.bound, n.bond b p.1 p.2 = c p.1 p.2 * n'.bond b p.1 p.2 :=
    fun p hp => hedge _ _ _ _ (mem_pairs.1 hp).1
  rw [weight, weight, hbound, hinner, Finset.prod_congr rfl hbond, Finset.prod_mul_distrib,
    Finset.prod_congr rfl fun v hv => show n'.spin b v = n.spin b v by rw [spin, spin, hfactor v hv]]
  ring

end Network

namespace Web

variable {w w' : Web} {s t u v : Vertex} {k : EdgeKind} {τ : Vertex → ℂ} {b : Bits} {p : Phase}
  {kind : SpiderKind}

theorem edge_tensors (x y : Bool) : (w.tensors τ).edge s t x y =
    EdgeKind.plain.joint (w.leg s x) (w.leg t y) ^ w.count s t .plain *
      EdgeKind.hadamard.joint (w.leg s x) (w.leg t y) ^ w.count s t .hadamard := rfl

/-- A Z spider copies its bit. -/
theorem leg_of_isZ (hv : w.IsZ v) : w.leg v = EdgeKind.plain.value := by
  rw [leg, kindAt_eq hv]
  rfl

theorem edge_tensors_congr {τ' : Vertex → ℂ} (hs : w'.kindAt s = w.kindAt s)
    (ht : w'.kindAt t = w.kindAt t) (h : w'.count s t = w.count s t) :
    (w'.tensors τ').edge s t = (w.tensors τ).edge s t := by
  simp only [tensors, leg, hs, ht, h]

/-- There is no factor where there are no edges. -/
theorem edge_tensors_eq_one (h : ∀ k, w.count s t k = 0) (x y : Bool) :
    (w.tensors τ).edge s t x y = 1 := by
  simp [tensors, h]

theorem tensors_inner_congr {τ' : Vertex → ℂ} (hn : w'.next = w.next) (hk : w'.kind = w.kind) :
    (w'.tensors τ').inner = (w.tensors τ).inner := by
  ext v
  rw [mem_tensors_inner, mem_tensors_inner, hn, Has, Has, IsEnd, IsEnd, hk]

theorem Valid.tensors (hw : w.Valid) (τ : Vertex → ℂ) : (w.tensors τ).Valid where
  lt _ hv := (mem_tensors_inner.1 hv).1.1
  symm s t x y := by
    simp only [Web.tensors, hw.symm s t, EdgeKind.joint_comm _ (w.leg s x)]
  self v _ := edge_tensors_eq_one (hw.self v) _ _

/-! ### Weights of edited webs -/

/-- Setting a phase to one that stands for another number. -/
theorem tensors_setPhase (hv : v ∈ (w.tensors τ).inner) {c : ℂ}
    (hp : (w.kindAt v).factor p = (w.kindAt v).factor (w.phase v) * c) :
    ((w.setPhase v p).tensors τ).weight b = (w.tensors τ).weight b * if b v then c else 1 := by
  have hinner : ((w.setPhase v p).tensors τ).inner = (w.tensors τ).inner :=
    tensors_inner_congr rfl rfl
  have hat : ((w.setPhase v p).tensors τ).factor v = (w.tensors τ).factor v * c := by
    change (w.kindAt v).factor (update w.phase v p v) * τ v =
      (w.kindAt v).factor (w.phase v) * τ v * c
    rw [update_self, hp]
    ring
  have hoff : ∀ u ∈ (w.tensors τ).inner, u ≠ v →
      ((w.setPhase v p).tensors τ).factor u = (w.tensors τ).factor u := fun u _ hu => by
    change (w.kindAt u).factor (update w.phase v p u) * τ u = (w.kindAt u).factor (w.phase u) * τ u
    rw [update_of_ne hu]
  exact Network.weight_mul_factor hinner rfl rfl hv hat hoff

/-- Changing the factor of one spider. -/
theorem tensors_twist (hv : v ∈ (w.tensors τ).inner) {τ' : Vertex → ℂ} {c : ℂ}
    (hat : τ' v = τ v * c) (hoff : ∀ u ∈ (w.tensors τ).inner, u ≠ v → τ' u = τ u) :
    (w.tensors τ').weight b = (w.tensors τ).weight b * if b v then c else 1 := by
  have hinner : (w.tensors τ').inner = (w.tensors τ).inner := tensors_inner_congr rfl rfl
  refine Network.weight_mul_factor hinner rfl rfl hv ?_ fun u hu hne => ?_
  · change (w.kindAt v).factor (w.phase v) * τ' v = (w.kindAt v).factor (w.phase v) * τ v * c
    rw [hat, mul_assoc]
  · change (w.kindAt u).factor (w.phase u) * τ' u = (w.kindAt u).factor (w.phase u) * τ u
    rw [hoff u hu hne]

/-- Replacing the edges between two vertices. -/
theorem Valid.tensors_setCount (hw : w.Valid) (hs : w.Has s) (ht : w.Has t) (hst : s ≠ t)
    {m : EdgeKind → ℕ} {c : ℂ}
    (hc : EdgeKind.plain.joint (w.leg s (b s)) (w.leg t (b t)) ^ m .plain *
        EdgeKind.hadamard.joint (w.leg s (b s)) (w.leg t (b t)) ^ m .hadamard =
      (w.tensors τ).bond b s t * c) :
    ((w.setCount s t m).tensors τ).weight b = (w.tensors τ).weight b * c := by
  refine Network.weight_mul_edge (hw.tensors τ) ((hw.setCount hs ht hst m).tensors τ) rfl
    (tensors_inner_congr rfl rfl) (fun _ _ => rfl) (hw.lt s hs) (hw.lt t ht) hst ?_ fun p q hpq => ?_
  · have hcount (k : EdgeKind) : (w.setCount s t m).count s t k = m k := if_pos (.inl ⟨rfl, rfl⟩)
    rw [← hc, bond_tensors, hcount, hcount]
    rfl
  · exact edge_tensors_congr rfl rfl (funext fun k => if_neg hpq)

/-- New edges bring their factors. -/
theorem Valid.tensors_addEdges (hw : w.Valid) (hs : w.Has s) (ht : w.Has t) (hst : s ≠ t)
    (k : EdgeKind) (m : ℕ) : ((w.addEdges s t k m).tensors τ).weight b =
      (w.tensors τ).weight b * k.joint (w.leg s (b s)) (w.leg t (b t)) ^ m := by
  refine hw.tensors_setCount hs ht hst ?_
  cases k <;> simp [bond_tensors, pow_add] <;> ring

/-- Removed edges take their factor away. -/
theorem Valid.tensors_cut (hw : w.Valid) (hs : w.Has s) (ht : w.Has t) (hst : s ≠ t) :
    (w.tensors τ).weight b = ((w.cut s t).tensors τ).weight b * (w.tensors τ).bond b s t := by
  have hcut := hw.setCount hs ht hst fun _ => 0
  have h := hcut.tensors_setCount (τ := τ) (b := b) (m := w.count s t) hs ht hst
    (c := (w.tensors τ).bond b s t) (by simp [bond_tensors, Web.setCount, SamePair]; rfl)
  rw [← Web.cut] at h
  rw [← h]
  congr 2
  refine Web.ext rfl rfl rfl (funext fun p => funext fun q => funext fun k => ?_) rfl rfl rfl
  simp only [Web.cut, Web.setCount]
  by_cases hpq : SamePair p q s t
  · rw [if_pos hpq]
    rcases hpq with ⟨rfl, rfl⟩ | ⟨rfl, rfl⟩
    · rfl
    · exact hw.symm _ _ _
  · rw [if_neg hpq, if_neg hpq]

theorem kindAt_addNode (hu : u ≠ w.next) : (w.addNode kind p).kindAt u = w.kindAt u := by
  rw [kindAt, kind_addNode, update_of_ne hu]
  rfl

theorem kindAt_addNode_next : (w.addNode kind p).kindAt w.next = kind := by
  rw [kindAt, kind_addNode, update_self]
  rfl

/-- The factors that a new vertex leaves as they are. -/
theorem factor_addNode (hu : u ≠ w.next) :
    ((w.addNode kind p).tensors τ).factor u = (w.tensors τ).factor u := by
  change ((w.addNode kind p).kindAt u).factor (update w.phase w.next _ u) * _ = _
  rw [kindAt_addNode hu, update_of_ne hu]
  rfl

theorem edge_addNode (hs : s ≠ w.next) (ht : t ≠ w.next) :
    ((w.addNode kind p).tensors τ).edge s t = (w.tensors τ).edge s t :=
  edge_tensors_congr (kindAt_addNode hs) (kindAt_addNode ht) rfl

theorem Valid.tensors_inner_addNode (hw : w.Valid) (hkind : kind.isBoundary = false) (p : Phase) :
    ((w.addNode kind p).tensors τ).inner = insert w.next (w.tensors τ).inner := by
  ext u
  rw [(hw.addNode kind p).mem_tensors, Finset.mem_insert, hw.mem_tensors, Has, Has, IsEnd, IsEnd,
    kind_addNode]
  by_cases hu : u = w.next
  · simp [hu, hkind]
  · simp [hu]

/-- A new spider brings its factor. -/
theorem Valid.tensors_addNode (hw : w.Valid) (hkind : kind.isBoundary = false) (p : Phase) :
    ((w.addNode kind p).tensors τ).weight b = (w.tensors τ).weight b *
      if b w.next then kind.factor (if kind.isPhased then p else .zero) * τ w.next else 1 := by
  rw [Network.weight_grow (n := w.tensors τ) rfl (fun u hu => (mem_tensors_inner.1 hu).1.1)
    (hw.tensors_inner_addNode hkind p)
    (fun u hu => factor_addNode (Nat.ne_of_lt (mem_tensors_inner.1 hu).1.1))
    (fun s t hs ht => edge_addNode (Nat.ne_of_lt hs) (Nat.ne_of_lt ht))
    (fun u => edge_tensors_eq_one fun k => (hw.symm _ _ _).trans (hw.count_next u k))]
  congr 2
  change ((w.addNode kind p).kindAt w.next).factor (update w.phase w.next _ w.next) * _ = _
  rw [kindAt_addNode_next, update_self]
  rfl

/-- A Z spider is added as any other vertex is. -/
theorem tensors_addSpider_eq (p : Phase) :
    (w.addSpider p).tensors τ = (w.addNode .z p).tensors τ := tensors_congr rfl rfl rfl rfl

theorem Valid.tensors_inner_addSpider (hw : w.Valid) (p : Phase) :
    ((w.addSpider p).tensors τ).inner = insert w.next (w.tensors τ).inner := by
  rw [tensors_addSpider_eq]
  exact hw.tensors_inner_addNode rfl p

theorem Valid.tensors_addSpider (hw : w.Valid) (p : Phase) : ((w.addSpider p).tensors τ).weight b =
    (w.tensors τ).weight b * if b w.next then p.unit * τ w.next else 1 := by
  rw [tensors_addSpider_eq]
  exact hw.tensors_addNode rfl p

/-- A new end does not matter before it has an edge. -/
theorem Valid.tensors_inner_addEnd (hw : w.Valid) (hkind : kind.isBoundary = true) (p : Phase) :
    ((w.addNode kind p).tensors τ).inner = (w.tensors τ).inner := by
  ext u
  rw [(hw.addNode kind p).mem_tensors, hw.mem_tensors, Has, Has, IsEnd, IsEnd, kind_addNode]
  by_cases hu : u = w.next
  · subst hu
    have hnone : w.kind w.next = none := by
      have := hw.not_has_next
      rwa [Has, Bool.not_eq_true, Option.isSome_eq_false_iff, Option.isNone_iff_eq_none] at this
    simp [hkind, hnone]
  · simp [hu]

theorem Valid.tensors_addEnd (hw : w.Valid) (hkind : kind.isBoundary = true) (p : Phase) :
    ((w.addNode kind p).tensors τ).weight b = (w.tensors τ).weight b :=
  Network.weight_widen (n := w.tensors τ) rfl (hw.tensors_inner_addEnd hkind p)
    (fun _ hu => factor_addNode (Nat.ne_of_lt (mem_tensors_inner.1 hu).1.1))
    (fun _ _ hs ht => edge_addNode (Nat.ne_of_lt hs) (Nat.ne_of_lt ht))
    (fun u => edge_tensors_eq_one fun k => (hw.symm _ _ _).trans (hw.count_next u k))

theorem Valid.tensors_inner_remove (hw : w.Valid) (v : Vertex) :
    ((w.remove v).tensors τ).inner = (w.tensors τ).inner.erase v := by
  ext u
  rw [(hw.remove v).mem_tensors, Finset.mem_erase, hw.mem_tensors, Has, Has, IsEnd, IsEnd,
    kind_remove]
  by_cases hu : u = v
  · simp [hu]
  · simp [hu]

/-- What is left without a spider. -/
theorem Valid.tensors_remove (hw : w.Valid) (v : Vertex) :
    ((w.remove v).tensors τ).weight b = ((w.tensors τ).without v).weight b := by
  have hoff {u : Vertex} (hu : u ≠ v) : (w.remove v).kindAt u = w.kindAt u := by
    rw [kindAt, kind_remove, update_of_ne hu]
    rfl
  have hbond (s t : Vertex) : ((w.remove v).tensors τ).bond b s t =
      ((w.tensors τ).without v).bond b s t := by
    change ((w.remove v).tensors τ).edge s t _ _ = if s = v ∨ t = v then 1 else _
    split
    · next h => exact edge_tensors_eq_one (fun k => if_pos h) _ _
    · next h =>
      have hc : (w.remove v).count s t = w.count s t := funext fun k => if_neg h
      push Not at h
      exact congrFun₂ (edge_tensors_congr (hoff h.1) (hoff h.2) hc) _ _
  rw [Network.weight, Network.weight, hw.tensors_inner_remove, Finset.prod_congr rfl
    fun (p : ℕ × ℕ) _ => hbond p.1 p.2]
  congr 1
  refine Finset.prod_congr rfl fun u hu => ?_
  have hne : u ≠ v := Finset.ne_of_mem_erase hu
  rw [Network.spin, Network.spin]
  change (if b u then ((w.remove v).kindAt u).factor (update w.phase v _ u) * τ u else 1) = _
  rw [hoff hne, update_of_ne hne]
  rfl

/-- The factors of the edges at a vertex, of which there is a list. -/
theorem prod_ends {n : ℕ} (ends : List (Vertex × EdgeKind)) (hlt : ∀ e ∈ ends, e.1 < n)
    (f : Vertex → EdgeKind → ℂ) :
    ∏ u ∈ Finset.range n, f u .plain ^ ends.count (u, .plain) *
      f u .hadamard ^ ends.count (u, .hadamard) = (ends.map fun e => f e.1 e.2).prod := by
  induction ends with
  | nil => simp
  | cons e rest ih =>
    obtain ⟨v, k⟩ := e
    have hv : v ∈ Finset.range n := Finset.mem_range.2 (hlt _ List.mem_cons_self)
    have hone : ∏ u ∈ Finset.range n, (if u = v then f v k else 1) = f v k := by
      rw [Finset.prod_ite_eq' _ v fun _ => f v k, if_pos hv]
    rw [List.map_cons, List.prod_cons, ← ih fun e he => hlt e (List.mem_cons_of_mem _ he), ← hone,
      ← Finset.prod_mul_distrib]
    refine Finset.prod_congr rfl fun u _ => ?_
    rw [List.count_cons, List.count_cons]
    by_cases hu : u = v
    · subst hu
      cases k <;> simp [pow_succ] <;> ring
    · simp [hu, Ne.symm hu]

/-- The edges at a vertex, by the list of their other ends. -/
def EndsAre (w : Web) (v : Vertex) (ends : List (Vertex × EdgeKind)) : Prop :=
  ∀ u k, w.count v u k = ends.count (u, k)

theorem endsAre_single :
    w.EndsAre v [(s, k)] ↔ ∀ x k', w.count v x k' = if x = s ∧ k' = k then 1 else 0 := by
  simp only [EndsAre, List.count_singleton, beq_iff_eq, Prod.mk.injEq, eq_comm (a := s),
    eq_comm (a := k)]

theorem endsAre_pair {k₁ k₂ : EdgeKind} : w.EndsAre v [(s, k₁), (t, k₂)] ↔ ∀ x k, w.count v x k =
    (if x = s ∧ k = k₁ then 1 else 0) + if x = t ∧ k = k₂ then 1 else 0 := by
  simp only [EndsAre, List.count_cons, List.count_nil, Nat.zero_add, beq_iff_eq, Prod.mk.injEq,
    eq_comm (a := s), eq_comm (a := t), eq_comm (a := k₁), eq_comm (a := k₂), Nat.add_comm]

theorem joins_of_endsAre {k₁ k₂ : EdgeKind} (hends : w.EndsAre v [(s, k₁), (t, k₂)]) (x : Vertex) :
    w.joins v x = (if x = s then 1 else 0) + if x = t then 1 else 0 := by
  rw [joins, endsAre_pair.1 hends, endsAre_pair.1 hends]
  cases k₁ <;> cases k₂ <;> (simp only [reduceCtorEq, and_false, and_true, if_false]; omega)

/-- What the edges of a vertex lead to. -/
theorem Valid.has_of_endsAre (hw : w.Valid) {ends : List (Vertex × EdgeKind)}
    (hends : w.EndsAre v ends) (hx : (x, k) ∈ ends) : w.Has x ∧ x ≠ v := by
  have hpos : 0 < w.count v x k := by
    rw [hends]
    exact List.count_pos_iff.2 hx
  refine ⟨hw.has x v k (hw.symm v x k ▸ hpos), fun h => ?_⟩
  rw [h, hw.self] at hpos
  exact absurd hpos (Nat.lt_irrefl _)

/-- A spider comes out of the weight with the factors of its edges. -/
theorem Valid.tensors_star (hw : w.Valid) (hv : v ∈ (w.tensors τ).inner)
    {ends : List (Vertex × EdgeKind)} (hends : w.EndsAre v ends) (x : Bool) :
    (w.tensors τ).weight (update b v x) = ((w.remove v).tensors τ).weight b *
      ((if x then (w.kindAt v).factor (w.phase v) * τ v else 1) *
        (ends.map fun e => e.2.joint (w.leg v x) (w.leg e.1 (b e.1))).prod) := by
  have hmem {e : Vertex × EdgeKind} (he : e ∈ ends) : 0 < w.count v e.1 e.2 := by
    rw [hends]
    exact List.count_pos_iff.2 he
  have hlt : ∀ e ∈ ends, e.1 < w.next := fun e he =>
    hw.lt _ (hw.has e.1 v e.2 (hw.symm v e.1 e.2 ▸ hmem he))
  have hprod := prod_ends ends hlt
    fun u k => k.joint (w.leg v x) (w.leg u (update b v x u))
  have hne : ∀ e ∈ ends, update b v x e.1 = b e.1 := fun e he => by
    refine update_of_ne (fun h => ?_) _ _
    have := hmem he
    rw [h, hw.self] at this
    exact absurd this (Nat.lt_irrefl _)
  rw [Network.weight_star (hw.tensors τ) hv, Network.weight_without_update, ← hw.tensors_remove,
    Network.star, Network.spin, update_self]
  congr 2
  have hmap : (ends.map fun e => e.2.joint (w.leg v x) (w.leg e.1 (b e.1))) =
      ends.map fun e => e.2.joint (w.leg v x) (w.leg e.1 (update b v x e.1)) :=
    List.map_congr_left fun e he => by rw [hne e he]
  rw [hmap, ← hprod]
  refine Finset.prod_congr rfl fun u _ => ?_
  rw [bond_tensors, update_self, hends, hends]

/-! ### Colours -/

/-- Gives a coloured spider the other colour, and its edges the other kind. -/
def flip (w : Web) (v : Vertex) : Web :=
  { w with
    kind := update w.kind v (some (w.kindAt v).opposite)
    count := fun s t k => w.count s t (if s = v ∨ t = v then k.opposite else k) }

theorem kind_flip : (w.flip v).kind = update w.kind v (some (w.kindAt v).opposite) := rfl

theorem count_flip : (w.flip v).count s t k =
    w.count s t (if s = v ∨ t = v then k.opposite else k) := rfl

theorem kindAt_flip (v u : Vertex) :
    (w.flip v).kindAt u = if u = v then (w.kindAt v).opposite else w.kindAt u := by
  rw [kindAt, kind_flip, Function.update_apply]
  split <;> rfl

theorem has_flip (hv : w.Has v) : (w.flip v).Has u ↔ w.Has u := by
  rw [Has, kind_flip, Function.update_apply]
  split
  · next h => simp [h, hv]
  · rfl

theorem Valid.flip (hw : w.Valid) (hv : w.Has v) : (w.flip v).Valid where
  lt u hu := hw.lt u ((has_flip hv).1 hu)
  symm s t k := by simp only [Web.flip, or_comm (a := s = v), hw.symm s t]
  self u k := hw.self u _
  has s t k h := (has_flip hv).2 (hw.has s t _ h)

theorem flip_flip (hk : w.kind v = some kind) : (w.flip v).flip v = w := by
  refine Web.ext rfl (funext fun u => ?_) rfl (funext fun s => funext fun t => funext fun k => ?_)
    rfl rfl rfl
  · change update (w.flip v).kind v (some ((w.flip v).kindAt v).opposite) u = w.kind u
    rw [kindAt_flip, if_pos rfl, SpiderKind.opposite_opposite, Function.update_apply]
    split
    · next h => rw [h, kindAt, hk, Option.getD_some]
    · next h => exact update_of_ne h _ _
  · change w.count s t _ = w.count s t k
    split <;> simp

/-- The legs of an X spider are those of a Z spider behind Hadamard edges. -/
theorem joint_leg_x (k : EdgeKind) (y : Bool) (g : Bool → ℂ) :
    k.joint (SpiderKind.x.leg y) g =
      (if k = .hadamard then 2 else 1) * k.opposite.joint (SpiderKind.z.leg y) g := by
  cases k <;> cases y <;>
    simp [EdgeKind.opposite, EdgeKind.joint_plain, EdgeKind.joint_hadamard, SpiderKind.leg,
      EdgeKind.value] <;> ring

theorem inner_flip (hv : w.Has v) (hend : ¬w.IsEnd v) :
    ((w.flip v).tensors τ).inner = (w.tensors τ).inner := by
  ext u
  have hkind : u ≠ v → (w.flip v).kind u = w.kind u := fun h => update_of_ne h _ _
  rw [mem_tensors_inner, mem_tensors_inner, has_flip hv]
  refine and_congr_right fun h => not_congr ?_
  by_cases hu : u = v
  · subst hu
    rw [isEnd_iff_kindAt hv, isEnd_iff_kindAt ((has_flip hv).2 hv), kindAt_flip, if_pos rfl]
    cases w.kindAt u <;> rfl
  · rw [IsEnd, IsEnd, hkind hu]

/-- An X spider is a Z spider with its edges of the other kind. -/
theorem Valid.amplitude_flip_x (hw : w.Valid) (hk : w.kind v = some .x) :
    Proportional (w.tensors τ).amplitude ((w.flip v).tensors τ).amplitude := by
  have hv : w.Has v := by rw [Has, hk]; rfl
  have hend : ¬w.IsEnd v := by rw [IsEnd, hk]; simp [SpiderKind.isBoundary]
  have hx : w.kindAt v = .x := by rw [kindAt, hk]; rfl
  have hz : (w.flip v).kindAt v = .z := by rw [kindAt_flip, if_pos rfl, hx]; rfl
  have hother {u : Vertex} (hu : u ≠ v) : (w.flip v).kindAt u = w.kindAt u := by
    rw [kindAt_flip, if_neg hu]
  -- each Hadamard edge of the spider brings a factor of two
  set c : Vertex → Vertex → ℂ := fun p q =>
    if p = v ∨ q = v then 2 ^ w.count p q .hadamard else 1 with hc
  have hne : ∏ p ∈ Network.pairs w.next, c p.1 p.2 ≠ 0 := Finset.prod_ne_zero_iff.2 fun p _ => by
    rw [hc]
    dsimp only
    split
    · exact pow_ne_zero _ two_ne_zero
    · exact one_ne_zero
  have hat (u : Vertex) (hu : u ≠ v) (x y : Bool) : (w.tensors τ).edge v u x y =
      2 ^ w.count v u .hadamard * ((w.flip v).tensors τ).edge v u x y := by
    rw [edge_tensors, edge_tensors, leg, leg, leg, leg, hx, hz, hother hu, joint_leg_x,
      joint_leg_x .hadamard, count_flip, count_flip]
    simp only [EdgeKind.opposite, true_or, if_true, reduceCtorEq, if_false, one_mul, mul_pow]
    ring
  have hweight (b : Bits) : (w.tensors τ).weight b =
      (∏ p ∈ Network.pairs w.next, c p.1 p.2) * ((w.flip v).tensors τ).weight b := by
    have hinner : ((w.flip v).tensors τ).inner = (w.tensors τ).inner := inner_flip hv hend
    have hbound : ((w.flip v).tensors τ).bound = (w.tensors τ).bound := rfl
    refine Network.weight_scale hbound hinner (fun u _ => ?_)
      fun p q x y hpq => ?_
    · change ((w.flip v).kindAt u).factor (w.phase u) * τ u = (w.kindAt u).factor (w.phase u) * τ u
      by_cases hu : u = v
      · rw [hu, hz, hx]
        rfl
      · rw [hother hu]
    · rw [hc]
      dsimp only
      by_cases hp : p = v
      · rw [if_pos (.inl hp), hp]
        exact hat q (fun h => Nat.ne_of_lt hpq (hp.trans h.symm)) x y
      · by_cases hq : q = v
        · rw [if_pos (.inr hq), hq, (hw.tensors τ).symm, ((hw.flip hv).tensors τ).symm,
            hw.symm p v]
          exact hat p hp y x
        · rw [if_neg (not_or.2 ⟨hp, hq⟩), one_mul]
          refine congrFun₂ (edge_tensors_congr (hother hp).symm (hother hq).symm ?_) x y
          funext k
          exact (congrArg (w.count p q) (if_neg (not_or.2 ⟨hp, hq⟩))).symm
  exact ⟨_, hne, Network.amplitude_eq_of_weight (inner_flip hv hend) hweight⟩

/-- The colour of a spider can be changed, together with the kinds of its edges. -/
theorem Valid.amplitude_flip (hw : w.Valid) (hk : w.kind v = some kind)
    (hkind : kind.isPhased = true) :
    Proportional (w.tensors τ).amplitude ((w.flip v).tensors τ).amplitude := by
  cases kind with
  | x => exact hw.amplitude_flip_x hk
  | z =>
    have hv : w.Has v := by rw [Has, hk]; rfl
    have hx : (w.flip v).kind v = some .x := by
      change update w.kind v _ v = _
      rw [update_self, kindAt, hk]
      rfl
    have := (hw.flip hv).amplitude_flip_x (τ := τ) hx
    rw [flip_flip hk] at this
    exact this.symm
  | input | output | box => cases hkind

/-! ### Spiders with two legs -/

end Web

/-- The factor that a spider with two legs makes between them, its bit having the factor `c`. -/
noncomputable def SpiderKind.bridge (kind : SpiderKind) (c : ℂ) (k₁ k₂ : EdgeKind)
    (f g : Bool → ℂ) : ℂ :=
  k₁.joint (kind.leg false) f * k₂.joint (kind.leg false) g +
    c * (k₁.joint (kind.leg true) f * k₂.joint (kind.leg true) g)

namespace SpiderKind

/-- A box on a wire is a Hadamard edge. -/
theorem bridge_box (k₁ k₂ : EdgeKind) (f g : Bool → ℂ) : box.bridge (-2) k₁ k₂ f g =
    (if k₁ = .plain ∧ k₂ = .plain then 1 else 2) * (k₁.merge k₂).opposite.joint f g := by
  cases k₁ <;> cases k₂ <;>
    simp [bridge, EdgeKind.merge, EdgeKind.opposite, EdgeKind.joint_plain, EdgeKind.joint_hadamard,
      leg] <;> ring

/-- A coloured spider without a phase on a wire does nothing. -/
theorem bridge_identity {kind : SpiderKind} (h : kind.isPhased = true) (k₁ k₂ : EdgeKind) :
    ∃ c : ℂ, c ≠ 0 ∧ ∀ f g, kind.bridge 1 k₁ k₂ f g = c * (k₁.merge k₂).joint f g := by
  cases kind with
  | z =>
    refine ⟨if k₁ = .hadamard ∧ k₂ = .hadamard then 2 else 1, by split <;> norm_num, fun f g => ?_⟩
    cases k₁ <;> cases k₂ <;>
      simp [bridge, EdgeKind.merge, EdgeKind.opposite, EdgeKind.joint_plain,
        EdgeKind.joint_hadamard, leg, EdgeKind.value] <;> ring
  | x =>
    refine ⟨if k₁ = .plain ∧ k₂ = .plain then 2 else if k₁ = k₂ then 4 else 2,
      by split_ifs <;> norm_num, fun f g => ?_⟩
    cases k₁ <;> cases k₂ <;>
      simp [bridge, EdgeKind.merge, EdgeKind.opposite, EdgeKind.joint_plain,
        EdgeKind.joint_hadamard, leg, EdgeKind.value] <;> ring
  | input | output | box => cases h

/-- A half turn next to a spider of the other colour turns over its bit. -/
theorem bridge_pi {kind : SpiderKind} (h : kind.isPhased = true) :
    ∃ c : ℂ, c ≠ 0 ∧ ∀ y g, kind.bridge (-1) .plain .plain (kind.opposite.leg y) g =
      c * EdgeKind.plain.joint (kind.opposite.leg (!y)) g := by
  cases kind with
  | z =>
    refine ⟨1, one_ne_zero, fun y g => ?_⟩
    cases y <;> simp [bridge, opposite, EdgeKind.joint_plain, leg, EdgeKind.value] <;> ring
  | x =>
    refine ⟨2, two_ne_zero, fun y g => ?_⟩
    cases y <;> simp [bridge, opposite, EdgeKind.joint_plain, leg, EdgeKind.value] <;> ring
  | input | output | box => cases h

/-- A wire from a coloured spider to itself does nothing. -/
theorem joint_self {kind : SpiderKind} (h : kind.isPhased = true) :
    ∃ c : ℂ, c ≠ 0 ∧ ∀ y y', EdgeKind.plain.joint (kind.leg y) (kind.leg y') =
      if y = y' then c else 0 := by
  cases kind with
  | z =>
    refine ⟨1, one_ne_zero, fun y y' => ?_⟩
    cases y <;> cases y' <;> simp [EdgeKind.joint_plain, leg, EdgeKind.value]
  | x =>
    refine ⟨2, two_ne_zero, fun y y' => ?_⟩
    cases y <;> cases y' <;> simp [EdgeKind.joint_plain, leg, EdgeKind.value] <;> norm_num
  | input | output | box => cases h

end SpiderKind

namespace Web

variable {w w' : Web} {s t u v : Vertex} {k k₁ k₂ : EdgeKind} {τ : Vertex → ℂ} {b : Bits}
  {p : Phase} {kind : SpiderKind}

/-- The sum over the bit of a spider with two legs. -/
theorem Valid.sum_bridge (hw : w.Valid) (hv : v ∈ (w.tensors τ).inner)
    (hends : w.EndsAre v [(s, k₁), (t, k₂)]) (b : Bits) :
    (w.tensors τ).weight (update b v false) + (w.tensors τ).weight (update b v true) =
      ((w.remove v).tensors τ).weight b *
        (w.kindAt v).bridge ((w.kindAt v).factor (w.phase v) * τ v) k₁ k₂ (w.leg s (b s))
          (w.leg t (b t)) := by
  rw [hw.tensors_star hv hends, hw.tensors_star hv hends, SpiderKind.bridge]
  simp only [List.map_cons, List.map_nil, List.prod_cons, List.prod_nil, leg, if_true,
    Bool.false_eq_true, if_false]
  ring

/-- A spider with two legs is replaced by an edge. -/
theorem Valid.amplitude_bypass (hw : w.Valid) (hv : v ∈ (w.tensors τ).inner)
    (hends : w.EndsAre v [(s, k₁), (t, k₂)]) (hst : s ≠ t) {c : ℂ} (hc : c ≠ 0)
    (hbridge : ∀ f g, (w.kindAt v).bridge ((w.kindAt v).factor (w.phase v) * τ v) k₁ k₂ f g =
      c * k.joint f g) :
    Proportional (w.tensors τ).amplitude
      (((w.remove v).addEdges s t k 1).tensors τ).amplitude := by
  have hs := hw.has_of_endsAre hends List.mem_cons_self
  have ht := hw.has_of_endsAre hends (List.mem_cons_of_mem _ List.mem_cons_self)
  have hhas {x : Vertex} (hx : w.Has x ∧ x ≠ v) : (w.remove v).Has x := by
    rw [Has, kind_remove, update_of_ne hx.2]
    exact hx.1
  have hleg {x : Vertex} (hx : x ≠ v) : (w.remove v).leg x = w.leg x := by
    rw [leg, leg, kindAt, kindAt, kind_remove, update_of_ne hx]
  have hinner : (((w.remove v).addEdges s t k 1).tensors τ).inner = (w.tensors τ).inner.erase v :=
    hw.tensors_inner_remove v
  refine ⟨c, hc, Network.amplitude_eq_of_sum hv hinner fun b => ?_⟩
  rw [hw.sum_bridge hv hends, hbridge, (hw.remove v).tensors_addEdges (hhas hs) (hhas ht) hst,
    pow_one, hleg hs.2, hleg ht.2]
  ring

/-- A spider, both legs of which lead to the same one, is removed if it makes no factor. -/
theorem Valid.amplitude_drop (hw : w.Valid) (hv : v ∈ (w.tensors τ).inner)
    (hends : w.EndsAre v [(s, k₁), (s, k₂)]) {c : ℂ} (hc : c ≠ 0)
    (hbridge : ∀ y, (w.kindAt v).bridge ((w.kindAt v).factor (w.phase v) * τ v) k₁ k₂ (w.leg s y)
      (w.leg s y) = c) :
    Proportional (w.tensors τ).amplitude ((w.remove v).tensors τ).amplitude := by
  refine ⟨c, hc, Network.amplitude_eq_of_sum hv (hw.tensors_inner_remove v) fun b => ?_⟩
  rw [hw.sum_bridge hv hends, hbridge, mul_comm]

end Web

end ZXRewriting
