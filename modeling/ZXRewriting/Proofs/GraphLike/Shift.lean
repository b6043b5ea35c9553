import ZXRewriting.Proofs.GraphLike.Pivot

/-!
# Moving off what is in the way

A new spider on the edge between a spider and the end of a wire (`Web.split`), and a phase moved
onto a gadget (`Web.shiftPhase`), keep the graph-like form and what the diagram denotes up to a
scalar. Together they clear a spider of what is in the way of a pivot (`Web.Cleared`), and leave
the edges between all other spiders as they are.
-/

namespace ZXRewriting

open Function (update update_self update_of_ne)
open Multigraph (SamePair)

namespace Web

variable {w : Web} {a b s t u v : Vertex} {k k' : EdgeKind} {m m' : ℕ} {p : Phase} {D : ℕ}
  {τ : Vertex → ℂ}

/-! ### The order of edits -/

theorem count_addEdges : (w.addEdges s t k m).count a b k' =
    if SamePair a b s t then w.count s t k' + if k = k' then m else 0 else w.count a b k' := rfl

theorem cut_comm (w : Web) (s t : Vertex) : w.cut s t = w.cut t s := by
  refine Web.ext rfl rfl rfl (funext fun a => funext fun b => funext fun k => ?_) rfl rfl rfl
  simp only [cut, setCount, SamePair.comm_iff (s := s)]

theorem count_cut : (w.cut s t).count a b k = if SamePair a b s t then 0 else w.count a b k := rfl

/-- Edges between other vertices than those that are cut. -/
theorem cut_addEdges (h : ¬SamePair a b s t) :
    (w.addEdges a b k m).cut s t = (w.cut s t).addEdges a b k m := by
  refine Web.ext rfl rfl rfl (funext fun c => funext fun d => funext fun k' => ?_) rfl rfl rfl
  rw [count_cut, count_addEdges, count_addEdges, count_cut, count_cut, if_neg h]
  by_cases hc : SamePair c d s t
  · have : ¬SamePair c d a b := fun h' => h (by rw [SamePair] at *; grind)
    rw [if_pos hc, if_neg this, if_pos hc]
  · rw [if_neg hc, if_neg hc]

/-- Edges between different pairs of vertices. -/
theorem addEdges_addEdges (h : ¬SamePair a b s t) :
    (w.addEdges a b k m).addEdges s t k' m' = (w.addEdges s t k' m').addEdges a b k m := by
  refine Web.ext rfl rfl rfl (funext fun c => funext fun d => funext fun l => ?_) rfl rfl rfl
  have h' : ¬SamePair s t a b := fun hc => h hc.symm
  have hleft : ((w.addEdges a b k m).addEdges s t k' m').count c d l =
      if SamePair c d s t then w.count s t l + if k' = l then m' else 0
      else if SamePair c d a b then w.count a b l + if k = l then m else 0
      else w.count c d l := by
    rw [count_addEdges, count_addEdges, count_addEdges, if_neg h']
  have hright : ((w.addEdges s t k' m').addEdges a b k m).count c d l =
      if SamePair c d a b then w.count a b l + if k = l then m else 0
      else if SamePair c d s t then w.count s t l + if k' = l then m' else 0
      else w.count c d l := by
    rw [count_addEdges, count_addEdges, count_addEdges, if_neg h]
  rw [hleft, hright]
  by_cases hc : SamePair c d s t
  · have : ¬SamePair c d a b := fun h' => h (by rw [SamePair] at *; grind)
    rw [if_pos hc, if_neg this, if_pos hc]
  · rw [if_neg hc, if_neg hc]

/-! ### Adding to graph-like webs -/

theorem Valid.ne_next_succ (hw : w.Valid) (h : w.Has v) : v ≠ w.next + 1 :=
  Nat.ne_of_lt (Nat.lt_succ_of_lt (hw.lt v h))

theorem isZ_addSpider : (w.addSpider p).IsZ u ↔ w.IsZ u ∨ u = w.next := by
  rw [IsZ, kind_addSpider, Function.update_apply]
  split
  · next h => simp [h]
  · next h => simp [h, IsZ]

theorem Valid.isEnd_addSpider (hw : w.Valid) : (w.addSpider p).IsEnd u ↔ w.IsEnd u := by
  rw [IsEnd, kind_addSpider, Function.update_apply, IsEnd]
  split
  · next h =>
    have : w.kind u = none := by
      have := hw.not_has_next
      rwa [← h, Has, Bool.not_eq_true, Option.isSome_eq_false_iff, Option.isNone_iff_eq_none] at this
    simp [this, SpiderKind.isBoundary]
  · rfl

theorem Simple.addSpider (hw : w.Simple) (p : Phase) : (w.addSpider p).Simple := by
  have hz {u : Vertex} {t : Vertex} (h : u = w.next) (k : EdgeKind) : w.count u t k = 0 := by
    by_contra hne
    exact hw.valid.not_has_next (h ▸ hw.valid.has u t k (Nat.pos_of_ne_zero hne))
  refine ⟨hw.valid.addSpider p, fun v hv => ?_, fun s t hs ht => ?_, hw.single⟩
  · rw [isZ_addSpider, hw.valid.isEnd_addSpider]
    by_cases h : v = w.next
    · exact .inl (.inr h)
    · rw [Has, kind_addSpider, update_of_ne h] at hv
      exact (hw.colour v hv).imp_left .inl
  · rcases isZ_addSpider.1 hs with hs | hs
    · rcases isZ_addSpider.1 ht with ht | ht
      · exact hw.plain s t hs ht
      · exact (hw.valid.symm s t .plain).trans (hz ht .plain)
    · exact hz hs .plain

theorem InForm.addSpider (hw : w.InForm) (p : Phase) : (w.addSpider p).InForm := by
  have hval := hw.simple.valid
  have hkind {v : Vertex} {k : SpiderKind} (hk : k.isBoundary) :
      w.kind v = some k ↔ (w.addSpider p).kind v = some k := by
    rw [kind_addSpider, Function.update_apply]
    split
    · next h =>
      have hnone : w.kind v = none := by
        have := hval.not_has_next
        rwa [← h, Has, Bool.not_eq_true, Option.isSome_eq_false_iff,
          Option.isNone_iff_eq_none] at this
      rw [hnone]
      refine ⟨fun h => by simp at h, fun h => ?_⟩
      rw [← Option.some.inj h] at hk
      simp [SpiderKind.isBoundary] at hk
    · rfl
  refine ⟨hw.simple.addSpider p, fun v hv => ?_, hw.inputs_nodup, hw.outputs_nodup,
    fun v => (hw.mem_inputs v).trans (hkind rfl), fun v => (hw.mem_outputs v).trans (hkind rfl)⟩
  have hfree : w.joins v w.next = 0 := by
    rw [hval.joins_comm, hval.joins_eq_zero hval.not_has_next]
  have hd := hw.degree_end v (hval.isEnd_addSpider.1 hv)
  rw [degree, next_addSpider, Finset.sum_range_succ]
  exact (congrArg₂ (· + ·) hd hfree : _ = 1 + 0)

/-- A web with other edges, where ends have as many as before. -/
theorem InForm.setCount (hw : w.InForm) {m : EdgeKind → ℕ} (hs : w.IsZ s) (ht : w.IsZ t)
    (hst : s ≠ t) (hplain : m .plain = 0) (hone : m .hadamard ≤ 1) : (w.setCount s t m).InForm := by
  have hval := hw.simple.valid.setCount hs.has ht.has hst m
  refine ⟨⟨hval, hw.simple.colour, fun a b ha hb => ?_, fun a b => ?_⟩, fun v hv => ?_,
    hw.inputs_nodup, hw.outputs_nodup, hw.mem_inputs, hw.mem_outputs⟩
  · simp only [Web.setCount]
    split
    · exact hplain
    · exact hw.simple.plain a b ha hb
  · simp only [joins, Web.setCount]
    split
    · omega
    · exact hw.simple.single a b
  · rw [← hw.degree_end v hv, degree, degree]
    refine Finset.sum_congr rfl fun u _ => ?_
    have hne : ¬SamePair v u s t := by
      rintro (⟨rfl, -⟩ | ⟨rfl, -⟩)
      · exact hs.not_isEnd hv
      · exact ht.not_isEnd hv
    simp only [joins, Web.setCount, if_neg hne]

theorem InForm.setPhase (hw : w.InForm) (v : Vertex) (p : Phase) : (w.setPhase v p).InForm :=
  ⟨hw.simple.setPhase v p, hw.degree_end, hw.inputs_nodup, hw.outputs_nodup, hw.mem_inputs,
    hw.mem_outputs⟩

/-- Joining two Z spiders that are not joined yet. -/
theorem InForm.addEdge (hw : w.InForm) (hs : w.IsZ s) (ht : w.IsZ t) (hst : s ≠ t)
    (h : w.joins s t = 0) : (w.addEdges s t .hadamard 1).InForm := by
  rw [joins] at h
  refine hw.setCount hs ht hst ?_ ?_
  · simp
    omega
  · simp
    omega

/-! ### A spider on an edge -/

/-- Puts a new spider on the edge of kind `k` between two vertices. -/
def split (w : Web) (s t : Vertex) (k : EdgeKind) : Web :=
  (((w.cut s t).addSpider .zero).addEdges s w.next .hadamard 1).addEdges w.next t k.opposite 1

@[simp] theorem next_split : (w.split s t k).next = w.next + 1 := rfl

theorem kind_split : (w.split s t k).kind = update w.kind w.next (some .z) := rfl

theorem phase_split : (w.split s t k).phase = update w.phase w.next .zero := rfl

theorem isZ_split : (w.split s t k).IsZ u ↔ w.IsZ u ∨ u = w.next := isZ_addSpider (p := .zero)

theorem Valid.isEnd_split (hw : w.Valid) : (w.split s t k).IsEnd u ↔ w.IsEnd u :=
  show (w.addSpider .zero).IsEnd u ↔ w.IsEnd u from hw.isEnd_addSpider

/-- The edges after a spider was put on one of them. -/
theorem Valid.count_split (hw : w.Valid) (hs : w.Has s) (ht : w.Has t) (hst : s ≠ t)
    (a b : Vertex) (k' : EdgeKind) : (w.split s t k).count a b k' =
      if SamePair a b s t then 0
      else if SamePair a b s w.next then if k' = .hadamard then 1 else 0
      else if SamePair a b w.next t then if k' = k.opposite then 1 else 0
      else w.count a b k' := by
  have hsn := hw.ne_next hs
  have htn := hw.ne_next ht
  have hfree (u : Vertex) (k : EdgeKind) : w.count w.next u k = 0 := by
    by_contra h
    exact hw.not_has_next (hw.has _ u k (Nat.pos_of_ne_zero h))
  have hfree' (u : Vertex) (k : EdgeKind) : w.count u w.next k = 0 := by rw [hw.symm, hfree]
  have hcut (a b : Vertex) (k : EdgeKind) : ((w.cut s t).addSpider .zero).count a b k =
      if SamePair a b s t then 0 else w.count a b k := rfl
  have hend : ¬SamePair w.next t s w.next := by rw [SamePair]; tauto
  have hend' : ¬SamePair w.next t s t := by rw [SamePair]; tauto
  have hstart : ¬SamePair s w.next s t := by rw [SamePair]; tauto
  rw [split, count_addEdges, count_addEdges, count_addEdges, if_neg hend, hcut, if_neg hend', hfree,
    hcut, if_neg hstart, hfree', hcut]
  by_cases h₁ : SamePair a b s t
  · have h₂ : ¬SamePair a b w.next t := by rw [SamePair] at *; grind
    have h₃ : ¬SamePair a b s w.next := by rw [SamePair] at *; grind
    rw [if_neg h₂, if_neg h₃, if_pos h₁, if_pos h₁]
  · by_cases h₂ : SamePair a b s w.next
    · have h₃ : ¬SamePair a b w.next t := by rw [SamePair] at *; grind
      rw [if_neg h₃, if_pos h₂, if_neg h₁, if_pos h₂, Nat.zero_add]
      simp only [eq_comm]
    · rw [if_neg h₂, if_neg h₁, if_neg h₁, if_neg h₂]
      simp only [Nat.zero_add, eq_comm]

theorem Simple.split (hw : w.Simple) (hs : w.IsZ s) (ht : w.IsEnd t) : (w.split s t k).Simple := by
  have hval := hw.valid
  have hne : s ≠ t := fun h => hs.not_isEnd (h ▸ ht)
  have hcut : (w.cut s t).Valid := hval.setCount hs.has ht.has hne _
  have hadd := hcut.addSpider .zero
  have hsn := hval.ne_next hs.has
  have htn := hval.ne_next ht.has
  have hasn : ((w.cut s t).addSpider .zero).Has w.next := by
    rw [Has, kind_addSpider]
    exact congrArg Option.isSome (update_self (f := w.kind) ..)
  have hasold {u : Vertex} (hu : w.Has u) : ((w.cut s t).addSpider .zero).Has u := by
    rw [Has, kind_addSpider]
    exact (congrArg Option.isSome (update_of_ne (hval.ne_next hu) ..)).trans hu
  refine ⟨(hadd.setCount (hasold hs.has) hasn hsn _).setCount hasn (hasold ht.has) htn.symm _,
    fun v hv => ?_, fun a b ha hb => ?_, fun a b => ?_⟩
  · rw [isZ_split, hval.isEnd_split]
    by_cases h : v = w.next
    · exact .inl (.inr h)
    · rw [Has, kind_split, update_of_ne h] at hv
      exact (hw.colour v hv).imp_left .inl
  · rw [isZ_split] at ha hb
    have ha' : a ≠ t := by
      rintro rfl
      exact ha.elim (fun h => h.not_isEnd ht) htn
    have hb' : b ≠ t := by
      rintro rfl
      exact hb.elim (fun h => h.not_isEnd ht) htn
    have hzero (han : a = w.next ∨ b = w.next) : w.count a b .plain = 0 := by
      by_contra h
      have hpos := Nat.pos_of_ne_zero h
      rcases han with rfl | rfl
      · exact hval.not_has_next (hval.has _ _ _ hpos)
      · exact hval.not_has_next (hval.has _ _ _ (hval.symm _ _ _ ▸ hpos))
    rw [hval.count_split hs.has ht.has hne]
    split
    · rfl
    split
    · rfl
    split
    · next h => exact absurd h (by rw [SamePair]; tauto)
    · rcases ha with ha | ha
      · rcases hb with hb | hb
        · exact hw.plain a b ha hb
        · exact hzero (.inr hb)
      · exact hzero (.inl ha)
  · rw [joins, hval.count_split hs.has ht.has hne, hval.count_split hs.has ht.has hne]
    have := hw.single a b
    rw [joins] at this
    split
    · omega
    split
    · simp
    split
    · cases k <;> simp [EdgeKind.opposite]
    · exact this

/-- The edges of a vertex which is at neither end of the edge. -/
theorem Valid.nearby_split (hw : w.Valid) (hs : w.Has s) (ht : w.Has t) (hst : s ≠ t) (hu : w.Has u)
    (hus : u ≠ s) (hut : u ≠ t) : (w.split s t k).nearby u = w.nearby u := by
  have hun := hw.ne_next hu
  have hcount (x : Vertex) : (w.split s t k).joins u x = w.joins u x := by
    have (k' : EdgeKind) : (w.split s t k).count u x k' = w.count u x k' := by
      rw [hw.count_split hs ht hst, if_neg (by rw [SamePair]; tauto), if_neg (by rw [SamePair]; tauto),
        if_neg (by rw [SamePair]; tauto)]
    rw [joins, joins, this, this]
  have hfree : ¬0 < w.joins u w.next := by
    rw [hw.joins_comm, hw.joins_eq_zero hw.not_has_next]
    simp
  rw [nearby, next_split, List.range_succ, List.filter_append, List.filter_singleton]
  simp [hcount, hfree, nearby]

/-- The edges of the spider whose edge was split. -/
theorem Valid.mem_nearby_split (hw : w.Valid) (hs : w.Has s) (ht : w.Has t)
    (hst : s ≠ t) (hsplit : (w.split s t k).Valid) :
    u ∈ (w.split s t k).nearby s ↔ u ∈ w.nearby s ∧ u ≠ t ∨ u = w.next := by
  have hsn := hw.ne_next hs
  have htn := hw.ne_next ht
  have hfree : w.joins s w.next = 0 := by
    rw [hw.joins_comm, hw.joins_eq_zero hw.not_has_next]
  rw [hsplit.mem_nearby, hw.mem_nearby, joins, hw.count_split hs ht hst, hw.count_split hs ht hst,
    joins]
  rw [joins] at hfree
  simp only [SamePair]
  grind

theorem InForm.split (hw : w.InForm) (hs : w.IsZ s) (ht : w.IsEnd t) (hk : w.link s t = some k) :
    (w.split s t k).InForm := by
  have hval := hw.simple.valid
  have hne : s ≠ t := fun h => hs.not_isEnd (h ▸ ht)
  have hsplit : (w.split s t k).Simple := hw.simple.split hs ht
  have hkind {v : Vertex} {k' : SpiderKind} (hb : k'.isBoundary) :
      w.kind v = some k' ↔ (w.split s t k).kind v = some k' := by
    rw [kind_split, Function.update_apply]
    split
    · next h =>
      have : w.kind v = none := by
        have := hval.not_has_next
        rwa [← h, Has, Bool.not_eq_true, Option.isSome_eq_false_iff,
          Option.isNone_iff_eq_none] at this
      rw [this]
      refine ⟨fun h => by simp at h, fun h => ?_⟩
      rw [← Option.some.inj h] at hb
      simp [SpiderKind.isBoundary] at hb
    · rfl
  refine ⟨hsplit, fun v hv => ?_, hw.inputs_nodup, hw.outputs_nodup,
    fun v => (hw.mem_inputs v).trans (hkind rfl), fun v => (hw.mem_outputs v).trans (hkind rfl)⟩
  rw [hsplit.degree_eq]
  have hv' := hval.isEnd_split.1 hv
  by_cases hvt : v = t
  · -- the new spider takes the place of the other one
    subst hvt
    obtain ⟨u, hu⟩ := hw.exists_nearby_eq hv'
    obtain rfl : u = s := by
      have : s ∈ w.nearby v := by
        rw [hval.mem_nearby_comm, hval.mem_nearby, ← link_isSome_iff, hk]
        rfl
      rw [hu, List.mem_singleton] at this
      exact this.symm
    have hmem (x : Vertex) : x ∈ (w.split u v k).nearby v ↔ x = w.next := by
      rw [hsplit.valid.mem_nearby, joins, hval.count_split hs.has ht.has hne,
        hval.count_split hs.has ht.has hne]
      have hnv := hval.ne_next ht.has
      have hnu := hval.ne_next hs.has
      have hother (hx : x ≠ u) : w.joins v x = 0 := by
        have : x ∉ w.nearby v := by
          rw [hu, List.mem_singleton]
          exact hx
        rw [hval.mem_nearby] at this
        omega
      simp only [joins] at hother
      simp only [SamePair]
      cases k <;> grind [EdgeKind.opposite]
    have hperm : (w.split u v k).nearby v = [w.next] := by
      refine List.perm_singleton.1 ((List.perm_ext_iff_of_nodup nodup_nearby (by simp)).2 fun x => ?_)
      rw [hmem, List.mem_singleton]
    rw [hperm]
    rfl
  · have hvs : v ≠ s := fun h => hs.not_isEnd (h ▸ hv')
    rw [hval.nearby_split hs.has ht.has hne hv'.has hvs hvt, ← hw.simple.degree_eq]
    exact hw.degree_end v hv'

theorem OnGrid.split (h : w.OnGrid D) : (w.split s t k).OnGrid D := fun u => by
  rw [phase_split, Function.update_apply]
  split
  · exact Phase.onGrid_zero
  · exact h u

/-- The sum over the bit of a spider on an edge. -/
theorem sum_value (k : EdgeKind) : ∃ c : ℂ, c ≠ 0 ∧ ∀ x y,
    EdgeKind.hadamard.value x false * k.opposite.value false y +
      EdgeKind.hadamard.value x true * k.opposite.value true y = c * k.value x y := by
  cases k with
  | plain =>
    refine ⟨2, two_ne_zero, fun x y => ?_⟩
    cases x <;> cases y <;> norm_num [EdgeKind.value, EdgeKind.opposite]
  | hadamard =>
    refine ⟨1, one_ne_zero, fun x y => ?_⟩
    cases x <;> cases y <;> norm_num [EdgeKind.value, EdgeKind.opposite]

/-- Putting a spider on an edge changes what the diagram denotes by a scalar only. -/
theorem Simple.amplitude_split (hw : w.Simple) (hs : w.Has s) (ht : w.Has t) (hst : s ≠ t)
    (hk : w.link s t = some k) (hτ : τ w.next = 1) :
    Proportional (w.network τ).amplitude ((w.split s t k).network τ).amplitude := by
  have hval := hw.valid
  have hcut : (w.cut s t).Valid := hval.setCount hs ht hst _
  have hsn := hval.ne_next hs
  have htn := hval.ne_next ht
  have hasn : ((w.cut s t).addSpider .zero).Has w.next := by
    rw [Has, kind_addSpider]
    exact congrArg Option.isSome (update_self (f := w.kind) ..)
  have hasold {u : Vertex} (hu : w.Has u) : ((w.cut s t).addSpider .zero).Has u := by
    rw [Has, kind_addSpider]
    exact (congrArg Option.isSome (update_of_ne (hval.ne_next hu) ..)).trans hu
  have hadd := hcut.addSpider .zero
  have hadd' := hadd.setCount (hasold hs) hasn hsn fun k' =>
    ((w.cut s t).addSpider .zero).count s w.next k' + if EdgeKind.hadamard = k' then 1 else 0
  have hsplit : (w.split s t k).Valid := hadd'.setCount hasn (hasold ht) htn.symm _
  have hmem : w.next ∈ ((w.split s t k).network τ).inner :=
    hsplit.mem_inner.2 (isZ_split.2 (.inr rfl))
  have hinner : (w.network τ).inner = ((w.split s t k).network τ).inner.erase w.next := by
    ext u
    rw [Finset.mem_erase, hval.mem_inner, hsplit.mem_inner, isZ_split]
    constructor
    · exact fun h => ⟨hval.ne_next h.has, .inl h⟩
    · exact fun h => h.2.resolve_right h.1
  have hfresh (b : Bits) (x : Bool) : ((w.cut s t).network τ).weight (update b w.next x) =
      ((w.cut s t).network τ).weight b :=
    Network.weight_congr
      (fun v hv => update_of_ne (hval.ne_next (hcut.mem_inner.1 hv).has) _ _)
      fun v hv => update_of_ne (Nat.ne_of_lt hv) _ _
  have hweight (b : Bits) (x : Bool) :
      ((w.split s t k).network τ).weight (update b w.next x) =
        ((w.cut s t).network τ).weight b *
          (EdgeKind.hadamard.value (b s) x * k.opposite.value x (b t)) := by
    have h₁ := hcut.weight_addSpider (τ := τ) (b := update b w.next x) .zero
    have h₂ := hadd.weight_addEdges (τ := τ) (b := update b w.next x) (hasold hs) hasn hsn
      .hadamard 1
    have h₃ := hadd'.weight_addEdges (τ := τ) (b := update b w.next x) hasn (hasold ht) htn.symm
      k.opposite 1
    have hone : (if update b w.next x (w.cut s t).next then Phase.zero.unit * τ (w.cut s t).next
        else 1) = 1 := by
      rw [show (w.cut s t).next = w.next from rfl, hτ, Phase.unit_zero]
      simp
    rw [hone, hfresh, mul_one] at h₁
    rw [Web.split]
    refine h₃.trans ?_
    rw [Web.addEdges] at h₂
    rw [h₂, h₁, update_self, update_of_ne hsn, update_of_ne htn, pow_one, pow_one, mul_assoc]
  obtain ⟨c, hc, hsum⟩ := sum_value k
  refine Proportional.symm ⟨c, hc, fun b => ?_⟩
  refine Network.amplitude_eq_of_sum hmem hinner (fun b => ?_) b
  rw [hweight, hweight, ← mul_add, hsum, hval.weight_cut hs ht hst, hw.noParallel.bond_eq, hk]
  ring

/-! ### Clearing a spider -/

/-- Puts a new spider between a spider and the end of a wire, if they are joined. -/
def shiftBoundary (v : Vertex) (w : Web) (t : Vertex) : Web :=
  match w.link v t with
  | none => w
  | some k => w.split v t k

/-- Moves the ends next to a spider away. -/
def shiftBoundaries (w : Web) (v : Vertex) : Web := (w.ends v).foldl (shiftBoundary v) w

/-- Moves a phase other than 0 or pi onto a leaf behind a new spider. -/
def shiftPhase (w : Web) (v : Vertex) : Web :=
  if (w.phase v).isPauli then w
  else (((((w.addSpider .zero).addSpider (w.phase v)).setPhase v .zero).addEdges v w.next
    .hadamard 1).addEdges w.next (w.next + 1) .hadamard 1).moveCarrier v (w.next + 1)

/-- Moves off what is in the way of a spider. -/
def clear (w : Web) (v : Vertex) : Web := (w.shiftPhase v).shiftBoundaries v

/-- Nothing is in the way of a pivot at a spider: its phase is 0 or pi, and it is next to Z spiders
    only. -/
structure Cleared (w : Web) (v : Vertex) : Prop where
  isZ : w.IsZ v
  phase : (w.phase v).isPauli
  nearby : ∀ u ∈ w.nearby v, w.IsZ u

/-- What edits at a spider leave as it is. -/
structure Frame (v : Vertex) (w w' : Web) : Prop where
  next : w.next ≤ w'.next
  kind : ∀ u, w.Has u → w'.kind u = w.kind u
  inputs : w'.inputs = w.inputs
  outputs : w'.outputs = w.outputs
  phase : ∀ u, w.IsZ u → u ≠ v → w'.phase u = w.phase u
  nearby : ∀ u, w.IsZ u → u ≠ v → w'.nearby u = w.nearby u
  keep : ∀ u, w.IsZ u → u ∈ w.nearby v → u ∈ w'.nearby v

namespace Frame

variable {w' w'' : Web}

theorem refl (v : Vertex) (w : Web) : Frame v w w :=
  ⟨le_rfl, fun _ _ => rfl, rfl, rfl, fun _ _ _ => rfl, fun _ _ _ => rfl, fun _ _ h => h⟩

theorem isZ (h : Frame v w w') (hu : w.IsZ u) : w'.IsZ u := (h.kind u hu.has).trans hu

theorem isEnd (h : Frame v w w') (hu : w.IsEnd u) : w'.IsEnd u := by
  rw [IsEnd, h.kind u hu.has]
  exact hu

theorem has (h : Frame v w w') (hu : w.Has u) : w'.Has u := by
  rw [Has, h.kind u hu]
  exact hu

theorem trans (h : Frame v w w') (h' : Frame v w' w'') : Frame v w w'' where
  next := h.next.trans h'.next
  kind u hu := (h'.kind u (h.has hu)).trans (h.kind u hu)
  inputs := h'.inputs.trans h.inputs
  outputs := h'.outputs.trans h.outputs
  phase u hu hne := (h'.phase u (h.isZ hu) hne).trans (h.phase u hu hne)
  nearby u hu hne := (h'.nearby u (h.isZ hu) hne).trans (h.nearby u hu hne)
  keep u hu hm := h'.keep u (h.isZ hu) (h.keep u hu hm)

/-- Edits at a spider leave another one cleared. -/
theorem cleared (h : Frame v w w') (hu : w.Cleared u) (hne : u ≠ v) : w'.Cleared u where
  isZ := h.isZ hu.isZ
  phase := by
    rw [h.phase u hu.isZ hne]
    exact hu.phase
  nearby n hn := by
    rw [h.nearby u hu.isZ hne] at hn
    exact h.isZ (hu.nearby n hn)

end Frame

/-! ### Ends next to a spider -/

theorem InForm.frame_split (hw : w.InForm) (hv : w.IsZ v) (ht : w.IsEnd t) :
    Frame v w (w.split v t k) := by
  have hval := hw.simple.valid
  have hne : v ≠ t := fun h => hv.not_isEnd (h ▸ ht)
  refine ⟨Nat.le_succ _, fun u hu => update_of_ne (hval.ne_next hu) _ _, rfl, rfl,
    fun u hu _ => update_of_ne (hval.ne_next hu.has) _ _, fun u hu huv => ?_, fun u hu hm => ?_⟩
  · exact hval.nearby_split hv.has ht.has hne hu.has huv fun h => hu.not_isEnd (h ▸ ht)
  · rw [hval.mem_nearby_split hv.has ht.has hne (hw.simple.split hv ht).valid]
    exact .inl ⟨hm, fun h => hu.not_isEnd (h ▸ ht)⟩

/-- Moving one end away from a spider. -/
theorem InForm.shiftBoundary (hw : w.InForm) (hv : w.IsZ v) (ht : w.IsEnd t) :
    (Web.shiftBoundary v w t).InForm ∧ Frame v w (Web.shiftBoundary v w t) ∧
      Proportional w.amplitude (Web.shiftBoundary v w t).amplitude ∧
      ∀ u ∈ (Web.shiftBoundary v w t).nearby v, (Web.shiftBoundary v w t).IsEnd u →
        u ∈ w.nearby v ∧ w.IsEnd u ∧ u ≠ t := by
  have hval := hw.simple.valid
  have hne : v ≠ t := fun h => hv.not_isEnd (h ▸ ht)
  rw [Web.shiftBoundary]
  cases hk : w.link v t with
  | none =>
    refine ⟨hw, .refl v w, .refl _, fun u hu he => ⟨hu, he, ?_⟩⟩
    rintro rfl
    rw [link_eq_none_iff] at hk
    rw [hval.mem_nearby, hk] at hu
    exact Nat.lt_irrefl 0 hu
  | some k =>
    refine ⟨hw.split hv ht hk, hw.frame_split hv ht,
      hw.simple.amplitude_split hv.has ht.has hne hk rfl, fun u hu he => ?_⟩
    rw [hval.isEnd_split] at he
    rw [hval.mem_nearby_split hv.has ht.has hne (hw.simple.split hv ht).valid] at hu
    rcases hu with hu | rfl
    · exact ⟨hu.1, he, hu.2⟩
    · exact absurd he.has hval.not_has_next

theorem OnGrid.shiftBoundary (hg : w.OnGrid D) : (Web.shiftBoundary v w t).OnGrid D := by
  rw [Web.shiftBoundary]
  split
  · exact hg
  · exact hg.split

/-- Moving ends away, one after the other. -/
private theorem InForm.shiftList (hw : w.InForm) (hv : w.IsZ v) {ts : List Vertex}
    (hts : ∀ t ∈ ts, w.IsEnd t) (hall : ∀ u ∈ w.nearby v, w.IsEnd u → u ∈ ts) :
    (ts.foldl (Web.shiftBoundary v) w).InForm ∧ Frame v w (ts.foldl (Web.shiftBoundary v) w) ∧
      Proportional w.amplitude (ts.foldl (Web.shiftBoundary v) w).amplitude ∧
      ∀ u ∈ (ts.foldl (Web.shiftBoundary v) w).nearby v,
        (ts.foldl (Web.shiftBoundary v) w).IsZ u := by
  induction ts generalizing w with
  | nil =>
    refine ⟨hw, .refl v w, .refl _, fun u hu => ?_⟩
    refine (hw.simple.colour u (hw.simple.valid.has_of_mem_nearby hu)).resolve_right fun he => ?_
    simpa using hall u hu he
  | cons t rest ih =>
    obtain ⟨hw₁, hf₁, hp₁, hn₁⟩ := hw.shiftBoundary hv (hts t List.mem_cons_self)
    obtain ⟨hw₂, hf₂, hp₂, hn₂⟩ := ih hw₁ (hf₁.isZ hv)
      (fun u hu => hf₁.isEnd (hts u (List.mem_cons_of_mem t hu))) fun u hu he => by
        obtain ⟨hm, he', hne⟩ := hn₁ u hu he
        exact (List.mem_cons.1 (hall u hm he')).resolve_left hne
    exact ⟨hw₂, hf₁.trans hf₂, hp₁.trans hp₂, hn₂⟩

/-- Moving all ends away from a spider. -/
theorem InForm.shiftBoundaries (hw : w.InForm) (hv : w.IsZ v) :
    (w.shiftBoundaries v).InForm ∧ Frame v w (w.shiftBoundaries v) ∧
      Proportional w.amplitude (w.shiftBoundaries v).amplitude ∧
      ∀ u ∈ (w.shiftBoundaries v).nearby v, (w.shiftBoundaries v).IsZ u :=
  hw.shiftList hv (fun t ht => by simpa using (List.mem_filter.1 ht).2) fun u hu he =>
    List.mem_filter.2 ⟨hu, by simpa using he⟩

theorem phase_shiftBoundary (hw : w.Valid) (hu : w.Has u) :
    (Web.shiftBoundary v w t).phase u = w.phase u := by
  rw [Web.shiftBoundary]
  split
  · rfl
  · exact update_of_ne (hw.ne_next hu) _ _

private theorem InForm.phase_shiftList (hw : w.InForm) (hv : w.IsZ v) {ts : List Vertex}
    (hts : ∀ t ∈ ts, w.IsEnd t) :
    (ts.foldl (Web.shiftBoundary v) w).phase v = w.phase v := by
  induction ts generalizing w with
  | nil => rfl
  | cons t rest ih =>
    obtain ⟨hw₁, hf₁, -, -⟩ := hw.shiftBoundary hv (hts t List.mem_cons_self)
    refine (ih hw₁ (hf₁.isZ hv) fun u hu => hf₁.isEnd (hts u (List.mem_cons_of_mem t hu))).trans ?_
    exact phase_shiftBoundary hw.simple.valid hv.has

theorem InForm.phase_shiftBoundaries (hw : w.InForm) (hv : w.IsZ v) :
    (w.shiftBoundaries v).phase v = w.phase v :=
  hw.phase_shiftList hv fun t ht => by simpa using (List.mem_filter.1 ht).2

theorem OnGrid.shiftBoundaries (hg : w.OnGrid D) : (w.shiftBoundaries v).OnGrid D := by
  rw [Web.shiftBoundaries]
  generalize w.ends v = ts
  induction ts generalizing w with
  | nil => exact hg
  | cons t rest ih => exact ih hg.shiftBoundary

/-! ### Phases on leaves -/

theorem InForm.moveCarrier (hw : w.InForm) (s t : Vertex) : (w.moveCarrier s t).InForm := by
  rw [Web.moveCarrier]
  split
  · exact hw
  · exact ⟨⟨⟨hw.simple.valid.lt, hw.simple.valid.symm, hw.simple.valid.self, hw.simple.valid.has⟩,
      hw.simple.colour, hw.simple.plain, hw.simple.single⟩, hw.degree_end, hw.inputs_nodup,
      hw.outputs_nodup, hw.mem_inputs, hw.mem_outputs⟩

theorem moveCarrier_fields (w : Web) (s t : Vertex) :
    (w.moveCarrier s t).next = w.next ∧ (w.moveCarrier s t).kind = w.kind ∧
      (w.moveCarrier s t).phase = w.phase ∧ (w.moveCarrier s t).count = w.count ∧
      (w.moveCarrier s t).inputs = w.inputs ∧ (w.moveCarrier s t).outputs = w.outputs := by
  rw [moveCarrier]
  split <;> exact ⟨rfl, rfl, rfl, rfl, rfl, rfl⟩

theorem nearby_moveCarrier : (w.moveCarrier s t).nearby u = w.nearby u := by
  rw [moveCarrier]
  split <;> rfl

/-- The web with a phase moved onto a leaf, before its carrier is told. -/
private def gadgetWeb (w : Web) (v : Vertex) : Web :=
  ((((w.addSpider .zero).addSpider (w.phase v)).setPhase v .zero).addEdges v w.next
    .hadamard 1).addEdges w.next (w.next + 1) .hadamard 1

private theorem gadget_steps (hw : w.InForm) (hv : w.IsZ v) :
    (((w.addSpider .zero).addSpider (w.phase v)).setPhase v .zero).InForm ∧
    ((((w.addSpider .zero).addSpider (w.phase v)).setPhase v .zero).addEdges v w.next
      .hadamard 1).InForm ∧ (w.gadgetWeb v).InForm := by
  have hval := hw.simple.valid
  have hvn := hval.ne_next hv.has
  have h₁ := ((hw.addSpider .zero).addSpider (w.phase v)).setPhase v .zero
  have hz {u : Vertex} (hu : w.IsZ u ∨ u = w.next ∨ u = w.next + 1) :
      (((w.addSpider .zero).addSpider (w.phase v)).setPhase v .zero).IsZ u :=
    isZ_addSpider (p := w.phase v) |>.2 (hu.elim (fun h => .inl (isZ_addSpider.2 (.inl h)))
      fun h => h.elim (fun h => .inl (isZ_addSpider.2 (.inr h))) .inr)
  have hfree (u x : Vertex) (hu : ¬w.Has u) : w.joins u x = 0 := hval.joins_eq_zero hu
  have hnot : ¬w.Has (w.next + 1) := fun h => hval.ne_next_succ h rfl
  have h₂ := h₁.addEdge (hz (.inl hv)) (hz (.inr (.inl rfl))) hvn (by
    rw [h₁.simple.valid.joins_comm]
    exact hfree _ _ hval.not_has_next)
  refine ⟨h₁, h₂, h₂.addEdge (hz (.inr (.inl rfl))) (hz (.inr (.inr rfl)))
    (Nat.ne_of_lt (Nat.lt_succ_self _)) ?_⟩
  have hne : ¬SamePair w.next (w.next + 1) v w.next := by
    rintro (⟨rfl, -⟩ | ⟨-, h⟩)
    · exact hvn rfl
    · exact hnot (h ▸ hv.has)
  have hz := hfree w.next (w.next + 1) hval.not_has_next
  rw [joins, count_addEdges, count_addEdges, if_neg hne, if_neg hne]
  exact hz

/-- The edges of a spider after its phase was moved onto a leaf. -/
private theorem mem_nearby_gadget (hw : w.InForm) (hv : w.IsZ v) (hu : w.Has u) {x : Vertex} :
    x ∈ (w.gadgetWeb v).nearby u ↔ x ∈ w.nearby u ∨ u = v ∧ x = w.next := by
  have hval := hw.simple.valid
  have hun := hval.ne_next hu
  have hun' := hval.ne_next_succ hu
  have hvn := hval.ne_next hv.has
  have hsame : ¬SamePair u x w.next (w.next + 1) := by
    rw [SamePair]
    tauto
  have hcount (k : EdgeKind) : (w.gadgetWeb v).count u x k =
      if SamePair u x v w.next then w.count v w.next k + if EdgeKind.hadamard = k then 1 else 0
      else w.count u x k := by
    rw [gadgetWeb, count_addEdges, if_neg hsame, count_addEdges]
    rfl
  rw [(gadget_steps hw hv).2.2.simple.valid.mem_nearby, hval.mem_nearby, joins, hcount, hcount,
    joins]
  by_cases h : SamePair u x v w.next
  · rw [if_pos h, if_pos h]
    rcases h with ⟨rfl, rfl⟩ | ⟨h, -⟩
    · simp
    · exact absurd h hun
  · rw [if_neg h, if_neg h]
    have : ¬(u = v ∧ x = w.next) := fun hc => h (.inl hc)
    simp [this]

theorem InForm.shiftPhase (hw : w.InForm) (hv : w.IsZ v) :
    (w.shiftPhase v).InForm ∧ Frame v w (w.shiftPhase v) ∧ ((w.shiftPhase v).phase v).isPauli := by
  rw [Web.shiftPhase]
  split
  · next h => exact ⟨hw, .refl v w, h⟩
  · next h =>
    have hval := hw.simple.valid
    have hform := (gadget_steps hw hv).2.2
    obtain ⟨hn, hk, hp, -, hi, ho⟩ := (w.gadgetWeb v).moveCarrier_fields v (w.next + 1)
    change ((w.gadgetWeb v).moveCarrier v (w.next + 1)).InForm ∧
      Frame v w ((w.gadgetWeb v).moveCarrier v (w.next + 1)) ∧
      (((w.gadgetWeb v).moveCarrier v (w.next + 1)).phase v).isPauli = true
    have hne {u : Vertex} (hu : w.Has u) : u ≠ w.next ∧ u ≠ w.next + 1 :=
      ⟨hval.ne_next hu, hval.ne_next_succ hu⟩
    refine ⟨hform.moveCarrier _ _, ⟨?_, fun u hu => ?_, hi, ho, fun u hu huv => ?_,
      fun u hu huv => ?_, fun u hu hm => ?_⟩, ?_⟩
    · rw [hn]
      exact Nat.le_add_right w.next 2
    · rw [hk]
      exact (update_of_ne (hne hu).2 _ _).trans (update_of_ne (hne hu).1 _ _)
    · rw [hp]
      exact (update_of_ne huv _ _).trans
        ((update_of_ne (hne hu.has).2 _ _).trans (update_of_ne (hne hu.has).1 _ _))
    · rw [nearby_moveCarrier]
      refine List.Perm.eq_of_pairwise
        (fun _ _ _ _ h₁ h₂ => absurd h₂ (Nat.lt_asymm h₁)) pairwise_nearby pairwise_nearby
        ((List.perm_ext_iff_of_nodup nodup_nearby nodup_nearby).2 fun x => ?_)
      rw [mem_nearby_gadget hw hv hu.has]
      simp [huv]
    · rw [nearby_moveCarrier, mem_nearby_gadget hw hv hv.has]
      exact .inl hm
    · have : (w.gadgetWeb v).phase v = .zero :=
        update_self (β := fun _ => Phase) v Phase.zero _
      rw [hp, this]
      rfl

/-- A spider next to Z spiders only stays so when its phase is moved onto a leaf. -/
theorem InForm.isZ_nearby_shiftPhase (hw : w.InForm) (hv : w.IsZ v)
    (hns : ∀ x ∈ w.nearby v, w.IsZ x) :
    ∀ x ∈ (w.shiftPhase v).nearby v, (w.shiftPhase v).IsZ x := by
  intro x hx
  obtain ⟨-, hframe, -⟩ := hw.shiftPhase hv
  by_cases hp : (w.phase v).isPauli
  · rw [Web.shiftPhase, if_pos hp] at hx ⊢
    exact hns x hx
  · have hx' : x ∈ ((w.gadgetWeb v).moveCarrier v (w.next + 1)).nearby v := by
      rwa [Web.shiftPhase, if_neg hp] at hx
    rw [nearby_moveCarrier, mem_nearby_gadget hw hv hv.has] at hx'
    rcases hx' with hx' | ⟨-, rfl⟩
    · exact hframe.isZ (hns x hx')
    · have hkind := ((w.gadgetWeb v).moveCarrier_fields v (w.next + 1)).2.1
      rw [Web.shiftPhase, if_neg hp, IsZ]
      refine (congrFun hkind w.next).trans ?_
      exact (update_of_ne (Nat.ne_of_lt (Nat.lt_succ_self _)) _ _).trans (update_self _ _ _)

/-- Where the two new spiders are when a phase is moved onto a leaf: the first one is next to the
    spider, and the leaf hangs off it. -/
theorem InForm.nearby_shiftPhase (hw : w.InForm) (hv : w.IsZ v) (hp : ¬(w.phase v).isPauli) :
    (∀ x, x ∈ (w.shiftPhase v).nearby v ↔ x ∈ w.nearby v ∨ x = w.next) ∧
      w.next + 1 ∈ (w.shiftPhase v).nearby w.next ∧
        ∀ x ∈ (w.shiftPhase v).nearby (w.next + 1), x = w.next := by
  have hval := hw.simple.valid
  have hval' := (gadget_steps hw hv).2.2.simple.valid
  have hcount (x : Vertex) (k : EdgeKind) : (w.gadgetWeb v).count (w.next + 1) x k =
      if SamePair (w.next + 1) x w.next (w.next + 1) ∧ EdgeKind.hadamard = k then 1 else 0 := by
    have hfree : ((w.addSpider .zero).addSpider (w.phase v)).count (w.next + 1) x k = 0 :=
      (hval.addSpider .zero).count_next x k
    have hne : ¬SamePair (w.next + 1) x v w.next := by
      rintro (⟨h, -⟩ | ⟨h, -⟩)
      · exact hval.ne_next_succ hv.has h.symm
      · exact Nat.succ_ne_self _ h
    rw [gadgetWeb, (gadget_steps hw hv).2.1.simple.valid.count_addEdges_eq, count_addEdges, if_neg hne]
    exact (congrArg (· + _) hfree).trans (Nat.zero_add _)
  rw [Web.shiftPhase, if_neg hp]
  change (∀ x, x ∈ ((w.gadgetWeb v).moveCarrier v (w.next + 1)).nearby v ↔ _) ∧
    w.next + 1 ∈ ((w.gadgetWeb v).moveCarrier v (w.next + 1)).nearby w.next ∧
      ∀ x ∈ ((w.gadgetWeb v).moveCarrier v (w.next + 1)).nearby (w.next + 1), x = w.next
  simp only [nearby_moveCarrier]
  refine ⟨fun x => ?_, ?_, fun x hx => ?_⟩
  · rw [mem_nearby_gadget hw hv hv.has]
    simp
  · rw [hval'.mem_nearby_comm, hval'.mem_nearby, joins, hcount, hcount]
    simp [SamePair]
  · rw [hval'.mem_nearby, joins, hcount, hcount] at hx
    by_contra hne
    simp [SamePair, hne] at hx

theorem OnGrid.shiftPhase (hg : w.OnGrid D) : (Web.shiftPhase w v).OnGrid D := by
  rw [Web.shiftPhase]
  split
  · exact hg
  · intro u
    rw [(moveCarrier_fields _ _ _).2.2.1]
    exact ((hg.addSpider Phase.onGrid_zero).addSpider (hg v)).setPhase Phase.onGrid_zero v u

theorem Valid.setPhase_addSpider (hw : w.Valid) (hv : w.Has v) (p q : Phase) :
    (w.addSpider p).setPhase v q = (w.setPhase v q).addSpider p := by
  refine Web.ext rfl rfl ?_ rfl rfl rfl rfl
  exact Function.update_comm (hw.ne_next hv).symm _ _ _

/-- The sum over a leaf and the spider it hangs off. -/
theorem sum_gadget (c : ℂ) (x : Bool) :
    (EdgeKind.hadamard.value x false * EdgeKind.hadamard.value false false * 1 +
        EdgeKind.hadamard.value x false * EdgeKind.hadamard.value false true * c) +
      (EdgeKind.hadamard.value x true * EdgeKind.hadamard.value true false * 1 +
        EdgeKind.hadamard.value x true * EdgeKind.hadamard.value true true * c) =
      2 * if x then c else 1 := by
  cases x <;> simp [EdgeKind.value] <;> ring

/-- The weight of a web with a phase moved onto a leaf, by that of the web without the phase. -/
private theorem weight_gadget (hw : w.InForm) (hv : w.IsZ v) (haxle : τ w.next = 1) (b : Bits)
    (x y : Bool) : ((w.gadgetWeb v).network τ).weight (update (update b w.next x) (w.next + 1) y) =
      ((w.setPhase v .zero).network τ).weight b *
        (EdgeKind.hadamard.value (b v) x * EdgeKind.hadamard.value x y *
          if y then (w.phase v).unit * τ (w.next + 1) else 1) := by
  have hval := hw.simple.valid
  have hvn := hval.ne_next hv.has
  have hvn' := hval.ne_next_succ hv.has
  have hnn : w.next ≠ w.next + 1 := Nat.ne_of_lt (Nat.lt_succ_self _)
  obtain ⟨w₂, hw₂⟩ : ∃ w₂, w₂ = ((w.addSpider .zero).addSpider (w.phase v)).setPhase v .zero :=
    ⟨_, rfl⟩
  have hgadget : w.gadgetWeb v = (w₂.addEdges v w.next .hadamard 1).addEdges w.next (w.next + 1)
      .hadamard 1 := by
    rw [hw₂]
    rfl
  have hval₂ : w₂.Valid := hw₂ ▸ (gadget_steps hw hv).1.simple.valid
  have hval₃ : (w₂.addEdges v w.next .hadamard 1).Valid :=
    hw₂ ▸ (gadget_steps hw hv).2.1.simple.valid
  have heq : w₂ = ((w.setPhase v .zero).addSpider .zero).addSpider (w.phase v) := by
    rw [hw₂, (hval.addSpider .zero).setPhase_addSpider, hval.setPhase_addSpider hv.has]
    rw [Has, kind_addSpider, update_of_ne hvn]
    exact hv.has
  have hhas {u : Vertex} (hu : w.Has u ∨ u = w.next ∨ u = w.next + 1) : w₂.Has u := by
    rw [heq, Has, kind_addSpider, kind_addSpider, Function.update_apply, Function.update_apply]
    split
    · rfl
    split
    · rfl
    · next h₁ h₂ => exact hu.resolve_right fun h => h.elim h₂ h₁
  have hval₀ := hval.setPhase v .zero
  have hweight₂ (b : Bits) : (w₂.network τ).weight b =
      ((w.setPhase v .zero).network τ).weight b *
        if b (w.next + 1) then (w.phase v).unit * τ (w.next + 1) else 1 := by
    have hone : (if b w.next then Phase.zero.unit * τ w.next else 1) = 1 := by
      rw [haxle, Phase.unit_zero]
      simp
    rw [heq, (hval₀.addSpider .zero).weight_addSpider, hval₀.weight_addSpider, next_setPhase, hone,
      mul_one]
    rfl
  have hfresh : ((w.setPhase v .zero).network τ).weight
      (update (update b w.next x) (w.next + 1) y) = ((w.setPhase v .zero).network τ).weight b := by
    have hold (u : Vertex) (hu : u < w.next) :
        update (update b w.next x) (w.next + 1) y u = b u := by
      rw [update_of_ne (Nat.ne_of_lt (Nat.lt_succ_of_lt hu)), update_of_ne (Nat.ne_of_lt hu)]
    exact Network.weight_congr (fun u hu => hold u (hval.lt u (hval₀.mem_inner.1 hu).has)) hold
  rw [hgadget, hval₃.weight_addEdges (hhas (.inr (.inl rfl))) (hhas (.inr (.inr rfl))) hnn,
    hval₂.weight_addEdges (hhas (.inl hv.has)) (hhas (.inr (.inl rfl))) hvn, hweight₂, hfresh,
    pow_one, pow_one, update_self, update_of_ne hnn, update_self, update_of_ne hvn',
    update_of_ne hvn]
  ring

/-- Moving a phase onto a leaf, with its twist, keeps what the diagram denotes up to a scalar. -/
theorem InForm.amplitude_shiftPhase (hw : w.InForm) (hv : w.IsZ v) {τ' : Vertex → ℂ}
    (hp : ¬(w.phase v).isPauli) (hoff : ∀ u, w.IsZ u → u ≠ v → τ' u = τ u) (hat : τ' v = 1)
    (haxle : τ' w.next = 1) (hleaf : τ' (w.next + 1) = τ v) :
    Proportional (w.network τ).amplitude ((w.shiftPhase v).network τ').amplitude := by
  have hval := hw.simple.valid
  have hval₀ := hval.setPhase v .zero
  have hgval := (gadget_steps hw hv).2.2.simple.valid
  have hnn : w.next ≠ w.next + 1 := Nat.ne_of_lt (Nat.lt_succ_self _)
  have hshift : (w.shiftPhase v).network τ' = (w.gadgetWeb v).network τ' := by
    obtain ⟨hn, hk, hp', hc, -, -⟩ := (w.gadgetWeb v).moveCarrier_fields v (w.next + 1)
    rw [Web.shiftPhase, if_neg hp]
    exact network_congr hn hk hp' hc
  have hweight (b : Bits) : (w.network τ).weight b = ((w.setPhase v .zero).network τ').weight b *
      if b v then (w.phase v).unit * τ v else 1 := by
    have hinner : (w.network τ).inner = ((w.setPhase v .zero).network τ').inner :=
      inner_congr (w := w.setPhase v .zero) rfl rfl
    refine Network.weight_mul_factor hinner rfl rfl (hval₀.mem_inner.2 hv) ?_ fun u hu hne => ?_
    · rw [factor_network, factor_network, hat, phase_setPhase, update_self, Phase.unit_zero]
      ring
    · rw [factor_network, factor_network, hoff u (hval₀.mem_inner.1 hu) hne, phase_setPhase,
        update_of_ne hne]
  have hgz {u : Vertex} : (w.gadgetWeb v).IsZ u ↔ (w.IsZ u ∨ u = w.next) ∨ u = w.next + 1 :=
    (isZ_addSpider (p := w.phase v)).trans (or_congr isZ_addSpider Iff.rfl)
  have hleafmem : w.next + 1 ∈ ((w.gadgetWeb v).network τ').inner :=
    hgval.mem_inner.2 (hgz.2 (.inr rfl))
  have haxlemem : w.next ∈ ((w.gadgetWeb v).network τ').inner.erase (w.next + 1) :=
    Finset.mem_erase.2 ⟨hnn, hgval.mem_inner.2 (hgz.2 (.inl (.inr rfl)))⟩
  have hinner : (w.network τ).inner =
      (((w.gadgetWeb v).network τ').inner.erase (w.next + 1)).erase w.next := by
    ext u
    rw [Finset.mem_erase, Finset.mem_erase, hval.mem_inner, hgval.mem_inner, hgz]
    constructor
    · exact fun h => ⟨hval.ne_next h.has, hval.ne_next_succ h.has, .inl (.inl h)⟩
    · rintro ⟨h₁, h₂, (h | h) | h⟩
      · exact h
      · exact absurd h h₁
      · exact absurd h h₂
  rw [hshift]
  refine Proportional.symm ⟨2, two_ne_zero, Network.amplitude_eq_of_sum_pair hleafmem haxlemem
    hinner fun b => ?_⟩
  rw [weight_gadget hw hv haxle, weight_gadget hw hv haxle, weight_gadget hw hv haxle,
    weight_gadget hw hv haxle, hweight, hleaf]
  have := sum_gadget ((w.phase v).unit * τ v) (b v)
  rw [← mul_add, ← mul_add, ← mul_add]
  simp only [Bool.false_eq_true, if_false, if_true] at this ⊢
  rw [this]
  ring

end Web

end ZXRewriting
