import ZXRewriting.Proofs.GraphLike.Shift
import ZXRewriting.Proofs.Semantics.Unitary

/-!
# What is at the ends of wires

A spider that is wired to an end has the bit of the end (`Web.InForm.weight_mul_wire`). So what is
there acts on the bits at the ends: a Hadamard edge as a Hadamard gate
(`Web.InForm.amplitude_setKind`), a phase as a rotation (`Web.InForm.amplitude_setPhase`), a
Hadamard edge between two such spiders as a CZ gate (`Web.InForm.amplitude_cut`), and adding the
edges of one to another as a CNOT gate (`Web.InForm.amplitude_toggleAll`). All of this holds with
other factors of the spiders as well.
-/

namespace ZXRewriting

open Function (update update_self update_of_ne)
open Multigraph (SamePair)

/-- A sum over the bit at a vertex, with another bit added to it. -/
theorem sumOver_xor {zs : Finset Vertex} {f : Bits → ℂ} {b : Bits} {t v : Vertex} (hv : v ∈ zs)
    (ht : t ∉ zs) : sumOver zs (fun b => f (update b v (b v ^^ b t))) b = sumOver zs f b := by
  have hne : t ≠ v := fun h => ht (h ▸ hv)
  have hv' := Finset.notMem_erase v zs
  rw [← Finset.insert_erase hv, sumOver_insert hv', sumOver_insert hv']
  refine sumOver_congr fun b' _ => ?_
  simp only [update_self, update_of_ne hne, Function.update_idem]
  cases b' t <;> simp [add_comm]

namespace Web

variable {w : Web} {s t u v i : Vertex} {k : EdgeKind} {q : ℕ} {D : ℕ} {τ : Vertex → ℂ} {b : Bits}

/-! ### The end of a wire -/

theorem Valid.ne_end (hw : w.Valid) (hk : w.link v t = some k) : v ≠ t := by
  rintro rfl
  have : 0 < w.joins v v := by
    rw [← link_isSome_iff, hk]
    rfl
  rw [hw.joins_self] at this
  exact Nat.lt_irrefl 0 this

theorem Valid.has_of_link (hw : w.Valid) (hk : w.link v t = some k) : w.Has v ∧ w.Has t :=
  hw.has_of_joins (by
    rw [← link_isSome_iff, hk]
    rfl)

/-- The only neighbour of an end. -/
theorem InForm.nearby_end (hw : w.InForm) (ht : w.IsEnd t) (hv : v ∈ w.nearby t) :
    w.nearby t = [v] := by
  obtain ⟨u, hu⟩ := hw.exists_nearby_eq ht
  rw [hu, List.mem_singleton] at hv
  rw [hu, hv]

theorem InForm.eq_of_link (hw : w.InForm) (ht : w.IsEnd t) {k' : EdgeKind}
    (hv : w.link v t = some k) (hu : w.link u t = some k') : v = u := by
  have hval := hw.simple.valid
  have h₁ := hw.nearby_end ht (hval.mem_nearby_comm.1 (hval.mem_nearby_of_link hv))
  have h₂ := hval.mem_nearby_comm.1 (hval.mem_nearby_of_link hu)
  rw [h₁, List.mem_singleton] at h₂
  exact h₂.symm

theorem InForm.count_end (hw : w.InForm) (ht : w.IsEnd t) (hk : w.link v t = some k) (u : Vertex)
    (hu : u ≠ v) (k' : EdgeKind) : w.count t u k' = 0 := by
  have hval := hw.simple.valid
  have h := hw.nearby_end ht (hval.mem_nearby_comm.1 (hval.mem_nearby_of_link hk))
  have : u ∉ w.nearby t := by
    rw [h, List.mem_singleton]
    exact hu
  rw [hval.mem_nearby, joins_pos_iff] at this
  exact Nat.eq_zero_of_not_pos fun hpos => this ⟨k', hpos⟩

/-- Without its edge, the bit at an end does not matter. -/
theorem InForm.weight_cut_update (hw : w.InForm) (ht : w.IsEnd t) (hk : w.link v t = some k)
    (b : Bits) (x : Bool) :
    ((w.cut v t).network τ).weight (update b t x) = ((w.cut v t).network τ).weight b := by
  have hval := hw.simple.valid
  obtain ⟨hv, ht'⟩ := hval.has_of_link hk
  have hcut : (w.cut v t).Valid := hval.setCount hv ht' (hval.ne_end hk) _
  refine Network.weight_update_isolated (hcut.network τ) ?_
    (fun u => edge_network_eq_one fun k' => ?_) b x
  · rw [hcut.mem_inner]
    exact fun h => h.not_isEnd ht
  · rw [count_cut]
    split
    · rfl
    · next h =>
      refine hw.count_end ht hk u (fun hu => h ?_) k'
      rw [hu, SamePair]
      tauto

/-- The factor of the edge to an end. -/
theorem InForm.weight_cut (hw : w.InForm) (hk : w.link v t = some k) (b : Bits) :
    (w.network τ).weight b = ((w.cut v t).network τ).weight b * k.value (b v) (b t) := by
  have hval := hw.simple.valid
  obtain ⟨hv, ht'⟩ := hval.has_of_link hk
  rw [hval.weight_cut hv ht' (hval.ne_end hk), hw.simple.noParallel.bond_eq, hk]

/-- A spider that is wired to an end has its bit. -/
theorem InForm.weight_mul_wire (hw : w.InForm) (hk : w.link v t = some .plain) (f : Bool → ℂ)
    (b : Bits) : (w.network τ).weight b * f (b v) = (w.network τ).weight b * f (b t) := by
  rw [hw.weight_cut hk]
  by_cases h : b v = b t
  · rw [h]
  · simp [EdgeKind.value, h]

theorem IsEnd.notMem_inner (ht : w.IsEnd t) : t ∉ (w.network τ).inner := fun h =>
  (mem_inner_iff.1 h).2.not_isEnd ht

theorem InForm.isEnd_output (hw : w.InForm) (h : w.outputs[q]? = some t) : w.IsEnd t := by
  have := (hw.mem_outputs t).1 (List.mem_of_getElem? h)
  rw [IsEnd, this]
  rfl

theorem InForm.isEnd_input (hw : w.InForm) (h : i ∈ w.inputs) : w.IsEnd i := by
  rw [IsEnd, (hw.mem_inputs i).1 h]
  rfl

theorem InForm.isEnd_of_mem_outputs (hw : w.InForm) (ht : t ∈ w.outputs) : w.IsEnd t := by
  obtain ⟨q, hq⟩ := List.getElem?_of_mem ht
  exact hw.isEnd_output hq

theorem InForm.mem_of_isEnd (hw : w.InForm) (ht : w.IsEnd t) : t ∈ w.inputs ∨ t ∈ w.outputs := by
  rw [hw.mem_inputs, hw.mem_outputs]
  obtain ⟨kind, hk⟩ := Option.isSome_iff_exists.1 ht.has
  rw [IsEnd, hk] at ht
  rw [hk]
  cases kind <;> simp_all [SpiderKind.isBoundary]

/-! ### Hadamard gates -/

theorem Simple.setCount (hw : w.Simple) {m : EdgeKind → ℕ} (hs : w.Has s) (ht : w.Has t)
    (hst : s ≠ t) (hplain : w.IsZ s → w.IsZ t → m .plain = 0) (hone : m .plain + m .hadamard ≤ 1) :
    (w.setCount s t m).Simple := by
  refine ⟨hw.valid.setCount hs ht hst m, hw.colour, fun a b ha hb => ?_, fun a b => ?_⟩
  · simp only [Web.setCount]
    split
    · next h =>
      rcases h with ⟨rfl, rfl⟩ | ⟨rfl, rfl⟩
      · exact hplain ha hb
      · exact hplain hb ha
    · exact hw.plain a b ha hb
  · simp only [joins, Web.setCount]
    split
    · exact hone
    · exact hw.single a b

/-- Giving an edge another kind leaves the numbers of edges. -/
theorem Valid.joins_setKind {k' : EdgeKind} (hw : w.Valid) (a b : Vertex) :
    (w.setKind v t k').joins a b = w.joins a b := by
  simp only [joins, Web.setKind, Web.setCount]
  split
  · next h =>
    have : w.count v t .plain + w.count v t .hadamard =
        w.count a b .plain + w.count a b .hadamard := by
      rcases h with ⟨rfl, rfl⟩ | ⟨rfl, rfl⟩
      · rfl
      · rw [hw.symm, hw.symm _ _ .hadamard]
    rw [← this]
    cases k' <;> simp
  · rfl

/-- Edges of another kind. -/
theorem InForm.setKind (hw : w.InForm) (ht : w.IsEnd t) (hk : w.link v t = some k)
    (k' : EdgeKind) : (w.setKind v t k').InForm := by
  have hval := hw.simple.valid
  obtain ⟨hv, ht'⟩ := hval.has_of_link hk
  have hone := hw.simple.single v t
  have hsimple : (w.setKind v t k').Simple :=
    hw.simple.setCount hv ht' (hval.ne_end hk) (fun _ hz => absurd ht hz.not_isEnd) (by
      cases k' <;> simpa using hone)
  refine ⟨hsimple, fun u hu => ?_, hw.inputs_nodup, hw.outputs_nodup, hw.mem_inputs,
    hw.mem_outputs⟩
  rw [← hw.degree_end u hu, degree, degree]
  exact Finset.sum_congr rfl fun x _ => hval.joins_setKind u x

theorem InForm.weight_setKind (hw : w.InForm) (hk : w.link v t = some k) (k' : EdgeKind)
    (b : Bits) : ((w.setKind v t k').network τ).weight b =
      ((w.cut v t).network τ).weight b * k'.value (b v) (b t) := by
  have hval := hw.simple.valid
  obtain ⟨hv, ht'⟩ := hval.has_of_link hk
  have hcut : (w.cut v t).Valid := hval.setCount hv ht' (hval.ne_end hk) _
  have hone : w.joins v t = 1 := by
    have h₁ := hw.simple.single v t
    have h₂ := hval.mem_nearby.1 (hval.mem_nearby_of_link hk)
    omega
  have h := hcut.weight_addEdges (τ := τ) (b := b) hv ht' (hval.ne_end hk) k' 1
  rw [pow_one] at h
  rw [← h]
  congr 2
  refine Web.ext rfl rfl rfl (funext fun a => funext fun c => funext fun l => ?_) rfl rfl rfl
  have hsame : SamePair v t v t := .inl ⟨rfl, rfl⟩
  rw [count_addEdges, count_cut, count_cut, if_pos hsame, Nat.zero_add, Web.setKind, hone]
  by_cases h : SamePair a c v t
  · rw [if_pos h]
    exact if_pos h
  · rw [if_neg h, if_neg h]
    exact if_neg h

/-- A Hadamard edge to an output is a Hadamard gate and a wire. -/
theorem InForm.amplitude_setKind (hw : w.InForm) (ht : w.IsEnd t)
    (hk : w.link v t = some .hadamard) (b : Bits) :
    (w.network τ).amplitude b = hadamardAt t ((w.setKind v t .plain).network τ).amplitude b := by
  have hnot : t ∉ (w.network τ).inner := ht.notMem_inner
  have hinner : ((w.setKind v t .plain).network τ).inner = (w.network τ).inner :=
    inner_congr rfl rfl
  have hvt := hw.simple.valid.ne_end hk
  rw [hadamardAt, Network.amplitude, Network.amplitude, Network.amplitude, hinner,
    sumOver_update_of_notMem hnot, sumOver_update_of_notMem hnot]
  have hsign (b' : Bits) (h : ∀ u ∉ (w.network τ).inner, b' u = b u) :
      (w.network τ).weight b' =
        ((w.setKind v t .plain).network τ).weight (update b' t false) +
          EdgeKind.hadamard.value true (b t) *
            ((w.setKind v t .plain).network τ).weight (update b' t true) := by
    rw [hw.weight_setKind hk, hw.weight_setKind hk, hw.weight_cut_update ht hk,
      hw.weight_cut_update ht hk, hw.weight_cut hk, update_self, update_self, update_of_ne hvt,
      update_of_ne hvt, h t hnot]
    cases b' v <;> cases b t <;> simp [EdgeKind.value]
  rw [sumOver_congr hsign, sumOver_add, sumOver_mul_left]

/-! ### Gates that act on the bits at the outputs -/

/-- A phase at an output is a rotation. -/
theorem InForm.amplitude_setPhase (hw : w.InForm) (ht : w.IsEnd t) (hv : w.IsZ v)
    (hk : w.link v t = some .plain) (b : Bits) :
    (w.network τ).amplitude b =
      (if b t then (w.phase v).unit else 1) * ((w.setPhase v .zero).network τ).amplitude b := by
  have hnot : t ∉ (w.network τ).inner := ht.notMem_inner
  have hinner : ((w.setPhase v .zero).network τ).inner = (w.network τ).inner :=
    inner_congr rfl rfl
  have hweight (b : Bits) : (w.network τ).weight b =
      (if b t then (w.phase v).unit else 1) * ((w.setPhase v .zero).network τ).weight b := by
    have hback : (w.setPhase v .zero).setPhase v (w.phase v) = w :=
      Web.ext rfl rfl (by simp [Web.setPhase]) rfl rfl rfl rfl
    have h := (hw.simple.valid.setPhase v .zero).weight_setPhase (τ := τ) (b := b) hv
      (p := w.phase v) (c := (w.phase v).unit) (by simp)
    have hwire := (hw.setPhase v .zero).weight_mul_wire (τ := τ) hk
      (fun x => if x then (w.phase v).unit else 1) b
    rw [hback] at h
    rw [h, hwire, mul_comm]
  rw [Network.amplitude, funext hweight, Network.amplitude, hinner]
  exact sumOver_mul_of_agree (k := fun b => if b t then (w.phase v).unit else 1)
    fun b b' h => by rw [h t hnot]

/-- A Hadamard edge between two spiders at outputs is a CZ gate. -/
theorem InForm.amplitude_cut (hw : w.InForm) (hs : w.IsEnd s) (ht : w.IsEnd t) (hu : w.IsZ u)
    (hv : w.IsZ v) (hus : w.link u s = some .plain) (hvt : w.link v t = some .plain)
    (hk : w.link u v = some .hadamard) (b : Bits) :
    (w.network τ).amplitude b =
      EdgeKind.hadamard.value (b s) (b t) * ((w.cut u v).network τ).amplitude b := by
  have hval := hw.simple.valid
  have hne := hval.ne_end hk
  have hnots : s ∉ (w.network τ).inner := hs.notMem_inner
  have hnott : t ∉ (w.network τ).inner := ht.notMem_inner
  have hinner : ((w.cut u v).network τ).inner = (w.network τ).inner := inner_congr rfl rfl
  have hcut : (w.cut u v).InForm := hw.setCount hu hv hne rfl (Nat.zero_le 1)
  have hlink {x y : Vertex} (hx : w.IsEnd y) : (w.cut u v).link x y = w.link x y := by
    have : ¬SamePair x y u v := by
      rintro (⟨-, rfl⟩ | ⟨-, rfl⟩)
      · exact hv.not_isEnd hx
      · exact hu.not_isEnd hx
    simp only [link, count_cut, if_neg this]
  have hweight (b : Bits) : (w.network τ).weight b =
      EdgeKind.hadamard.value (b s) (b t) * ((w.cut u v).network τ).weight b := by
    rw [hw.weight_cut hk, hcut.weight_mul_wire ((hlink hs).trans hus)
      (fun x => EdgeKind.hadamard.value x (b v)), hcut.weight_mul_wire ((hlink ht).trans hvt)
      (fun x => EdgeKind.hadamard.value (b s) x), mul_comm]
  rw [Network.amplitude, funext hweight, Network.amplitude, hinner]
  exact sumOver_mul_of_agree (k := fun b => EdgeKind.hadamard.value (b s) (b t))
    fun b b' h => by rw [h s hnots, h t hnott]

theorem nearby_cut (hst : s ≠ t) : (w.cut s t).nearby s = (w.nearby s).filter (· ≠ t) := by
  rw [nearby, nearby, List.filter_filter]
  refine List.filter_congr fun u _ => ?_
  have hiff : SamePair s u s t ↔ u = t := by
    rw [SamePair]
    tauto
  by_cases hu : u = t
  · simp [joins, count_cut, hu, show SamePair s t s t from .inl ⟨rfl, rfl⟩]
  · simp [joins, count_cut, hiff, hu]

/-- The weight of the edges at a spider that is wired to an end and has no phase. -/
theorem InForm.weight_wired (hw : w.InForm) (hs : w.IsEnd s) (hu : w.IsZ u)
    (hus : w.link u s = some .plain) (hp : (w.phase u).isZero)
    (hns : ∀ n ∈ w.nearby u, n ≠ s → w.IsZ n) (hτ : τ u = 1) : ∃ F : Bits → ℂ,
      (∀ b x, F (update b s x) = F b) ∧ (∀ b x, F (update b u x) = F b) ∧
      ∀ b, (w.network τ).weight b = F b *
        (if b u then signs ((w.nearby u).filter (· ≠ s)) b else 1) *
          EdgeKind.plain.value (b u) (b s) := by
  have hval := hw.simple.valid
  have hne := hval.ne_end hus
  have hcut : (w.cut u s).Simple := hw.simple.setCount hu.has hs.has hne
    (fun _ hz => absurd hs hz.not_isEnd) (Nat.zero_le 1)
  have hnear : (w.cut u s).nearby u = (w.nearby u).filter (· ≠ s) := nearby_cut hne
  have hplain := hcut.plain_eq_zero hu fun n hn => by
    rw [hnear, List.mem_filter] at hn
    exact hns n hn.1 (by simpa using hn.2)
  have hself : u ∉ (w.nearby u).filter (· ≠ s) := fun h =>
    hval.notMem_nearby_self (List.mem_of_mem_filter h)
  have hF (b : Bits) (x : Bool) := hcut.weight_signs (τ := τ) (b := b) hu hplain x
  refine ⟨(((w.cut u s).remove u).network τ).weight, fun b x => ?_, fun b x => ?_,
    fun b => ?_⟩
  · have h₁ := hF (update b s x) false
    have h₂ := hF b false
    rw [if_neg Bool.false_ne_true, mul_one] at h₁ h₂
    rw [← h₁, ← h₂, Function.update_comm hne.symm, hw.weight_cut_update hs hus]
  · exact hcut.valid.weight_remove_update u x
  · have h := hF b (b u)
    have hunit : ((w.cut u s).phase u).unit = 1 := Phase.unit_of_isZero hp
    rw [Function.update_eq_self, hunit, hτ, hnear] at h
    rw [hw.weight_cut hus, h]
    simp

/-- Adding the edges of one spider at an output to those of another one is a CNOT gate. -/
theorem InForm.amplitude_toggleAll (hw : w.InForm)
    (hpi : v ∈ w.nearby u → Phase.IsGrid D ∧ w.OnGrid D) (hs : w.IsEnd s) (ht : w.IsEnd t)
    (hu : w.IsZ u) (hv : w.IsZ v) (hus : w.link u s = some .plain)
    (hvt : w.link v t = some .plain) (huv : u ≠ v) (hp : (w.phase u).isZero)
    (hns : ∀ n ∈ w.nearby u, n ≠ s → w.IsZ n) (hτ : τ u = 1) (b : Bits) :
    (w.network τ).amplitude b = ((w.toggleAll v ((w.nearby u).filter (· ≠ s))).network τ).amplitude
      (update b s (b s ^^ b t)) := by
  have hval := hw.simple.valid
  obtain ⟨F, hFs, hFu, hF⟩ := hw.weight_wired hs hu hus hp hns hτ
  have hsmem : s ∉ (w.nearby u).filter (· ≠ s) := by simp
  have humem : u ∉ (w.nearby u).filter (· ≠ s) := fun h =>
    hval.notMem_nearby_self (List.mem_of_mem_filter h)
  set N := (w.nearby u).filter (· ≠ s) with hN
  have hNz : ∀ n ∈ N, w.IsZ n := fun n hn => by
    rw [hN, List.mem_filter] at hn
    exact hns n hn.1 (by simpa using hn.2)
  have hus' : u ≠ s := hval.ne_end hus
  have htu : t ≠ u := fun h => hu.not_isEnd (h ▸ ht)
  have hvs : v ≠ s := fun h => hv.not_isEnd (h ▸ hs)
  have hts : t ≠ s := fun h => huv (hw.eq_of_link hs hus (h ▸ hvt))
  have hnots : s ∉ (w.network τ).inner := hs.notMem_inner
  have hnott : t ∉ (w.network τ).inner := ht.notMem_inner
  have hinner : ((w.toggleAll v N).network τ).inner = (w.network τ).inner :=
    inner_congr next_toggleAll kind_toggleAll
  -- both weights vanish unless the bit of `v` is that of `t`
  have hweight (b : Bits) : (w.network τ).weight b = ((w.toggleAll v N).network τ).weight
      (update (update b u (b u ^^ b t)) s (b s ^^ b t)) := by
    rw [hw.simple.weight_toggleAll (fun h => hpi (List.mem_of_mem_filter h)) hv hNz,
      update_of_ne hvs, update_of_ne huv.symm, signs_update hsmem, signs_update humem]
    by_cases hbv : b v = b t
    · rw [hF, hF, hFs, hFu, signs_update hsmem, signs_update humem, update_of_ne hus',
        update_self, update_self, hbv]
      have hsq := signs_mul_self N b
      cases b u <;> cases b t <;> cases b s <;> simp [EdgeKind.value, mul_assoc, hsq]
    · have hzero (b : Bits) (h : b v ≠ b t) : (w.network τ).weight b = 0 := by
        rw [hw.weight_cut hvt, EdgeKind.value, if_neg h, mul_zero]
      rw [hzero b hbv, hzero _ (by
        rwa [update_of_ne hvs, update_of_ne huv.symm, update_of_ne hts, update_of_ne htu]), zero_mul]
  have hxor := sumOver_xor (f := fun b => ((w.toggleAll v N).network τ).weight
    (update b s (b s ^^ b t))) (b := b) (hval.mem_inner.2 hu) hnott
  simp only [update_of_ne hus'.symm, update_of_ne htu] at hxor
  rw [Network.amplitude, funext hweight, hxor, Network.amplitude, hinner,
    sumOver_update_of_notMem hnots]
  exact sumOver_congr fun b' h => by rw [h s hnots, h t hnott]

end Web

end ZXRewriting
