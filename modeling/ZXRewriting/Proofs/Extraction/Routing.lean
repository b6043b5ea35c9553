import Mathlib.Logic.Equiv.Basic
import ZXRewriting.Proofs.Extraction.Round

/-!
# The permutation of the wires

When the frontier is empty, each output is wired to another end. If these are the inputs, a
diagram with as many inputs as outputs is a permutation of its wires (`InForm.amplitude_wired`,
`wiring`). Routing the wires one after the other writes the permutation as swaps
(`Routed.foldl`).
-/

namespace ZXRewriting

open Function (update update_self update_of_ne)

/-! ### Permutations of wires -/

/-- Exchanges two entries of a list. -/
def exchange (lines : List ℕ) (q k : ℕ) : List ℕ :=
  (lines.set k (lines.getD q 0)).set q (lines.getD k 0)

section

variable {lines : List ℕ} {q k n : ℕ} {o i : ℕ → Vertex}

theorem length_exchange : (exchange lines q k).length = lines.length := by simp [exchange]

theorem getElem?_exchange (hq : q < lines.length) (hk : k < lines.length) (p : ℕ) :
    (exchange lines q k)[p]? = lines[Equiv.swap q k p]? := by
  have hq' : lines.getD q 0 = lines[q] := by simp [hq]
  have hk' : lines.getD k 0 = lines[k] := by simp [hk]
  rw [exchange, List.getElem?_set, List.getElem?_set, List.length_set, if_pos hq, if_pos hk,
    hq', hk', Equiv.swap_apply_def]
  by_cases hpq : q = p
  · subst hpq
    simp [hk]
  · rw [if_neg hpq, if_neg (Ne.symm hpq)]
    by_cases hpk : k = p
    · subst hpk
      simp [hq]
    · rw [if_neg hpk, if_neg (Ne.symm hpk)]

/-- A swap exchanges the wires of two outputs. -/
theorem act_swap_wiring (ho : ∀ p p', p < n → p' < n → o p = o p' → p = p')
    (hio : ∀ r p, r < n → p < n → i r ≠ o p) (hlen : lines.length = n)
    (hlt : ∀ r ∈ lines, r < n) (hq : q < n) (hk : k < n) :
    (Gate.plain .swap [q, k]).act o (wiring o i lines) = wiring o i (exchange lines q k) := by
  subst hlen
  funext b
  have hget := getElem?_exchange hq hk
  set b' := update (update b (o q) (b (o k))) (o k) (b (o q))
  have hout {p : ℕ} (hp : p < lines.length) : b' (o p) = b (o (Equiv.swap q k p)) := by
    simp only [b', Function.update_apply, Equiv.swap_apply_def]
    by_cases hpk : p = k
    · subst hpk
      by_cases hpq : p = q
      · simp [hpq]
      · simp [hpq]
    · rw [if_neg fun h => hpk (ho p k hp hk h), if_neg hpk]
      by_cases hpq : p = q
      · simp [hpq]
      · rw [if_neg fun h => hpq (ho p q hp hq h), if_neg hpq]
  have hin {r : ℕ} (hr : r < lines.length) : b' (i r) = b (i r) := by
    simp only [b', Function.update_apply]
    rw [if_neg (hio r k hr hk), if_neg (hio r q hr hq)]
  have hswap {p : ℕ} (hp : p < lines.length) : Equiv.swap q k p < lines.length := by
    rw [Equiv.swap_apply_def]
    split
    · exact hk
    · split
      · exact hq
      · exact hp
  change wiring o i lines b' = _
  classical
  refine if_congr ⟨fun h p r hp => ?_, fun h p r hp => ?_⟩ rfl rfl
  · rw [hget] at hp
    have hlt' := (List.getElem?_eq_some_iff.1 hp).1
    have := h _ r hp
    rwa [hout hlt', Equiv.swap_apply_self, hin (hlt r (List.mem_of_getElem? hp))] at this
  · have hlt' := (List.getElem?_eq_some_iff.1 hp).1
    have := h (Equiv.swap q k p) r (by rw [hget, Equiv.swap_apply_self, hp])
    rwa [hout hlt', hin (hlt r (List.mem_of_getElem? hp))]

/-- The wires up to a qubit are in their places, and the swaps up to now have brought them there. -/
structure Routed (o i : ℕ → Vertex) (n : ℕ) (arrivals : List ℕ) (q : ℕ)
    (state : List ℕ × List Gate) : Prop where
  length : state.1.length = n
  lt : ∀ r ∈ state.1, r < n
  covers : ∀ r < n, r ∈ state.1
  placed : ∀ p < q, state.1[p]? = arrivals[p]?
  valid : ∀ g ∈ state.2, g.Valid n
  swaps : ∀ g ∈ state.2, g.kind = .swap
  acts : actAll o state.2 (wiring o i (List.range n)) = wiring o i state.1

theorem routed_zero (o i : ℕ → Vertex) (n : ℕ) (arrivals : List ℕ) :
    Routed o i n arrivals 0 (List.range n, []) where
  length := List.length_range
  lt _ hr := List.mem_range.1 hr
  covers _ hr := List.mem_range.2 hr
  placed _ hp := absurd hp (Nat.not_lt_zero _)
  valid _ hg := absurd hg List.not_mem_nil
  swaps _ hg := absurd hg List.not_mem_nil
  acts := rfl

variable {arrivals : List ℕ} {state : List ℕ × List Gate}

/-- Routing one wire. -/
theorem Routed.routeWire (ho : ∀ p p', p < n → p' < n → o p = o p' → p = p')
    (hio : ∀ r p, r < n → p < n → i r ≠ o p) (hlen : arrivals.length = n)
    (hnd : arrivals.Nodup) (hlt : ∀ r ∈ arrivals, r < n) (hq : q < n)
    (h : Routed o i n arrivals q state) :
    Routed o i n arrivals (q + 1) (Extraction.State.routeWire arrivals state q) := by
  obtain ⟨lines, swaps⟩ := state
  obtain ⟨hlen', hlt', hcov, hplaced, hvalid, hswaps, hacts⟩ := h
  subst hlen'
  have hqa : q < arrivals.length := hlen ▸ hq
  have harr := List.getElem?_eq_getElem hqa
  rw [Extraction.State.routeWire]
  -- the wire lies among those that are not in their places yet
  obtain ⟨k, hk, hkq⟩ : ∃ k, lines[k]? = some arrivals[q] ∧ q ≤ k := by
    obtain ⟨k, hk⟩ := List.getElem?_of_mem (hcov _ (hlt _ (List.getElem_mem hqa)))
    refine ⟨k, hk, ?_⟩
    by_contra hkq
    rw [hplaced k (Nat.lt_of_not_le hkq), ← harr] at hk
    exact hkq ((List.getElem?_inj (by omega) hnd).1 hk).ge
  dsimp only
  split
  · next hfind =>
    have hmem : (arrivals[q], k) ∈ lines.zipIdx.drop q := by
      refine List.mem_of_getElem? (i := k - q) ?_
      rw [List.getElem?_drop, Nat.add_sub_cancel' hkq, List.getElem?_zipIdx, hk]
      simp
    have := List.find?_eq_none.1 hfind _ hmem
    simp [harr] at this
  · next wire k' hfind =>
    have hwire : some wire = arrivals[q]? := by simpa using List.find?_some hfind
    obtain ⟨j, hj⟩ := List.getElem?_of_mem (List.mem_of_find?_eq_some hfind)
    rw [List.getElem?_drop, List.getElem?_zipIdx] at hj
    obtain ⟨wire', hw', he⟩ := Option.map_eq_some_iff.1 hj
    obtain ⟨rfl, hk'⟩ := Prod.mk.inj he
    rw [Nat.zero_add] at hk'
    rw [hk'] at hw'
    have hkn : k' < lines.length := (List.getElem?_eq_some_iff.1 hw').1
    change Routed o i lines.length arrivals (q + 1) (if k' = q then (lines, swaps) else
      ((lines.set k' (lines.getD q 0)).set q wire', swaps ++ [.plain .swap [q, k']]))
    by_cases hkq' : k' = q
    · rw [if_pos hkq']
      refine ⟨rfl, hlt', hcov, fun p hp => ?_, hvalid, hswaps, hacts⟩
      rcases Nat.lt_succ_iff_lt_or_eq.1 hp with hp | rfl
      · exact hplaced p hp
      · rw [← hwire, ← hkq', hw']
    · rw [if_neg hkq']
      have hexchange : (lines.set k' (lines.getD q 0)).set q wire' = exchange lines q k' := by
        rw [exchange, List.getD_eq_getElem?_getD (i := k'), hw']
        rfl
      have hget := getElem?_exchange hq hkn
      rw [hexchange]
      refine ⟨length_exchange, fun r hr => ?_, fun r hr => ?_, fun p hp => ?_, fun g hg => ?_,
        fun g hg => ?_, ?_⟩
      · obtain ⟨p, hp⟩ := List.getElem?_of_mem hr
        rw [hget] at hp
        exact hlt' r (List.mem_of_getElem? hp)
      · obtain ⟨p, hp⟩ := List.getElem?_of_mem (hcov r hr)
        refine List.mem_of_getElem? (i := Equiv.swap q k' p) ?_
        rw [hget, Equiv.swap_apply_self, hp]
      · change (exchange lines q k')[p]? = _
        rw [hget]
        rcases Nat.lt_succ_iff_lt_or_eq.1 hp with hp | rfl
        · rw [Equiv.swap_apply_of_ne_of_ne (by omega) (by omega), hplaced p hp]
        · rw [Equiv.swap_apply_left, ← hwire, hw']
      · rcases List.mem_append.1 hg with hg | hg
        · exact hvalid g hg
        · rw [List.mem_singleton.1 hg]
          refine ⟨rfl, by simpa [Gate.plain] using Ne.symm hkq', fun r hr => ?_⟩
          rcases List.mem_cons.1 hr with rfl | hr
          · exact hq
          · exact List.mem_singleton.1 hr ▸ hkn
      · rcases List.mem_append.1 hg with hg | hg
        · exact hswaps g hg
        · rw [List.mem_singleton.1 hg]
          rfl
      · rw [actAll_append, hacts, actAll_cons, actAll_nil]
        exact act_swap_wiring ho hio rfl hlt' hq hkn

/-- Routing the wires makes the permutation out of swaps. -/
theorem Routed.foldl (ho : ∀ p p', p < n → p' < n → o p = o p' → p = p')
    (hio : ∀ r p, r < n → p < n → i r ≠ o p) (hlen : arrivals.length = n)
    (hnd : arrivals.Nodup) (hlt : ∀ r ∈ arrivals, r < n) :
    Routed o i n arrivals n
      ((List.range n).foldl (Extraction.State.routeWire arrivals) (List.range n, [])) := by
  suffices h : ∀ m ≤ n, Routed o i n arrivals m
      ((List.range m).foldl (Extraction.State.routeWire arrivals) (List.range n, [])) from
    h n le_rfl
  intro m hm
  induction m with
  | zero => exact routed_zero o i n arrivals
  | succ m ih =>
    rw [List.range_succ, List.foldl_append]
    exact (ih (Nat.le_of_succ_le hm)).routeWire ho hio hlen hnd hlt hm

theorem Routed.eq_arrivals (h : Routed o i n arrivals n state) (hlen : arrivals.length = n) :
    state.1 = arrivals := by
  refine List.ext_getElem? fun p => ?_
  by_cases hp : p < n
  · exact h.placed p hp
  · rw [List.getElem?_eq_none (by rw [h.length]; omega), List.getElem?_eq_none (by omega)]

end

/-! ### Diagrams of wires -/

namespace Web

variable {w : Web} {τ : Vertex → ℂ} {b : Bits} {arrivals : List ℕ}

/-- Each output is wired to the input that `arrivals` says. -/
structure Wired (w : Web) (arrivals : List ℕ) : Prop where
  length : arrivals.length = w.outputs.length
  lt : ∀ r ∈ arrivals, r < w.inputs.length
  link : ∀ q r, arrivals[q]? = some r → w.link (w.input r) (w.output q) = some .plain

theorem InForm.isEnd_input' (hw : w.InForm) {r : ℕ} (h : r < w.inputs.length) :
    w.IsEnd (w.input r) :=
  hw.isEnd_input (List.mem_of_getElem? (getElem?_inputs h))

theorem InForm.input_ne_output (hw : w.InForm) {r q : ℕ} (hr : r < w.inputs.length)
    (hq : q < w.outputs.length) : w.input r ≠ w.output q := fun h =>
  hw.output_notMem_inputs hq (h ▸ List.mem_of_getElem? (getElem?_inputs hr))

theorem InForm.output_inj (hw : w.InForm) {p q : ℕ} (hp : p < w.outputs.length)
    (hq : q < w.outputs.length) (h : w.output p = w.output q) : p = q := by
  refine (List.getElem?_inj hp hw.outputs_nodup).1 ?_
  rw [getElem?_outputs hp, getElem?_outputs hq, h]

/-- Different outputs are wired to different inputs. -/
theorem Wired.nodup (h : w.Wired arrivals) (hw : w.InForm) : arrivals.Nodup := by
  refine List.nodup_iff_injective_get.2 fun p q hpq => Fin.ext ?_
  have hp := List.getElem?_eq_getElem p.2
  have hq := List.getElem?_eq_getElem q.2
  have hpq : arrivals[p.val] = arrivals[q.val] := hpq
  rw [← hpq] at hq
  have hend := hw.isEnd_input' (h.lt _ (List.getElem_mem p.2))
  refine hw.output_inj (h.length ▸ p.2) (h.length ▸ q.2) ?_
  have h₁ := h.link p _ hp
  have h₂ := h.link q _ hq
  rw [hw.simple.valid.link_comm] at h₁ h₂
  exact hw.eq_of_link hend h₁ h₂

/-- With as many inputs as outputs, every input is wired to an output. -/
theorem Wired.mem (h : w.Wired arrivals) (hw : w.InForm) (hlen : w.inputs.length = w.outputs.length)
    {r : ℕ} (hr : r < w.inputs.length) : r ∈ arrivals := by
  have hsub : arrivals.Subperm (List.range w.inputs.length) := (h.nodup hw).subperm fun x hx =>
    List.mem_range.2 (h.lt x hx)
  have hperm := hsub.perm_of_length_le (by rw [List.length_range, h.length, hlen])
  exact hperm.mem_iff.2 (List.mem_range.2 hr)

/-- An end is wired to another one. -/
theorem Wired.exists_link (h : w.Wired arrivals) (hw : w.InForm)
    (hlen : w.inputs.length = w.outputs.length) {t : Vertex} (ht : w.IsEnd t) :
    ∃ q r, arrivals[q]? = some r ∧ (t = w.output q ∨ t = w.input r) := by
  have hcase : t ∈ w.inputs ∨ t ∈ w.outputs := by
    obtain ⟨k, hk⟩ := Option.isSome_iff_exists.1 ht.has
    rw [IsEnd, hk] at ht
    cases k with
    | input => exact .inl ((hw.mem_inputs t).2 hk)
    | output => exact .inr ((hw.mem_outputs t).2 hk)
    | z => simp [SpiderKind.isBoundary] at ht
    | x => simp [SpiderKind.isBoundary] at ht
    | box => simp [SpiderKind.isBoundary] at ht
  rcases hcase with ht | ht
  · obtain ⟨r, hr⟩ := List.getElem?_of_mem ht
    have hrlt := (List.getElem?_eq_some_iff.1 hr).1
    obtain ⟨q, hq⟩ := List.getElem?_of_mem (h.mem hw hlen hrlt)
    refine ⟨q, r, hq, .inr ?_⟩
    rw [getElem?_inputs hrlt] at hr
    exact (Option.some.inj hr).symm
  · obtain ⟨q, hq⟩ := List.getElem?_of_mem ht
    have hqlt : q < arrivals.length := h.length ▸ (List.getElem?_eq_some_iff.1 hq).1
    exact ⟨q, _, List.getElem?_eq_getElem hqlt, .inl (output_eq hq).symm⟩

/-- The weight of bits that are the same at both ends of each wire does not depend on those at the
    ends. -/
theorem Wired.weight_congr (h : w.Wired arrivals) (hw : w.InForm)
    (hlen : w.inputs.length = w.outputs.length) {b b' : Bits} (hz : ∀ v, w.IsZ v → b v = b' v)
    (hb : ∀ q r, arrivals[q]? = some r → b (w.output q) = b (w.input r))
    (hb' : ∀ q r, arrivals[q]? = some r → b' (w.output q) = b' (w.input r)) :
    (w.network τ).weight b = (w.network τ).weight b' := by
  have hval := hw.simple.valid
  -- an edge at an end is a wire, of which the bits agree
  have hend {s t : Vertex} {k : EdgeKind} (hs : w.IsEnd s) (hk : w.link s t = some k) :
      k = .plain ∧ b s = b t ∧ b' s = b' t := by
    obtain ⟨q, r, hqr, hs'⟩ := h.exists_link hw hlen hs
    have hwire := h.link q r hqr
    have hts := (hval.link_comm t s).trans hk
    rcases hs' with rfl | rfl
    · obtain rfl := hw.eq_of_link hs hts hwire
      rw [hwire] at hts
      exact ⟨(Option.some.inj hts).symm, hb q r hqr, hb' q r hqr⟩
    · rw [hval.link_comm] at hwire
      obtain rfl := hw.eq_of_link hs hts hwire
      rw [hwire] at hts
      exact ⟨(Option.some.inj hts).symm, (hb q r hqr).symm, (hb' q r hqr).symm⟩
  rw [Network.weight, Network.weight]
  congr 1
  · refine Finset.prod_congr rfl fun v hv => ?_
    rw [Network.spin, Network.spin, hz v (hval.mem_inner.1 hv)]
  · refine Finset.prod_congr rfl fun p _ => ?_
    rw [hw.simple.noParallel.bond_eq, hw.simple.noParallel.bond_eq]
    cases hk : w.link p.1 p.2 with
    | none => rfl
    | some k =>
      obtain ⟨h₁, h₂⟩ := hval.has_of_link hk
      rcases hw.simple.colour _ h₁ with hz₁ | he₁
      · rcases hw.simple.colour _ h₂ with hz₂ | he₂
        · dsimp only
          rw [hz _ hz₁, hz _ hz₂]
        · obtain ⟨rfl, h, h'⟩ := hend he₂ ((hval.link_comm _ _).trans hk)
          simp [h, h']
      · obtain ⟨rfl, h, h'⟩ := hend he₁ hk
        simp [h, h']

/-- A diagram of which the outputs are wired to the inputs is a permutation of the wires. -/
theorem Wired.amplitude (h : w.Wired arrivals) (hw : w.InForm)
    (hlen : w.inputs.length = w.outputs.length) (b : Bits) :
    w.amplitude b = w.amplitude (fun _ => false) * wiring w.output w.input arrivals b := by
  have hval := hw.simple.valid
  have hnotin {t : Vertex} (ht : w.IsEnd t) : t ∉ (w.network 1).inner := ht.notMem_inner
  have hout {q r : ℕ} (hqr : arrivals[q]? = some r) : w.IsEnd (w.output q) :=
    hw.isEnd_output' (h.length ▸ (List.getElem?_eq_some_iff.1 hqr).1)
  have hin {q r : ℕ} (hqr : arrivals[q]? = some r) : w.IsEnd (w.input r) :=
    hw.isEnd_input' (h.lt r (List.mem_of_getElem? hqr))
  rw [wiring, Web.amplitude]
  split
  · next hb =>
    rw [mul_one, Network.amplitude, Network.amplitude]
    refine Finset.sum_congr rfl fun T _ => ?_
    refine h.weight_congr hw hlen (fun v hv => ?_) (fun q r hqr => ?_) fun q r hqr => ?_
    · rw [if_pos (hval.mem_inner.2 hv), if_pos (hval.mem_inner.2 hv)]
    · rw [if_neg (hnotin (hout hqr)), if_neg (hnotin (hin hqr)), hb q r hqr]
    · rw [if_neg (hnotin (hout hqr)), if_neg (hnotin (hin hqr))]
  · next hb =>
    simp only [not_forall] at hb
    obtain ⟨q, r, hqr, hne⟩ := hb
    rw [mul_zero]
    refine sumOver_zero fun b' hb' => ?_
    have hwire := hw.weight_mul_wire (τ := 1) (h.link q r hqr)
      (fun x => if x = b' (w.output q) then (1 : ℂ) else 0) b'
    rw [← hb' _ (hnotin (hout hqr)), ← hb' _ (hnotin (hin hqr))] at hne
    rw [if_neg (Ne.symm hne), if_pos rfl, mul_zero, mul_one] at hwire
    exact hwire.symm

end Web

end ZXRewriting
