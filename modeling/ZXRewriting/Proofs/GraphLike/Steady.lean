import ZXRewriting.Proofs.GraphLike.Clear
import ZXRewriting.Proofs.GraphLike.Ends
import ZXRewriting.Proofs.Semantics.Reversible

/-!
# Diagrams that are invertible for all phases

A graph-like web is *steady* if it denotes an invertible map whatever numbers other than zero are
taken for the factors of its spiders (`Web.Steady`). Of the web this depends on the vertices and the
edges only. Local complementation, pivoting and putting spiders in front of ends keep it
(`Steady.localComplement`, `Steady.pivot`, `Steady.shiftBoundaries`), even where the phases of the
diagram itself are rounded, and so do the steps of an extraction without gadgets, in both directions
(`Peels.steady_iff`).

What the rules do to what a diagram denotes gives this: a rewrite is read at phases of its own choice, for
which it is sound, and the factors of the spiders that are left are free. A spider next to an end
acts at the end, so that its factor does not matter (`InForm.reversible_update`).
-/

namespace ZXRewriting

open Function (update update_self update_of_ne)
open Multigraph (SamePair)

namespace Web

variable {w w' w'' : Web} {s t u v n : Vertex} {vs : List Vertex} {k : EdgeKind} {p p' q q' : Phase}
  {τ σ σ' : Vertex → ℂ} {b : Bits} {c : ℂ} {D : ℕ}

/-! ### Shapes -/

/-- Webs that differ in phases only, and in which spiders are carried. -/
structure SameShape (w w' : Web) : Prop where
  next : w'.next = w.next
  kind : w'.kind = w.kind
  count : w'.count = w.count
  inputs : w'.inputs = w.inputs
  outputs : w'.outputs = w.outputs

namespace SameShape

theorem setPhases (w : Web) (f : Vertex → Phase) : SameShape w { w with phase := f } :=
  ⟨rfl, rfl, rfl, rfl, rfl⟩

section

variable (h : SameShape w w')
include h

theorem isZ : w'.IsZ v ↔ w.IsZ v := by rw [IsZ, h.kind, IsZ]

theorem isEnd : w'.IsEnd v ↔ w.IsEnd v := by rw [IsEnd, h.kind, IsEnd]

theorem has : w'.Has v ↔ w.Has v := by rw [Has, h.kind, Has]

theorem joins (s t : Vertex) : w'.joins s t = w.joins s t := by rw [Web.joins, h.count, Web.joins]

theorem link (s t : Vertex) : w'.link s t = w.link s t := by rw [Web.link, h.count, Web.link]

theorem nearby (v : Vertex) : w'.nearby v = w.nearby v := by
  rw [Web.nearby, h.next, Web.nearby]
  exact List.filter_congr fun u _ => by rw [h.joins]

theorem degree (v : Vertex) : w'.degree v = w.degree v := by
  rw [Web.degree, h.next, Web.degree]
  exact Finset.sum_congr rfl fun u _ => h.joins v u

theorem valid (hw : w.Valid) : w'.Valid where
  lt v hv := h.next ▸ hw.lt v (h.has.1 hv)
  has s t k hk := h.has.2 (hw.has s t k (h.count ▸ hk))
  symm s t k := by rw [h.count, hw.symm]
  self v k := by rw [h.count, hw.self]

theorem simple (hw : w.Simple) : w'.Simple where
  valid := h.valid hw.valid
  colour v hv := (hw.colour v (h.has.1 hv)).imp h.isZ.2 h.isEnd.2
  plain s t hs ht := by rw [h.count, hw.plain s t (h.isZ.1 hs) (h.isZ.1 ht)]
  single s t := by
    rw [h.joins]
    exact hw.single s t

theorem inForm (hw : w.InForm) : w'.InForm where
  simple := h.simple hw.simple
  degree_end v hv := by rw [h.degree, hw.degree_end v (h.isEnd.1 hv)]
  inputs_nodup := h.inputs ▸ hw.inputs_nodup
  outputs_nodup := h.outputs ▸ hw.outputs_nodup
  mem_inputs v := by rw [h.inputs, hw.mem_inputs, h.kind]
  mem_outputs v := by rw [h.outputs, hw.mem_outputs, h.kind]

theorem pivotable (hp : w.Pivotable v u) : w'.Pivotable v u where
  left := h.isZ.2 hp.left
  right := h.isZ.2 hp.right
  joined := h.nearby v ▸ hp.joined
  left_nearby n hn := h.isZ.2 (hp.left_nearby n (h.nearby v ▸ hn))
  right_nearby n hn := h.isZ.2 (hp.right_nearby n (h.nearby u ▸ hn))

/-! Edits of the same shape. -/

theorem setPhase : SameShape (w.setPhase s p) (w'.setPhase s p') :=
  ⟨h.next, h.kind, h.count, h.inputs, h.outputs⟩

theorem addToPhase : SameShape (w.addToPhase s p) (w'.addToPhase s p') := h.setPhase

theorem toggle : SameShape (w.toggle s t) (w'.toggle s t) := by
  rw [Web.toggle, Web.toggle]
  split
  · exact h.addToPhase
  · refine ⟨h.next, h.kind, ?_, h.inputs, h.outputs⟩
    simp only [setCount, h.count]

theorem toggleAll : SameShape (w.toggleAll s vs) (w'.toggleAll s vs) := by
  induction vs generalizing w w' with
  | nil => exact h
  | cons t rest ih => exact ih h.toggle

theorem complement : SameShape (complement p vs w) (Web.complement p' vs w') := by
  induction vs generalizing w w' with
  | nil => exact h
  | cons t rest ih => exact ih h.addToPhase.toggleAll

theorem remove : SameShape (w.remove v) (w'.remove v) := by
  refine ⟨h.next, ?_, ?_, h.inputs, h.outputs⟩
  · rw [kind_remove, kind_remove, h.kind]
  · simp only [Web.remove, h.count]

theorem localComplement : SameShape (w.localComplement v) (w'.localComplement v) := by
  rw [Web.localComplement, Web.localComplement, h.nearby]
  exact h.complement.remove

theorem addToPhases : SameShape (w.addToPhases vs p) (w'.addToPhases vs p') := by
  induction vs generalizing w w' with
  | nil => exact h
  | cons t rest ih => exact ih h.addToPhase

theorem joinAll {others : Vertex → List Vertex} :
    SameShape (joinAll q others w vs) (Web.joinAll q' others w' vs) := by
  induction vs generalizing w w' with
  | nil => exact h
  | cons t rest ih => exact ih h.addToPhase.toggleAll

theorem pivot : SameShape (w.pivot v u) (w'.pivot v u) := by
  have hpartners : w'.pivotPartners v u = w.pivotPartners v u := by
    funext n
    rw [pivotPartners, pivotPartners, h.nearby]
  rw [Web.pivot, Web.pivot, h.nearby, h.nearby, hpartners]
  exact h.joinAll.addToPhases.remove.remove

theorem addEdges {m : ℕ} : SameShape (w.addEdges s t k m) (w'.addEdges s t k m) := by
  refine ⟨h.next, h.kind, ?_, h.inputs, h.outputs⟩
  simp only [Web.addEdges, setCount, h.count]

theorem bypass : SameShape (w.bypass v t n k) (w'.bypass v t n k) := h.remove.addEdges

theorem split : SameShape (w.split s t k) (w'.split s t k) := by
  have hadd : SameShape ((w.cut s t).addSpider .zero) ((w'.cut s t).addSpider .zero) := by
    refine ⟨congrArg (· + 1) h.next, ?_, ?_, h.inputs, h.outputs⟩
    · rw [kind_addSpider, kind_addSpider]
      exact congrArg₂ (fun f n => update f n (some .z)) h.kind h.next
    · simp only [count_addSpider, cut, setCount, h.count]
  rw [Web.split, Web.split, h.next]
  exact hadd.addEdges.addEdges

end

end SameShape

/-! ### Factors -/

/-- The network of the Z spiders of a web, with given factors in place of those of their phases. -/
noncomputable def weighted (w : Web) (σ : Vertex → ℂ) : Network := { w.network 1 with factor := σ }

theorem network_eq_weighted : w.network τ = w.weighted fun v => (w.phase v).unit * τ v := rfl

/-- A web without phases. -/
def unphased (w : Web) : Web := { w with phase := fun _ => .zero }

theorem SameShape.unphased (w : Web) : SameShape w w.unphased := .setPhases w _

theorem onGrid_unphased : w.unphased.OnGrid D := fun _ => Phase.onGrid_zero

theorem network_of_zero (h : ∀ v, w.phase v = .zero) : w.network σ = w.weighted σ := by
  simp only [network_eq_weighted, h, Phase.unit_zero, one_mul]

theorem network_unphased : w.unphased.network σ = w.weighted σ := network_of_zero fun _ => rfl

theorem SameShape.weighted (h : SameShape w w') : w'.weighted σ = w.weighted σ := by
  obtain ⟨hn, hk, hc, -, -⟩ := h
  rw [← network_unphased, ← network_unphased]
  exact network_congr hn hk rfl hc

theorem mem_inner_weighted : v ∈ (w.weighted σ).inner ↔ v < w.next ∧ w.IsZ v := mem_inner_iff (τ := 1)

/-- Only the factors of the Z spiders matter. -/
theorem amplitude_weighted_congr (h : ∀ v, w.IsZ v → σ' v = σ v) :
    (w.weighted σ').amplitude = (w.weighted σ).amplitude := by
  have hweight : (w.weighted σ').weight = (w.weighted σ).weight := funext fun b => by
    rw [Network.weight, Network.weight]
    congr 1
    refine Finset.prod_congr rfl fun v hv => ?_
    rw [Network.spin, Network.spin]
    exact if_congr Iff.rfl (h v (mem_inner_weighted.1 hv).2) rfl
  funext b
  rw [Network.amplitude, Network.amplitude, hweight]
  rfl

theorem Keeps.lengths (h : Keeps w w') (hlen : w.inputs.length = w.outputs.length) :
    w'.inputs.length = w'.outputs.length := by rw [h.inputs, h.outputs, hlen]

/-- Whether the map that a web denotes with given factors is invertible. -/
def Inverts (w : Web) (σ : Vertex → ℂ) : Prop :=
  Reversible w.outputs.length w.outputs w.inputs (w.weighted σ).amplitude

/-- A web with as many inputs as outputs that denotes an invertible map for all factors of its spiders
    but zero. -/
structure Steady (w : Web) : Prop where
  lengths : w.inputs.length = w.outputs.length
  inverts : ∀ σ : Vertex → ℂ, (∀ v, σ v ≠ 0) → w.Inverts σ

theorem InForm.toEnds (hw : w.InForm) (hlen : w.inputs.length = w.outputs.length) :
    Ends w.outputs.length w.outputs w.inputs where
  outputs_nodup := hw.outputs_nodup
  inputs_nodup := hw.inputs_nodup
  disjoint v ho hi := by
    have hk := (hw.mem_outputs v).1 ho
    rw [(hw.mem_inputs v).1 hi] at hk
    cases hk
  outputs_length := rfl
  inputs_length := hlen

theorem SameShape.inverts_iff (h : SameShape w w') : w'.Inverts σ ↔ w.Inverts σ := by
  rw [Inverts, Inverts, h.inputs, h.outputs, h.weighted]

/-- Maps that are the same up to a scalar. -/
theorem inverts_iff_of_proportional (hin : w'.inputs = w.inputs) (hout : w'.outputs = w.outputs)
    (h : Proportional (w.weighted σ).amplitude (w'.weighted σ').amplitude) :
    w'.Inverts σ' ↔ w.Inverts σ := by
  rw [Inverts, Inverts, hin, hout, h.reversible_iff]

/-- A rewrite keeps a web steady if it is sound for the phases of two webs of the same shapes. -/
theorem Steady.of_proportional {w₀ w₁ : Web} (hs : w.Steady) (h₀ : SameShape w w₀)
    (h₁ : SameShape w' w₁) (hin : w'.inputs = w.inputs) (hout : w'.outputs = w.outputs)
    (h : ∀ τ : Vertex → ℂ, (∀ v, ¬w'.IsZ v → τ v = 1) →
      Proportional (w₀.network τ).amplitude (w₁.network τ).amplitude) : w'.Steady where
  lengths := by rw [hin, hout, hs.lengths]
  inverts σ hσ := by
    classical
    obtain ⟨τ, hτ⟩ : ∃ τ : Vertex → ℂ, ∀ v, τ v =
        if w'.IsZ v then (w₁.phase v).unit⁻¹ * σ v else 1 := ⟨_, fun _ => rfl⟩
    have hprop := h τ fun v hv => by rw [hτ, if_neg hv]
    rw [network_eq_weighted, network_eq_weighted, h₀.weighted, h₁.weighted,
      amplitude_weighted_congr (w := w') (σ := σ) fun v hv => by
        rw [hτ, if_pos hv, mul_inv_cancel_left₀ (Phase.unit_ne_zero _)]] at hprop
    refine (inverts_iff_of_proportional hin hout hprop).2 (hs.inverts _ fun v => ?_)
    refine mul_ne_zero (Phase.unit_ne_zero _) ?_
    rw [hτ]
    split
    · exact mul_ne_zero (inv_ne_zero (Phase.unit_ne_zero _)) (hσ v)
    · exact one_ne_zero

/-! ### Rewrites -/

/-- Local complementation keeps a web steady. -/
theorem Steady.localComplement (hs : w.Steady) (hw : w.InForm) (hv : w.IsZ v)
    (hns : ∀ u ∈ w.nearby v, w.IsZ u) : (w.localComplement v).Steady := by
  -- the spider that goes is given a quarter turn
  set w₀ := w.unphased.setPhase v (.reduce 1 2) with hw₀
  have h₀ : SameShape w w₀ := ⟨rfl, rfl, rfl, rfl, rfl⟩
  have hkeeps := hw.keeps_localComplement hv hns
  refine hs.of_proportional h₀ h₀.localComplement hkeeps.inputs hkeeps.outputs fun τ hτ => ?_
  refine (h₀.simple hw.simple).amplitude_localComplement (D := 2) ⟨by decide, by decide⟩
    (onGrid_unphased.setPhase (show _ ∣ 2 by decide) v) (h₀.isZ.2 hv)
    (fun u hu => h₀.isZ.2 (hns u (h₀.nearby v ▸ hu))) ?_ (hτ v ?_)
  · rw [hw₀, phase_setPhase, update_self]
    decide
  · rw [IsZ, Web.localComplement, kind_remove, update_self]
    simp

/-- Pivoting keeps a web steady. -/
theorem Steady.pivot (hs : w.Steady) (hw : w.InForm) (h : w.Pivotable v u) :
    (w.pivot v u).Steady := by
  have h₀ := SameShape.unphased w
  have hkeeps := hw.keeps_pivot h
  have hnone {x : Vertex} (hx : x = v ∨ x = u) : ¬(w.pivot v u).IsZ x := by
    rw [IsZ, Web.pivot, kind_remove, kind_remove, Function.update_apply, Function.update_apply]
    rcases hx with rfl | rfl <;> simp
  exact hs.of_proportional h₀ h₀.pivot hkeeps.inputs hkeeps.outputs fun τ hτ =>
    (h₀.simple hw.simple).amplitude_pivot (D := 1) ⟨by decide, by decide⟩ onGrid_unphased
      (h₀.pivotable h) rfl rfl (hτ v (hnone (.inl rfl))) (hτ u (hnone (.inr rfl)))

/-! ### Spiders at the ends -/

section

variable (hw : w.InForm) (hlen : w.inputs.length = w.outputs.length) (ht : w.IsEnd t)
include hw ht

/-- The factor of a spider that is wired to an end. -/
theorem InForm.amplitude_update (hv : w.IsZ v) (hk : w.link v t = some .plain) (c : ℂ) :
    (w.weighted (update σ v (σ v * c))).amplitude =
      fun b => (if b t then c else 1) * (w.weighted σ).amplitude b := by
  have h₀ := SameShape.unphased w
  have hw₀ := h₀.inForm hw
  have hnot : t ∉ (w.unphased.network σ).inner := (h₀.isEnd.2 ht).notMem_inner
  have hinner : (w.unphased.network (update σ v (σ v * c))).inner = (w.unphased.network σ).inner :=
    inner_congr rfl rfl
  have hweight (b : Bits) : (w.unphased.network (update σ v (σ v * c))).weight b =
      (if b t then c else 1) * (w.unphased.network σ).weight b := by
    rw [weight_twist (hw₀.simple.valid.mem_inner.2 (h₀.isZ.2 hv)) (update_self ..)
      fun u _ hu => update_of_ne hu .., hw₀.weight_mul_wire ((h₀.link v t).trans hk)
      (fun x => if x then c else 1), mul_comm]
  funext b
  rw [← network_unphased, ← network_unphased, Network.amplitude, funext hweight, hinner]
  exact sumOver_mul_of_agree (k := fun b => if b t then c else 1) fun b b' h => by rw [h t hnot]

include hlen

/-- A Hadamard edge to an end may be made a wire. -/
theorem InForm.inverts_setKind (hk : w.link v t = some .hadamard) :
    (w.setKind v t .plain).Inverts σ ↔ w.Inverts σ := by
  have h₀ := SameShape.unphased w
  have hamp := (h₀.inForm hw).amplitude_setKind (τ := σ) (h₀.isEnd.2 ht) ((h₀.link v t).trans hk)
  rw [network_unphased] at hamp
  rw [Inverts, Inverts, funext hamp, (hw.toEnds hlen).reversible_hadamardAt (hw.mem_of_isEnd ht).symm]
  exact iff_of_eq (congrArg _ (congrArg Network.amplitude
    (network_unphased (w := w.setKind v t .plain)).symm))

/-- The factor of a spider next to an end does not matter. -/
theorem InForm.inverts_update (hσ : σ v ≠ 0) (hv : w.IsZ v) (hk : w.link v t = some k)
    (hc : c ≠ 0) : w.Inverts (update σ v c) ↔ w.Inverts σ := by
  have hwired {w : Web} (hw : w.InForm) (hlen : w.inputs.length = w.outputs.length)
      (ht : w.IsEnd t) (hv : w.IsZ v) (hk : w.link v t = some .plain) :
      w.Inverts (update σ v c) ↔ w.Inverts σ := by
    have hamp := hw.amplitude_update (σ := σ) ht hv hk ((σ v)⁻¹ * c)
    rw [mul_inv_cancel_left₀ hσ] at hamp
    rw [Inverts, hamp, (hw.toEnds hlen).reversible_factor (hw.mem_of_isEnd ht).symm
      (mul_ne_zero (inv_ne_zero hσ) hc)]
    rfl
  cases k with
  | plain => exact hwired hw hlen ht hv hk
  | hadamard =>
    rw [← hw.inverts_setKind hlen ht hk, ← hw.inverts_setKind hlen ht hk]
    refine hwired (hw.setKind ht hk .plain) hlen ht hv ?_
    have hpos : 0 < w.joins v t := link_isSome_iff.1 (by rw [hk]; rfl)
    simp [link, Web.setKind, Web.setCount, SamePair, hpos]

end

/-- Only the factors of the spiders inside matter. -/
theorem InForm.inverts_congr (hw : w.InForm) (hlen : w.inputs.length = w.outputs.length)
    (hσ : ∀ x, σ x ≠ 0) (hσ' : ∀ x, σ' x ≠ 0)
    (h : ∀ x, w.IsZ x → (∀ t ∈ w.nearby x, ¬w.IsEnd t) → σ' x = σ x) :
    w.Inverts σ' ↔ w.Inverts σ := by
  classical
  -- the factors are exchanged one after the other
  have hexchange (zs : Finset Vertex) (hzs : ∀ x ∈ zs, w.IsZ x ∧ ∃ t ∈ w.nearby x, w.IsEnd t) :
      w.Inverts (fun x => if x ∈ zs then σ' x else σ x) ↔ w.Inverts σ := by
    induction zs using Finset.induction_on with
    | empty => simp
    | insert v zs hv ih =>
      obtain ⟨hz, t, ht, he⟩ := hzs v (Finset.mem_insert_self v zs)
      obtain ⟨k, hk⟩ := Option.isSome_iff_exists.1
        (link_isSome_iff.2 (hw.simple.valid.mem_nearby.1 ht))
      have hupdate : (fun x => if x ∈ insert v zs then σ' x else σ x) =
          update (fun x => if x ∈ zs then σ' x else σ x) v (σ' v) := by
        funext x
        by_cases hx : x = v
        · simp [hx]
        · simp [hx]
      rw [hupdate, hw.inverts_update hlen he (by rw [if_neg hv]; exact hσ v) hz hk (hσ' v)]
      exact ih fun x hx => hzs x (Finset.mem_insert_of_mem hx)
  rw [← hexchange ((Finset.range w.next).filter fun x => w.IsZ x ∧ ∃ t ∈ w.nearby x, w.IsEnd t)
    fun x hx => (Finset.mem_filter.1 hx).2, Inverts, Inverts]
  refine iff_of_eq (congrArg _ (amplitude_weighted_congr fun x hx => ?_))
  split
  · rfl
  · next hnot =>
    refine h x hx fun t ht he => hnot (Finset.mem_filter.2 ⟨?_, hx, t, ht, he⟩)
    exact Finset.mem_range.2 (hw.simple.valid.lt x hx.has)

/-- A new spider in front of an end does not matter. -/
theorem InForm.inverts_split (hw : w.InForm) (hlen : w.inputs.length = w.outputs.length)
    (hσ : ∀ x, σ x ≠ 0) (hv : w.IsZ v) (ht : w.IsEnd t) (hk : w.link v t = some k) :
    (w.split v t k).Inverts σ ↔ w.Inverts σ := by
  have h₀ := SameShape.unphased w
  have hval := hw.simple.valid
  have hsplit := hw.split hv ht hk
  have htn := hval.ne_next ht.has
  have hend : (w.split v t k).IsEnd t := by
    rw [IsEnd, kind_split, update_of_ne htn]
    exact ht
  have hnew : (w.split v t k).link w.next t = some k.opposite := by
    have hcount (k' : EdgeKind) : (w.split v t k).count w.next t k' =
        if k' = k.opposite then 1 else 0 := by
      rw [hval.count_split hv.has ht.has (hval.ne_end hk)]
      simp [SamePair, htn, (hval.ne_next hv.has).symm, (hval.ne_end hk).symm]
    rw [link, hcount, hcount]
    cases k <;> simp [EdgeKind.opposite]
  have hprop := (h₀.simple hw.simple).amplitude_split (τ := update σ w.next 1) (h₀.has.2 hv.has)
    (h₀.has.2 ht.has) (hval.ne_end hk) ((h₀.link v t).trans hk) (update_self ..)
  rw [network_unphased, network_of_zero fun x => by
    rw [phase_split, Function.update_apply, unphased, ite_self], h₀.split.weighted] at hprop
  have hiff : (w.split v t k).Inverts (update σ w.next 1) ↔ w.Inverts (update σ w.next 1) :=
    inverts_iff_of_proportional rfl rfl hprop
  rw [← hsplit.inverts_update hlen hend (hσ w.next) (isZ_split.2 (.inr rfl)) hnew one_ne_zero]
  refine hiff.trans ?_
  rw [Inverts, Inverts,
    amplitude_weighted_congr (w := w) fun x hx => update_of_ne (hval.ne_next hx.has) ..]

/-- Moving an end away keeps a web steady. -/
theorem Steady.shiftBoundary (hs : w.Steady) (hw : w.InForm) (hv : w.IsZ v) (ht : w.IsEnd t) :
    (Web.shiftBoundary v w t).Steady := by
  have hframe := (hw.shiftBoundary hv ht).2.1
  refine ⟨by rw [hframe.inputs, hframe.outputs, hs.lengths], fun σ hσ => ?_⟩
  rw [Web.shiftBoundary]
  split
  · exact hs.inverts σ hσ
  · next hk => exact (hw.inverts_split hs.lengths hσ hv ht hk).2 (hs.inverts σ hσ)

/-- Moving all ends away from a spider keeps a web steady. -/
theorem Steady.shiftBoundaries (hs : w.Steady) (hw : w.InForm) (hv : w.IsZ v) :
    (w.shiftBoundaries v).Steady := by
  have hends : ∀ t ∈ w.ends v, w.IsEnd t := fun t ht => by simpa using (List.mem_filter.1 ht).2
  rw [Web.shiftBoundaries]
  generalize w.ends v = ts at hends
  induction ts generalizing w with
  | nil => exact hs
  | cons t rest ih =>
    have ht := hends t List.mem_cons_self
    obtain ⟨hform, hframe, -⟩ := hw.shiftBoundary hv ht
    exact ih (hs.shiftBoundary hw hv ht) hform (hframe.isZ hv) fun u hu =>
      hframe.isEnd (hends u (List.mem_cons_of_mem t hu))

end Web

end ZXRewriting
