import ZXRewriting.GraphLike.LocalComplement
import ZXRewriting.Proofs.Semantics.Amplitude

/-!
# Local complementation is sound

Complementing the neighbourhood of a spider on webs (`Web.complement`, `Web.localComplement`).
The program does this without faults (`GraphLike.Gives.localComplement`), and where the phase is a
quarter turn, what the diagram denotes changes by a scalar only
(`Web.Simple.amplitude_localComplement`): the sum over the bit of the spider is a product of
phases of its neighbours and signs of pairs of them.
-/

namespace ZXRewriting

open Function (update update_self update_of_ne)
open Multigraph (SamePair)

namespace Web

variable {w : Web} {s t u v : Vertex} {vs : List Vertex} {p : Phase} {D : ℕ} {τ : Vertex → ℂ}
  {b : Bits}

/-! ### Toggling many edges -/

/-- Toggles the edges from a spider to those of a list. -/
def toggleAll (w : Web) (s : Vertex) (ts : List Vertex) : Web := ts.foldl (·.toggle s ·) w

@[simp] theorem toggleAll_nil : w.toggleAll s [] = w := rfl

@[simp] theorem toggleAll_cons : w.toggleAll s (t :: vs) = (w.toggle s t).toggleAll s vs := rfl

@[simp] theorem kind_toggleAll : (w.toggleAll s vs).kind = w.kind := by
  induction vs generalizing w with
  | nil => rfl
  | cons t rest ih => rw [toggleAll_cons, ih, kind_toggle]

@[simp] theorem next_toggleAll : (w.toggleAll s vs).next = w.next := by
  induction vs generalizing w with
  | nil => rfl
  | cons t rest ih => rw [toggleAll_cons, ih, next_toggle]

theorem isZ_toggle : (w.toggle s t).IsZ u ↔ w.IsZ u := by rw [IsZ, kind_toggle, IsZ]

theorem isZ_toggleAll : (w.toggleAll s vs).IsZ u ↔ w.IsZ u := by rw [IsZ, kind_toggleAll, IsZ]

theorem Simple.toggleAll (hw : w.Simple) (hs : w.IsZ s) (ht : ∀ t ∈ vs, w.IsZ t) :
    (w.toggleAll s vs).Simple := by
  induction vs generalizing w with
  | nil => exact hw
  | cons t rest ih =>
    exact ih (hw.toggle hs (ht t List.mem_cons_self)) (isZ_toggle.2 hs) fun u hu =>
      isZ_toggle.2 (ht u (List.mem_cons_of_mem t hu))

/-- The edges of a spider after toggling; those to itself are left out. -/
theorem Simple.count_toggleAll (hw : w.Simple) (hv : w.IsZ v) (hvs : ∀ t ∈ vs, w.IsZ t)
    (hnd : vs.Nodup) (s t : Vertex) (k : EdgeKind) :
    (w.toggleAll v vs).count s t k =
      if s ≠ t ∧ (s = v ∧ t ∈ vs ∨ t = v ∧ s ∈ vs) ∧ k = .hadamard then 1 - w.count s t k
      else w.count s t k := by
  induction vs generalizing w with
  | nil => simp
  | cons n rest ih =>
    have hn := hvs n List.mem_cons_self
    obtain ⟨hnr, hnd'⟩ := List.nodup_cons.1 hnd
    rw [toggleAll_cons, ih (hw.toggle hv hn) (isZ_toggle.2 hv)
      (fun x hx => isZ_toggle.2 (hvs x (List.mem_cons_of_mem n hx))) hnd', hw.count_toggle hv hn]
    simp only [SamePair, List.mem_cons]
    grind

theorem Simple.joins_toggleAll (hw : w.Simple) (hv : w.IsZ v) (hvs : ∀ t ∈ vs, w.IsZ t)
    (hnd : vs.Nodup) (s t : Vertex) :
    (w.toggleAll v vs).joins s t =
      if s ≠ t ∧ (s = v ∧ t ∈ vs ∨ t = v ∧ s ∈ vs) then 1 - w.joins s t else w.joins s t := by
  rw [joins, hw.count_toggleAll hv hvs hnd, hw.count_toggleAll hv hvs hnd, joins]
  by_cases h : s ≠ t ∧ (s = v ∧ t ∈ vs ∨ t = v ∧ s ∈ vs)
  · have hplain : w.count s t .plain = 0 := by
      rcases h.2 with ⟨rfl, ht⟩ | ⟨rfl, hs⟩
      · exact hw.plain _ _ hv (hvs t ht)
      · exact hw.plain _ _ (hvs s hs) hv
    simp [h, hplain]
  · rw [if_neg h, if_neg (by tauto), if_neg (by tauto)]

theorem OnGrid.toggleAll (hD : Phase.IsGrid D) (h : w.OnGrid D) (s : Vertex) (vs : List Vertex) :
    (w.toggleAll s vs).OnGrid D := by
  induction vs generalizing w with
  | nil => exact h
  | cons t rest ih => exact ih (h.toggle hD s t)

/-- Every edge toggled brings its sign. Only that of a loop is a phase, which is to fit. -/
theorem Simple.weight_toggleAll (hw : w.Simple) (hpi : s ∈ vs → Phase.IsGrid D ∧ w.OnGrid D)
    (hs : w.IsZ s) (ht : ∀ t ∈ vs, w.IsZ t) : ((w.toggleAll s vs).network τ).weight b =
      (w.network τ).weight b * if b s then signs vs b else 1 := by
  rw [← prod_value_hadamard]
  induction vs generalizing w with
  | nil => simp
  | cons t rest ih =>
    have ht' := ht t List.mem_cons_self
    have hrest (h : s ∈ rest) : Phase.IsGrid D ∧ (w.toggle s t).OnGrid D := by
      obtain ⟨hD, hg⟩ := hpi (List.mem_cons_of_mem t h)
      exact ⟨hD, hg.toggle hD s t⟩
    rw [toggleAll_cons, ih (hw.toggle hs ht') hrest (isZ_toggle.2 hs) fun u hu =>
      isZ_toggle.2 (ht u (List.mem_cons_of_mem t hu)),
      hw.weight_toggle (fun h : s = t => hpi (h ▸ List.mem_cons_self)) hs ht', List.map_cons,
      List.prod_cons, mul_assoc]

theorem Simple.plain_toggleAll (hw : w.Simple) (hs : w.IsZ s) (ht : ∀ t ∈ vs, w.IsZ t)
    (u v : Vertex) : (w.toggleAll s vs).count u v .plain = w.count u v .plain := by
  induction vs generalizing w with
  | nil => rfl
  | cons t rest ih =>
    have ht' := ht t List.mem_cons_self
    rw [toggleAll_cons, ih (hw.toggle hs ht') (isZ_toggle.2 hs) fun u hu =>
      isZ_toggle.2 (ht u (List.mem_cons_of_mem t hu)), hw.count_toggle hs ht', if_neg (by simp)]

/-! ### Complementing -/

/-- Takes `p` off the phase of each spider of a list, and toggles the edges between every two. -/
def complement (p : Phase) : List Vertex → Web → Web
  | [], w => w
  | n :: rest, w => complement p rest ((w.addToPhase n (-p)).toggleAll n rest)

/-- Complements the neighbourhood of a spider and removes it. -/
def localComplement (w : Web) (v : Vertex) : Web :=
  (complement (w.phase v) (w.nearby v) w).remove v

/-- The factor that complementing a list brings, the phases bringing the factor `c` each. -/
noncomputable def complementFactor (c : ℂ) : List Vertex → Bits → ℂ
  | [], _ => 1
  | n :: rest, b => (if b n then c * signs rest b else 1) * complementFactor c rest b

@[simp] theorem kind_complement : (complement p vs w).kind = w.kind := by
  induction vs generalizing w with
  | nil => rfl
  | cons n rest ih => rw [complement, ih, kind_toggleAll, kind_addToPhase]

@[simp] theorem next_complement : (complement p vs w).next = w.next := by
  induction vs generalizing w with
  | nil => rfl
  | cons n rest ih => rw [complement, ih, next_toggleAll, next_addToPhase]

theorem isZ_complement : (complement p vs w).IsZ u ↔ w.IsZ u := by rw [IsZ, kind_complement, IsZ]

section

variable (hvs : ∀ n ∈ vs, w.IsZ n)

include hvs

theorem Simple.complement (hw : w.Simple) : (complement p vs w).Simple := by
  induction vs generalizing w with
  | nil => exact hw
  | cons n rest ih =>
    have hrest : ∀ m ∈ rest, w.IsZ m := fun m hm => hvs m (List.mem_cons_of_mem n hm)
    refine ih (fun m hm => ?_) ((hw.addToPhase n (-p)).toggleAll (hvs n List.mem_cons_self) hrest)
    exact isZ_toggleAll.2 (hrest m hm)

omit hvs in
theorem OnGrid.complement (hD : Phase.IsGrid D) (hp : p.OnGrid D) (h : w.OnGrid D) :
    (complement p vs w).OnGrid D := by
  induction vs generalizing w with
  | nil => exact h
  | cons n rest ih => exact ih ((h.addToPhase hD (hp.neg hD).1 n).toggleAll hD n rest)

theorem Simple.weight_complement (hw : w.Simple) (hD : Phase.IsGrid D) (hp : p.OnGrid D)
    (hg : w.OnGrid D) : ((Web.complement p vs w).network τ).weight b =
      (w.network τ).weight b * complementFactor p.unit⁻¹ vs b := by
  induction vs generalizing w with
  | nil => simp [Web.complement, complementFactor]
  | cons n rest ih =>
    have hn := hvs n List.mem_cons_self
    have hrest : ∀ m ∈ rest, w.IsZ m := fun m hm => hvs m (List.mem_cons_of_mem n hm)
    have hw' := hw.addToPhase n (-p)
    have hg' := hg.addToPhase hD (hp.neg hD).1 n
    have hz : ∀ m ∈ rest, ((w.addToPhase n (-p)).toggleAll n rest).IsZ m := fun m hm =>
      isZ_toggleAll.2 (hrest m hm)
    rw [Web.complement, ih hz (hw'.toggleAll hn hrest) (hg'.toggleAll hD n rest),
      hw'.weight_toggleAll (fun _ => ⟨hD, hg'⟩) hn hrest,
      hw.valid.weight_addToPhase hD hg hn (hp.neg hD).1, (hp.neg hD).2, complementFactor]
    cases b n <;> simp [mul_assoc]

/-- Complementing adds no plain edges, and none to other spiders. -/
theorem Simple.plain_complement (hw : w.Simple) (s t : Vertex) :
    (Web.complement p vs w).count s t .plain = w.count s t .plain := by
  induction vs generalizing w with
  | nil => rfl
  | cons n rest ih =>
    have hn := hvs n List.mem_cons_self
    have hrest : ∀ m ∈ rest, w.IsZ m := fun m hm => hvs m (List.mem_cons_of_mem n hm)
    have hw' := hw.addToPhase n (-p)
    have hz : ∀ m ∈ rest, ((w.addToPhase n (-p)).toggleAll n rest).IsZ m := fun m hm =>
      isZ_toggleAll.2 (hrest m hm)
    rw [Web.complement, ih hz (hw'.toggleAll hn hrest),
      hw'.plain_toggleAll hn hrest]
    rfl

end

/-- The sum over the bit of a spider with a quarter turn. -/
theorem one_add_mul_signs {c : ℂ} (hc : c * c = -1) (vs : List Vertex) (b : Bits) :
    1 + c * signs vs b = (1 + c) * complementFactor c⁻¹ vs b := by
  have hinv : c⁻¹ = -c := inv_eq_of_mul_eq_one_right (by linear_combination -hc)
  induction vs with
  | nil => simp [signs, complementFactor]
  | cons n rest ih =>
    have hsigns : signs (n :: rest) b = EdgeKind.hadamard.value true (b n) * signs rest b := rfl
    rw [hsigns, complementFactor]
    cases hn : b n with
    | false => simpa using ih
    | true =>
      have hsq := signs_mul_self rest b
      have hval : EdgeKind.hadamard.value true true = -1 := rfl
      calc 1 + c * (EdgeKind.hadamard.value true true * signs rest b)
          = c⁻¹ * signs rest b * (1 + c * signs rest b) := by
            rw [hval, hinv]
            linear_combination signs rest b * signs rest b * hc - hsq
        _ = _ := by
            rw [ih, if_pos rfl]
            ring

theorem complementFactor_update {c : ℂ} (h : v ∉ vs) (b : Bits) (x : Bool) :
    complementFactor c vs (update b v x) = complementFactor c vs b := by
  induction vs with
  | nil => rfl
  | cons n rest ih =>
    rw [List.mem_cons, not_or] at h
    rw [complementFactor, complementFactor, ih h.2, signs_update h.2, update_of_ne (Ne.symm h.1)]

theorem one_add_ne_zero {c : ℂ} (hc : c * c = -1) : 1 + c ≠ 0 := fun h => by
  have : c = -1 := by linear_combination h
  rw [this] at hc
  norm_num at hc

/-- Local complementation changes what the diagram denotes by a scalar only. -/
theorem Simple.amplitude_localComplement (hw : w.Simple) (hD : Phase.IsGrid D) (hg : w.OnGrid D)
    (hv : w.IsZ v) (hns : ∀ u ∈ w.nearby v, w.IsZ u) (hp : (w.phase v).isProperClifford)
    (hτ : τ v = 1) :
    Proportional (w.network τ).amplitude ((w.localComplement v).network τ).amplitude := by
  have hplain (u : Vertex) : w.count v u .plain = 0 := by
    by_cases hu : u ∈ w.nearby v
    · exact hw.plain v u hv (hns u hu)
    · rw [hw.valid.mem_nearby, joins] at hu
      omega
  set w₁ := Web.complement (w.phase v) (w.nearby v) w with hw₁
  have hsimple : w₁.Simple := Simple.complement hns hw
  have hv₁ : w₁.IsZ v := isZ_complement.2 hv
  have hplain₁ (u : Vertex) : w₁.count v u .plain = 0 :=
    (Simple.plain_complement hns hw v u).trans (hplain u)
  have hunit := Phase.unit_mul_self_of_isProperClifford hp
  refine ⟨1 + (w.phase v).unit, one_add_ne_zero hunit, fun b => ?_⟩
  have hinner : ((w.localComplement v).network τ).inner = (w.network τ).inner.erase v := by
    rw [localComplement, hsimple.valid.inner_remove, inner_congr next_complement kind_complement]
  refine Network.amplitude_eq_of_sum (hw.valid.mem_inner.2 hv) hinner (fun b => ?_) b
  have hrest : ((w.localComplement v).network τ).weight b =
      ((w.remove v).network τ).weight b *
        complementFactor (w.phase v).unit⁻¹ (w.nearby v) b := by
    have h₁ := hsimple.weight_signs (τ := τ) (b := b) hv₁ hplain₁ false
    rw [if_neg Bool.false_ne_true, mul_one] at h₁
    rw [localComplement, ← hw₁, ← h₁, Simple.weight_complement hns hw hD (hg v) hg,
      hw.weight_signs hv hplain, complementFactor_update hw.valid.notMem_nearby_self]
    simp
  rw [hw.weight_signs hv hplain, hw.weight_signs hv hplain, hrest, hτ, mul_left_comm,
    ← one_add_mul_signs hunit]
  simp
  ring

end Web

/-! ### The program -/

namespace GraphLike

variable {g : GraphLike} {v : Vertex}

open Web

theorem Gives.toggleAll (hg : g.Coherent) (hw : g.web.Simple) (hv : g.web.IsZ v)
    {vs : List Vertex} (hvs : ∀ n ∈ vs, g.web.IsZ n) :
    Gives (vs.foldlM (fun g n => g.addEdgeReduced v n .hadamard) g) (g.web.toggleAll v vs)
      g.master := by
  refine (Gives.foldlM (F := fun w n => w.toggle v n)
    (fun w => w.Simple ∧ w.kind = g.web.kind) vs hg ⟨hw, rfl⟩ fun n hn g₁ hg₁ hinv => ?_).1
  obtain ⟨hs₁, hk₁⟩ := hinv
  have hz {u : Vertex} (hu : g.web.IsZ u) : g₁.web.IsZ u := by rwa [IsZ, hk₁]
  have hone := hs₁.single v n
  rw [joins] at hone
  exact ⟨Gives.addEdgeReduced hg₁ (hz hv) (hz (hvs n hn))
    (hs₁.plain v n (hz hv) (hz (hvs n hn))) (by omega), hs₁.toggle (hz hv) (hz (hvs n hn)),
    by rw [kind_toggle, hk₁]⟩

/-- Adding to the phase of a spider and toggling its edges to others. -/
theorem Gives.addToPhase_toggleAll (hg : g.Coherent) (hw : g.web.Simple) (hv : g.web.IsZ v)
    {vs : List Vertex} (hvs : ∀ n ∈ vs, g.web.IsZ n) (p : Phase) :
    Gives (vs.foldlM (fun g n => g.addEdgeReduced v n .hadamard) (g.addToPhase v p))
      ((g.web.addToPhase v p).toggleAll v vs) g.master := by
  have hw' : (g.addToPhase v p).web = g.web.addToPhase v p := web_addToPhase
  have hv' : (g.addToPhase v p).web.IsZ v := by rw [hw']; exact hv
  have hvs' : ∀ n ∈ vs, (g.addToPhase v p).web.IsZ n := fun n hn => by rw [hw']; exact hvs n hn
  have h := Gives.toggleAll (Coherent.addToPhase hg v p) (hw' ▸ hw.addToPhase v p) hv' hvs'
  rwa [hw'] at h

theorem Gives.complement (hg : g.Coherent) (hw : g.web.Simple) (p : Phase) {vs : List Vertex}
    (hvs : ∀ n ∈ vs, g.web.IsZ n) :
    Gives (GraphLike.complement p vs g) (Web.complement p vs g.web) g.master := by
  induction vs generalizing g with
  | nil => exact Gives.ok hg
  | cons n rest ih =>
    have hn := hvs n List.mem_cons_self
    have hrest : ∀ m ∈ rest, g.web.IsZ m := fun m hm => hvs m (List.mem_cons_of_mem n hm)
    have hsimple := (hw.addToPhase n (-p)).toggleAll hn hrest
    refine (Gives.addToPhase_toggleAll hg hw hn hrest (-p)).bind fun g₂ hg₂ hw₂ hm₂ => ?_
    have := ih hg₂ (hw₂ ▸ hsimple) fun m hm => hw₂ ▸ isZ_toggleAll.2 (hrest m hm)
    rwa [hw₂, hm₂] at this

/-- Complementing the neighbourhood of a spider that is joined to Z spiders only. -/
theorem Gives.localComplement (hg : g.Coherent) (hw : g.web.Simple) (hv : g.web.Has v)
    (hns : ∀ u ∈ g.web.nearby v, g.web.IsZ u) :
    Gives (g.localComplement v) (g.web.localComplement v) g.master := by
  rw [GraphLike.localComplement, neighborSet_eq hg hv]
  refine (Gives.complement hg hw (g.phase v) hns).bind fun g₁ hg₁ hw₁ hm₁ => ?_
  have hv₁ : g₁.web.Has v := by rwa [Has, hw₁, kind_complement]
  have := Gives.removeSpider hg₁ hv₁
  rwa [hw₁, hm₁] at this

end GraphLike

end ZXRewriting
