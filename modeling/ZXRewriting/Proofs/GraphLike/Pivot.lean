import ZXRewriting.GraphLike.Pivot
import ZXRewriting.Proofs.GraphLike.LocalComplement

/-!
# Pivoting is sound

Pivoting on webs (`Web.pivot`): the program does this without faults at two joined spiders next
to Z spiders only (`GraphLike.Gives.pivot`), and where their phases are 0 or pi, what the diagram
denotes changes by a scalar only (`Web.Simple.amplitude_pivot`).
-/

namespace ZXRewriting

open Function (update update_self update_of_ne)

namespace Web

variable {w : Web} {s t u v : Vertex} {vs us : List Vertex} {p q : Phase} {D : ℕ}
  {τ : Vertex → ℂ} {b : Bits}

/-- Adds to the phases of the spiders of a list. -/
def addToPhases (w : Web) (vs : List Vertex) (p : Phase) : Web := vs.foldl (·.addToPhase · p) w

/-- Adds `q` to the phases of the spiders of a list, and toggles the edges from each to those that
    `others` gives. -/
def joinAll (q : Phase) (others : Vertex → List Vertex) (w : Web) (vs : List Vertex) : Web :=
  vs.foldl (fun w n => (w.addToPhase n q).toggleAll n (others n)) w

/-- The spiders which the neighbours of the first of two spiders get an edge to: the neighbours of
    the second, and none for the second itself. -/
def pivotPartners (w : Web) (v u : Vertex) (n : Vertex) : List Vertex :=
  if n = u then [] else (w.nearby u).filter (· ≠ v)

/-- Removes two spiders and joins the neighbours of the one to those of the other. -/
def pivot (w : Web) (v u : Vertex) : Web :=
  (((joinAll (w.phase u) (w.pivotPartners v u) w (w.nearby v)).addToPhases (w.nearby u)
    (w.phase v)).remove v).remove u

/-! ### Phases of many spiders -/

@[simp] theorem addToPhases_nil : w.addToPhases [] p = w := rfl

@[simp] theorem addToPhases_cons :
    w.addToPhases (t :: vs) p = (w.addToPhase t p).addToPhases vs p := rfl

@[simp] theorem kind_addToPhases : (w.addToPhases vs p).kind = w.kind := by
  induction vs generalizing w with
  | nil => rfl
  | cons t rest ih => rw [addToPhases_cons, ih, kind_addToPhase]

@[simp] theorem next_addToPhases : (w.addToPhases vs p).next = w.next := by
  induction vs generalizing w with
  | nil => rfl
  | cons t rest ih => rw [addToPhases_cons, ih, next_addToPhase]

@[simp] theorem count_addToPhases : (w.addToPhases vs p).count = w.count := by
  induction vs generalizing w with
  | nil => rfl
  | cons t rest ih => rw [addToPhases_cons, ih, count_addToPhase]

theorem Simple.addToPhases (hw : w.Simple) (vs : List Vertex) (p : Phase) :
    (w.addToPhases vs p).Simple := by
  induction vs generalizing w with
  | nil => exact hw
  | cons t rest ih => exact ih (hw.addToPhase t p)

theorem OnGrid.addToPhases (hD : Phase.IsGrid D) (hg : w.OnGrid D) (hp : p.OnGrid D)
    (vs : List Vertex) : (w.addToPhases vs p).OnGrid D := by
  induction vs generalizing w with
  | nil => exact hg
  | cons t rest ih => exact ih (hg.addToPhase hD hp t)

/-- The product of a factor for each bit that is one. -/
noncomputable def powers (c : ℂ) (vs : List Vertex) (b : Bits) : ℂ :=
  (vs.map fun u => if b u then c else 1).prod

theorem powers_cons (c : ℂ) (v : Vertex) (vs : List Vertex) (b : Bits) :
    powers c (v :: vs) b = (if b v then c else 1) * powers c vs b := rfl

theorem Valid.weight_addToPhases (hw : w.Valid) (hD : Phase.IsGrid D) (hg : w.OnGrid D)
    (hvs : ∀ t ∈ vs, w.IsZ t) (hp : p.OnGrid D) : ((w.addToPhases vs p).network τ).weight b =
      (w.network τ).weight b * powers p.unit vs b := by
  induction vs generalizing w with
  | nil => simp [powers]
  | cons t rest ih =>
    rw [addToPhases_cons, ih (hw.addToPhase t p) (hg.addToPhase hD hp t)
      fun u hu => hvs u (List.mem_cons_of_mem t hu),
      hw.weight_addToPhase hD hg (hvs t List.mem_cons_self) hp, powers_cons, mul_assoc]

/-! ### Joining -/

@[simp] theorem joinAll_nil {others} : joinAll q others w [] = w := rfl

@[simp] theorem joinAll_cons {others} : joinAll q others w (t :: vs) =
    joinAll q others ((w.addToPhase t q).toggleAll t (others t)) vs := rfl

@[simp] theorem kind_joinAll {others} : (joinAll q others w vs).kind = w.kind := by
  induction vs generalizing w with
  | nil => rfl
  | cons t rest ih => rw [joinAll_cons, ih, kind_toggleAll, kind_addToPhase]

@[simp] theorem next_joinAll {others} : (joinAll q others w vs).next = w.next := by
  induction vs generalizing w with
  | nil => rfl
  | cons t rest ih => rw [joinAll_cons, ih, next_toggleAll, next_addToPhase]

theorem isZ_joinAll {others} : (joinAll q others w vs).IsZ u ↔ w.IsZ u := by
  rw [IsZ, kind_joinAll, IsZ]

theorem OnGrid.joinAll {others} (hD : Phase.IsGrid D) (hg : w.OnGrid D) (hq : q.OnGrid D) :
    (joinAll q others w vs).OnGrid D := by
  induction vs generalizing w with
  | nil => exact hg
  | cons t rest ih => exact ih ((hg.addToPhase hD hq t).toggleAll hD t _)

/-- One step of joining, for proofs by induction on the list. -/
private theorem join_step {others : Vertex → List Vertex} {rest : List Vertex}
    (hvs : ∀ n ∈ t :: rest, w.IsZ n)
    (hothers : ∀ n ∈ t :: rest, ∀ m ∈ others n, w.IsZ m) (hw : w.Simple) :
    ((w.addToPhase t q).toggleAll t (others t)).Simple ∧
      (∀ n ∈ rest, ((w.addToPhase t q).toggleAll t (others t)).IsZ n) ∧
      ∀ n ∈ rest, ∀ m ∈ others n, ((w.addToPhase t q).toggleAll t (others t)).IsZ m :=
  ⟨(hw.addToPhase t q).toggleAll (hvs t List.mem_cons_self) (hothers t List.mem_cons_self),
    fun n hn => isZ_toggleAll.2 (hvs n (List.mem_cons_of_mem t hn)),
    fun n hn m hm => isZ_toggleAll.2 (hothers n (List.mem_cons_of_mem t hn) m hm)⟩

section

variable {others : Vertex → List Vertex} (hvs : ∀ n ∈ vs, w.IsZ n)
  (hothers : ∀ n ∈ vs, ∀ m ∈ others n, w.IsZ m)

include hvs hothers

theorem Simple.joinAll (hw : w.Simple) : (Web.joinAll q others w vs).Simple := by
  induction vs generalizing w with
  | nil => exact hw
  | cons t rest ih =>
    obtain ⟨hw', hvs', hothers'⟩ := join_step (q := q) hvs hothers hw
    exact ih hvs' hothers' hw'

theorem Simple.plain_joinAll (hw : w.Simple) (s t : Vertex) :
    (Web.joinAll q others w vs).count s t .plain = w.count s t .plain := by
  induction vs generalizing w with
  | nil => rfl
  | cons n rest ih =>
    obtain ⟨hw', hvs', hothers'⟩ := join_step (q := q) hvs hothers hw
    rw [joinAll_cons, ih hvs' hothers' hw', (hw.addToPhase n q).plain_toggleAll
      (hvs n List.mem_cons_self) (hothers n List.mem_cons_self)]
    rfl

theorem Simple.weight_joinAll (hw : w.Simple) (hD : Phase.IsGrid D) (hg : w.OnGrid D)
    (hq : q.OnGrid D) : ((Web.joinAll q others w vs).network τ).weight b =
      (w.network τ).weight b *
        (vs.map fun n => if b n then q.unit * signs (others n) b else 1).prod := by
  induction vs generalizing w with
  | nil => simp
  | cons n rest ih =>
    obtain ⟨hw', hvs', hothers'⟩ := join_step (q := q) hvs hothers hw
    have hn := hvs n List.mem_cons_self
    rw [joinAll_cons, ih hvs' hothers' hw' ((hg.addToPhase hD hq n).toggleAll hD n _),
      (hw.addToPhase n q).weight_toggleAll (fun _ => ⟨hD, hg.addToPhase hD hq n⟩) hn
        (hothers n List.mem_cons_self),
      hw.valid.weight_addToPhase hD hg hn hq, List.map_cons, List.prod_cons]
    cases b n <;> simp [mul_assoc]

end

/-! ### The sum over the bits of two spiders -/

/-- A sign for each bit that is one. -/
theorem powers_of_sign {c : ℂ} (hc : c = 1 ∨ c = -1) (vs : List Vertex) (b : Bits) :
    powers c vs b = if c = 1 then 1 else signs vs b := by
  rcases hc with rfl | rfl
  · simp [powers]
  · have hne : (-1 : ℂ) ≠ 1 := by norm_num
    rw [if_neg hne]
    rfl

theorem signs_eq (vs : List Vertex) (b : Bits) : signs vs b = 1 ∨ signs vs b = -1 :=
  mul_self_eq_one_iff.1 (signs_mul_self vs b)

/-- Four signs are summed over in a pivot. -/
theorem sum_four_signs {P Q S T : ℂ} (hP : P = 1 ∨ P = -1) (hQ : Q = 1 ∨ Q = -1)
    (hS : S = 1 ∨ S = -1) (hT : T = 1 ∨ T = -1) :
    1 + P * S + (Q * T + -(P * Q * S * T)) = (if P = 1 ∨ Q = 1 then 2 else -2) *
      ((if Q * T = 1 then 1 else S) * if P = 1 then 1 else T) := by
  have hne : (-1 : ℂ) ≠ 1 := by norm_num
  rcases hP with rfl | rfl <;> rcases hQ with rfl | rfl <;> rcases hS with rfl | rfl <;>
    rcases hT with rfl | rfl <;> simp [hne] <;> norm_num

theorem signs_filter (h : b v = false) (vs : List Vertex) :
    signs (vs.filter (· ≠ v)) b = signs vs b := by
  induction vs with
  | nil => rfl
  | cons u rest ih =>
    rw [List.filter_cons]
    by_cases hu : u = v
    · subst hu
      rw [if_neg (by simp), ih, signs, signs, List.map_cons, List.prod_cons, h,
        EdgeKind.value_hadamard_false_right, one_mul]
    · rw [if_pos (by simpa using hu), signs, List.map_cons, List.prod_cons, signs, List.map_cons,
        List.prod_cons, ← signs, ih, signs]

/-- The signs of the bits at a list without repetitions, when one bit is changed. -/
theorem signs_update_of_mem (hnd : vs.Nodup) (hu : u ∈ vs) (h : b u = false) (x : Bool) :
    signs vs (update b u x) = EdgeKind.hadamard.value true x * signs vs b := by
  obtain ⟨l, r, rfl, hl, hr⟩ : ∃ l r, vs = l ++ u :: r ∧ u ∉ l ∧ u ∉ r := by
    obtain ⟨l, r, rfl⟩ := List.append_of_mem hu
    rw [List.nodup_append, List.nodup_cons] at hnd
    exact ⟨l, r, rfl, fun hl => hnd.2.2 u hl u List.mem_cons_self rfl, hnd.2.1.1⟩
  have hsplit (b : Bits) : signs (l ++ u :: r) b =
      EdgeKind.hadamard.value true (b u) * (signs l b * signs r b) := by
    rw [signs, List.map_append, List.prod_append, List.map_cons, List.prod_cons, signs, signs]
    ring
  rw [hsplit, hsplit, signs_update hl, signs_update hr, update_self, h,
    EdgeKind.value_hadamard_false_right, one_mul]

/-! ### Soundness -/

/-- What a pivot asks for: two spiders joined, and next to Z spiders only. -/
structure Pivotable (w : Web) (v u : Vertex) : Prop where
  left : w.IsZ v
  right : w.IsZ u
  joined : u ∈ w.nearby v
  left_nearby : ∀ n ∈ w.nearby v, w.IsZ n
  right_nearby : ∀ n ∈ w.nearby u, w.IsZ n

theorem Pivotable.ne (h : w.Pivotable v u) (hw : w.Valid) : v ≠ u := fun he =>
  hw.notMem_nearby_self (he ▸ h.joined)

theorem Simple.plain_eq_zero (hw : w.Simple) (hv : w.IsZ v) (h : ∀ n ∈ w.nearby v, w.IsZ n)
    (n : Vertex) : w.count v n .plain = 0 := by
  by_cases hn : n ∈ w.nearby v
  · exact hw.plain v n hv (h n hn)
  · rw [hw.valid.mem_nearby, joins] at hn
    omega

theorem Pivotable.partners (h : w.Pivotable v u) :
    ∀ n ∈ w.nearby v, ∀ m ∈ w.pivotPartners v u n, w.IsZ m := fun n _ m hm => by
  rw [pivotPartners] at hm
  split at hm
  · simp at hm
  · exact h.right_nearby m (List.mem_of_mem_filter hm)

/-- The web before the two spiders are removed. -/
theorem Pivotable.simple_joined (h : w.Pivotable v u) (q : Phase) (us : List Vertex) (p : Phase)
    (hw : w.Simple) :
    ((joinAll q (w.pivotPartners v u) w (w.nearby v)).addToPhases us p).Simple :=
  (Simple.joinAll h.left_nearby h.partners hw).addToPhases us p

theorem nearby_remove : (w.remove v).nearby u = if u = v then [] else (w.nearby u).filter (· ≠ v) := by
  split
  · next h =>
    rw [nearby, List.filter_eq_nil_iff]
    simp [joins, Web.remove, h]
  · next h =>
    rw [nearby, nearby, List.filter_filter, next_remove]
    refine List.filter_congr fun n _ => ?_
    by_cases hn : n = v <;> simp [joins, Web.remove, h, hn]

theorem isZ_remove_of_ne (hne : u ≠ v) (hu : w.IsZ u) : (w.remove v).IsZ u := by
  rwa [IsZ, kind_remove, update_of_ne hne]

theorem plain_remove (hu : ∀ n, w.count u n .plain = 0) (n : Vertex) :
    (w.remove v).count u n .plain = 0 := by
  simp only [Web.remove]
  split
  · rfl
  · exact hu n

section Weights

variable (hw : w.Simple) (h : w.Pivotable v u)
include hw h

/-- The weights by the bits of the two spiders. -/
theorem Simple.weight_pair (hτv : τ v = 1) (hτu : τ u = 1) (b : Bits) (y x : Bool) :
    (w.network τ).weight (update (update b u y) v x) =
      (((w.remove v).remove u).network τ).weight b *
        (if y then (w.phase u).unit * signs (w.nearby u) (update b v false) else 1) *
        if x then (w.phase v).unit *
          (EdgeKind.hadamard.value true y * signs (w.nearby v) (update b u false)) else 1 := by
  have hne := h.ne hw.valid
  have hpu := hw.plain_eq_zero h.right h.right_nearby
  have hsub := (hw.remove v).weight_signs (τ := τ) (b := b) (isZ_remove_of_ne hne.symm h.right)
    (plain_remove hpu) y
  have hT : signs ((w.remove v).nearby u) b = signs (w.nearby u) (update b v false) := by
    rw [nearby_remove, if_neg hne.symm, ← signs_update (v := v) (by simp) b false,
      signs_filter (update_self ..)]
  have hsigns : signs (w.nearby v) (update b u y) =
      EdgeKind.hadamard.value true y * signs (w.nearby v) (update b u false) := by
    rw [← signs_update_of_mem nodup_nearby h.joined (update_self ..), Function.update_idem]
  rw [hw.weight_signs h.left (hw.plain_eq_zero h.left h.left_nearby), hsub, hτv, hτu, hT, mul_one,
    mul_one, phase_remove, update_of_ne hne.symm, hsigns]

variable (hD : Phase.IsGrid D) (hg : w.OnGrid D) (hv : (w.phase v).isPauli)
  (hu : (w.phase u).isPauli)
include hD hg hv hu

/-- The weights after a pivot. -/
theorem Simple.weight_pivot (hτv : τ v = 1) (hτu : τ u = 1) (b : Bits) :
    ((w.pivot v u).network τ).weight b = (((w.remove v).remove u).network τ).weight b *
      ((if (w.phase u).unit * signs (w.nearby u) (update b v false) = 1 then 1
          else signs (w.nearby v) (update b u false)) *
        if (w.phase v).unit = 1 then 1 else signs (w.nearby u) (update b v false)) := by
  have hne := h.ne hw.valid
  have hpv := hw.plain_eq_zero h.left h.left_nearby
  have hpu := hw.plain_eq_zero h.right h.right_nearby
  set T := signs (w.nearby u) (update b v false)
  set S := signs (w.nearby v) (update b u false)
  set w₁ := Web.joinAll (w.phase u) (w.pivotPartners v u) w (w.nearby v) with hw₁
  set w₂ := w₁.addToPhases (w.nearby u) (w.phase v) with hw₂
  have hsimple₁ : w₁.Simple := Simple.joinAll h.left_nearby h.partners hw
  have hsimple₂ : w₂.Simple := hsimple₁.addToPhases _ _
  have hkind₂ : w₂.kind = w.kind := by rw [hw₂, kind_addToPhases, hw₁, kind_joinAll]
  have hplain₂ (s t : Vertex) : w₂.count s t .plain = w.count s t .plain := by
    rw [hw₂, count_addToPhases, hw₁, Simple.plain_joinAll h.left_nearby h.partners hw]
  have hz₂ {n : Vertex} (hn : w.IsZ n) : w₂.IsZ n := by rwa [IsZ, hkind₂]
  -- the two spiders that are removed, with their bits zero
  set b₁ : Bits := update (update b u false) v false with hb₁
  have hb₁u : b₁ u = false := by rw [hb₁, update_of_ne hne.symm, update_self]
  have hb₁v : b₁ v = false := update_self ..
  have hzero : ((w.pivot v u).network τ).weight b = (w₂.network τ).weight b₁ := by
    have h₁ := (hsimple₂.remove v).weight_signs (τ := τ) (b := b)
      (isZ_remove_of_ne hne.symm (hz₂ h.right))
      (plain_remove fun n => (hplain₂ u n).trans (hpu n)) false
    have h₂ := hsimple₂.weight_signs (τ := τ) (b := update b u false) (hz₂ h.left)
      (fun n => (hplain₂ v n).trans (hpv n)) false
    rw [if_neg Bool.false_ne_true, mul_one] at h₁ h₂
    rw [pivot, ← hw₁, ← hw₂, ← h₁, hb₁, h₂]
  have hzero' : (w.network τ).weight b₁ = (((w.remove v).remove u).network τ).weight b := by
    rw [hb₁, hw.weight_pair h hτv hτu]
    simp
  have hT₁ : signs (w.nearby u) b₁ = T := by
    rw [hb₁, Function.update_comm hne.symm, signs_update hw.valid.notMem_nearby_self]
  have hS₁ : signs (w.nearby v) b₁ = S := by
    rw [hb₁, signs_update hw.valid.notMem_nearby_self]
  have hprod : ((w.nearby v).map fun n => if b₁ n then
      (w.phase u).unit * signs (w.pivotPartners v u n) b₁ else 1).prod =
        powers ((w.phase u).unit * T) (w.nearby v) b₁ := by
    rw [powers]
    congr 1
    refine List.map_congr_left fun n _ => ?_
    by_cases hn : n = u
    · simp [hn, hb₁u]
    · rw [pivotPartners, if_neg hn, signs_filter hb₁v, hT₁]
  have hQT : (w.phase u).unit * T = 1 ∨ (w.phase u).unit * T = -1 := by
    rcases (Phase.unit_of_isPauli hu).imp And.right And.right with hQ | hQ <;>
      rcases signs_eq (w.nearby u) (update b v false) with hT | hT <;> simp [hQ, T, hT]
  rw [hzero, hw₂, hsimple₁.valid.weight_addToPhases hD (hg.joinAll hD (hg u))
      (fun n hn => isZ_joinAll.2 (h.right_nearby n hn)) (hg v), hw₁,
    Simple.weight_joinAll h.left_nearby h.partners hw hD hg (hg u), hzero', hprod,
    powers_of_sign hQT, powers_of_sign ((Phase.unit_of_isPauli hv).imp And.right And.right), hS₁,
    hT₁, mul_assoc]

end Weights

/-- Pivoting changes what the diagram denotes by a scalar only. -/
theorem Simple.amplitude_pivot (hw : w.Simple) (hD : Phase.IsGrid D) (hg : w.OnGrid D)
    (h : w.Pivotable v u) (hv : (w.phase v).isPauli) (hu : (w.phase u).isPauli)
    (hτv : τ v = 1) (hτu : τ u = 1) :
    Proportional (w.network τ).amplitude ((w.pivot v u).network τ).amplitude := by
  have hne := h.ne hw.valid
  set P := (w.phase v).unit
  set Q := (w.phase u).unit
  have hP : P = 1 ∨ P = -1 := (Phase.unit_of_isPauli hv).imp And.right And.right
  have hQ : Q = 1 ∨ Q = -1 := (Phase.unit_of_isPauli hu).imp And.right And.right
  have hinner : ((w.pivot v u).network τ).inner = ((w.network τ).inner.erase v).erase u := by
    set w₁ := Web.joinAll (w.phase u) (w.pivotPartners v u) w (w.nearby v) with hw₁
    set w₂ := w₁.addToPhases (w.nearby u) (w.phase v) with hw₂
    have hsimple₂ : w₂.Simple := (Simple.joinAll h.left_nearby h.partners hw).addToPhases _ _
    have hkind₂ : w₂.kind = w.kind := by rw [hw₂, kind_addToPhases, hw₁, kind_joinAll]
    have hnext₂ : w₂.next = w.next := by rw [hw₂, next_addToPhases, hw₁, next_joinAll]
    have hinner₂ : (w₂.network τ).inner = (w.network τ).inner := inner_congr hnext₂ hkind₂
    rw [pivot, (hsimple₂.remove v).valid.inner_remove, hsimple₂.valid.inner_remove, hinner₂]
  refine ⟨if P = 1 ∨ Q = 1 then 2 else -2, by split <;> norm_num, fun b => ?_⟩
  refine Network.amplitude_eq_of_sum_pair (hw.valid.mem_inner.2 h.left)
    (Finset.mem_erase.2 ⟨hne.symm, hw.valid.mem_inner.2 h.right⟩) hinner (fun b => ?_) b
  set R := (((w.remove v).remove u).network τ).weight b
  set S := signs (w.nearby v) (update b u false)
  set T := signs (w.nearby u) (update b v false)
  have hpair := hw.weight_pair h hτv hτu b
  have hsum := sum_four_signs hP hQ (S := S) (T := T) (signs_eq _ _) (signs_eq _ _)
  rw [hpair, hpair, hpair, hpair, hw.weight_pivot h hD hg hv hu hτv hτu, mul_left_comm _ R, ← hsum]
  simp [EdgeKind.value]
  ring

end Web

/-! ### The program -/

namespace GraphLike

variable {g : GraphLike} {u v : Vertex} {p : Phase} {vs : List Vertex}

open Web

theorem web_addToPhases : (vs.foldl (·.addToPhase · p) g).web = g.web.addToPhases vs p := by
  induction vs generalizing g with
  | nil => rfl
  | cons n rest ih => rw [List.foldl_cons, ih, web_addToPhase, addToPhases_cons]

theorem Coherent.addToPhases (hg : g.Coherent) :
    (vs.foldl (·.addToPhase · p) g).Coherent := by
  induction vs generalizing g with
  | nil => exact hg
  | cons n rest ih => exact ih (Coherent.addToPhase hg n p)

@[simp] theorem master_addToPhases :
    (vs.foldl (·.addToPhase · p) g).master = g.master := by
  induction vs generalizing g with
  | nil => rfl
  | cons n rest ih => exact ih

/-- Pivoting two spiders that are joined, and next to Z spiders only. -/
theorem Gives.pivot (hg : g.Coherent) (hw : g.web.Simple) (h : g.web.Pivotable v u) :
    Gives (g.pivot v u) (g.web.pivot v u) g.master := by
  have hne := h.ne hw.valid
  obtain ⟨hjoin, -⟩ := Gives.foldlM
    (f := fun g₁ n => pivotNeighbor (g.phase u)
      (if n = u then [] else (g.web.nearby u).filter (· ≠ v)) g₁ n)
    (F := fun w n => (w.addToPhase n (g.phase u)).toggleAll n (g.web.pivotPartners v u n))
    (fun w => w.Simple ∧ w.kind = g.web.kind) (g.web.nearby v) hg ⟨hw, rfl⟩
    fun n hn g₁ hg₁ hinv => by
      obtain ⟨hs₁, hk₁⟩ := hinv
      have hz {x : Vertex} (hx : g.web.IsZ x) : g₁.web.IsZ x := by rwa [IsZ, hk₁]
      have hpartners : ∀ m ∈ g.web.pivotPartners v u n, g₁.web.IsZ m := fun m hm =>
        hz (h.partners n hn m hm)
      exact ⟨Gives.addToPhase_toggleAll hg₁ hs₁ (hz (h.left_nearby n hn)) hpartners (g.phase u),
        (hs₁.addToPhase n _).toggleAll (hz (h.left_nearby n hn)) hpartners,
        by rw [kind_toggleAll, kind_addToPhase, hk₁]⟩
  rw [GraphLike.pivot, neighborSet_eq hg h.left.has, neighborSet_eq hg h.right.has]
  refine hjoin.bind fun g₁ hg₁ hw₁ hm₁ => ?_
  set w₂ := (Web.joinAll (g.phase u) (g.web.pivotPartners v u) g.web (g.web.nearby v)).addToPhases
    (g.web.nearby u) (g.phase v) with hw₂
  have hweb : ((g.web.nearby u).foldl (·.addToPhase · (g.phase v)) g₁).web = w₂ := by
    rw [web_addToPhases, hw₁]
    rfl
  have hkind : w₂.kind = g.web.kind := by rw [hw₂, kind_addToPhases, kind_joinAll]
  have hv : w₂.Has v := by
    rw [Has, hkind]
    exact h.left.has
  have hu : (w₂.remove v).Has u := by
    rw [Has, kind_remove, update_of_ne hne.symm, hkind]
    exact h.right.has
  have hremove := Gives.removeSpider (Coherent.addToPhases (p := g.phase v) hg₁) (hweb ▸ hv)
  rw [hweb, master_addToPhases, hm₁] at hremove
  refine hremove.bind fun g₃ hg₃ hw₃ hm₃ => ?_
  have hlast := Gives.removeSpider hg₃ (hw₃ ▸ hu)
  rwa [hw₃, hm₃] at hlast

end GraphLike

end ZXRewriting
