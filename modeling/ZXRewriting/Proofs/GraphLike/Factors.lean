import ZXRewriting.Proofs.GraphLike.Boxes
import ZXRewriting.Proofs.GraphLike.ParityPhases

/-!
# Spiders that make a factor

A web may have more Z spiders than another one, which amount to a factor for the bits at the others
(`Web.Brings`): a phase on a Z spider, or a *gadget*, a leaf with a phase on the parity of some Z
spiders (`Web.Valid.brings_addGadget`). Factors are multiplied (`Web.Brings.trans`), and so the phases
for all sets of wires of a box make a sign where the bits of all wires are one
(`GraphLike.bringing_parities`).
-/

namespace ZXRewriting

open Function (update update_self update_of_ne)

namespace Web

variable {w w' w'' : Web} {u v x z : Vertex} {p : Phase} {D : ℕ} {Φ Φ' : Bits → ℂ} {b : Bits}
  {us : List Vertex}

/-! ### Factors -/

/-- Whether a factor looks at the bits at vertices below `n` only. -/
def Below (n : ℕ) (Φ : Bits → ℂ) : Prop := ∀ b b' : Bits, (∀ v < n, b v = b' v) → Φ b = Φ b'

/-- A web with more Z spiders, which make a factor for the bits at the others when their own are
    summed over. -/
structure Brings (D : ℕ) (Φ : Bits → ℂ) (w w' : Web) : Prop where
  valid : w'.Valid
  onGrid : w'.OnGrid D
  grown : Grown w w'
  next_le : w.next ≤ w'.next
  inputs : w'.inputs = w.inputs
  outputs : w'.outputs = w.outputs
  count : ∀ v, w.Has v → ¬w.IsZ v → w'.count v = w.count v
  weights : ∃ e : ℂ, e ≠ 0 ∧ ∃ zs ⊆ (w'.tensors 1).inner,
    (w'.tensors 1).inner \ zs = (w.tensors 1).inner ∧ (∀ v ∈ zs, w.next ≤ v) ∧
      ∀ b, sumOver zs (w'.tensors 1).weight b = e * ((w.tensors 1).weight b * Φ b)

theorem Brings.congr (hb : Brings D Φ w w') (hΦ : ∀ b, Φ' b = Φ b) : Brings D Φ' w w' := by
  rwa [funext hΦ]

theorem Brings.refl (hw : w.Valid) (hg : w.OnGrid D) : Brings D (fun _ => 1) w w where
  valid := hw
  onGrid := hg
  grown := .of_kind rfl
  next_le := Nat.le_refl _
  inputs := rfl
  outputs := rfl
  count _ _ _ := rfl
  weights := ⟨1, one_ne_zero, ∅, Finset.empty_subset _, Finset.sdiff_empty, by simp, fun b => by
    rw [sumOver_empty, one_mul, mul_one]⟩

/-- Factors are multiplied. -/
theorem Brings.trans (hb : Brings D Φ w w') (hb' : Brings D Φ' w' w'') (hΦ' : Below w.next Φ') :
    Brings D (fun b => Φ b * Φ' b) w w'' where
  valid := hb'.valid
  onGrid := hb'.onGrid
  grown := hb.grown.trans hb'.grown
  next_le := hb.next_le.trans hb'.next_le
  inputs := hb'.inputs.trans hb.inputs
  outputs := hb'.outputs.trans hb.outputs
  count v hv hz := by
    have hz' : ¬w'.IsZ v := by rwa [IsZ, hb.grown.kind_eq hv]
    rw [hb'.count v (hb.grown.has hv) hz', hb.count v hv hz]
  weights := by
    obtain ⟨e, he, zs, hsub, hinner, hnew, hsum⟩ := hb.weights
    obtain ⟨e', he', zs', hsub', hinner', hnew', hsum'⟩ := hb'.weights
    have hsub'' : zs ⊆ (w''.tensors 1).inner \ zs' := hinner' ▸ hsub
    refine ⟨e' * e, mul_ne_zero he' he, zs' ∪ zs,
      Finset.union_subset hsub' (hsub''.trans Finset.sdiff_subset), ?_, fun v hv => ?_, fun b => ?_⟩
    · rw [← Finset.sup_eq_union, ← sdiff_sdiff_left, hinner', hinner]
    · rcases Finset.mem_union.1 hv with hv | hv
      · exact hb.next_le.trans (hnew' v hv)
      · exact hnew v hv
    · rw [sumOver_union (Finset.disjoint_of_subset_right hsub'' Finset.disjoint_sdiff),
        funext hsum']
      have hagree (b b' : Bits) (hbb : ∀ u ∉ zs, b u = b' u) : e' * Φ' b = e' * Φ' b' := by
        rw [hΦ' b b' fun u hu => hbb u fun hmem => Nat.not_lt.2 (hnew u hmem) hu]
      calc sumOver zs (fun b => e' * ((w'.tensors 1).weight b * Φ' b)) b
          = sumOver zs (fun b => e' * Φ' b * (w'.tensors 1).weight b) b :=
            sumOver_congr fun b' _ => by ring
        _ = e' * Φ' b * (e * ((w.tensors 1).weight b * Φ b)) := by
          rw [sumOver_mul_of_agree hagree, hsum]
        _ = e' * e * ((w.tensors 1).weight b * (Φ b * Φ' b)) := by ring

/-- A phase added to a Z spider. -/
theorem Valid.brings_addToPhase (hw : w.Valid) (hD : Phase.IsGrid D) (hg : w.OnGrid D)
    (hz : w.IsZ z) (hp : p.OnGrid D) :
    Brings D (fun b => if b z then p.unit else 1) w (w.addToPhase z p) where
  valid := hw.addToPhase z p
  onGrid := hg.addToPhase hD hp z
  grown := .of_kind rfl
  next_le := Nat.le_refl _
  inputs := rfl
  outputs := rfl
  count _ _ _ := rfl
  weights := by
    have hfactor : (w.kindAt z).factor (w.phase z + p) = (w.kindAt z).factor (w.phase z) * p.unit := by
      rw [kindAt_eq hz]
      exact ((hg z).add hD hp).2
    refine ⟨1, one_ne_zero, ∅, Finset.empty_subset _, Finset.sdiff_empty, by simp, fun b => ?_⟩
    rw [sumOver_empty, one_mul]
    exact tensors_setPhase (hw.mem_tensors_of_kind hz rfl) hfactor

/-! ### Gadgets -/

/-- Adds an edge from each of the vertices of a list to another one. -/
def spread (w : Web) (v : Vertex) (us : List Vertex) : Web :=
  us.foldl (fun w u => w.addEdges u v .hadamard 1) w

theorem spread_cons : w.spread v (u :: us) = (w.addEdges u v .hadamard 1).spread v us := rfl

/-- Only the edges change. -/
theorem exists_spread (w : Web) (v : Vertex) (us : List Vertex) :
    ∃ c, w.spread v us = { w with count := c } := by
  induction us generalizing w with
  | nil => exact ⟨w.count, rfl⟩
  | cons u us ih => exact ih _

section Spread

variable (hw : w.Valid) (hv : w.Has v) (hus : ∀ u ∈ us, w.Has u ∧ u ≠ v)
include hw hv hus

theorem Valid.spread : (w.spread v us).Valid := by
  induction us generalizing w with
  | nil => exact hw
  | cons u us ih =>
    obtain ⟨hu, hne⟩ := hus u List.mem_cons_self
    exact ih (hw.setCount hu hv hne _) hv fun u hu => hus u (List.mem_cons_of_mem _ hu)

theorem Valid.count_spread (hx : x ≠ v) (hxus : x ∉ us) : (w.spread v us).count x = w.count x := by
  induction us generalizing w with
  | nil => rfl
  | cons u us ih =>
    obtain ⟨hu, hne⟩ := hus u List.mem_cons_self
    have hone : (w.addEdges u v .hadamard 1).Valid := hw.setCount hu hv hne _
    rw [List.mem_cons, not_or] at hxus
    rw [spread_cons, ih hone hv (fun u hu => hus u (List.mem_cons_of_mem _ hu)) hxus.2]
    funext y k
    rw [hw.count_addEdges_eq, if_neg, Nat.add_zero]
    rintro ⟨⟨rfl, -⟩ | ⟨rfl, -⟩, -⟩
    · exact hxus.1 rfl
    · exact hx rfl

theorem Valid.tensors_spread {τ : Vertex → ℂ} (b : Bits) : ((w.spread v us).tensors τ).weight b =
    (w.tensors τ).weight b *
      (us.map fun u => EdgeKind.hadamard.joint (w.leg u (b u)) (w.leg v (b v))).prod := by
  induction us generalizing w with
  | nil => simp [Web.spread]
  | cons u us ih =>
    obtain ⟨hu, hne⟩ := hus u List.mem_cons_self
    have hone : (w.addEdges u v .hadamard 1).Valid := hw.setCount hu hv hne _
    rw [spread_cons, ih hone hv fun u hu => hus u (List.mem_cons_of_mem _ hu),
      hw.tensors_addEdges hu hv hne, pow_one, List.map_cons, List.prod_cons, mul_assoc]
    rfl

end Spread

/-- The edges from spiders with given bits to one. -/
theorem prod_hadamard (b : Bits) (us : List Vertex) (x : Bool) :
    (us.map fun u => EdgeKind.hadamard.value (b u) x).prod =
      if us.countP b % 2 = 1 ∧ x = true then -1 else 1 := by
  induction us with
  | nil => rfl
  | cons u us ih =>
    rw [List.map_cons, List.prod_cons, ih, List.countP_cons]
    rcases Nat.mod_two_eq_zero_or_one (us.countP b) with h | h <;>
      cases x <;> cases b u <;> simp [EdgeKind.value, h, Nat.add_mod]

/-- Adds a spider with a phase behind one without. -/
def addLeaf (w : Web) (p : Phase) : Web :=
  ((w.addSpider .zero).addSpider p).addEdges w.next (w.next + 1) .hadamard 1

/-- Adds a leaf with a phase behind a spider that is joined to the given ones. -/
def addGadget (w : Web) (p : Phase) (us : List Vertex) : Web := (w.addLeaf p).spread w.next us

section AddLeaf

variable (hw : w.Valid)
include hw

theorem Valid.grown_addLeaf (p : Phase) : Grown w (w.addLeaf p) :=
  (hw.grown_addSpider .zero).trans ((hw.addSpider .zero).grown_addSpider p)

theorem Valid.isZ_addLeaf (p : Phase) :
    (w.addLeaf p).IsZ w.next ∧ (w.addLeaf p).IsZ (w.next + 1) :=
  ⟨((hw.addSpider .zero).grown_addSpider p).isZ isZ_next_addSpider,
    isZ_next_addSpider (w := w.addSpider .zero) (p := p)⟩

theorem Valid.addLeaf (p : Phase) : (w.addLeaf p).Valid := by
  obtain ⟨haxle, hleaf⟩ := hw.isZ_addLeaf p
  exact ((hw.addSpider .zero).addSpider p).addEdges haxle.has hleaf.has
    (Nat.ne_of_lt (Nat.lt_succ_self w.next)) 1

theorem Valid.count_addLeaf (hx : w.Has x) : (w.addLeaf p).count x = w.count x := by
  funext y k
  rw [Web.addLeaf, ((hw.addSpider .zero).addSpider p).count_addEdges_eq, if_neg]
  · rfl
  · have hlt : x < w.next := hw.lt x hx
    rintro ⟨⟨he, -⟩ | ⟨he, -⟩, -⟩
    · exact Nat.ne_of_lt hlt he
    · exact Nat.ne_of_lt (Nat.lt_succ_of_lt hlt) he

theorem Valid.tensors_addLeaf (p : Phase) (b : Bits) : ((w.addLeaf p).tensors 1).weight b =
    (w.tensors 1).weight b * (if b (w.next + 1) then p.unit else 1) *
      EdgeKind.hadamard.value (b w.next) (b (w.next + 1)) := by
  obtain ⟨haxle, hleaf⟩ := hw.isZ_addLeaf p
  rw [Web.addLeaf, ((hw.addSpider .zero).addSpider p).tensors_addEdges haxle.has hleaf.has
    (Nat.ne_of_lt (Nat.lt_succ_self w.next)), (hw.addSpider .zero).tensors_addSpider,
    hw.tensors_addSpider, pow_one, leg_of_isZ (w := (w.addSpider .zero).addSpider p) haxle,
    leg_of_isZ (w := (w.addSpider .zero).addSpider p) hleaf, EdgeKind.joint_value]
  simp

end AddLeaf

/-- A leaf with a phase on the parity of some spiders is a phase for an odd number of ones. -/
theorem sum_leaf (u : ℂ) (odd : Prop) [Decidable odd] :
    ∑ y : Bool, ∑ x : Bool, (if x then u else 1) * EdgeKind.hadamard.value y x *
      (if odd ∧ y = true then -1 else 1) = 2 * if odd then u else 1 := by
  by_cases h : odd <;> simp [EdgeKind.value, h] <;> ring

section AddGadget

variable (hw : w.Valid) (hus : ∀ u ∈ us, w.IsZ u)
include hw hus

theorem Valid.mem_addLeaf (p : Phase) : ∀ u ∈ us, (w.addLeaf p).Has u ∧ u ≠ w.next := fun u hu =>
  ⟨((hw.grown_addLeaf p).isZ (hus u hu)).has, hw.ne_next (hus u hu).has⟩

theorem Valid.tensors_addGadget (p : Phase) (b : Bits) : ((w.addGadget p us).tensors 1).weight b =
    (w.tensors 1).weight b * ((if b (w.next + 1) then p.unit else 1) *
      EdgeKind.hadamard.value (b w.next) (b (w.next + 1)) *
        if us.countP b % 2 = 1 ∧ b w.next = true then -1 else 1) := by
  have haxle := (hw.isZ_addLeaf p).1
  have hprod : (us.map fun u => EdgeKind.hadamard.joint ((w.addLeaf p).leg u (b u))
      ((w.addLeaf p).leg w.next (b w.next))) =
        us.map fun u => EdgeKind.hadamard.value (b u) (b w.next) :=
    List.map_congr_left fun u hu => by
      rw [leg_of_isZ ((hw.grown_addLeaf p).isZ (hus u hu)), leg_of_isZ haxle, EdgeKind.joint_value]
  rw [addGadget, (hw.addLeaf p).tensors_spread haxle.has (hw.mem_addLeaf hus p), hprod,
    prod_hadamard, hw.tensors_addLeaf]
  ring

/-- The bits of the two spiders of a gadget summed over. -/
theorem Valid.sumOver_addGadget (p : Phase) (b : Bits) :
    sumOver {w.next, w.next + 1} ((w.addGadget p us).tensors 1).weight b =
      2 * ((w.tensors 1).weight b * if us.countP b % 2 = 1 then p.unit else 1) := by
  have hne : w.next ≠ w.next + 1 := Nat.ne_of_lt (Nat.lt_succ_self _)
  have hterm (x y : Bool) :
      ((w.addGadget p us).tensors 1).weight (update (update b (w.next + 1) x) w.next y) =
        (w.tensors 1).weight b * ((if x then p.unit else 1) * EdgeKind.hadamard.value y x *
          if us.countP b % 2 = 1 ∧ y = true then -1 else 1) := by
    set b' := update (update b (w.next + 1) x) w.next y with hb'
    have hold {v : Vertex} (hv : v < w.next) : b' v = b v := by
      rw [hb', update_of_ne (Nat.ne_of_lt hv), update_of_ne (Nat.ne_of_lt (Nat.lt_succ_of_lt hv))]
    have hcount : us.countP b' = us.countP b :=
      List.countP_congr fun u hu => by rw [hold (hw.lt u (hus u hu).has)]
    have haxle : b' w.next = y := by rw [hb', update_self]
    have hleaf : b' (w.next + 1) = x := by rw [hb', update_of_ne hne.symm, update_self]
    rw [hw.tensors_addGadget hus, hcount, haxle, hleaf,
      Network.weight_congr (fun v hv => hold (mem_tensors_inner.1 hv).1.1) fun v hv => hold hv]
  rw [sumOver_pair hne]
  simp only [hterm, ← Finset.mul_sum, sum_leaf]
  ring

/-- A phase on the parity of some Z spiders. -/
theorem Valid.brings_addGadget (hg : w.OnGrid D) (hp : p.OnGrid D) :
    Brings D (fun b => if us.countP b % 2 = 1 then p.unit else 1) w (w.addGadget p us) := by
  have haxle := (hw.isZ_addLeaf p).1
  have hmembers := hw.mem_addLeaf hus p
  obtain ⟨c, hfields⟩ := exists_spread (w.addLeaf p) w.next us
  have hinner : ((w.addGadget p us).tensors 1).inner =
      insert (w.next + 1) (insert w.next (w.tensors 1).inner) := by
    rw [tensors_inner_congr (w := (w.addSpider .zero).addSpider p) (τ := 1)
      (by rw [addGadget, hfields]; rfl) (by rw [addGadget, hfields]; rfl),
      (hw.addSpider .zero).tensors_inner_addSpider, hw.tensors_inner_addSpider]
    rfl
  have hlt {v : Vertex} (hv : v ∈ (w.tensors 1).inner) : v < w.next := (mem_tensors_inner.1 hv).1.1
  refine ⟨(hw.addLeaf p).spread haxle.has hmembers, fun v => ?_, fun v => ?_, ?_, ?_, ?_,
    fun v hv hz => ?_, 2, two_ne_zero, {w.next, w.next + 1}, ?_, ?_, ?_, hw.sumOver_addGadget hus p⟩
  · rw [addGadget, hfields]
    exact (hg.addSpider Phase.onGrid_zero).addSpider hp v
  · rw [addGadget, hfields]
    exact hw.grown_addLeaf p v
  · rw [addGadget, hfields]
    exact Nat.le_add_right _ 2
  · rw [addGadget, hfields]
    rfl
  · rw [addGadget, hfields]
    rfl
  · rw [addGadget, (hw.addLeaf p).count_spread haxle.has hmembers (hw.ne_next hv)
      fun hmem => hz (hus v hmem), hw.count_addLeaf hv]
  · rw [hinner]
    grind
  · rw [hinner]
    ext v
    have := hlt (v := v)
    grind
  · simp

end AddGadget

end Web

namespace GraphLike

variable {g : GraphLike} {v : Vertex} {D : ℕ} {us legs : List Vertex}

/-- A program ends with a diagram with more Z spiders, which make a factor. -/
def Bringing (D : ℕ) (Φ : Bits → ℂ) (g : GraphLike) (x : Except Fault GraphLike) : Prop :=
  ∃ g', x = .ok g' ∧ g'.Coherent ∧ Web.Brings D Φ g.web g'.web

theorem Gives.spread (hg : g.Coherent) (hv : g.web.Has v) (hus : ∀ u ∈ us, g.web.Has u ∧ u ≠ v) :
    Gives (us.foldlM (fun g u => g.addEdge u v .hadamard) g) (g.web.spread v us) g.master := by
  induction us generalizing g with
  | nil => exact .ok hg
  | cons u us ih =>
    obtain ⟨hu, hne⟩ := hus u List.mem_cons_self
    rw [List.foldlM_cons]
    refine (Gives.addEdge hg hu hv hne .hadamard).bind fun g₁ hg₁ hw₁ hm₁ => ?_
    have hhas {x : Vertex} (hx : g.web.Has x) : g₁.web.Has x := by
      rw [hw₁]
      exact hx
    rw [Web.spread_cons, ← hw₁, ← hm₁]
    exact ih hg₁ (hhas hv) fun u hu =>
      ⟨hhas (hus u (List.mem_cons_of_mem _ hu)).1, (hus u (List.mem_cons_of_mem _ hu)).2⟩

/-- Adding a gadget. -/
theorem Gives.addGadget {q : Option ℕ} {c : Option Floating.Double} (hg : g.Coherent)
    (hus : ∀ u ∈ us, g.web.IsZ u) (p : Phase) : Gives (do
      let (axle, g) := g.addSpider .zero q c
      let (leaf, g) := g.addSpider p q c
      let g ← g.addEdge axle leaf .hadamard
      us.foldlM (fun g u => g.addEdge u axle .hadamard) g) (g.web.addGadget p us) g.master := by
  have hval := hg.valid
  obtain ⟨haxle, hleaf⟩ := hval.isZ_addLeaf p
  set g₁ := (g.addSpider .zero q c).2 with hg₁
  set g₂ := (g₁.addSpider p q c).2 with hg₂
  have hco : g₂.Coherent := Coherent.addSpider (Coherent.addSpider hg .zero) p
  have hw₂ : g₂.web = (g.web.addSpider .zero).addSpider p := by
    rw [hg₂, web_addSpider, hg₁, web_addSpider]
  have hnext : g₁.web.next = g.web.next + 1 := by rw [hg₁, web_addSpider, Web.next_addSpider]
  change Gives (g₂.addEdge g.web.next g₁.web.next .hadamard >>= fun g' =>
    us.foldlM (fun g' u => g'.addEdge u g.web.next .hadamard) g') _ _
  rw [hnext]
  refine (Gives.addEdge hco (s := g.web.next) (t := g.web.next + 1) ?_ ?_
    (Nat.ne_of_lt (Nat.lt_succ_self _)) .hadamard).bind fun g₃ hg₃ hw₃ hm₃ => ?_
  · rw [hw₂]
    exact haxle.has
  · rw [hw₂]
    exact hleaf.has
  · rw [hw₂] at hw₃
    have hm : g₃.master = g.master := hm₃
    rw [Web.addGadget, Web.addLeaf, ← hw₃, ← hm]
    have hmembers := hval.mem_addLeaf hus p
    rw [Web.addLeaf, ← hw₃] at haxle hmembers
    exact Gives.spread hg₃ haxle.has hmembers

/-- The phase for a set of wires. -/
theorem bringing_addParity {b : BoxLegs} (hg : g.Coherent) (hD : Phase.IsGrid D)
    (hgrid : g.web.OnGrid D) (hdvd : 2 ^ (b.legs.length - 1) ∣ D)
    (hlegs : ∀ z ∈ b.legs, g.web.IsZ z) (bits : ℕ) :
    Bringing D (fun β => parityFactor β b.legs.length (selectBits bits b.legs)) g
      (addParity b g bits) := by
  have hval := hg.valid
  have hmembers : ∀ u ∈ selectBits bits b.legs, g.web.IsZ u := fun u hu =>
    hlegs u (mem_of_mem_selectBits hu)
  have hp := (onGrid_parityPhase hD hdvd (selectBits bits b.legs).length).1
  rw [addParity]
  dsimp only
  split
  · next z hz =>
    refine ⟨_, rfl, Coherent.addToPhase hg z _, ?_⟩
    rw [web_addToPhase]
    refine (hval.brings_addToPhase hD hgrid (hmembers z ?_) hp).congr fun β => ?_
    · rw [hz]
      exact List.mem_singleton_self z
    · rw [parityFactor, hz]
      cases hβ : β z <;> simp [hβ]
  · obtain ⟨g', hok, hg', hw', -⟩ := Gives.addGadget (q := b.qubit) (c := b.column) hg hmembers
      (parityPhase b.legs.length (selectBits bits b.legs).length)
    refine ⟨g', hok, hg', ?_⟩
    rw [hw']
    exact hval.brings_addGadget hmembers hgrid hp

theorem below_parityFactor {m : ℕ} (hlegs : ∀ z ∈ legs, z < m) (n bits : ℕ) :
    Web.Below m fun β => parityFactor β n (selectBits bits legs) := fun β β' h => by
  have hcount : (selectBits bits legs).countP β = (selectBits bits legs).countP β' :=
    List.countP_congr fun z hz => by rw [h z (hlegs z (mem_of_mem_selectBits hz))]
  simp only [parityFactor, hcount]

/-- The phases for some sets of wires. -/
theorem bringing_addParities {b : BoxLegs} (hg : g.Coherent) (hD : Phase.IsGrid D)
    (hgrid : g.web.OnGrid D) (hdvd : 2 ^ (b.legs.length - 1) ∣ D)
    (hlegs : ∀ z ∈ b.legs, g.web.IsZ z) (sets : List ℕ) :
    Bringing D (fun β => (sets.map fun m =>
        parityFactor β b.legs.length (selectBits m b.legs)).prod) g
      (sets.foldlM (addParity b) g) := by
  induction sets generalizing g with
  | nil => exact ⟨g, rfl, hg, .refl hg.valid hgrid⟩
  | cons m sets ih =>
    obtain ⟨g₁, hok₁, hg₁, h₁⟩ := bringing_addParity hg hD hgrid hdvd hlegs m
    obtain ⟨g₂, hok₂, hg₂, h₂⟩ := ih hg₁ h₁.onGrid fun z hz => h₁.grown.isZ (hlegs z hz)
    refine ⟨g₂, ?_, hg₂, h₁.trans h₂ fun β β' h => ?_⟩
    · rw [List.foldlM_cons, hok₁]
      exact hok₂
    · refine congrArg List.prod (List.map_congr_left fun m _ => ?_)
      exact below_parityFactor (fun z hz => hg.valid.lt z (hlegs z hz).has) _ m β β' h

/-- The phases for all sets of wires are a sign where all bits are one. -/
theorem bringing_parities {b : BoxLegs} (hg : g.Coherent) (hD : Phase.IsGrid D)
    (hgrid : g.web.OnGrid D) (hne : b.legs ≠ []) (hdvd : 2 ^ (b.legs.length - 1) ∣ D)
    (hlegs : ∀ z ∈ b.legs, g.web.IsZ z) :
    Bringing D (fun β => if ∀ z ∈ b.legs, β z = true then -1 else 1) g
      (((List.range (1 <<< b.legs.length)).drop 1).foldlM (addParity b) g) := by
  obtain ⟨g', hok, hg', hb⟩ := bringing_addParities hg hD hgrid hdvd hlegs
    ((List.range (1 <<< b.legs.length)).drop 1)
  refine ⟨g', hok, hg', hb.congr fun β => ?_⟩
  obtain ⟨n, hn⟩ : ∃ n, 2 ^ b.legs.length = n + 1 :=
    Nat.exists_eq_succ_of_ne_zero (Nat.two_pow_pos _).ne'
  have hnone : parityFactor β b.legs.length (selectBits 0 b.legs) = 1 := by
    simp [parityFactor, selectBits]
  rw [← prod_parityFactor hD hne hdvd β, Nat.one_shiftLeft, hn, Finset.prod_range_succ', hnone, mul_one,
    List.range_succ_eq_map, List.drop_one, List.tail_cons, List.map_map]
  exact (Multiset.prod_coe _).symm

end GraphLike

end ZXRewriting
