import ZXRewriting.Proofs.Diagram.Ends
import ZXRewriting.Proofs.GraphLike.Factors

/-!
# Writing a box as spiders

A box with many wires is written as a Z spider at the end of each wire (`Web.Legged`) and the phases
that make a sign where all of their bits are one (`GraphLike.exists_expandBox_brings`). This denotes
the same (`Web.Valid.amplitude_expanded`): with the bits of the new spiders summed over, the wires
carry what they do with the bit of the box summed over (`Web.Valid.sumOver_box`).
-/

namespace ZXRewriting

open Function (update update_self update_of_ne)

namespace Web

variable {w w' : Web} {h s : Vertex} {D : ℕ} {b : Bits}

/-! ### Wires -/

/-- Adds a Z spider with an edge. -/
def addLeg (w : Web) (e : Vertex × EdgeKind) : Web :=
  (w.addSpider .zero).addEdges w.next e.1 e.2 1

/-- The factor of a wire that ends in a spider with the given factors of its bits. -/
noncomputable def wireFactor (w : Web) (b : Bits) (φ : Bool → ℂ) (e : Vertex × EdgeKind) : ℂ :=
  ∑ y, φ y * e.2.joint (EdgeKind.plain.value y) (w.leg e.1 (b e.1))

/-- A web with a new Z spider at the end of each of some wires. -/
structure Legged (D : ℕ) (w : Web) (ends : List (Vertex × EdgeKind)) (w' : Web) : Prop where
  valid : w'.Valid
  onGrid : w'.OnGrid D
  grown : Grown w w'
  next : w'.next = w.next + ends.length
  legs : ∀ z, w.next ≤ z → z < w'.next → w'.IsZ z
  inputs : w'.inputs = w.inputs
  outputs : w'.outputs = w.outputs
  inner : (w'.tensors 1).inner = (w.tensors 1).inner ∪ Finset.Ico w.next w'.next
  count : ∀ s t, w.Has s → w.Has t → w'.count s t = w.count s t
  degree : ∀ s, w.Has s → w'.degree s = w.degree s + (ends.map Prod.fst).count s
  sum : ∀ φ b, sumOver (Finset.Ico w.next w'.next)
    (fun b => (w'.tensors 1).weight b * ∏ z ∈ Finset.Ico w.next w'.next, φ (b z)) b =
      (w.tensors 1).weight b * (ends.map (w.wireFactor b φ)).prod

theorem Legged.nil (hw : w.Valid) (hg : w.OnGrid D) : Legged D w [] w where
  valid := hw
  onGrid := hg
  grown := .of_kind rfl
  next := rfl
  legs z hz hz' := absurd hz' (Nat.not_lt.2 hz)
  inputs := rfl
  outputs := rfl
  inner := by simp
  count _ _ _ _ := rfl
  degree _ _ := rfl
  sum φ b := by simp

section AddLeg

variable {e : Vertex × EdgeKind} {ends : List (Vertex × EdgeKind)} (hw : w.Valid) (he : w.Has e.1)
include hw he

theorem Valid.addLeg : (w.addLeg e).Valid :=
  (hw.addSpider .zero).addEdges isZ_next_addSpider.has ((hw.grown_addSpider .zero).has he)
    (hw.ne_next he).symm 1

theorem Valid.tensors_addLeg (b : Bits) (y : Bool) :
    ((w.addLeg e).tensors 1).weight (update b w.next y) =
      (w.tensors 1).weight b * e.2.joint (EdgeKind.plain.value y) (w.leg e.1 (b e.1)) := by
  have hold {v : Vertex} (hv : v < w.next) : update b w.next y v = b v :=
    update_of_ne (Nat.ne_of_lt hv) _ _
  have hz : (w.addSpider .zero).IsZ w.next := isZ_next_addSpider
  have hleg : (w.addSpider .zero).leg e.1 = w.leg e.1 := by
    rw [leg, leg, kindAt, kindAt, kind_addSpider, update_of_ne (hw.ne_next he)]
  rw [Web.addLeg, (hw.addSpider .zero).tensors_addEdges hz.has ((hw.grown_addSpider .zero).has he)
    (hw.ne_next he).symm, hw.tensors_addSpider, leg_of_isZ hz, hleg, pow_one, update_self,
    hold (hw.lt _ he),
    Network.weight_congr (fun v hv => hold (mem_tensors_inner.1 hv).1.1) fun v hv => hold hv]
  simp

theorem Valid.degree_addLeg (hs : w.Has s) :
    (w.addLeg e).degree s = w.degree s + if s = e.1 then 1 else 0 := by
  have hadd : (w.addSpider .zero).degree s = w.degree s :=
    (hw.degree_eq_of_le (Nat.le_succ w.next) s).symm
  rw [Web.addLeg, (hw.addSpider .zero).degree_addEdges isZ_next_addSpider.has
    ((hw.grown_addSpider .zero).has he) (hw.ne_next he).symm, hadd, if_neg (hw.ne_next hs),
    Nat.zero_add]

/-- The bits of one more wire summed over. -/
theorem Legged.sum_cons (hends : ∀ e ∈ ends, w.Has e.1) (hl : Legged D (w.addLeg e) ends w')
    (φ : Bool → ℂ) (b : Bits) : sumOver (Finset.Ico w.next w'.next)
      (fun b => (w'.tensors 1).weight b * ∏ z ∈ Finset.Ico w.next w'.next, φ (b z)) b =
        (w.tensors 1).weight b * ((e :: ends).map (w.wireFactor b φ)).prod := by
  set n := w.next
  set zs := Finset.Ico (w.addLeg e).next w'.next with hzs
  have hlt : n < w'.next := by
    have : w'.next = n + 1 + ends.length := hl.next
    omega
  have hnot : n ∉ zs := by
    rw [hzs, Finset.mem_Ico]
    exact fun h => Nat.lt_irrefl n h.1
  have hIco : Finset.Ico n w'.next = zs ∪ {n} := by
    rw [Finset.union_comm, ← Finset.insert_eq]
    exact (Finset.insert_Ico_add_one_left_eq_Ico hlt).symm
  -- the factors of the other wires do not depend on the new bit
  have hrest (y : Bool) : ends.map ((w.addLeg e).wireFactor (update b n y) φ) =
      ends.map (w.wireFactor b φ) := List.map_congr_left fun e' he' => by
    have hne : e'.1 ≠ n := hw.ne_next (hends e' he')
    have hleg : (w.addLeg e).leg e'.1 = w.leg e'.1 := by
      rw [leg, leg, kindAt, kindAt]
      change SpiderKind.leg ((update w.kind n (some SpiderKind.z) e'.1).getD .z) = _
      rw [update_of_ne hne]
    rw [wireFactor, wireFactor, hleg, update_of_ne hne]
  have hinner (b : Bits) : sumOver zs
      (fun b => (w'.tensors 1).weight b * ∏ z ∈ Finset.Ico n w'.next, φ (b z)) b =
        φ (b n) * (((w.addLeg e).tensors 1).weight b *
          (ends.map ((w.addLeg e).wireFactor b φ)).prod) := by
    rw [← hl.sum φ b, ← sumOver_mul_of_agree (k := fun b => φ (b n)) fun b b' h => by rw [h n hnot]]
    refine sumOver_congr fun b' _ => ?_
    rw [hIco, Finset.union_comm, ← Finset.insert_eq, Finset.prod_insert hnot]
    ring
  rw [hIco, sumOver_union (Finset.disjoint_singleton_right.2 hnot), ← hIco, funext hinner,
    sumOver_singleton, update_self, update_self, hrest, hrest, hw.tensors_addLeg he,
    hw.tensors_addLeg he, List.map_cons, List.prod_cons, wireFactor, Fintype.sum_bool]
  ring

/-- One more wire. -/
theorem Legged.cons (hends : ∀ e ∈ ends, w.Has e.1) (hl : Legged D (w.addLeg e) ends w') :
    Legged D w (e :: ends) w' := by
  have hgrown : Grown w (w.addLeg e) := hw.grown_addSpider .zero
  have hnext : (w.addLeg e).next = w.next + 1 := rfl
  have hz : (w.addLeg e).IsZ w.next := isZ_next_addSpider (w := w) (p := .zero)
  refine ⟨hl.valid, hl.onGrid, hgrown.trans hl.grown, ?_, fun z hz₁ hz₂ => ?_, hl.inputs, hl.outputs,
    ?_, fun s t hs ht => ?_, fun s hs => ?_, hl.sum_cons hw he hends⟩
  · rw [hl.next, hnext, List.length_cons]
    omega
  · rcases Nat.eq_or_lt_of_le hz₁ with rfl | hz₁
    · exact hl.grown.isZ hz
    · exact hl.legs z hz₁ hz₂
  · have hlt : w.next < w'.next := by
      have := hl.next
      omega
    have hone : ((w.addLeg e).tensors 1).inner = insert w.next (w.tensors 1).inner :=
      hw.tensors_inner_addSpider (τ := 1) .zero
    rw [hl.inner, hone, ← Finset.insert_Ico_add_one_left_eq_Ico hlt, Finset.insert_union,
      Finset.union_insert]
    rfl
  · rw [hl.count s t (hgrown.has hs) (hgrown.has ht)]
    funext k
    rw [Web.addLeg, (hw.addSpider .zero).count_addEdges_eq, if_neg]
    · rfl
    · rintro ⟨⟨rfl, -⟩ | ⟨-, rfl⟩, -⟩
      · exact hw.not_has_next hs
      · exact hw.not_has_next ht
  · rw [hl.degree s (hgrown.has hs), hw.degree_addLeg he hs, List.map_cons, List.count_cons]
    simp only [beq_iff_eq, eq_comm (a := s)]
    omega

end AddLeg

/-! ### Boxes -/

section Expanded

variable {w₂ w₃ : Web} {ends : List (Vertex × EdgeKind)}

theorem joint_box (k : EdgeKind) (g : Bool → ℂ) :
    k.joint (SpiderKind.box.leg false) g = ∑ y, k.joint (EdgeKind.plain.value y) g ∧
      k.joint (SpiderKind.box.leg true) g = k.joint (EdgeKind.plain.value true) g := by
  cases k <;> simp [EdgeKind.joint, SpiderKind.leg, EdgeKind.value]

/-- The bit of a box summed over. -/
theorem Valid.sumOver_box (hw : w.Valid) (hbox : w.kind h = some .box) (hends : w.EndsAre h ends)
    (b : Bits) : sumOver {h} (w.tensors 1).weight b = ((w.remove h).tensors 1).weight b *
      ((ends.map ((w.remove h).wireFactor b fun _ => 1)).prod -
        2 * (ends.map ((w.remove h).wireFactor b fun y => if y then 1 else 0)).prod) := by
  have hinner : h ∈ (w.tensors 1).inner := hw.mem_tensors_of_kind hbox rfl
  have hleg {e : Vertex × EdgeKind} (he : e ∈ ends) : (w.remove h).leg e.1 = w.leg e.1 := by
    rw [leg, leg, kindAt, kindAt, kind_remove, update_of_ne (hw.has_of_endsAre hends he).2]
  have hfalse : ends.map (fun e => e.2.joint (w.leg h false) (w.leg e.1 (b e.1))) =
      ends.map ((w.remove h).wireFactor b fun _ => 1) := List.map_congr_left fun e he => by
    rw [leg, kindAt_eq hbox, (joint_box _ _).1, wireFactor, hleg he]
    simp
  have htrue : ends.map (fun e => e.2.joint (w.leg h true) (w.leg e.1 (b e.1))) =
      ends.map ((w.remove h).wireFactor b fun y => if y then 1 else 0) :=
    List.map_congr_left fun e he => by
      rw [leg, kindAt_eq hbox, (joint_box _ _).2, wireFactor, hleg he]
      simp
  rw [sumOver_singleton, hw.tensors_star hinner hends, hw.tensors_star hinner hends, hfalse, htrue,
    kindAt_eq hbox, SpiderKind.factor_box]
  simp
  ring

/-- A box with many wires is a sign where all of its bits are one. -/
theorem Valid.amplitude_expanded (hw : w.Valid) (hbox : w.kind h = some .box)
    (hends : w.EndsAre h ends) (hl : Legged D (w.remove h) ends w₂)
    (hb : Brings D (fun β => if ∀ z ∈ Finset.Ico w.next w₂.next, β z = true then -1 else 1) w₂ w₃) :
    Proportional (w.tensors 1).amplitude (w₃.tensors 1).amplitude := by
  obtain ⟨e, he, zs, hsub, hinner, hnew, hsum⟩ := hb.weights
  set I := Finset.Ico w.next w₂.next with hI
  have hinner₂ : (w₂.tensors 1).inner = ((w.remove h).tensors 1).inner ∪ I := hl.inner
  have hI₃ : I ⊆ (w₃.tensors 1).inner \ zs := by
    rw [hinner, hinner₂]
    exact Finset.subset_union_right
  have hone : h ∈ (w.tensors 1).inner := hw.mem_tensors_of_kind hbox rfl
  have hsign (b : Bits) : (if ∀ z ∈ I, b z = true then (-1 : ℂ) else 1) =
      1 - 2 * ∏ z ∈ I, if b z then 1 else 0 := by
    split
    · next h =>
      rw [Finset.prod_eq_one fun z hz => if_pos (h z hz)]
      norm_num
    · next h =>
      push Not at h
      obtain ⟨z, hz, hbz⟩ := h
      rw [Finset.prod_eq_zero hz (if_neg hbz)]
      norm_num
  refine Proportional.symm ⟨e, he, Network.amplitude_eq_of_sumOver (S := zs ∪ I) (T := {h})
    (Finset.union_subset hsub (hI₃.trans Finset.sdiff_subset)) (by simpa using hone) ?_ fun b => ?_⟩
  · rw [← Finset.sup_eq_union, ← sdiff_sdiff_left, hinner, hinner₂, hw.tensors_inner_remove,
      Finset.union_sdiff_cancel_right, Finset.erase_eq]
    rw [Finset.disjoint_left]
    intro v hv hv'
    have hlt := (mem_tensors_inner.1 (Finset.mem_of_mem_erase hv)).1.1
    exact Nat.not_lt.2 (Finset.mem_Ico.1 hv').1 hlt
  · have hall := hl.sum (fun _ => 1) b
    have hones := hl.sum (fun y => if y then 1 else 0) b
    rw [show (w.remove h).next = w.next from rfl, ← hI] at hall hones
    have hsplit (b : Bits) : e * ((w₂.tensors 1).weight b *
        if ∀ z ∈ I, b z = true then (-1 : ℂ) else 1) =
          e * ((w₂.tensors 1).weight b * ∏ z ∈ I, 1) +
            -2 * e * ((w₂.tensors 1).weight b * ∏ z ∈ I, if b z then 1 else 0) := by
      rw [hsign, Finset.prod_const_one]
      ring
    rw [sumOver_union (Finset.disjoint_of_subset_right hI₃ Finset.disjoint_sdiff), funext hsum,
      funext hsplit, sumOver_add, sumOver_mul_left, sumOver_mul_left, hall, hones,
      hw.sumOver_box hbox hends]
    ring

end Expanded

end Web

namespace GraphLike

variable {g : GraphLike} {h : Vertex} {D : ℕ} {ends : List (Vertex × EdgeKind)}

/-- A Z spider at the end of each wire. -/
theorem exists_addLegs {q : Option ℕ} {c : Option Floating.Double} (hg : g.Coherent)
    (hgrid : g.web.OnGrid D) (hends : ∀ e ∈ ends, g.web.Has e.1) :
    ∃ g', g.addLegs q c ends = .ok (List.range' g.web.next ends.length, g') ∧ g'.Coherent ∧
      Web.Legged D g.web ends g'.web := by
  induction ends generalizing g with
  | nil => exact ⟨g, rfl, hg, .nil hg.valid hgrid⟩
  | cons e rest ih =>
    obtain ⟨x, k⟩ := e
    have hval := hg.valid
    have hx := hends (x, k) List.mem_cons_self
    have hrest := fun e he => hends e (List.mem_cons_of_mem (x, k) he)
    have hgrown := hval.grown_addSpider .zero
    obtain ⟨g₁, hok₁, hg₁, hw₁, -⟩ := Gives.addEdge (s := g.web.next) (t := x)
      (Coherent.addSpider (q := q) (c := c) hg .zero)
      (by rw [web_addSpider]; exact Web.isZ_next_addSpider.has)
      (by rw [web_addSpider]; exact hgrown.has hx) (hval.ne_next hx).symm k
    rw [web_addSpider] at hw₁
    have hleg : g₁.web = g.web.addLeg (x, k) := hw₁
    have hgrid₁ : g₁.web.OnGrid D := by
      rw [hleg]
      exact hgrid.addSpider Phase.onGrid_zero
    obtain ⟨g₂, hok₂, hg₂, hl⟩ := ih hg₁ hgrid₁ fun e he => by
      rw [hleg]
      exact hgrown.has (hrest e he)
    rw [hleg] at hl
    refine ⟨g₂, ?_, hg₂, hl.cons hval hx hrest⟩
    rw [addLegs]
    change ((g.addSpider .zero q c).2.addEdge g.web.next x k >>= fun g => _) = _
    rw [hok₁]
    change (g₁.addLegs q c rest >>= fun r => _) = _
    rw [hok₂, hleg]
    rfl

/-- A box with many wires is written as a Z spider at the end of each wire, and a sign where all of
    their bits are one. -/
theorem exists_expandBox_brings (hg : g.Coherent) (hD : Phase.IsGrid D) (hgrid : g.web.OnGrid D)
    (hbox : g.web.kind h = some .box) (hends : g.web.EndsAre h ends) (hne : ends ≠ [])
    (hdvd : 2 ^ (ends.length - 1) ∣ D) : ∃ g' w₂, g.expandBox h ends = .ok g' ∧ g'.Coherent ∧
      Web.Legged D (g.web.remove h) ends w₂ ∧ Web.Brings D
        (fun β => if ∀ z ∈ Finset.Ico g.web.next w₂.next, β z = true then -1 else 1) w₂ g'.web := by
  have hval := hg.valid
  obtain ⟨g₁, hok₁, hg₁, hw₁, -⟩ := Gives.removeSpider hg (Web.has_of_kind hbox)
  have hgrid₁ : g₁.web.OnGrid D := by
    rw [hw₁]
    exact hgrid.remove h
  obtain ⟨g₂, hok₂, hg₂, hl⟩ := exists_addLegs (q := g.qubit? h) (c := g.column? h) hg₁ hgrid₁
    fun e he => by
      have hhas := hval.has_of_endsAre hends he
      rw [hw₁, Web.Has, Web.kind_remove, update_of_ne hhas.2]
      exact hhas.1
  rw [hw₁] at hl
  set legs := List.range' g₁.web.next ends.length with hlegs
  have hmem (z : Vertex) : z ∈ legs ↔ z ∈ Finset.Ico g.web.next g₂.web.next := by
    rw [hlegs, hw₁, List.mem_range'_1, Finset.mem_Ico, hl.next]
    rfl
  have hlength : legs.length = ends.length := List.length_range'
  obtain ⟨g₃, hok₃, hg₃, hb⟩ := bringing_parities (b := ⟨legs, g.qubit? h, g.column? h⟩) hg₂ hD
    hl.onGrid (fun hnil => hne (List.length_eq_zero_iff.1 (by rw [← hlength]; exact congrArg _ hnil)))
    (by rw [hlength]; exact hdvd) fun z hz => by
      obtain ⟨h₁, h₂⟩ := Finset.mem_Ico.1 ((hmem z).1 hz)
      exact hl.legs z h₁ h₂
  simp only [hmem] at hb
  refine ⟨g₃, g₂.web, ?_, hg₃, hl, hb⟩
  rw [expandBox]
  change (g.removeSpider h >>= fun g₁ => _) = _
  rw [hok₁]
  change (g₁.addLegs (g.qubit? h) (g.column? h) ends >>= fun r => _) = _
  rw [hok₂]
  exact hok₃

end GraphLike

end ZXRewriting
