import ZXRewriting.Proofs.Extraction.RowStep
import ZXRewriting.Proofs.GraphLike.Weight

/-!
# What is left to extract

Extraction takes spiders off a diagram, but it also puts new ones in front of inputs, and such a
spider may get edges and need another one in front of it when its turn comes. How often that can
happen at an input is its *level*. At first it is two. As soon as a spider is put in front of the
input, the edges inside of that spider lead to the outputs only (`Web.Loose`), and stay so however
rows are added; that is level one. When such a spider is at an output itself and another one is put
in front of it, then it acts as a wire, is taken out at once, and leaves the new one on a wire of
its own (`Web.Free`); that is level zero.

The number of spiders and the levels together (`Web.slack`) do not grow by the steps that prepare
the frontier and that add rows, and every wire that is taken out makes them less. Only a pivot may
make them grow, by no more than the number of ends allows.
-/

namespace ZXRewriting

open Function (update update_self update_of_ne)
open Multigraph (SamePair)

namespace Web

variable {w w' : Web} {a b i n s t u v x y : Vertex} {k : EdgeKind} {frontier : List (ℕ × Vertex)}

/-- A Z spider with an edge to an output. -/
def Outer (w : Web) (x : Vertex) : Prop := w.IsZ x ∧ ∃ t ∈ w.outputs, 0 < w.joins x t

/-- A spider at an input, with no other input, that has edges inside to spiders at outputs only. -/
structure Loose (w : Web) (i x : Vertex) : Prop where
  isZ : w.IsZ x
  alone : ∀ t ∈ w.inputs, 0 < w.joins x t → t = i
  outer : ∀ t, w.IsZ t → 0 < w.joins x t → w.Outer t

/-- What is next to an input is the end of a wire, or a spider with one more edge. That leads to
    an end, or to a spider at an output which has no other edges but such as are taken off
    before. -/
def Free (w : Web) (i x : Vertex) : Prop :=
  w.IsEnd x ∨ w.IsZ x ∧ ∃ y, (∀ t, 0 < w.joins x t → t = i ∨ t = y) ∧
    (w.IsEnd y ∨ w.Outer y ∧ ∀ t, 0 < w.joins y t → t = x ∨ t ∈ w.outputs ∨ w.Outer t)

open Classical in
/-- How often a spider may still be put in front of an input. -/
noncomputable def level (w : Web) (i : Vertex) : ℕ :=
  if ∃ x, 0 < w.joins i x ∧ w.Free i x then 0
  else if ∃ x, 0 < w.joins i x ∧ w.Loose i x then 1 else 2

/-- The number of spiders, and of those that may still come up in front of inputs. -/
noncomputable def slack (w : Web) : ℕ := w.spiders.card + ∑ i ∈ w.inputs.toFinset, w.level i

theorem level_le_two (w : Web) (i : Vertex) : w.level i ≤ 2 := by
  rw [level]
  split_ifs <;> omega

theorem level_eq_zero (hx : 0 < w.joins i x) (h : w.Free i x) : w.level i = 0 :=
  if_pos ⟨x, hx, h⟩

theorem level_le_one (hx : 0 < w.joins i x) (h : w.Loose i x) : w.level i ≤ 1 := by
  rw [level, if_pos (c := ∃ x, 0 < w.joins i x ∧ w.Loose i x) ⟨x, hx, h⟩]
  split_ifs <;> omega

/-- A level does not grow when an input stays free, and loose or free. -/
theorem level_le (hfree : ∀ x, 0 < w.joins i x → w.Free i x → ∃ x', 0 < w'.joins i x' ∧ w'.Free i x')
    (hloose : ∀ x, 0 < w.joins i x → w.Loose i x →
      ∃ x', 0 < w'.joins i x' ∧ (w'.Free i x' ∨ w'.Loose i x')) : w'.level i ≤ w.level i := by
  by_cases hf : ∃ x, 0 < w.joins i x ∧ w.Free i x
  · obtain ⟨x, hx, h⟩ := hf
    obtain ⟨x', hx', h'⟩ := hfree x hx h
    rw [level_eq_zero hx' h']
    exact Nat.zero_le _
  by_cases hl : ∃ x, 0 < w.joins i x ∧ w.Loose i x
  · have hone : w.level i = 1 := by rw [level, if_neg hf, if_pos hl]
    obtain ⟨x, hx, h⟩ := hl
    obtain ⟨x', hx', h' | h'⟩ := hloose x hx h
    · rw [level_eq_zero hx' h']
      exact Nat.zero_le _
    · exact hone ▸ level_le_one hx' h'
  · have htwo : w.level i = 2 := by rw [level, if_neg hf, if_neg hl]
    exact htwo ▸ level_le_two w' i

/-! ### Fewer edges -/

/-- Edges inside are gone, and nothing else is different but the kinds of edges. -/
structure Sparser (w w' : Web) : Prop where
  next : w'.next = w.next
  kind : w'.kind = w.kind
  inputs : w'.inputs = w.inputs
  outputs : w'.outputs = w.outputs
  joins : ∀ a b, 0 < w'.joins a b → 0 < w.joins a b
  ends : ∀ a b, w.IsEnd a ∨ w.IsEnd b → 0 < w.joins a b → 0 < w'.joins a b

namespace Sparser

theorem isZ (h : Sparser w w') : w'.IsZ x ↔ w.IsZ x := by rw [IsZ, h.kind, IsZ]

theorem isEnd (h : Sparser w w') : w'.IsEnd x ↔ w.IsEnd x := by rw [IsEnd, h.kind, IsEnd]

variable (h : Sparser w w') (hw : w.InForm)
include h hw

theorem outer (hx : w.Outer x) : w'.Outer x := by
  obtain ⟨hz, t, ht, hj⟩ := hx
  exact ⟨h.isZ.2 hz, t, h.outputs ▸ ht, h.ends x t (.inr (hw.isEnd_of_mem_outputs ht)) hj⟩

theorem free (hx : w.Free i x) : w'.Free i x := by
  rcases hx with he | ⟨hz, y, honly, hy⟩
  · exact .inl (h.isEnd.2 he)
  · refine .inr ⟨h.isZ.2 hz, y, fun t ht => honly t (h.joins x t ht), ?_⟩
    rcases hy with he | ⟨ho, hall⟩
    · exact .inl (h.isEnd.2 he)
    · refine .inr ⟨h.outer hw ho, fun t ht => ?_⟩
      rw [h.outputs]
      exact (hall t (h.joins y t ht)).imp_right fun ht => ht.imp_right (h.outer hw)

theorem loose (hx : w.Loose i x) : w'.Loose i x where
  isZ := h.isZ.2 hx.isZ
  alone t ht hj := hx.alone t (h.inputs ▸ ht) (h.joins x t hj)
  outer t ht hj := h.outer hw (hx.outer t (h.isZ.1 ht) (h.joins x t hj))

theorem slack_le : w'.slack ≤ w.slack := by
  have hspiders : w'.spiders = w.spiders := by
    rw [spiders, spiders, h.next]
    exact Finset.filter_congr fun x _ => by rw [Has, h.kind, Has]
  rw [slack, slack, hspiders, h.inputs]
  refine Nat.add_le_add_left (Finset.sum_le_sum fun i hi => ?_) _
  have hend : w.IsEnd i := hw.isEnd_input (List.mem_toFinset.1 hi)
  refine level_le (fun x hx hf => ⟨x, h.ends i x (.inl hend) hx, h.free hw hf⟩)
    fun x hx hl => ⟨x, h.ends i x (.inl hend) hx, .inr (h.loose hw hl)⟩

end Sparser

/-! ### A spider in front of an input -/

/-- The edges after a spider was put on one of them. -/
theorem Valid.joins_split_pos (hw : w.Valid) (hs : w.Has s) (ht : w.Has t) (hst : s ≠ t) :
    0 < (w.split s t k).joins a b ↔ 0 < w.joins a b ∧ ¬SamePair a b s t ∨
      SamePair a b s w.next ∨ SamePair a b w.next t := by
  have hfree {c d : Vertex} (hc : c = w.next ∨ d = w.next) : w.joins c d = 0 := by
    rcases hc with rfl | rfl
    · exact hw.joins_eq_zero hw.not_has_next
    · rw [hw.joins_comm]
      exact hw.joins_eq_zero hw.not_has_next
  have hsn := hw.ne_next hs
  have htn := hw.ne_next ht
  rw [joins, hw.count_split hs ht hst, hw.count_split hs ht hst]
  by_cases h₁ : SamePair a b s t
  · have h₂ : ¬SamePair a b s w.next := by rw [SamePair] at *; grind
    have h₃ : ¬SamePair a b w.next t := by rw [SamePair] at *; grind
    simp [h₁, h₂, h₃]
  · by_cases h₂ : SamePair a b s w.next
    · simp [h₁, h₂]
    · by_cases h₃ : SamePair a b w.next t
      · cases k <;> simp [h₁, h₂, h₃, EdgeKind.opposite]
      · simp [h₁, h₂, h₃, joins]

/-- A spider with three edges has a neighbour other than two given ones. -/
theorem Simple.not_forall_or (hw : w.Simple) (hd : 2 < w.degree v) :
    ¬∀ t, 0 < w.joins v t → t = a ∨ t = b := by
  intro h
  rw [hw.degree_eq] at hd
  have hsub : w.nearby v ⊆ [a, b] := fun t ht => by
    simpa using h t (hw.valid.mem_nearby.1 ht)
  have hle := (nodup_nearby.subperm hsub).length_le
  exact absurd hd (Nat.not_lt.2 hle)

/-- The only neighbour of an end. -/
theorem InForm.eq_of_joins (hw : w.InForm) (ht : w.IsEnd t) (hu : 0 < w.joins t u)
    (hv : 0 < w.joins t v) : u = v := by
  obtain ⟨x, hx⟩ := hw.exists_nearby_eq ht
  have hmem {y : Vertex} (hy : 0 < w.joins t y) : y = x := by
    have := hw.simple.valid.mem_nearby.2 hy
    rwa [hx, List.mem_singleton] at this
  rw [hmem hu, hmem hv]

/-- An output is no input. -/
theorem InForm.notMem_inputs_of_mem_outputs (hw : w.InForm) (ht : t ∈ w.outputs) :
    t ∉ w.inputs := fun hin => by
  rw [hw.mem_outputs, (hw.mem_inputs t).1 hin] at ht
  simp at ht

theorem card_spiders_split : (w.split v i k).spiders.card = w.spiders.card + 1 := by
  have hins : (w.split v i k).spiders = insert w.next w.spiders := by
    ext x
    rw [mem_spiders, Finset.mem_insert, mem_spiders, next_split, Has, kind_split,
      Function.update_apply]
    by_cases hx : x = w.next
    · simp [hx]
    · simp only [hx, if_false, false_or]
      exact and_congr_left fun _ => ⟨fun h => Nat.lt_of_le_of_ne (Nat.le_of_lt_succ h) hx,
        Nat.lt_succ_of_lt⟩
  rw [hins, Finset.card_insert_of_notMem fun h => Nat.lt_irrefl _ (mem_spiders.1 h).1]

section Split

variable (hw : w.InForm) (hv : w.Outer v) (hi : i ∈ w.inputs) (hk : w.link v i = some k)
include hw hv hi hk

theorem InForm.outer_split (hx : w.Outer x) : (w.split v i k).Outer x := by
  have hval := hw.simple.valid
  have hend := hw.isEnd_input hi
  obtain ⟨hz, t, ht, hj⟩ := hx
  have hti : t ≠ i := fun h => hw.notMem_inputs_of_mem_outputs ht (h ▸ hi)
  have htv : t ≠ v := fun h => by
    rw [hw.mem_outputs, h, show w.kind v = _ from hv.1] at ht
    simp at ht
  refine ⟨isZ_split.2 (.inl hz), t, ht, ?_⟩
  rw [hval.joins_split_pos hv.1.has hend.has (hval.ne_end hk)]
  refine .inl ⟨hj, ?_⟩
  rw [SamePair]
  tauto

/-- The edges after a spider was put in front of the input. -/
theorem InForm.joins_split_input : 0 < (w.split v i k).joins a b ↔
    0 < w.joins a b ∧ ¬SamePair a b v i ∨ SamePair a b v w.next ∨ SamePair a b w.next i :=
  hw.simple.valid.joins_split_pos hv.1.has (hw.isEnd_input hi).has (hw.simple.valid.ne_end hk)

/-- The new spider is between the input and the one behind it. -/
theorem InForm.eq_of_joins_split_next (ht : 0 < (w.split v i k).joins w.next t) : t = i ∨ t = v := by
  have hval := hw.simple.valid
  have hvn := hval.ne_next hv.1.has
  have hin := hval.ne_next (hw.isEnd_input hi).has
  rcases (hw.joins_split_input hv hi hk).1 ht with ⟨hj, -⟩ | hs | hs
  · exact absurd hj (by rw [hval.joins_eq_zero hval.not_has_next]; exact Nat.lt_irrefl 0)
  · rw [SamePair] at hs
    tauto
  · rw [SamePair] at hs
    tauto

theorem InForm.eq_of_joins_split (ht : 0 < (w.split v i k).joins v t) :
    t = w.next ∨ 0 < w.joins v t ∧ t ≠ i := by
  have hvn := hw.simple.valid.ne_next hv.1.has
  have hne := hw.simple.valid.ne_end hk
  rcases (hw.joins_split_input hv hi hk).1 ht with ⟨hj, hs⟩ | hs | hs
  · exact .inr ⟨hj, fun h => hs (.inl ⟨rfl, h⟩)⟩
  · rw [SamePair] at hs
    tauto
  · rw [SamePair] at hs
    tauto

/-- A spider put in front of an input uses up one of its levels. -/
theorem InForm.level_split_lt (hd : 2 < w.degree v) : (w.split v i k).level i < w.level i := by
  have hval := hw.simple.valid
  have hend := hw.isEnd_input hi
  have hnear {x : Vertex} (hx : 0 < w.joins i x) : x = v :=
    hw.eq_of_joins hend hx (hval.mem_nearby.1 (hval.mem_nearby_comm.1 (hval.mem_nearby_of_link hk)))
  have hnew : 0 < (w.split v i k).joins i w.next :=
    (hw.joins_split_input hv hi hk).2 (.inr (.inr (.inr ⟨rfl, rfl⟩)))
  have hnewZ : (w.split v i k).IsZ w.next := isZ_split.2 (.inr rfl)
  have hout := hw.outer_split hv hi hk hv
  -- the spider had three edges, so the input was not free
  have hnotFree : ¬∃ x, 0 < w.joins i x ∧ w.Free i x := by
    rintro ⟨x, hx, hf⟩
    obtain rfl := hnear hx
    rcases hf with he | ⟨-, y, honly, -⟩
    · exact hv.1.not_isEnd he
    · exact hw.simple.not_forall_or hd honly
  by_cases hl : ∃ x, 0 < w.joins i x ∧ w.Loose i x
  · have hone : w.level i = 1 := by rw [level, if_neg hnotFree, if_pos hl]
    obtain ⟨x, hx, h⟩ := hl
    obtain rfl := hnear hx
    rw [hone, level_eq_zero hnew (.inr ⟨hnewZ, x,
      fun t ht => hw.eq_of_joins_split_next hv hi hk ht, .inr ⟨hout, fun t ht => ?_⟩⟩)]
    · exact Nat.one_pos
    · rcases hw.eq_of_joins_split hv hi hk ht with rfl | ⟨hj, hti⟩
      · exact .inl rfl
      rcases hw.simple.colour t (hval.has_of_joins hj).2 with hz | he
      · exact .inr (.inr (hw.outer_split hv hi hk (h.outer t hz hj)))
      · refine .inr (.inl ((hw.mem_of_isEnd he).resolve_left fun hin => ?_))
        exact hti (h.alone t hin hj)
  · have htwo : w.level i = 2 := by rw [level, if_neg hnotFree, if_neg hl]
    have hone : (w.split v i k).level i ≤ 1 := by
      refine level_le_one hnew ⟨hnewZ, fun t ht hj => ?_, fun t ht hj => ?_⟩
      · rcases hw.eq_of_joins_split_next hv hi hk hj with rfl | rfl
        · rfl
        · exact absurd (hw.isEnd_input ht) hv.1.not_isEnd
      · rcases hw.eq_of_joins_split_next hv hi hk hj with rfl | rfl
        · exact absurd (hval.isEnd_split.2 hend) ht.not_isEnd
        · exact hout
    omega

/-- It leaves the other inputs as they are: the neighbours of another input and of the spider there are
    the same. -/
theorem InForm.level_split_le (hd : 2 < w.degree v) {j : Vertex} (hj : j ∈ w.inputs) (hji : j ≠ i) :
    (w.split v i k).level j ≤ w.level j := by
  have hval := hw.simple.valid
  have hend := hw.isEnd_input hi
  have hvi := hval.mem_nearby.1 (hval.mem_nearby_of_link hk)
  have hjv : j ≠ v := fun h => hv.1.not_isEnd (h ▸ hw.isEnd_input hj)
  have hout {x : Vertex} (hx : w.Outer x) := hw.outer_split hv hi hk hx
  have hstay {x : Vertex} (hx : 0 < w.joins j x) : 0 < (w.split v i k).joins j x :=
    (hw.joins_split_input hv hi hk).2 (.inl ⟨hx, by rw [SamePair]; tauto⟩)
  have hsame {x t : Vertex} (hxv : x ≠ v) (hxi : x ≠ i) (hxn : x ≠ w.next) :
      0 < (w.split v i k).joins x t ↔ 0 < w.joins x t := by
    rw [hw.joins_split_input hv hi hk, SamePair, SamePair, SamePair]
    tauto
  refine level_le (fun x hx hf => ⟨x, hstay hx, ?_⟩) fun x hx hl => ⟨x, hstay hx, .inr ?_⟩
  · rcases hf with he | ⟨hz, y, honly, hy⟩
    · exact .inl (hval.isEnd_split.2 he)
    have hxv : x ≠ v := fun h => hw.simple.not_forall_or hd (h ▸ honly)
    have hxi : x ≠ i := fun h => hz.not_isEnd (h ▸ hend)
    refine .inr ⟨isZ_split.2 (.inl hz), y, fun t ht => honly t
      ((hsame hxv hxi (hval.ne_next hz.has)).1 ht), hy.imp hval.isEnd_split.2 fun hinner =>
        ⟨hout hinner.1, fun t ht => ?_⟩⟩
    have hall := hinner.2
    have hyv : y ≠ v := fun h => by
      rcases hall i (h ▸ hvi) with h | h | h
      · exact hxi h.symm
      · exact hw.notMem_inputs_of_mem_outputs h hi
      · exact h.1.not_isEnd hend
    have hyi : y ≠ i := fun h => hinner.1.1.not_isEnd (h ▸ hend)
    exact (hall t ((hsame hyv hyi (hval.ne_next hinner.1.1.has)).1 ht)).imp_right fun h =>
      h.imp_right hout
  · have hxv : x ≠ v := fun h => hji (hl.alone i hi (h ▸ hvi)).symm
    have hxi : x ≠ i := fun h => hl.isZ.not_isEnd (h ▸ hend)
    have hsame {t : Vertex} := hsame (t := t) hxv hxi (hval.ne_next hl.isZ.has)
    refine ⟨isZ_split.2 (.inl hl.isZ), fun t ht hj => hl.alone t ht (hsame.1 hj),
      fun t ht hj => hout (hl.outer t ?_ (hsame.1 hj))⟩
    refine (isZ_split.1 ht).resolve_right ?_
    rintro rfl
    exact hval.not_has_next (hval.has_of_joins (hsame.1 hj)).2

/-- What is left does not grow by a spider that is put in front of an input. -/
theorem InForm.slack_split_le (hd : 2 < w.degree v) : (w.split v i k).slack ≤ w.slack := by
  have hlt := hw.level_split_lt hv hi hk hd
  have hsum : ∑ j ∈ w.inputs.toFinset, (w.split v i k).level j <
      ∑ j ∈ w.inputs.toFinset, w.level j := by
    refine Finset.sum_lt_sum (fun j hj => ?_) ⟨i, List.mem_toFinset.2 hi, hlt⟩
    by_cases hji : j = i
    · exact hji ▸ hlt.le
    · exact hw.level_split_le hv hi hk hd (List.mem_toFinset.1 hj) hji
  rw [slack, slack, card_spiders_split, show (w.split v i k).inputs = w.inputs from rfl]
  omega

end Split

/-! ### Taking out a wire -/

theorem isZ_bypass : (w.bypass v t n k).IsZ x ↔ x ≠ v ∧ w.IsZ x := by
  change (w.remove v).IsZ x ↔ _
  rw [IsZ, kind_remove, Function.update_apply]
  by_cases hx : x = v <;> simp [hx, IsZ]

theorem Relay.isEnd_bypass (h : w.Relay v t n k) : (w.bypass v t n k).IsEnd x ↔ w.IsEnd x := by
  change (w.remove v).IsEnd x ↔ w.IsEnd x
  rw [IsEnd, kind_remove, Function.update_apply, IsEnd]
  split
  · next he => simp [he, show w.kind v = some .z from h.isZ, SpiderKind.isBoundary]
  · rfl

/-- The edges of another vertex are the same, but that the vertex on the far side gets the end. -/
theorem Relay.joins_bypass_pos (hw : w.InForm) (h : w.Relay v t n k) (hx : x ≠ v) (hxt : x ≠ t) :
    0 < (w.bypass v t n k).joins x y ↔ y ≠ v ∧ 0 < w.joins x y ∨ x = n ∧ y = t := by
  have hpair : SamePair x y t n ↔ x = n ∧ y = t := by
    rw [SamePair]
    tauto
  have htv := hw.simple.valid.ne_end h.wired
  rw [h.joins_bypass hw]
  simp only [hpair]
  by_cases hc : x = n ∧ y = t
  · simp [hc]
  · by_cases hy : y = v <;> simp [hc, hx, hy, htv]

theorem Relay.card_spiders_bypass (hw : w.InForm) (h : w.Relay v t n k) :
    (w.bypass v t n k).spiders.card + 1 = w.spiders.card := by
  have herase : (w.bypass v t n k).spiders = w.spiders.erase v := by
    ext x
    rw [mem_spiders, Finset.mem_erase, mem_spiders]
    change x < w.next ∧ (w.remove v).Has x ↔ _
    rw [Web.has_remove]
    tauto
  rw [herase, Finset.card_erase_add_one (hw.simple.valid.mem_spiders_iff.2 h.isZ.has)]

section Relay

variable (hw : w.InForm) (h : w.Relay v t n k)
include hw h

theorem Relay.joins_bypass_of_isZ (hx : x ≠ v) (hz : w.IsZ x) :
    0 < (w.bypass v t n k).joins x y ↔ y ≠ v ∧ 0 < w.joins x y ∨ x = n ∧ y = t :=
  h.joins_bypass_pos hw hx fun he => hz.not_isEnd (he ▸ h.isEnd)

theorem Relay.outer_bypass (hx : w.Outer x) (hxv : x ≠ v) : (w.bypass v t n k).Outer x := by
  obtain ⟨hz, u, hu, hj⟩ := hx
  have huv : u ≠ v := fun he => h.isZ.not_isEnd (he ▸ hw.isEnd_of_mem_outputs hu)
  exact ⟨isZ_bypass.2 ⟨hxv, hz⟩, u, hu, (h.joins_bypass_of_isZ hw hxv hz).2 (.inl ⟨huv, hj⟩)⟩

variable (ht : t ∈ w.outputs)
include ht

variable (hi : i ∈ w.inputs)
include hi

/-- Other inputs keep their neighbours. -/
theorem Relay.joins_input_bypass (hin : i ≠ n) (hx : 0 < w.joins i x) :
    x ≠ v ∧ 0 < (w.bypass v t n k).joins i x := by
  have hval := hw.simple.valid
  have hiv : i ≠ v := fun he => h.isZ.not_isEnd (he ▸ hw.isEnd_input hi)
  have hit : i ≠ t := fun he => hw.notMem_inputs_of_mem_outputs ht (he ▸ hi)
  have hxv : x ≠ v := fun he => by
    rw [he, hval.joins_comm] at hx
    exact (h.only i (hval.mem_nearby.2 hx)).elim hit hin
  exact ⟨hxv, (h.joins_bypass_pos hw hiv hit).2 (.inl ⟨hxv, hx⟩)⟩

/-- What is free at another input stays so. -/
theorem Relay.free_bypass (hxv : x ≠ v) (hf : w.Free i x) : (w.bypass v t n k).Free i x := by
  have hval := hw.simple.valid
  have hiend := hw.isEnd_input hi
  have hiv : i ≠ v := fun he => h.isZ.not_isEnd (he ▸ hiend)
  rcases hf with he | ⟨hz, y, hxy, hy⟩
  · exact .inl (h.isEnd_bypass.2 he)
  have hz' : (w.bypass v t n k).IsZ x := isZ_bypass.2 ⟨hxv, hz⟩
  have hadj {c : Vertex} := h.joins_bypass_of_isZ (y := c) hw hxv hz
  by_cases hjv : 0 < w.joins x v
  · -- the wire that goes was the other neighbour
    refine .inr ⟨hz', t, fun c hc => ?_, .inl (h.isEnd_bypass.2 h.isEnd)⟩
    rcases hadj.1 hc with ⟨hcv, hj⟩ | ⟨-, rfl⟩
    · have hyv := (hxy v hjv).resolve_left (Ne.symm hiv)
      exact .inl ((hxy c hj).resolve_right fun he => hcv (he.trans hyv.symm))
    · exact .inr rfl
  have hxn : x ≠ n := fun he => hjv (he ▸ hval.joins_comm _ _ ▸
    hval.mem_nearby.1 (hval.mem_nearby_of_link h.link))
  have hold {c : Vertex} (hc : 0 < (w.bypass v t n k).joins x c) : c ≠ v ∧ 0 < w.joins x c :=
    (hadj.1 hc).resolve_right fun hs => hxn hs.1
  rcases hy with he | ⟨ho, hall⟩
  · exact .inr ⟨hz', y, fun c hc => hxy c (hold hc).2, .inl (h.isEnd_bypass.2 he)⟩
  by_cases hyv : y = v
  · refine .inr ⟨hz', i, fun c hc => .inl ?_, .inl (h.isEnd_bypass.2 hiend)⟩
    exact (hxy c (hold hc).2).resolve_right fun he => (hold hc).1 (he.trans hyv)
  · refine .inr ⟨hz', y, fun c hc => hxy c (hold hc).2, .inr ⟨h.outer_bypass hw ho hyv,
      fun c hc => ?_⟩⟩
    rcases (h.joins_bypass_of_isZ hw hyv ho.1).1 hc with ⟨hcv, hj⟩ | ⟨-, rfl⟩
    · exact (hall c hj).imp_right fun hs => hs.imp_right fun ho => h.outer_bypass hw ho hcv
    · exact .inr (.inl ht)

omit hi in
theorem Relay.loose_bypass (hxv : x ≠ v) (hl : w.Loose i x) : (w.bypass v t n k).Loose i x := by
  have hadj {c : Vertex} := h.joins_bypass_of_isZ (y := c) hw hxv hl.isZ
  refine ⟨isZ_bypass.2 ⟨hxv, hl.isZ⟩, fun c hc hj => ?_, fun c hc hj => ?_⟩
  · rcases hadj.1 hj with ⟨-, hj⟩ | ⟨-, rfl⟩
    · exact hl.alone c hc hj
    · exact absurd hc (hw.notMem_inputs_of_mem_outputs ht)
  · obtain ⟨hcv, hcz⟩ := isZ_bypass.1 hc
    rcases hadj.1 hj with ⟨-, hj⟩ | ⟨-, rfl⟩
    · exact h.outer_bypass hw (hl.outer c hcz hj) hcv
    · exact absurd h.isEnd hcz.not_isEnd

theorem Relay.level_bypass_le : (w.bypass v t n k).level i ≤ w.level i := by
  have hiv : i ≠ v := fun he => h.isZ.not_isEnd (he ▸ hw.isEnd_input hi)
  have hit : i ≠ t := fun he => hw.notMem_inputs_of_mem_outputs ht (he ▸ hi)
  by_cases hin : i = n
  · -- the input is wired to the output now
    rw [level_eq_zero ((h.joins_bypass_pos hw hiv hit).2 (.inr ⟨hin, rfl⟩))
      (.inl (h.isEnd_bypass.2 h.isEnd))]
    exact Nat.zero_le _
  · refine level_le (fun x hx hf => ?_) fun x hx hl => ?_
    · obtain ⟨hxv, hx'⟩ := h.joins_input_bypass hw ht hi hin hx
      exact ⟨x, hx', h.free_bypass hw ht hi hxv hf⟩
    · obtain ⟨hxv, hx'⟩ := h.joins_input_bypass hw ht hi hin hx
      exact ⟨x, hx', .inr (h.loose_bypass hw ht hxv hl)⟩

end Relay

/-- A wire that is taken out leaves less, and no input is less free. -/
theorem Relay.slack_lt (hw : w.InForm) (h : w.Relay v t n k) (ht : t ∈ w.outputs) :
    (w.bypass v t n k).slack < w.slack := by
  have hcard := h.card_spiders_bypass hw
  have hsum : ∑ i ∈ w.inputs.toFinset, (w.bypass v t n k).level i ≤
      ∑ i ∈ w.inputs.toFinset, w.level i :=
    Finset.sum_le_sum fun i hi => h.level_bypass_le hw ht (List.mem_toFinset.1 hi)
  rw [slack, slack, show (w.bypass v t n k).inputs = w.inputs from rfl]
  omega

/-! ### Adding rows -/

/-- All spiders at outputs are on a frontier that is prepared. -/
theorem Prepared.outer_iff (hprep : w.Prepared frontier w.outputs.length) (hw : w.InForm) :
    w.Outer x ↔ ∃ p ∈ frontier, p.2 = x := by
  have hval := hw.simple.valid
  constructor
  · rintro ⟨hz, t, ht, hj⟩
    obtain ⟨q, hq⟩ := List.getElem?_of_mem ht
    have hend := hw.isEnd_output hq
    have hlt := lt_of_getElem?_outputs hq
    have hxt : 0 < w.joins t x := hval.joins_comm _ _ ▸ hj
    have hnear {u : Vertex} (hu : w.link u (w.output q) = some .plain) : u = x := by
      rw [output_eq hq, hval.link_comm] at hu
      exact hw.eq_of_joins hend (hval.mem_nearby.1 (hval.mem_nearby_of_link hu)) hxt
    rcases hprep.covered q hlt with ⟨v, hv⟩ | ⟨u, hu, hk⟩
    · exact ⟨(q, v), hv, hnear (hprep.settled _ hv).wired⟩
    · exact absurd (hnear hk ▸ hu) hz.not_isEnd
  · rintro ⟨p, hp, rfl⟩
    have hset := hprep.settled p hp
    exact ⟨hset.isZ, w.output p.1, List.mem_of_getElem? (getElem?_outputs hset.lt),
      hval.mem_nearby.1 (hval.mem_nearby_of_link hset.wired)⟩

section Rows

variable (hprep : w.Prepared frontier w.outputs.length) (hw : w.InForm)
include hprep hw

/-- A spider of the frontier with one neighbour inside at most acts as a wire. -/
theorem Prepared.length_nearby_of_only {p : ℕ × Vertex} (hp : p ∈ frontier) (hz : w.IsZ x)
    (hj : 0 < w.joins x p.2)
    (hall : ∀ c, 0 < w.joins p.2 c → c = x ∨ c ∈ w.outputs ∨ w.Outer c) :
    (w.nearby p.2).length = 2 := by
  have hval := hw.simple.valid
  have hset := hprep.settled p hp
  have hxp : x ∈ w.nearby p.2 := hval.mem_nearby.2 (hval.joins_comm _ _ ▸ hj)
  refine length_nearby_eq_two hw.simple hxp (hval.mem_nearby_of_link hset.wired)
    (fun he => hz.not_isEnd (he ▸ hw.isEnd_output' hset.lt)) ?_
  rw [hw.simple.degree_eq]
  have hsub : w.nearby p.2 ⊆ [x, w.output p.1] := by
    intro c hc
    rcases hall c (hval.mem_nearby.1 hc) with rfl | hco | hco
    · exact List.mem_cons_self
    · have hcend := hw.isEnd_of_mem_outputs hco
      rw [(hset.ends c hc hcend).resolve_right fun h => hw.notMem_inputs_of_mem_outputs hco h.1]
      exact List.mem_cons_of_mem _ List.mem_cons_self
    · obtain ⟨p', hp', rfl⟩ := (hprep.outer_iff hw).1 hco
      exact absurd hc (hprep.apart p hp p' hp')
  exact (nodup_nearby.subperm hsub).length_le

variable (hwire : ∀ p ∈ frontier, (w.nearby p.2).length ≠ 2)
include hwire

/-- A spider at an input is not on the frontier. -/
theorem Prepared.ne_of_joins_input (hi : i ∈ w.inputs) (hx : 0 < w.joins i x) :
    ∀ p ∈ frontier, p.2 ≠ x := by
  have hval := hw.simple.valid
  rintro p hp rfl
  have hne : i ≠ w.output p.1 := fun he =>
    hw.output_notMem_inputs (hprep.settled p hp).lt (he ▸ hi)
  have hz := (hprep.isOpen hw hwire).inside p hp i
    (hval.mem_nearby.2 (hval.joins_comm _ _ ▸ hx)) hne
  exact hz.not_isEnd (hw.isEnd_input hi)

variable (hwithin : w.Within w')
  (hcount : ∀ a b k, w'.count a b k ≠ w.count a b k →
    ∃ p ∈ frontier, ∃ n ∈ w.inward frontier, SamePair a b p.2 n)
include hcount

/-- It gets edges to the frontier only, and if it had one. -/
theorem Prepared.outer_of_joins (hi : i ∈ w.inputs) (hx : 0 < w.joins i x) (hc : 0 < w'.joins x t)
    (hold : ¬0 < w.joins x t) : (∃ p ∈ frontier, 0 < w.joins x p.2) ∧ w.Outer t := by
  have hval := hw.simple.valid
  obtain ⟨k, hk⟩ : ∃ k, w'.count x t k ≠ w.count x t k := by
    by_contra hall
    simp only [not_exists, not_not] at hall
    rw [joins, hall, hall] at hc
    exact hold hc
  obtain ⟨p, hp, n, hn, hpair⟩ := hcount x t k hk
  rcases hpair with ⟨he, -⟩ | ⟨he, hcp⟩
  · exact absurd he.symm (hprep.ne_of_joins_input hw hwire hi hx p hp)
  · obtain ⟨⟨p', hp', hnear⟩, -⟩ := mem_inward.1 hn
    refine ⟨⟨p', hp', ?_⟩, (hprep.outer_iff hw).2 ⟨p, hp, hcp.symm⟩⟩
    rw [hval.joins_comm, he]
    exact hval.mem_nearby.1 hnear

include hwithin

/-- What is free at an input stays so. -/
theorem Prepared.free_of_within (hi : i ∈ w.inputs) (hx : 0 < w.joins i x) (hf : w.Free i x) :
    w'.Free i x := by
  have hiend := hw.isEnd_input hi
  rcases hf with he | ⟨hz, y, hxy, hy⟩
  · exact .inl (hwithin.isEnd.2 he)
  -- a spider that is not joined to the frontier has the edges it had
  have hsame (hfar : ∀ p ∈ frontier, ¬0 < w.joins x p.2) {c : Vertex} (hc : 0 < w'.joins x c) :
      0 < w.joins x c := by
    by_contra hold
    obtain ⟨⟨p, hp, hj⟩, -⟩ := hprep.outer_of_joins hw hwire hcount hi hx hc hold
    exact hfar p hp hj
  rcases hy with he | ⟨ho, hall⟩
  · refine .inr ⟨hwithin.isZ.2 hz, y, fun c hc => hxy c (hsame (fun p hp hj => ?_) hc),
      .inl (hwithin.isEnd.2 he)⟩
    have hpz := (hprep.settled p hp).isZ
    rcases hxy p.2 hj with h | h
    · exact hpz.not_isEnd (h ▸ hiend)
    · exact hpz.not_isEnd (h ▸ he)
  obtain ⟨p, hp, rfl⟩ := (hprep.outer_iff hw).1 ho
  by_cases hj : 0 < w.joins x p.2
  · exact absurd (hprep.length_nearby_of_only hw hp hz hj hall) (hwire p hp)
  · refine .inr ⟨hwithin.isZ.2 hz, i, fun c hc => .inl ?_, .inl (hwithin.isEnd.2 hiend)⟩
    have hfar : ∀ p' ∈ frontier, ¬0 < w.joins x p'.2 := fun p' hp' hj' => by
      rcases hxy p'.2 hj' with h | h
      · exact (hprep.settled p' hp').isZ.not_isEnd (h ▸ hiend)
      · exact hj (h ▸ hj')
    have hold := hsame hfar hc
    exact (hxy c hold).resolve_right fun he => hj (he ▸ hold)

theorem Prepared.loose_of_within (hw' : w'.InForm) (hi : i ∈ w.inputs) (hx : 0 < w.joins i x)
    (hl : w.Loose i x) : w'.Loose i x := by
  have hkeep {x c : Vertex} (hx : w.IsEnd c) : w'.joins x c = w.joins x c := by
    rw [hw'.simple.valid.joins_comm, hwithin.joins hx, hw.simple.valid.joins_comm]
  have hout {x : Vertex} (hx : w.Outer x) : w'.Outer x := by
    obtain ⟨hz, t, ht, hj⟩ := hx
    exact ⟨hwithin.isZ.2 hz, t, hwithin.outputs ▸ ht,
      (hkeep (hw.isEnd_of_mem_outputs ht)).symm ▸ hj⟩
  refine ⟨hwithin.isZ.2 hl.isZ, fun c hc hj => ?_, fun c hc hj => ?_⟩
  · rw [hwithin.inputs] at hc
    exact hl.alone c hc (hkeep (hw.isEnd_input hc) ▸ hj)
  · by_cases hold : 0 < w.joins x c
    · exact hout (hl.outer c (hwithin.isZ.1 hc) hold)
    · exact hout (hprep.outer_of_joins hw hwire hcount hi hx hj hold).2

/-- Edges between the frontier and its neighbours, where no spider of the frontier acts as a wire,
    may change without making more of what is left. -/
theorem Prepared.slack_le (hw' : w'.InForm) : w'.slack ≤ w.slack := by
  have hlevel : ∀ i ∈ w.inputs, w'.level i ≤ w.level i := fun i hi => by
    have hiend := hw.isEnd_input hi
    exact level_le (fun x hx hf => ⟨x, hwithin.joins hiend x ▸ hx,
        hprep.free_of_within hw hwire hwithin hcount hi hx hf⟩)
      fun x hx hl => ⟨x, hwithin.joins hiend x ▸ hx,
        .inr (hprep.loose_of_within hw hwire hwithin hcount hw' hi hx hl)⟩
  have hspiders : w'.spiders = w.spiders := by
    rw [spiders, spiders, hwithin.next]
    exact Finset.filter_congr fun x _ => by rw [Has, hwithin.kind, Has]
  rw [slack, slack, hspiders, hwithin.inputs]
  exact Nat.add_le_add_left (Finset.sum_le_sum fun i hi => hlevel i (List.mem_toFinset.1 hi)) _

end Rows

end Web

end ZXRewriting
