import ZXRewriting.GraphLike.OfDiagram
import ZXRewriting.Proofs.Diagram.Drawn
import ZXRewriting.Proofs.Diagram.Fusion
import ZXRewriting.Proofs.GraphLike.Form

/-!
# Steps to graph-like form

The steps that bring a diagram into graph-like form, as functions on webs: taking out a box with two
wires (`Web.unbox`), changing the colour of a spider (`Web.flip`), fusing two Z spiders
(`Web.takeIn`), and cancelling parallel Hadamard edges (`Web.reduced`). Each keeps the ends of wires
(`Web.Framed`) and what the diagram denotes up to a scalar (`Web.Converts`).

Spiders only ever go. What a step keeps is stated for all factors of the spiders that are left, so
that it holds for other phases as well.
-/

namespace ZXRewriting

open Function (update update_self update_of_ne)
open Multigraph (SamePair)

variable {w w' w'' : Web} {a b h s t u v x : Vertex} {k k₁ k₂ : EdgeKind} {p : Phase} {D : ℕ}
  {τ : Vertex → ℂ} {κ : SpiderKind}

namespace Web

/-! ### What is kept -/

/-- Each end of a wire has a single edge. -/
structure Hung (w : Web) : Prop where
  valid : w.Valid
  hangs : ∀ t, w.IsEnd t → ∃ u k, w.EndsAre t [(u, k)]

/-- Each end of a wire has a single edge, and the ends are listed. -/
structure Framed (w : Web) : Prop extends Hung w where
  inputs_nodup : w.inputs.Nodup
  outputs_nodup : w.outputs.Nodup
  mem_inputs : ∀ v, v ∈ w.inputs ↔ w.kind v = some .input
  mem_outputs : ∀ v, v ∈ w.outputs ↔ w.kind v = some .output

/-- A web made from another one: it has the same ends, some of the spiders, and denotes the same up
    to a scalar, whatever the factors of the spiders that are left. -/
structure Converts (w w' : Web) : Prop where
  inputs : w'.inputs = w.inputs
  outputs : w'.outputs = w.outputs
  has : ∀ v, w'.Has v → w.Has v
  amplitude : ∀ τ : Vertex → ℂ, (∀ v, ¬w'.Has v → τ v = 1) →
    Proportional (w.tensors τ).amplitude (w'.tensors τ).amplitude

theorem Converts.refl (w : Web) : Converts w w := ⟨rfl, rfl, fun _ h => h, fun _ _ => .refl _⟩

theorem Converts.trans (h : Converts w w') (h' : Converts w' w'') : Converts w w'' where
  inputs := h'.inputs.trans h.inputs
  outputs := h'.outputs.trans h.outputs
  has v hv := h.has v (h'.has v hv)
  amplitude τ hτ :=
    (h.amplitude τ fun v hv => hτ v fun hv' => hv (h'.has v hv')).trans (h'.amplitude τ hτ)

/-- The phases do not matter where there is no spider. -/
theorem Converts.of_phase (hn : w'.next = w.next) (hk : w'.kind = w.kind)
    (hc : w'.count = w.count) (hin : w'.inputs = w.inputs) (hout : w'.outputs = w.outputs)
    (hp : ∀ v, w.Has v → w'.phase v = w.phase v) : Converts w w' where
  inputs := hin
  outputs := hout
  has v hv := by
    rw [Has, hk] at hv
    exact hv
  amplitude τ _ := by
    have hkind (v : Vertex) : w'.kindAt v = w.kindAt v := by rw [kindAt, kindAt, hk]
    have hinner : (w'.tensors τ).inner = (w.tensors τ).inner := tensors_inner_congr hn hk
    have hweight (b : Bits) : (w.tensors τ).weight b =
        (∏ p ∈ Network.pairs w.next, (1 : ℂ)) * (w'.tensors τ).weight b := by
      refine Network.weight_scale (c := fun _ _ => 1) hn hinner (fun v hv => ?_) fun s t x y _ => ?_
      · change (w'.kindAt v).factor (w'.phase v) * τ v = (w.kindAt v).factor (w.phase v) * τ v
        rw [hkind, hp v (mem_tensors_inner.1 hv).1.2]
      · rw [one_mul, edge_tensors_congr (hkind s) (hkind t) (by rw [hc])]
    exact ⟨_, Finset.prod_ne_zero_iff.2 fun _ _ => one_ne_zero,
      Network.amplitude_eq_of_weight hinner hweight⟩

/-- A web as it is drawn from a circuit has its ends in order. -/
theorem Drawn.framed (hw : w.Drawn) : w.Framed where
  valid := hw.valid
  hangs t ht := by
    obtain ⟨u, hu, -⟩ := hw.ends t ht
    exact ⟨u, .plain, endsAre_single.2 hu⟩
  inputs_nodup := hw.inputs_nodup
  outputs_nodup := hw.outputs_nodup
  mem_inputs := hw.mem_inputs
  mem_outputs := hw.mem_outputs

/-- The ends are the same. -/
def SameEnds (w w' : Web) : Prop := ∀ v, w'.kind v = w.kind v ∨ ¬w.IsEnd v ∧ ¬w'.IsEnd v

theorem SameEnds.refl (w : Web) : SameEnds w w := fun _ => .inl rfl

theorem SameEnds.trans (h : SameEnds w w') (h' : SameEnds w' w'') : SameEnds w w'' := fun v => by
  rcases h v with h | h
  · rcases h' v with h' | h'
    · exact .inl (h'.trans h)
    · refine .inr ⟨?_, h'.2⟩
      rw [IsEnd, ← h]
      exact h'.1
  · rcases h' v with h' | h'
    · refine .inr ⟨h.1, ?_⟩
      rw [IsEnd, h']
      exact h.2
    · exact .inr ⟨h.1, h'.2⟩

theorem SameEnds.isEnd (h : SameEnds w w') : w'.IsEnd v ↔ w.IsEnd v := by
  rcases h v with h | h
  · rw [IsEnd, h, IsEnd]
  · exact iff_of_false h.2 h.1

/-- An edit that keeps the ends, and leaves each with a single edge. -/
theorem Hung.of_ends (hw : w.Hung) (hval : w'.Valid) (hsame : SameEnds w w')
    (hangs : ∀ t u k, w.IsEnd t → w.EndsAre t [(u, k)] → ∃ u' k', w'.EndsAre t [(u', k')]) :
    w'.Hung where
  valid := hval
  hangs t ht := by
    have hend := hsame.isEnd.1 ht
    obtain ⟨u, k, hu⟩ := hw.hangs t hend
    exact hangs t u k hend hu

/-- An end has no edges to different vertices. -/
theorem Hung.eq_of_joins (hw : w.Hung) (hv : w.IsEnd v) (hs : 0 < w.joins v s)
    (ht : 0 < w.joins v t) : s = t := by
  obtain ⟨u, k, hu⟩ := hw.hangs v hv
  have hall {x : Vertex} (hx : 0 < w.joins v x) : x = u := by
    obtain ⟨k', hk'⟩ := joins_pos_iff.1 hx
    rw [endsAre_single.1 hu] at hk'
    by_contra hne
    simp [hne] at hk'
  rw [hall hs, hall ht]

/-- An edit that changes neither the ends nor their lists. -/
theorem Framed.of_hung (hw : w.Framed) (h : w'.Hung) (hin : w'.inputs = w.inputs)
    (hout : w'.outputs = w.outputs) (hsame : SameEnds w w') : w'.Framed where
  toHung := h
  inputs_nodup := hin ▸ hw.inputs_nodup
  outputs_nodup := hout ▸ hw.outputs_nodup
  mem_inputs v := by
    rw [hin, hw.mem_inputs]
    rcases hsame v with h | h
    · rw [h]
    · exact ⟨fun hv => absurd (isEnd_of_input hv) h.1, fun hv => absurd (isEnd_of_input hv) h.2⟩
  mem_outputs v := by
    rw [hout, hw.mem_outputs]
    rcases hsame v with h | h
    · rw [h]
    · exact ⟨fun hv => absurd (isEnd_of_output hv) h.1, fun hv => absurd (isEnd_of_output hv) h.2⟩

/-! ### Boxes -/

/-- Every box has two edges, one of which leads to a younger box or to no box. -/
def BoxesInLine (w : Web) : Prop := ∀ h, w.kind h = some .box → ∃ a k₁ c k₂,
  w.EndsAre h [(a, k₁), (c, k₂)] ∧ (w.kind c = some .box → h < c)

theorem Drawn.boxesInLine (hw : w.Drawn) : w.BoxesInLine := fun h hh => by
  obtain ⟨a, c, hac, hc, hends⟩ := hw.box h hh
  refine ⟨a, .plain, c, .plain, endsAre_pair.2 fun x k => ?_, hc⟩
  rw [hends]
  grind

/-- Takes a box out, the edges of which lead to `a` and `b`. -/
def unbox (w : Web) (h a b : Vertex) (k : EdgeKind) : Web :=
  if a = b then if k = .hadamard then (w.remove h).addToPhase a .pi else w.remove h
  else (w.remove h).addEdges a b k 1

@[simp] theorem next_unbox : (w.unbox h a b k).next = w.next := by
  rw [unbox]
  split_ifs <;> rfl

theorem kind_unbox : (w.unbox h a b k).kind = update w.kind h none := by
  rw [unbox]
  split_ifs <;> rfl

theorem inputs_unbox : (w.unbox h a b k).inputs = w.inputs := by
  rw [unbox]
  split_ifs <;> rfl

theorem outputs_unbox : (w.unbox h a b k).outputs = w.outputs := by
  rw [unbox]
  split_ifs <;> rfl

theorem Valid.count_unbox (hw : w.Valid) (c d : Vertex) (k' : EdgeKind) :
    (w.unbox h a b k).count c d k' = (if c = h ∨ d = h then 0 else w.count c d k') +
      if a ≠ b ∧ SamePair c d a b ∧ k = k' then 1 else 0 := by
  rw [unbox]
  by_cases hab : a = b
  · rw [if_pos hab, if_neg (show ¬(a ≠ b ∧ SamePair c d a b ∧ k = k') from fun hc => hc.1 hab)]
    split <;> rfl
  · rw [if_neg hab, (hw.remove h).count_addEdges_eq]
    simp only [ne_eq, hab, not_false_eq_true, true_and]
    rfl

theorem Valid.joins_unbox (hw : w.Valid) (c d : Vertex) : (w.unbox h a b k).joins c d =
    (if c = h ∨ d = h then 0 else w.joins c d) + if a ≠ b ∧ SamePair c d a b then 1 else 0 := by
  rw [joins, joins, hw.count_unbox, hw.count_unbox]
  cases k <;> grind

theorem Valid.unbox (hw : w.Valid) (ha : w.Has a) (hb : w.Has b) (hah : a ≠ h) (hbh : b ≠ h) :
    (w.unbox h a b k).Valid := by
  have hold {x : Vertex} (hx : w.Has x) (hxh : x ≠ h) : (w.remove h).Has x := by
    rw [Has, kind_remove, update_of_ne hxh]
    exact hx
  rw [Web.unbox]
  split_ifs with hab
  · exact (hw.remove h).addToPhase a .pi
  · exact hw.remove h
  · exact (hw.remove h).setCount (hold ha hah) (hold hb hbh) hab _

theorem sameEnds_unbox (hend : ¬w.IsEnd h) : SameEnds w (w.unbox h a b k) := fun v => by
  by_cases hv : v = h
  · refine .inr ⟨hv ▸ hend, ?_⟩
    rw [IsEnd, kind_unbox, hv, update_self]
    simp
  · exact .inl (by rw [kind_unbox, update_of_ne hv])

/-- An end keeps its edge, or is tied to the other side of the box. So it is with another spider
    that has two edges. -/
theorem Hung.unbox (hw : w.Hung) (hends : w.EndsAre h [(a, k₁), (b, k₂)])
    (hend : ¬w.IsEnd h) : (w.unbox h a b k).Hung := by
  have ha := hw.valid.has_of_endsAre hends List.mem_cons_self
  have hb := hw.valid.has_of_endsAre hends (List.mem_cons_of_mem _ List.mem_cons_self)
  refine hw.of_ends (hw.valid.unbox ha.1 hb.1 ha.2 hb.2) (sameEnds_unbox hend)
    fun t u k₀ ht htu => ?_
  have hth : t ≠ h := fun h' => hend (h' ▸ ht)
  have hcount := hw.valid.count_unbox (h := h) (a := a) (b := b) (k := k) t
  have hfrom := endsAre_single.1 htu
  have hto (k' : EdgeKind) : (if t = a ∧ k' = k₁ then 1 else 0) +
      (if t = b ∧ k' = k₂ then 1 else 0) = if h = u ∧ k' = k₀ then 1 else 0 := by
    rw [← hfrom, hw.valid.symm, endsAre_pair.1 hends]
  by_cases hu : u = h
  · -- the edge led to the box
    have hone := hto k₀
    rw [if_pos (show h = u ∧ k₀ = k₀ from ⟨hu.symm, rfl⟩)] at hone
    have hab : a ≠ b := by
      rintro rfl
      have h₁ := hto k₁
      have h₂ := hto k₂
      grind
    refine ⟨if t = a then b else a, k, endsAre_single.2 fun x k' => ?_⟩
    rw [hcount, hfrom]
    simp only [SamePair]
    grind
  · have hta : t ≠ a := by
      rintro rfl
      have := hto k₁
      grind
    have htb : t ≠ b := by
      rintro rfl
      have := hto k₂
      grind
    refine ⟨u, k₀, endsAre_single.2 fun x k' => ?_⟩
    rw [hcount, hfrom]
    simp only [SamePair]
    grind

theorem Valid.count_of_twice (hw : w.Valid) (hends : w.EndsAre h [(a, k₁), (a, k₂)])
    (k' : EdgeKind) : w.count a h k' = (if k' = k₁ then 1 else 0) + if k' = k₂ then 1 else 0 := by
  rw [hw.symm, endsAre_pair.1 hends]
  simp

/-- A spider that both edges of another one lead to is no end, and so coloured if it is no box. -/
theorem Hung.isPhased_of_twice (hw : w.Hung) (hends : w.EndsAre h [(a, k₁), (a, k₂)])
    (hbox : w.kind a ≠ some .box) : (w.kindAt a).isPhased = true := by
  obtain ⟨κ, hκ⟩ := Option.isSome_iff_exists.1
    (hw.valid.has_of_endsAre hends List.mem_cons_self).1
  have hend : ¬w.IsEnd a := fun hend => by
    obtain ⟨u, k, hu⟩ := hw.hangs a hend
    have h₁ := hw.valid.count_of_twice hends k₁
    have h₂ := hw.valid.count_of_twice hends k₂
    rw [endsAre_single.1 hu] at h₁ h₂
    grind
  rw [kindAt_eq hκ]
  rw [IsEnd, hκ] at hend
  rw [hκ] at hbox
  cases κ with
  | z | x => rfl
  | box => exact absurd rfl hbox
  | input | output => exact absurd rfl hend

section Unbox

variable (hw : w.Framed) (hends : w.EndsAre h [(a, k₁), (b, k₂)])
include hw hends

theorem Framed.unbox (hbox : w.kind h = some .box) : (w.unbox h a b k).Framed := by
  have hend : ¬w.IsEnd h := not_isEnd_of_kind hbox rfl
  exact hw.of_hung (hw.toHung.unbox hends hend) inputs_unbox outputs_unbox (sameEnds_unbox hend)

/-- The other boxes keep an edge to a younger box or to no box, if the box was the oldest one. -/
theorem Framed.boxesInLine_unbox (hline : w.BoxesInLine) (hbox : w.kind h = some .box)
    (hmin : ∀ g, w.kind g = some .box → h ≤ g) : (w.unbox h a b k).BoxesInLine := by
  intro g hg
  have hgh : g ≠ h := by
    rintro rfl
    rw [kind_unbox, update_self] at hg
    exact absurd hg (by simp)
  rw [kind_unbox, update_of_ne hgh] at hg
  obtain ⟨a', k₁', c', k₂', hends', hc'⟩ := hline g hg
  have hc'h : c' ≠ h := by
    rintro rfl
    exact absurd (hc' hbox) (Nat.not_lt.2 (hmin g hg))
  have hyounger : (w.unbox h a b k).kind c' = some .box → g < c' := by
    rw [kind_unbox, update_of_ne hc'h]
    exact hc'
  have hcount := hw.valid.count_unbox (h := h) (a := a) (b := b) (k := k) g
  have hfrom := endsAre_pair.1 hends'
  have hto (k' : EdgeKind) : (if g = a ∧ k' = k₁ then 1 else 0) +
      (if g = b ∧ k' = k₂ then 1 else 0) = (if h = a' ∧ k' = k₁' then 1 else 0) +
        if h = c' ∧ k' = k₂' then 1 else 0 := by
    rw [← hfrom, hw.valid.symm, endsAre_pair.1 hends]
  by_cases ha' : a' = h
  · -- the other edge led to the box
    have hone := hto k₁'
    rw [if_pos (show h = a' ∧ k₁' = k₁' from ⟨ha'.symm, rfl⟩)] at hone
    have hab : a ≠ b := by
      rintro rfl
      have h₁ := hto k₁
      have h₂ := hto k₂
      grind
    refine ⟨if g = a then b else a, k, c', k₂', endsAre_pair.2 fun x k' => ?_, hyounger⟩
    rw [hcount, hfrom]
    simp only [SamePair]
    grind
  · have hga : g ≠ a := by
      rintro rfl
      have := hto k₁
      grind
    have hgb : g ≠ b := by
      rintro rfl
      have := hto k₂
      grind
    refine ⟨a', k₁', c', k₂', endsAre_pair.2 fun x k' => ?_, hyounger⟩
    rw [hcount, hfrom]
    simp only [SamePair]
    grind

/-- A spider that both edges of a box lead to is coloured, if the box was the oldest one. -/
theorem Framed.isPhased_of_loop (hline : w.BoxesInLine) (hbox : w.kind h = some .box)
    (hmin : ∀ g, w.kind g = some .box → h ≤ g) (hab : a = b) : (w.kindAt a).isPhased = true := by
  subst hab
  refine hw.toHung.isPhased_of_twice hends fun hκ => ?_
  obtain ⟨a', k₁', c', k₂', hends', hc'⟩ := hline a hκ
  have hc'h : c' ≠ h := by
    rintro rfl
    exact absurd (hc' hbox) (Nat.not_lt.2 (hmin a hκ))
  have hto (k' : EdgeKind) := hw.valid.count_of_twice hends k'
  have h₁ := hto k₁
  have h₂ := hto k₂
  rw [endsAre_pair.1 hends'] at h₁ h₂
  grind

end Unbox

end Web

/-- A loop at a coloured spider is a phase. -/
theorem SpiderKind.joint_loop (h : κ.isPhased = true) (k : EdgeKind) :
    ∃ c : ℂ, c ≠ 0 ∧ ∀ y, k.joint (κ.leg y) (κ.leg y) =
      c * if k = .hadamard ∧ y = true then -1 else 1 := by
  cases κ with
  | z =>
    refine ⟨1, one_ne_zero, fun y => ?_⟩
    cases k <;> cases y <;>
      simp [EdgeKind.joint_plain, EdgeKind.joint_hadamard, leg, EdgeKind.value]
  | x =>
    refine ⟨2, two_ne_zero, fun y => ?_⟩
    cases k <;> cases y <;>
      simp [EdgeKind.joint_plain, EdgeKind.joint_hadamard, leg, EdgeKind.value] <;> norm_num
  | input | output | box => cases h

namespace Web

/-- Taking out a box keeps what the diagram denotes up to a scalar. -/
theorem Valid.amplitude_unbox (hw : w.Valid) (hD : Phase.IsGrid D) (hg : w.OnGrid D)
    (hbox : w.kind h = some .box) (hends : w.EndsAre h [(a, k₁), (b, k₂)])
    (hloop : a = b → (w.kindAt a).isPhased = true) (hτ : τ h = 1) :
    Proportional (w.tensors τ).amplitude
      ((w.unbox h a b (k₁.merge k₂).opposite).tensors τ).amplitude := by
  have hinner : h ∈ (w.tensors τ).inner := hw.mem_tensors_of_kind hbox rfl
  set k := (k₁.merge k₂).opposite
  obtain ⟨c, hc, hbridge⟩ : ∃ c : ℂ, c ≠ 0 ∧ ∀ f g,
      (w.kindAt h).bridge ((w.kindAt h).factor (w.phase h) * τ h) k₁ k₂ f g = c * k.joint f g := by
    refine ⟨if k₁ = .plain ∧ k₂ = .plain then 1 else 2, by split <;> norm_num, fun f g => ?_⟩
    rw [kindAt_eq hbox, hτ, mul_one, SpiderKind.factor_box]
    exact SpiderKind.bridge_box k₁ k₂ f g
  by_cases hab : a = b
  · subst hab
    have hphased := hloop rfl
    obtain ⟨c', hc', hjoint⟩ := SpiderKind.joint_loop hphased k
    obtain ⟨ha, hah⟩ := hw.has_of_endsAre hends List.mem_cons_self
    have hkind : (w.remove h).kindAt a = w.kindAt a := by
      rw [kindAt, kindAt, kind_remove, update_of_ne hah]
    have hat : a ∈ ((w.remove h).tensors τ).inner := by
      rw [hw.tensors_inner_remove]
      refine Finset.mem_erase.2 ⟨hah, hw.mem_tensors.2 ⟨ha, fun he => ?_⟩⟩
      rw [he.isPhased_kindAt] at hphased
      cases hphased
    have hfactor : ((w.remove h).kindAt a).factor ((w.remove h).phase a + .pi) =
        ((w.remove h).kindAt a).factor ((w.remove h).phase a) * -1 := by
      rw [hkind, SpiderKind.factor_of_isPhased hphased, SpiderKind.factor_of_isPhased hphased,
        (((hg.remove h) a).add hD Phase.onGrid_pi).2, Phase.unit_pi]
    have hweight (b : Bits) : ((w.unbox h a a k).tensors τ).weight b =
        ((w.remove h).tensors τ).weight b * if k = .hadamard ∧ b a = true then -1 else 1 := by
      rw [Web.unbox, if_pos rfl]
      by_cases hk : k = .hadamard
      · rw [if_pos hk, Web.addToPhase, tensors_setPhase hat hfactor]
        simp only [hk, true_and]
      · rw [if_neg hk, if_neg fun hc => hk hc.1, mul_one]
    refine ⟨c * c', mul_ne_zero hc hc', Network.amplitude_eq_of_sum hinner ?_ fun b => ?_⟩
    · rw [← hw.tensors_inner_remove]
      exact tensors_inner_congr next_unbox kind_unbox
    · rw [hw.sum_bridge hinner hends, hbridge, hweight, Web.leg, hjoint]
      ring
  · rw [Web.unbox, if_neg hab]
    exact hw.amplitude_bypass hinner hends hab hc hbridge

theorem has_unbox : (w.unbox h a b k).Has v ↔ w.Has v ∧ v ≠ h := by
  rw [Has, kind_unbox]
  by_cases hv : v = h
  · simp [hv]
  · simp [hv, Has]

theorem isBox_unbox : (w.unbox h a b k).kind v = some .box ↔ w.kind v = some .box ∧ v ≠ h := by
  rw [kind_unbox]
  by_cases hv : v = h
  · simp [hv]
  · simp [hv]

theorem Framed.converts_unbox (hw : w.Framed) (hD : Phase.IsGrid D) (hg : w.OnGrid D)
    (hline : w.BoxesInLine) (hbox : w.kind h = some .box)
    (hmin : ∀ g, w.kind g = some .box → h ≤ g) (hends : w.EndsAre h [(a, k₁), (b, k₂)]) :
    Converts w (w.unbox h a b (k₁.merge k₂).opposite) where
  inputs := inputs_unbox
  outputs := outputs_unbox
  has v hv := (has_unbox.1 hv).1
  amplitude τ hτ := hw.valid.amplitude_unbox hD hg hbox hends
    (hw.isPhased_of_loop hends hline hbox hmin) (hτ h fun hh => (has_unbox.1 hh).2 rfl)

theorem OnGrid.unbox (hD : Phase.IsGrid D) (hg : w.OnGrid D) : (w.unbox h a b k).OnGrid D := by
  rw [Web.unbox]
  split_ifs
  · exact (hg.remove h).addToPhase hD Phase.onGrid_pi a
  · exact hg.remove h
  · exact hg.remove h

/-! ### Colours -/

theorem sameEnds_flip (hk : w.kind v = some κ) (hκ : κ.isPhased = true) :
    SameEnds w (w.flip v) := fun u => by
  have hopposite : (w.flip v).kind v = some κ.opposite := by
    rw [kind_flip, update_self, kindAt_eq hk]
  by_cases hu : u = v
  · subst hu
    exact .inr ⟨not_isEnd_of_kind hk (SpiderKind.isBoundary_of_isPhased hκ),
      not_isEnd_of_kind hopposite (by cases κ <;> first | rfl | cases hκ)⟩
  · exact .inl (by rw [kind_flip, update_of_ne hu])

/-- An edge at the spider of the other colour is one of the other kind. -/
theorem Hung.flip (hw : w.Hung) (hk : w.kind v = some κ) (hκ : κ.isPhased = true) :
    (w.flip v).Hung := by
  refine hw.of_ends (hw.valid.flip (has_of_kind hk)) (sameEnds_flip hk hκ) fun t u k ht htu => ?_
  have htv : t ≠ v := fun h =>
    not_isEnd_of_kind hk (SpiderKind.isBoundary_of_isPhased hκ) (h ▸ ht)
  refine ⟨u, if u = v then k.opposite else k, endsAre_single.2 fun x k' => ?_⟩
  rw [count_flip, endsAre_single.1 htu]
  by_cases hu : u = v
  · cases k <;> cases k' <;> simp [hu, EdgeKind.opposite, htv]
  · grind

theorem Framed.flip (hw : w.Framed) (hk : w.kind v = some κ) (hκ : κ.isPhased = true) :
    (w.flip v).Framed := hw.of_hung (hw.toHung.flip hk hκ) rfl rfl (sameEnds_flip hk hκ)

theorem Framed.converts_flip (hw : w.Framed) (hk : w.kind v = some κ) (hκ : κ.isPhased = true) :
    Converts w (w.flip v) :=
  ⟨rfl, rfl, fun _ hu => (has_flip (has_of_kind hk)).1 hu, fun _ _ => hw.valid.amplitude_flip hk hκ⟩

theorem OnGrid.flip (hg : w.OnGrid D) : (w.flip v).OnGrid D := hg

/-! ### Fusion -/

/-- Moves a link of a spider that is fused into `v`. An edge to `v` itself becomes a loop. -/
def moveLink (v : Vertex) (w : Web) (l : Link) : Web :=
  if l.node ≠ v then w.addEdges v l.node l.kind l.count
  else if l.kind = .hadamard ∧ l.count % 2 = 1 then w.addToPhase v .pi
  else w

/-- Gives a Z spider the phase of another one, and its links. -/
def gather (w : Web) (v u : Vertex) (links : List Link) : Web :=
  links.foldl (moveLink v) (w.addToPhase v (w.phase u))

/-- Fuses a Z spider with the given links into another one. -/
def takeIn (w : Web) (v u : Vertex) (links : List Link) : Web :=
  ((w.gather v u links).mergeCarriers v u).remove u

/-- The factor of a link that is moved to `v`. -/
noncomputable def moved (w : Web) (v : Vertex) (b : Bits) (l : Link) : ℂ :=
  if l.node ≠ v then l.kind.joint (w.leg v (b v)) (w.leg l.node (b l.node)) ^ l.count
  else if l.kind = .hadamard ∧ l.count % 2 = 1 then if b v then -1 else 1
  else 1

section MoveLink

variable {l : Link} {links : List Link} {B : Bits}

theorem moveLink_fields (v : Vertex) (w : Web) (l : Link) : (moveLink v w l).next = w.next ∧
    (moveLink v w l).kind = w.kind ∧ (moveLink v w l).inputs = w.inputs ∧
      (moveLink v w l).outputs = w.outputs := by
  rw [moveLink]
  split_ifs <;> exact ⟨rfl, rfl, rfl, rfl⟩

theorem moveLinks_fields (v : Vertex) (w : Web) (links : List Link) :
    (links.foldl (moveLink v) w).next = w.next ∧ (links.foldl (moveLink v) w).kind = w.kind ∧
      (links.foldl (moveLink v) w).inputs = w.inputs ∧
        (links.foldl (moveLink v) w).outputs = w.outputs := by
  induction links generalizing w with
  | nil => exact ⟨rfl, rfl, rfl, rfl⟩
  | cons l rest ih =>
    obtain ⟨h₁, h₂, h₃, h₄⟩ := ih (moveLink v w l)
    obtain ⟨h₁', h₂', h₃', h₄'⟩ := moveLink_fields v w l
    exact ⟨h₁.trans h₁', h₂.trans h₂', h₃.trans h₃', h₄.trans h₄'⟩

theorem Valid.moveLink (hw : w.Valid) (hv : w.Has v) (hl : w.Has l.node) :
    (moveLink v w l).Valid := by
  rw [Web.moveLink]
  split_ifs with h
  · exact hw.setCount hv hl (Ne.symm h) _
  · exact hw.addToPhase v .pi
  · exact hw

theorem Valid.moveLinks (hw : w.Valid) (hv : w.Has v) (hl : ∀ l ∈ links, w.Has l.node) :
    (links.foldl (Web.moveLink v) w).Valid := by
  induction links generalizing w with
  | nil => exact hw
  | cons l rest ih =>
    obtain ⟨-, hkind, -, -⟩ := moveLink_fields v w l
    refine ih (hw.moveLink hv (hl l List.mem_cons_self)) ?_ fun l' hl' => ?_
    · rw [Has, hkind]
      exact hv
    · rw [Has, hkind]
      exact hl l' (List.mem_cons_of_mem l hl')

theorem OnGrid.moveLinks (hD : Phase.IsGrid D) (links : List Link) (hg : w.OnGrid D) :
    (links.foldl (Web.moveLink v) w).OnGrid D := by
  induction links generalizing w with
  | nil => exact hg
  | cons l rest ih =>
    refine ih ?_
    rw [Web.moveLink]
    split_ifs
    · exact hg
    · exact hg.addToPhase hD Phase.onGrid_pi v
    · exact hg

/-- A link that is moved brings its factor. -/
theorem Valid.tensors_moveLink (hw : w.Valid) (hD : Phase.IsGrid D) (hg : w.OnGrid D)
    (hv : w.IsZ v) (hl : w.Has l.node) :
    ((Web.moveLink v w l).tensors τ).weight B = (w.tensors τ).weight B * w.moved v B l := by
  rw [Web.moveLink, moved]
  by_cases hnode : l.node ≠ v
  · rw [if_pos hnode, if_pos hnode, hw.tensors_addEdges hv.has hl hnode.symm]
  · rw [if_neg hnode, if_neg hnode]
    split_ifs with hodd hB
    · rw [Web.addToPhase, tensors_setPhase (c := -1) (hw.mem_tensors_of_kind hv rfl), if_pos hB]
      rw [kindAt_eq hv]
      exact ((hg v).add hD Phase.onGrid_pi).2.trans (by rw [Phase.unit_pi]; rfl)
    · rw [Web.addToPhase, tensors_setPhase (c := -1) (hw.mem_tensors_of_kind hv rfl), if_neg hB]
      rw [kindAt_eq hv]
      exact ((hg v).add hD Phase.onGrid_pi).2.trans (by rw [Phase.unit_pi]; rfl)
    · rw [mul_one]

theorem Valid.tensors_moveLinks (hw : w.Valid) (hD : Phase.IsGrid D) (hg : w.OnGrid D)
    (hv : w.IsZ v) (hl : ∀ l ∈ links, w.Has l.node) :
    ((links.foldl (Web.moveLink v) w).tensors τ).weight B =
      (w.tensors τ).weight B * (links.map (w.moved v B)).prod := by
  induction links generalizing w with
  | nil => simp
  | cons l rest ih =>
    obtain ⟨-, hkind, -, -⟩ := moveLink_fields v w l
    have hl₀ := hl l List.mem_cons_self
    have hmoved : (Web.moveLink v w l).moved v B = w.moved v B := by
      funext l'
      simp only [moved, leg, kindAt, hkind]
    have hgrid : (Web.moveLink v w l).OnGrid D := OnGrid.moveLinks hD [l] hg
    rw [List.foldl_cons, ih (hw.moveLink hv.has hl₀) hgrid (by rw [IsZ, hkind]; exact hv)
      fun l' hl' => ?_, hw.tensors_moveLink hD hg hv hl₀, hmoved, List.map_cons, List.prod_cons,
      mul_assoc]
    rw [Has, hkind]
    exact hl l' (List.mem_cons_of_mem l hl')

/-- What is moved elsewhere does not matter to a spider that is removed. -/
theorem remove_moveLinks (hv : v ≠ u) (hl : ∀ l ∈ links, l.node ≠ u) :
    (links.foldl (Web.moveLink v) w).remove u = links.foldl (Web.moveLink v) (w.remove u) := by
  induction links generalizing w with
  | nil => rfl
  | cons l rest ih =>
    have hcomm : (Web.moveLink v w l).remove u = Web.moveLink v (w.remove u) l := by
      have hlu := hl l List.mem_cons_self
      rw [Web.moveLink, Web.moveLink]
      split_ifs
      · refine Web.ext rfl rfl rfl (funext fun c => funext fun d => funext fun k => ?_) rfl rfl rfl
        simp only [Web.remove, addEdges, setCount, SamePair]
        grind
      · exact remove_addToPhase hv
      · rfl
    rw [List.foldl_cons, ih fun l' hl' => hl l' (List.mem_cons_of_mem l hl'), hcomm]
    rfl

end MoveLink

/-! ### Links -/

/-- The edges at a vertex, by the list of its links. -/
structure LinksAre (w : Web) (v : Vertex) (links : List Link) : Prop where
  proper : Links.Proper links
  mem_iff : ∀ l, l ∈ links ↔ 0 < l.count ∧ w.count v l.node l.kind = l.count

section LinksAre

variable {links : List Link}

theorem LinksAre.count_eq (h : w.LinksAre v links) (x : Vertex) (k : EdgeKind) :
    Links.count links x k = w.count v x k := by
  rcases Nat.eq_zero_or_pos (w.count v x k) with hzero | hpos
  · rw [hzero]
    by_contra hne
    obtain ⟨l, hl, rfl, rfl⟩ := h.proper.count_pos_iff.1 (Nat.pos_of_ne_zero hne)
    obtain ⟨hpos, hcount⟩ := (h.mem_iff l).1 hl
    omega
  · have hl : (⟨x, k, w.count v x k⟩ : Link) ∈ links := (h.mem_iff _).2 ⟨hpos, rfl⟩
    exact h.proper.count_of_mem hl

/-- Each edge is an end of its own. -/
theorem LinksAre.endsAre (h : w.LinksAre v links) :
    w.EndsAre v (links.flatMap fun l => List.replicate l.count (l.node, l.kind)) := fun x k => by
  rw [← h.count_eq, h.proper.count_ends]

theorem LinksAre.has (h : w.LinksAre v links) (hw : w.Valid) {l : Link} (hl : l ∈ links) :
    w.Has l.node ∧ l.node ≠ v := by
  obtain ⟨hpos, hcount⟩ := (h.mem_iff l).1 hl
  rw [← hcount] at hpos
  refine ⟨hw.has _ v l.kind (hw.symm v _ _ ▸ hpos), fun hv => ?_⟩
  rw [hv, hw.self] at hpos
  exact absurd hpos (Nat.lt_irrefl _)

/-- The factors of the edges at a vertex, link by link. -/
theorem prod_links (links : List Link) (f : Vertex → EdgeKind → ℂ) :
    ((links.flatMap fun l => List.replicate l.count (l.node, l.kind)).map fun e =>
      f e.1 e.2).prod = (links.map fun l => f l.node l.kind ^ l.count).prod := by
  induction links with
  | nil => rfl
  | cons l rest ih => simp [ih]

end LinksAre

section TakeIn

variable {links : List Link} (hw : w.Valid) (hv : w.IsZ v) (hu : w.IsZ u) (hne : v ≠ u)
  (hlinks : w.LinksAre u links)
include hw hv hu hne hlinks

omit hv hu in
/-- The same edits with the spider taken out first. -/
theorem LinksAre.tensors_takeIn : (w.takeIn v u links).tensors τ =
    (links.foldl (moveLink v) ((w.remove u).addToPhase v (w.phase u))).tensors τ := by
  obtain ⟨c, hc⟩ := exists_mergeCarriers (w.gather v u links) v u
  rw [takeIn, hc, ← remove_addToPhase hne,
    ← remove_moveLinks hne fun l hl => (hlinks.has hw hl).2]
  rfl

omit hw hne in
/-- The factors of the edges of the spider, at a bit of its own. -/
theorem LinksAre.prod_joint (b : Bits) (hplain : 0 < w.count u v .plain) (x : Bool) :
    (links.map fun l => l.kind.joint (w.leg u x) (w.leg l.node (b l.node)) ^ l.count).prod =
      if x = b v then (links.map (w.moved v b)).prod else 0 := by
  have hlegv := leg_of_isZ hv
  have hlegu := leg_of_isZ hu
  split
  · next hx =>
    refine congrArg List.prod (List.map_congr_left fun l hl => ?_)
    rw [moved, hlegu, hx]
    by_cases hnode : l.node = v
    · -- between the two, their bits being equal, only an odd number of Hadamard edges counts
      rw [if_neg (not_not.2 hnode), hnode, hlegv, EdgeKind.joint_value]
      cases l.kind with
      | plain => simp
      | hadamard =>
        rcases Nat.mod_two_eq_zero_or_one l.count with h | h
        · cases b v <;> simp [EdgeKind.value, h, (Nat.even_iff.2 h).neg_one_pow]
        · cases b v <;> simp [EdgeKind.value, h, (Nat.odd_iff.2 h).neg_one_pow]
    · rw [if_pos hnode, hlegv]
  · next hx =>
    have hl : (⟨v, .plain, w.count u v .plain⟩ : Link) ∈ links :=
      (hlinks.mem_iff _).2 ⟨hplain, rfl⟩
    refine List.prod_eq_zero (List.mem_map.2 ⟨_, hl, ?_⟩)
    rw [hlegu, hlegv, EdgeKind.joint_value, show EdgeKind.plain.value x (b v) = 0 from if_neg hx,
      zero_pow hplain.ne']

/-- Fusing two Z spiders, with the twists of both at the one that stays, does not change what the
    diagram denotes. -/
theorem LinksAre.amplitude_takeIn {τ' : Vertex → ℂ} (hD : Phase.IsGrid D) (hg : w.OnGrid D)
    (hplain : 0 < w.count u v .plain) (hat : τ' v = τ v * τ u)
    (hoff : ∀ x, x ≠ v → x ≠ u → τ' x = τ x) :
    Proportional (w.tensors τ).amplitude ((w.takeIn v u links).tensors τ').amplitude := by
  have hinner : u ∈ (w.tensors τ).inner := hw.mem_tensors_of_kind hu rfl
  have hremove : (w.remove u).Valid := hw.remove u
  have hold {x : Vertex} (hx : w.Has x) (hxu : x ≠ u) : (w.remove u).Has x := by
    rw [Has, kind_remove, update_of_ne hxu]
    exact hx
  have hz : (w.remove u).IsZ v := by rw [IsZ, kind_remove, update_of_ne hne]; exact hv
  have hgrid : ((w.remove u).addToPhase v (w.phase u)).OnGrid D :=
    (hg.remove u).addToPhase hD (hg u) v
  have hlegs {x : Vertex} (hx : x ≠ u) : (w.remove u).leg x = w.leg x := by
    rw [leg, leg, kindAt, kindAt, kind_remove, update_of_ne hx]
  have hmoved (b : Bits) : links.map (((w.remove u).addToPhase v (w.phase u)).moved v b) =
      links.map (w.moved v b) := List.map_congr_left fun l hl => by
    have hl' := hlegs (hlinks.has hw hl).2
    change (w.remove u).moved v b l = _
    simp only [moved, hl', hlegs hne]
  have htwist (b : Bits) : ((w.remove u).tensors τ').weight b =
      ((w.remove u).tensors τ).weight b * if b v then τ u else 1 :=
    tensors_twist (hremove.mem_tensors_of_kind hz rfl) hat fun x hx hxv =>
      hoff x hxv fun he => by
        rw [he, hw.tensors_inner_remove] at hx
        exact Finset.notMem_erase u _ hx
  have hweight (b : Bits) : ((w.takeIn v u links).tensors τ').weight b =
      ((w.remove u).tensors τ).weight b * (if b v then (w.phase u).unit * τ u else 1) *
        (links.map (w.moved v b)).prod := by
    rw [hlinks.tensors_takeIn hw hne, (hremove.addToPhase v _).tensors_moveLinks hD hgrid hz
      fun l hl => hold (hlinks.has hw hl).1 (hlinks.has hw hl).2, hmoved, Web.addToPhase,
      tensors_setPhase (c := (w.phase u).unit) (hremove.mem_tensors_of_kind hz rfl), htwist]
    · cases b v
      · simp
      · simp only [if_true]
        ring
    · rw [kindAt_eq hz]
      exact (((hg.remove u) v).add hD (hg u)).2
  refine ⟨1, one_ne_zero, Network.amplitude_eq_of_sum hinner ?_ fun b => ?_⟩
  · rw [hlinks.tensors_takeIn hw hne, ← hw.tensors_inner_remove]
    obtain ⟨hnext, hkind, -, -⟩ :=
      moveLinks_fields v ((w.remove u).addToPhase v (w.phase u)) links
    exact tensors_inner_congr hnext hkind
  · have hfactor : (w.kindAt u).factor (w.phase u) = (w.phase u).unit := by
      rw [kindAt_eq hu]
      rfl
    rw [hw.tensors_star hinner hlinks.endsAre, hw.tensors_star hinner hlinks.endsAre,
      prod_links links fun x k => k.joint (w.leg u false) (w.leg x (b x)),
      prod_links links fun x k => k.joint (w.leg u true) (w.leg x (b x)),
      hlinks.prod_joint hv hu b hplain, hlinks.prod_joint hv hu b hplain, hweight,
      hfactor]
    cases b v
    · simp
    · simp
      ring

end TakeIn

/-- The counts after links have been moved. -/
theorem Valid.count_moveLinks {links : List Link} (hw : w.Valid) (hp : Links.Proper links)
    (hv : w.Has v) (hl : ∀ l ∈ links, w.Has l.node) (a b : Vertex) (k : EdgeKind) :
    (links.foldl (Web.moveLink v) w).count a b k = w.count a b k +
      if a = v ∧ b ≠ v then Links.count links b k
      else if b = v ∧ a ≠ v then Links.count links a k else 0 := by
  induction links generalizing w with
  | nil => simp [Links.count]
  | cons l rest ih =>
    obtain ⟨-, hkind, -, -⟩ := moveLink_fields v w l
    have hhas (u : Vertex) : (Web.moveLink v w l).Has u ↔ w.Has u := by rw [Has, hkind, Has]
    have hmove : (Web.moveLink v w l).count a b k = w.count a b k +
        if l.node ≠ v ∧ SamePair a b v l.node ∧ l.kind = k then l.count else 0 := by
      rw [Web.moveLink]
      by_cases h : l.node ≠ v
      · rw [if_pos h, hw.count_addEdges_eq]
        simp only [h, ne_eq, not_false_eq_true, true_and]
      · rw [if_neg h, if_neg fun hc => h (And.left hc), Nat.add_zero]
        split <;> rfl
    rw [List.foldl_cons, ih (hw.moveLink hv (hl l List.mem_cons_self)) hp.tail ((hhas v).2 hv)
      fun l' hl' => (hhas _).2 (hl l' (List.mem_cons_of_mem l hl')), hmove, hp.count_cons,
      hp.count_cons]
    simp only [SamePair]
    grind

section Taken

variable {links : List Link}

theorem kind_takeIn : (w.takeIn v u links).kind = update w.kind u none := by
  obtain ⟨-, hkind, -, -⟩ := moveLinks_fields v (w.addToPhase v (w.phase u)) links
  rw [takeIn, kind_remove, kind_mergeCarriers, gather, hkind]
  rfl

theorem has_takeIn : (w.takeIn v u links).Has x ↔ w.Has x ∧ x ≠ u := by
  rw [Has, kind_takeIn]
  by_cases hx : x = u
  · simp [hx]
  · simp [hx, Has]

theorem isZ_takeIn : (w.takeIn v u links).IsZ x ↔ w.IsZ x ∧ x ≠ u := by
  rw [IsZ, kind_takeIn]
  by_cases hx : x = u
  · simp [hx]
  · simp [hx, IsZ]

theorem sameEnds_takeIn (hu : w.IsZ u) : SameEnds w (w.takeIn v u links) := fun x => by
  by_cases hx : x = u
  · subst hx
    exact .inr ⟨hu.not_isEnd, fun h => (has_takeIn.1 h.has).2 rfl⟩
  · exact .inl (by rw [kind_takeIn, update_of_ne hx])

theorem LinksAre.count_takeIn (hlinks : w.LinksAre u links) (hw : w.Valid) (hv : w.IsZ v)
    (a b : Vertex) (k : EdgeKind) : (w.takeIn v u links).count a b k =
    if a = u ∨ b = u then 0 else w.count a b k +
      if a = v ∧ b ≠ v then w.count u b k else if b = v ∧ a ≠ v then w.count u a k else 0 := by
  obtain ⟨c, hc⟩ := exists_mergeCarriers (w.gather v u links) v u
  have hmoved := (hw.addToPhase v (w.phase u)).count_moveLinks hlinks.proper hv.has
    (fun l hl => (hlinks.has hw hl).1) a b k
  rw [hlinks.count_eq, hlinks.count_eq] at hmoved
  rw [takeIn, hc]
  change (if a = u ∨ b = u then 0 else (w.gather v u links).count a b k) = _
  rw [gather, hmoved]
  rfl

variable (hv : w.IsZ v) (hu : w.IsZ u) (hne : v ≠ u) (hlinks : w.LinksAre u links)
include hv hu hne hlinks

theorem LinksAre.hung_takeIn (hw : w.Hung) : (w.takeIn v u links).Hung := by
  obtain ⟨c, hc⟩ := exists_mergeCarriers (w.gather v u links) v u
  have hgather : (w.gather v u links).Valid :=
    (hw.valid.addToPhase v (w.phase u)).moveLinks hv.has fun l hl => (hlinks.has hw.valid hl).1
  have hvalid : (w.takeIn v u links).Valid := by
    have hcarrier : { w.gather v u links with carrier := c }.Valid :=
      ⟨hgather.lt, hgather.symm, hgather.self, hgather.has⟩
    rw [takeIn, hc]
    exact hcarrier.remove u
  refine hw.of_ends hvalid (sameEnds_takeIn hu) fun t y k ht hty => ?_
  have htu : t ≠ u := fun h => hu.not_isEnd (h ▸ ht)
  have htv : t ≠ v := fun h => hv.not_isEnd (h ▸ ht)
  have hfrom := endsAre_single.1 hty
  have hto (k' : EdgeKind) : w.count u t k' = if u = y ∧ k' = k then 1 else 0 := by
    rw [hw.valid.symm, hfrom]
  -- an edge to the spider leads to the other one now
  refine ⟨if y = u then v else y, k, endsAre_single.2 fun x k' => ?_⟩
  rw [hlinks.count_takeIn hw.valid hv, hfrom, hto]
  grind

variable (hw : w.Framed)
include hw

theorem LinksAre.framed_takeIn : (w.takeIn v u links).Framed := by
  obtain ⟨-, -, hin, hout⟩ := moveLinks_fields v (w.addToPhase v (w.phase u)) links
  obtain ⟨c, hc⟩ := exists_mergeCarriers (w.gather v u links) v u
  refine hw.of_hung (hlinks.hung_takeIn hv hu hne hw.toHung) ?_ ?_ (sameEnds_takeIn hu)
  · rw [takeIn, hc]
    exact hin
  · rw [takeIn, hc]
    exact hout

theorem LinksAre.converts_takeIn (hD : Phase.IsGrid D) (hg : w.OnGrid D)
    (hplain : 0 < w.count u v .plain) : Converts w (w.takeIn v u links) := by
  obtain ⟨-, -, hin, hout⟩ := moveLinks_fields v (w.addToPhase v (w.phase u)) links
  obtain ⟨c, hc⟩ := exists_mergeCarriers (w.gather v u links) v u
  refine ⟨?_, ?_, fun x hx => (has_takeIn.1 hx).1, fun τ hτ =>
    hlinks.amplitude_takeIn hw.valid hv hu hne hD hg hplain ?_ fun _ _ _ => rfl⟩
  · rw [takeIn, hc]
    exact hin
  · rw [takeIn, hc]
    exact hout
  · rw [hτ u fun h => (has_takeIn.1 h).2 rfl, mul_one]

end Taken

theorem OnGrid.takeIn {links : List Link} (hD : Phase.IsGrid D) (hg : w.OnGrid D) :
    (w.takeIn v u links).OnGrid D := by
  obtain ⟨c, hc⟩ := exists_mergeCarriers (w.gather v u links) v u
  rw [Web.takeIn, hc]
  exact OnGrid.remove (OnGrid.moveLinks hD links (hg.addToPhase hD (hg u) v)) u

/-- A Z spider without a plain edge to another one. -/
def Unfusible (w : Web) (s : Vertex) : Prop := ∀ x, w.IsZ x → w.count s x .plain = 0

/-- Fusing two others leaves a spider without plain edges to Z spiders. -/
theorem LinksAre.unfusible_takeIn {links : List Link} (hw : w.Valid) (hv : w.IsZ v) (hu : w.IsZ u)
    (hlinks : w.LinksAre u links) (hplain : 0 < w.count u v .plain) (hs : w.Unfusible s) :
    (w.takeIn v u links).Unfusible s := fun x hx => by
  obtain ⟨hx, hxu⟩ := isZ_takeIn.1 hx
  have hsv : s ≠ v := by
    rintro rfl
    rw [hw.symm, hs u hu] at hplain
    exact absurd hplain (Nat.lt_irrefl _)
  rw [hlinks.count_takeIn hw hv, hs x hx, hw.symm u s, hs u hu]
  simp [hsv]

/-! ### Parallel edges -/

/-- All parallel Hadamard edges have been cancelled in pairs. -/
def reduced (w : Web) : Web :=
  { w with count := fun s t k =>
      if k = .hadamard then w.count s t .hadamard % 2 else w.count s t .plain }

/-- The spiders are Z spiders and ends. -/
def Uniform (w : Web) : Prop := ∀ v, w.Has v → w.IsZ v ∨ w.IsEnd v

/-- Two Hadamard edges between the same Z spiders are nothing. -/
theorem network_reduced : w.reduced.network τ = w.network τ := by
  have hpow (x y : Bool) (n : ℕ) :
      EdgeKind.hadamard.value x y ^ (n % 2) = EdgeKind.hadamard.value x y ^ n := by
    conv_rhs => rw [← Nat.mod_add_div n 2, pow_add, pow_mul, pow_two,
      EdgeKind.value_hadamard_mul_self, one_pow, mul_one]
  simp only [network, reduced, reduceCtorEq, if_false, if_true, hpow]
  rfl

theorem Uniform.converts_reduced (hw : w.Uniform) : Converts w w.reduced :=
  ⟨rfl, rfl, fun _ h => h, fun τ _ => by
    rw [tensors_eq_network hw, tensors_eq_network (w := w.reduced) hw, network_reduced]⟩

/-- A diagram of Z spiders without plain edges between them is in graph-like form when its parallel
    edges are cancelled. -/
theorem Hung.formed_reduced (hw : w.Hung) (hu : w.Uniform)
    (hclear : ∀ s, w.IsZ s → w.Unfusible s) : w.reduced.Formed := by
  have hval : w.reduced.Valid :=
    { lt := hw.valid.lt
      symm := fun s t k => by simp only [reduced, hw.valid.symm s t]
      self := fun v k => by simp [reduced, hw.valid.self]
      has := fun s t k h => by
        simp only [reduced] at h
        split at h
        · exact hw.valid.has s t .hadamard (Nat.pos_of_ne_zero fun h0 => by simp [h0] at h)
        · exact hw.valid.has s t .plain h }
  have hend {t : Vertex} (ht : w.IsEnd t) : ∃ u, w.Has u ∧
      ∀ x, w.reduced.joins t x = if x = u then 1 else 0 := by
    obtain ⟨u, k, hu⟩ := hw.hangs t ht
    refine ⟨u, (hw.valid.has_of_endsAre hu List.mem_cons_self).1, fun x => ?_⟩
    simp only [joins, reduced, endsAre_single.1 hu]
    cases k <;> by_cases hx : x = u <;> simp [hx]
  have hsingle (t : Vertex) (ht : w.IsEnd t) (x : Vertex) : w.reduced.joins t x ≤ 1 := by
    obtain ⟨u, -, hjoins⟩ := hend ht
    rw [hjoins]
    split <;> omega
  refine ⟨⟨hval, hu, fun s t hs ht => hclear s hs t ht, fun s t => ?_⟩, fun t ht => ?_⟩
  · by_cases hs : w.Has s
    · by_cases ht : w.Has t
      · rcases hu s hs with hs | hs
        · rcases hu t ht with ht | ht
          · have := hclear s hs t ht
            simp only [joins, reduced, reduceCtorEq, if_false, if_true]
            omega
          · rw [hval.joins_comm]
            exact hsingle t ht s
        · exact hsingle s hs t
      · rw [hval.joins_comm, hval.joins_eq_zero ht]
        exact Nat.zero_le 1
    · rw [hval.joins_eq_zero hs]
      exact Nat.zero_le 1
  · obtain ⟨u, hu, hjoins⟩ := hend ht
    rw [degree, Finset.sum_congr rfl fun x _ => hjoins x, Finset.sum_ite_eq',
      if_pos (show u ∈ Finset.range w.reduced.next from Finset.mem_range.2 (hw.valid.lt u hu))]

theorem Framed.inForm_reduced (hw : w.Framed) (hu : w.Uniform)
    (hclear : ∀ s, w.IsZ s → w.Unfusible s) : w.reduced.InForm :=
  ⟨(hw.formed_reduced hu hclear).simple, (hw.formed_reduced hu hclear).degree_end,
    hw.inputs_nodup, hw.outputs_nodup, hw.mem_inputs, hw.mem_outputs⟩

end Web

end ZXRewriting
