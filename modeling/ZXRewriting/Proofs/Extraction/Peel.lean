import ZXRewriting.Proofs.GraphLike.Clear
import ZXRewriting.Proofs.GraphLike.Ends

/-!
# Taking gates off the outputs

What extraction does to a graph-like diagram is a sequence of steps (`Web.Peel`), each of which
rewrites the diagram and takes off the gates that it takes: a Hadamard gate off a Hadamard edge to
an output, a rotation off a phase there, a CZ gate off an edge between two spiders at the outputs,
a CNOT gate off adding the edges of one of these to another, and no gate at all off a spider that
acts as a wire. Besides, two spiders may be pivoted (`Web.Peels`).

Each step keeps the graph-like form, and what the diagram denotes before it is what the gates make
of what it denotes after it, up to a scalar (`Web.Peel.sound`, `Web.Peels.sound`).
-/

namespace ZXRewriting

open Function (update update_self update_of_ne)
open Multigraph (SamePair)

namespace Web

variable {w w' : Web} {s t u v n i : Vertex} {k : EdgeKind} {q r : ℕ} {D : ℕ} {τ : Vertex → ℂ}
  {b : Bits}

/-! ### Spiders that act as wires -/

theorem Simple.degree_eq_one (hw : w.Simple) (h : ∀ x, x ∈ w.nearby t ↔ x = u) :
    w.degree t = 1 := by
  rw [hw.degree_eq]
  have hperm : (w.nearby t).Perm [u] := by
    rw [List.perm_ext_iff_of_nodup nodup_nearby (List.nodup_singleton u)]
    exact fun x => (h x).trans List.mem_singleton.symm
  exact hperm.length_eq

/-- A spider between an output that is wired to it and another vertex. -/
structure Relay (w : Web) (v t n : Vertex) (k : EdgeKind) : Prop where
  isZ : w.IsZ v
  isEnd : w.IsEnd t
  wired : w.link v t = some .plain
  link : w.link v n = some k
  ne : n ≠ t
  only : ∀ x ∈ w.nearby v, x = t ∨ x = n

section

variable (hw : w.InForm) (h : w.Relay v t n k)
include hw h

theorem Relay.count_remove (k' : EdgeKind) : (w.remove v).count t n k' = 0 := by
  have hnv := hw.simple.valid.ne_end h.link
  simp only [Web.remove]
  split
  · rfl
  · exact hw.count_end h.isEnd h.wired n hnv.symm k'

theorem Relay.has_remove : (w.remove v).Has t ∧ (w.remove v).Has n := by
  have hval := hw.simple.valid
  rw [Has, kind_remove, update_of_ne (hval.ne_end h.wired).symm, Has, kind_remove,
    update_of_ne (hval.ne_end h.link).symm]
  exact ⟨h.isEnd.has, (hval.has_of_link h.link).2⟩

theorem Relay.joins_bypass (a b : Vertex) : (w.bypass v t n k).joins a b =
    if SamePair a b t n then 1 else if a = v ∨ b = v then 0 else w.joins a b := by
  have hzero := h.count_remove hw
  rw [joins, bypass, count_addEdges, count_addEdges, hzero, hzero]
  split
  · cases k <;> rfl
  · simp only [Web.remove, joins]
    split <;> rfl

theorem Relay.inForm : (w.bypass v t n k).InForm := by
  have hval := hw.simple.valid
  obtain ⟨ht, hn⟩ := h.has_remove hw
  have htv := (hval.ne_end h.wired).symm
  have hnv := (hval.ne_end h.link).symm
  have hzero := h.count_remove hw
  have hend {x : Vertex} : (w.bypass v t n k).IsEnd x ↔ w.IsEnd x := by
    change (w.remove v).IsEnd x ↔ w.IsEnd x
    rw [IsEnd, kind_remove, Function.update_apply, IsEnd]
    split
    · next he => simp [he, show w.kind v = some .z from h.isZ, SpiderKind.isBoundary]
    · rfl
  have hsimple : (w.bypass v t n k).Simple := by
    refine (hw.simple.remove v).setCount ht hn h.ne.symm (fun hz => ?_) ?_
    · exact absurd (hend.2 h.isEnd) (hz.not_isEnd)
    · rw [hzero, hzero]
      cases k <;> simp
  have hkind {k' : SpiderKind} (hk : k'.isBoundary) (x : Vertex) :
      w.kind x = some k' ↔ (w.bypass v t n k).kind x = some k' := by
    change w.kind x = some k' ↔ (w.remove v).kind x = some k'
    rw [kind_remove, Function.update_apply]
    split
    · next he =>
      rw [he, show w.kind v = some .z from h.isZ]
      refine ⟨fun h => ?_, fun h => by simp at h⟩
      rw [← Option.some.inj h] at hk
      simp [SpiderKind.isBoundary] at hk
    · rfl
  refine ⟨hsimple, fun x hx => ?_, hw.inputs_nodup, hw.outputs_nodup,
    fun x => (hw.mem_inputs x).trans (hkind rfl x),
    fun x => (hw.mem_outputs x).trans (hkind rfl x)⟩
  have hx' := hend.1 hx
  have hxv : x ≠ v := fun he => h.isZ.not_isEnd (he ▸ hx')
  -- the only neighbour of an end of the edge is on the other side now
  have hother {y z : Vertex} (hy : w.IsEnd y) (hyv : y ∈ w.nearby v)
      (hp : ∀ c, SamePair y c t n ↔ c = z) : (w.bypass v t n k).degree y = 1 := by
    refine hsimple.degree_eq_one (u := z) fun c => ?_
    rw [hsimple.valid.mem_nearby, h.joins_bypass hw]
    by_cases hc : c = z
    · rw [if_pos ((hp c).2 hc)]
      simp [hc]
    · rw [if_neg (fun hs => hc ((hp c).1 hs))]
      have hnear := hw.nearby_end hy (hval.mem_nearby_comm.1 hyv)
      split
      · simp [hc]
      · next hcv =>
        refine iff_of_false (fun hpos => hcv (.inr ?_)) hc
        have : c ∈ w.nearby y := hval.mem_nearby.2 hpos
        rwa [hnear, List.mem_singleton] at this
  by_cases hxt : x = t
  · subst hxt
    refine hother (z := n) hx' (hval.mem_nearby_of_link h.wired) fun c => ?_
    rw [SamePair]
    refine ⟨fun hs => hs.elim And.right fun hs => absurd hs.1.symm h.ne, fun hs => .inl ⟨rfl, hs⟩⟩
  by_cases hxn : x = n
  · subst hxn
    refine hother (z := t) hx' (hval.mem_nearby_of_link h.link) fun c => ?_
    rw [SamePair]
    exact ⟨fun hs => hs.elim (fun hs => absurd hs.1 hxt) And.right, fun hs => .inr ⟨rfl, hs⟩⟩
  rw [← hw.degree_end x hx', degree, degree]
  refine Finset.sum_congr rfl fun c _ => ?_
  have hpair : ¬SamePair x c t n := by
    rw [SamePair]
    tauto
  rw [h.joins_bypass hw, if_neg hpair]
  split
  · next hc =>
    rw [hc.resolve_left hxv]
    refine (Nat.eq_zero_of_not_pos fun hpos => ?_).symm
    have := h.only x (hval.mem_nearby_comm.1 (hval.mem_nearby.2 hpos))
    exact this.elim hxt hxn
  · rfl

/-- A spider without a phase between two vertices acts as the edge between them. -/
theorem Relay.amplitude (hp : (w.phase v).isZero) (hτ : τ v = 1) (b : Bits) :
    (w.network τ).amplitude b = ((w.bypass v t n k).network τ).amplitude b := by
  have hval := hw.simple.valid
  obtain ⟨ht, hn⟩ := h.has_remove hw
  have hperm : (w.nearby v).Perm [t, n] := by
    rw [List.perm_ext_iff_of_nodup nodup_nearby (by simpa using h.ne.symm)]
    refine fun x => ⟨fun hx => by simpa using h.only x hx, fun hx => ?_⟩
    rcases List.mem_cons.1 hx with rfl | hx
    · exact hval.mem_nearby_of_link h.wired
    · rw [List.mem_singleton.1 hx]
      exact hval.mem_nearby_of_link h.link
  have hincident : (w.incident v).Perm [(t, .plain), (n, k)] := by
    have := hperm.filterMap fun u => (w.link v u).map fun k => (u, k)
    simpa [incident, h.wired, h.link] using this
  have hinner : ((w.bypass v t n k).network τ).inner = (w.network τ).inner.erase v := by
    rw [← hval.inner_remove]
    exact inner_congr rfl rfl
  have hweight (b : Bits) (x : Bool) : (w.network τ).weight (update b v x) =
      ((w.remove v).network τ).weight b * (EdgeKind.plain.value x (b t) * k.value x (b n)) := by
    rw [hw.simple.weight_star h.isZ, hval.weight_remove_update, (hincident.map _).prod_eq,
      Phase.unit_of_isZero hp, hτ, update_self, List.map_cons, List.map_cons, List.map_nil,
      update_of_ne (hval.ne_end h.wired).symm, update_of_ne (hval.ne_end h.link).symm]
    simp
  refine (Network.amplitude_eq_of_sum (c := 1) (hval.mem_inner.2 h.isZ) hinner (fun b => ?_)
    b).trans (one_mul _)
  rw [hweight, hweight, bypass, (hval.remove v).weight_addEdges ht hn h.ne.symm, pow_one]
  cases b t <;> simp [EdgeKind.value]

end

/-! ### Steps -/

/-- A step of an extraction, and the gates that it takes off. -/
inductive Peel : Web → Web → List Gate → Prop
  /-- A Hadamard edge to an output is made a wire. -/
  | hadamard {w : Web} {q : ℕ} {t v : Vertex} (hq : w.outputs[q]? = some t)
      (hk : w.link v t = some .hadamard) : Peel w (w.setKind v t .plain) [.plain .hadamard [q]]
  /-- The phase of a spider at an output is taken. -/
  | phase {w : Web} {q : ℕ} {t v : Vertex} (hq : w.outputs[q]? = some t) (hv : w.IsZ v)
      (hk : w.link v t = some .plain) :
      Peel w (w.setPhase v .zero) [⟨.zPhase, [q], w.phase v⟩]
  /-- The edge between two spiders at outputs is taken. -/
  | cz {w : Web} {q r : ℕ} {s t u v : Vertex} (hq : w.outputs[q]? = some s)
      (hr : w.outputs[r]? = some t) (hu : w.IsZ u) (hv : w.IsZ v)
      (hus : w.link u s = some .plain) (hvt : w.link v t = some .plain)
      (hk : w.link u v = some .hadamard) : Peel w (w.cut u v) [.plain .cz [q, r]]
  /-- A new spider is put between a spider and an input. -/
  | pad {w : Web} {v i : Vertex} {k : EdgeKind} (hv : w.IsZ v) (hi : i ∈ w.inputs)
      (hk : w.link v i = some k) : Peel w (w.split v i k) []
  /-- The edges of a spider at an output are added to those of another one. -/
  | add {w : Web} {q r : ℕ} {s t u v : Vertex} (hq : w.outputs[q]? = some s)
      (hr : w.outputs[r]? = some t) (hu : w.IsZ u) (hv : w.IsZ v)
      (hus : w.link u s = some .plain) (hvt : w.link v t = some .plain) (huv : u ≠ v)
      (hp : (w.phase u).isZero) (hns : ∀ n ∈ w.nearby u, n ≠ s → w.IsZ n) :
      Peel w (w.toggleAll v ((w.nearby u).filter (· ≠ s))) [.plain .cnot [r, q]]
  /-- A spider between an output and another vertex is taken out. -/
  | relay {w : Web} {q : ℕ} {t v n : Vertex} {k : EdgeKind} (hq : w.outputs[q]? = some t)
      (h : w.Relay v t n k) (hp : (w.phase v).isZero) : Peel w (w.bypass v t n k) []

/-- What a step of an extraction keeps. -/
structure Sound (D : ℕ) (w w' : Web) (gates : List Gate) : Prop extends Keeps w w' where
  grid : w'.OnGrid D
  valid : ∀ g ∈ gates, g.Valid w.outputs.length
  phases : ∀ g ∈ gates, g.phase.OnGrid D
  amplitude : Proportional w.amplitude (actAll w.output gates w'.amplitude)

theorem lt_of_getElem?_outputs (h : w.outputs[q]? = some t) : q < w.outputs.length :=
  (List.getElem?_eq_some_iff.1 h).1

theorem valid_one {kind : GateKind} {p : Phase} (hq : w.outputs[q]? = some t)
    (harity : kind.arity = 1) : ∀ g ∈ [Gate.mk kind [q] p], g.Valid w.outputs.length := by
  intro g hg
  rw [List.mem_singleton.1 hg]
  exact ⟨harity.symm, List.nodup_singleton q, fun r hr =>
    List.mem_singleton.1 hr ▸ lt_of_getElem?_outputs hq⟩

theorem InForm.valid_two (hw : w.InForm) {kind : GateKind} (hq : w.outputs[q]? = some s)
    (hr : w.outputs[r]? = some t) (hus : w.link u s = some .plain)
    (hvt : w.link v t = some .plain) (huv : u ≠ v) (harity : kind.arity = 2) :
    ∀ g ∈ [Gate.plain kind [q, r]], g.Valid w.outputs.length := by
  intro g hg
  rw [List.mem_singleton.1 hg]
  refine ⟨harity.symm, ?_, fun p hp => ?_⟩
  · have : q ≠ r := by
      rintro rfl
      obtain rfl := Option.some.inj (hq.symm.trans hr)
      exact huv (hw.eq_of_link (hw.isEnd_output hq) hus hvt)
    simpa [Gate.plain] using this
  · rcases List.mem_cons.1 hp with rfl | hp
    · exact lt_of_getElem?_outputs hq
    · rw [List.mem_singleton.1 hp]
      exact lt_of_getElem?_outputs hr

theorem onGrid_plain {kind : GateKind} {qubits : List ℕ} :
    ∀ g ∈ [Gate.plain kind qubits], g.phase.OnGrid D := fun g hg => by
  rw [List.mem_singleton.1 hg]
  exact Phase.onGrid_zero

theorem OnGrid.bypass (hg : w.OnGrid D) : (w.bypass v t n k).OnGrid D := hg.remove v

/-- A step of an extraction keeps the graph-like form. -/
theorem Peel.keeps {gates : List Gate} (h : Peel w w' gates) (hw : w.InForm) : Keeps w w' := by
  cases h with
  | hadamard hq hk => exact ⟨hw.setKind (hw.isEnd_output hq) hk .plain, rfl, rfl⟩
  | phase => exact ⟨hw.setPhase _ .zero, rfl, rfl⟩
  | cz _ _ hu hv _ _ hk =>
    exact ⟨hw.setCount hu hv (hw.simple.valid.ne_end hk) rfl (Nat.zero_le 1), rfl, rfl⟩
  | pad hv hi hk => exact ⟨hw.split hv (hw.isEnd_input hi) hk, rfl, rfl⟩
  | @add q r s t u v _ _ _ hv _ _ _ _ hns =>
    have hN : ∀ n ∈ (w.nearby u).filter (· ≠ s), w.IsZ n := fun n hn =>
      hns n (List.mem_of_mem_filter hn) (by simpa using List.of_mem_filter hn)
    have hwithin := Within.toggleAll hv hN
    exact ⟨hwithin.inForm hw (hw.simple.toggleAll hv hN), hwithin.inputs, hwithin.outputs⟩
  | relay _ h _ => exact ⟨h.inForm hw, rfl, rfl⟩

/-- The gates that a step of an extraction takes off, after what is left, denote what was there, up
    to a scalar. -/
theorem Peel.sound {gates : List Gate} (h : Peel w w' gates) (hD : Phase.IsGrid D) (hw : w.InForm)
    (hg : w.OnGrid D) : Sound D w w' gates := by
  have hkeeps := h.keeps hw
  cases h with
  | hadamard hq hk =>
    refine ⟨hkeeps, hg, valid_one hq rfl, onGrid_plain, .of_eq fun b => ?_⟩
    rw [amplitude, hw.amplitude_setKind (hw.isEnd_output hq) hk, ← output_eq hq]
    rfl
  | phase hq hv hk =>
    refine ⟨hkeeps, hg.setPhase Phase.onGrid_zero _, valid_one hq rfl,
      fun g hg' => List.mem_singleton.1 hg' ▸ hg _, .of_eq fun b => ?_⟩
    rw [amplitude, hw.amplitude_setPhase (hw.isEnd_output hq) hv hk, ← output_eq hq]
    rfl
  | cz hq hr hu hv hus hvt hk =>
    refine ⟨hkeeps, hg, hw.valid_two hq hr hus hvt (hw.simple.valid.ne_end hk) rfl, onGrid_plain,
      .of_eq fun b => ?_⟩
    rw [amplitude, hw.amplitude_cut (hw.isEnd_output hq) (hw.isEnd_output hr) hu hv hus hvt hk,
      ← output_eq hq, ← output_eq hr]
    rfl
  | pad hv hi hk =>
    have hi' := hw.isEnd_input hi
    refine ⟨hkeeps, hg.split, fun _ h => absurd h List.not_mem_nil,
      fun _ h => absurd h List.not_mem_nil, ?_⟩
    rw [actAll_nil]
    exact hw.simple.amplitude_split hv.has hi'.has (hw.simple.valid.ne_end hk) hk rfl
  | add hq hr hu hv hus hvt huv hp hns =>
    refine ⟨hkeeps, hg.toggleAll hD _ _, hw.valid_two hr hq hvt hus huv.symm rfl, onGrid_plain,
      .of_eq fun b => ?_⟩
    rw [amplitude, hw.amplitude_toggleAll (fun _ => ⟨hD, hg⟩) (hw.isEnd_output hq)
      (hw.isEnd_output hr) hu hv hus hvt huv hp hns rfl, ← output_eq hq, ← output_eq hr]
    rfl
  | relay hq h hp =>
    refine ⟨hkeeps, hg.bypass, fun _ h => absurd h List.not_mem_nil,
      fun _ h => absurd h List.not_mem_nil, ?_⟩
    rw [actAll_nil]
    exact .of_eq (h.amplitude hw hp rfl)

/-- Steps of an extraction one after the other, with the gates in the order of time. Spiders are
    pivoted only where there are gadgets. -/
inductive Peels (gadgets : Prop) (w : Web) : Web → List Gate → Prop
  | refl : Peels gadgets w w []
  | tail {w₁ w₂ : Web} {gates new : List Gate} (h : Peels gadgets w w₁ gates)
      (h' : Peel w₁ w₂ new) : Peels gadgets w w₂ (new ++ gates)
  | pivot {w₁ : Web} {gates : List Gate} {u v : Vertex} (h : Peels gadgets w w₁ gates)
      (hg : gadgets) (hv : w₁.IsZ v) (hu : w₁.IsZ u) (hj : u ∈ w₁.nearby v) :
      Peels gadgets w (((w₁.clear v).clear u).pivot v u) gates

theorem Sound.refl (hw : w.InForm) (hg : w.OnGrid D) : Sound D w w [] :=
  ⟨.refl hw, hg, fun _ h => absurd h List.not_mem_nil, fun _ h => absurd h List.not_mem_nil,
    .refl _⟩

theorem Sound.trans {w'' : Web} {gates new : List Gate} (h : Sound D w w' gates)
    (h' : Sound D w' w'' new) : Sound D w w'' (new ++ gates) := by
  have ho : w'.output = w.output := funext fun q => by rw [output, h.outputs, output]
  refine ⟨h.toKeeps.trans h'.toKeeps, h'.grid, fun g hg => ?_,
    fun g hg => (List.mem_append.1 hg).elim (h'.phases g) (h.phases g), ?_⟩
  · rcases List.mem_append.1 hg with hg | hg
    · exact h.outputs ▸ h'.valid g hg
    · exact h.valid g hg
  · rw [actAll_append]
    exact h.amplitude.trans ((ho ▸ h'.amplitude).actAll _ _)

theorem Rewrites.sound (h : Rewrites D w w') : Sound D w w' [] := by
  refine ⟨h.toKeeps, h.grid, fun _ h => absurd h List.not_mem_nil,
    fun _ h => absurd h List.not_mem_nil, ?_⟩
  rw [actAll_nil]
  exact h.amplitude

/-- A whole extraction keeps the graph-like form. -/
theorem Peels.keeps {gadgets : Prop} {gates : List Gate} (h : Peels gadgets w w' gates)
    (hw : w.InForm) : Keeps w w' := by
  induction h with
  | refl => exact .refl hw
  | tail _ h' ih => exact ih.trans (h'.keeps ih.form)
  | pivot _ _ hv hu hj ih => exact ih.trans (ih.form.keeps_frontierPivot hv hu hj).1

/-- What a whole extraction comes to. -/
theorem Peels.sound {gadgets : Prop} {gates : List Gate} (h : Peels gadgets w w' gates)
    (hD : Phase.IsGrid D) (hw : w.InForm) (hg : w.OnGrid D) : Sound D w w' gates := by
  induction h with
  | refl => exact Sound.refl hw hg
  | tail _ h' ih => exact ih.trans (h'.sound hD ih.form ih.grid)
  | pivot _ _ hv hu hj ih =>
    exact ih.trans (ih.form.rewrites_frontierPivot hD ih.grid hv hu hj).sound

end Web

end ZXRewriting
