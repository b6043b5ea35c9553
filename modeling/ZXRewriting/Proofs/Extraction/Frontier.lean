import ZXRewriting.Extraction.Basic
import ZXRewriting.Proofs.Extraction.Peel
import ZXRewriting.Proofs.Outcome

/-!
# Preparing the frontier

Preparing the frontier takes steps of an extraction only (`State.Reached`), and comes to a frontier
that is `Prepared`: its spiders are wired to their outputs, have no phases and no edges to each
other, and the only ones with an edge to an input have no other edges. Where it stops, the steps
that were taken stay taken.

Every edit on the way leaves what was prepared before as it is (`Web.Tidier`).
-/

namespace ZXRewriting

open Function (update update_self update_of_ne)
open Multigraph (SamePair)

namespace Web

variable {w w' w'' : Web} {s t u v i : Vertex} {k : EdgeKind} {q : ℕ}

/-! ### What edits leave as it is -/

/-- A step of preparing the frontier. A spider is put in front of an input only if the spider there
    is wired to an output and has a third edge. -/
inductive Tidying : Web → Web → Prop
  | hadamard {w : Web} {v t : Vertex} (ht : t ∈ w.outputs) (hk : w.link v t = some .hadamard) :
      Tidying w (w.setKind v t .plain)
  | phase {w : Web} {v t : Vertex} (ht : t ∈ w.outputs) (hv : w.IsZ v)
      (hk : w.link v t = some .plain) : Tidying w (w.setPhase v .zero)
  | cz {w : Web} {u v s t : Vertex} (hs : s ∈ w.outputs) (ht : t ∈ w.outputs) (hu : w.IsZ u)
      (hv : w.IsZ v) (hus : w.link u s = some .plain) (hvt : w.link v t = some .plain)
      (hk : w.link u v = some .hadamard) : Tidying w (w.cut u v)
  | pad {w : Web} {v t i : Vertex} {k : EdgeKind} (ht : t ∈ w.outputs) (hv : w.IsZ v)
      (hvt : w.link v t = some .plain) (hi : i ∈ w.inputs) (hk : w.link v i = some k)
      (hd : 2 < w.degree v) : Tidying w (w.split v i k)

/-- What preparing the frontier leaves as it is: no phases and no edges come up but those of new
    spiders, and wires to the outputs stay. -/
structure Tidier (w w' : Web) : Prop where
  steps : Relation.ReflTransGen Tidying w w'
  inputs : w'.inputs = w.inputs
  outputs : w'.outputs = w.outputs
  kind : ∀ u, w.Has u → w'.kind u = w.kind u
  phase : ∀ u, w.Has u → w'.phase u = w.phase u ∨ w'.phase u = .zero
  wired : ∀ u t, w.IsEnd t → t ∉ w.inputs → w.link u t = some .plain → w'.link u t = some .plain
  nearby : ∀ u, w.IsZ u → ∀ t ∈ w'.nearby u, t ∈ w.nearby u ∨ ¬w.Has t ∧ w'.IsZ t
  degree : ∀ u, w.IsZ u → w'.degree u ≤ w.degree u

namespace Tidier

theorem refl (w : Web) : Tidier w w :=
  ⟨.refl, rfl, rfl, fun _ _ => rfl, fun _ _ => .inl rfl, fun _ _ _ _ h => h, fun _ _ _ h => .inl h,
    fun _ _ => le_rfl⟩

theorem has (h : Tidier w w') (hu : w.Has u) : w'.Has u := by
  rw [Has, h.kind u hu]
  exact hu

theorem isZ (h : Tidier w w') (hu : w.IsZ u) : w'.IsZ u := (h.kind u hu.has).trans hu

theorem isEnd (h : Tidier w w') (hu : w.IsEnd u) : w'.IsEnd u := by
  rw [IsEnd, h.kind u hu.has]
  exact hu

theorem isEnd_of (h : Tidier w w') (hu : w.Has u) (he : w'.IsEnd u) : w.IsEnd u := by
  rwa [IsEnd, h.kind u hu] at he

theorem trans (h : Tidier w w') (h' : Tidier w' w'') : Tidier w w'' where
  steps := h.steps.trans h'.steps
  inputs := h'.inputs.trans h.inputs
  outputs := h'.outputs.trans h.outputs
  kind u hu := (h'.kind u (h.has hu)).trans (h.kind u hu)
  phase u hu := by
    rcases h'.phase u (h.has hu) with h₁ | h₁
    · rw [h₁]
      exact h.phase u hu
    · exact .inr h₁
  wired u t ht hn hk := h'.wired u t (h.isEnd ht) (h.inputs ▸ hn) (h.wired u t ht hn hk)
  nearby u hu t ht := by
    rcases h'.nearby u (h.isZ hu) t ht with h₁ | ⟨h₁, h₂⟩
    · rcases h.nearby u hu t h₁ with h₃ | ⟨h₃, h₄⟩
      · exact .inl h₃
      · exact .inr ⟨h₃, h'.isZ h₄⟩
    · exact .inr ⟨fun h₃ => h₁ (h.has h₃), h₂⟩
  degree u hu := (h'.degree u (h.isZ hu)).trans (h.degree u hu)

theorem setKind (hw : w.InForm) (ht : t ∈ w.outputs) (hk : w.link v t = some .hadamard) :
    Tidier w (w.setKind v t .plain) := by
  have hval := hw.simple.valid
  have hpos : 0 < w.joins v t := hval.mem_nearby.1 (hval.mem_nearby_of_link hk)
  have hjoins (a b : Vertex) : (w.setKind v t .plain).joins a b = w.joins a b :=
    hval.joins_setKind a b
  refine ⟨.single (.hadamard ht hk), rfl, rfl, fun _ _ => rfl, fun _ _ => .inl rfl,
    fun a b _ _ h => ?_, fun a _ b hb => .inl ?_, fun a _ => ?_⟩
  · by_cases hs : SamePair a b v t
    · have : (w.setKind v t .plain).count a b .plain = w.joins v t := by
        simp [Web.setKind, setCount, hs]
      rw [link, this, if_pos hpos]
    · have (k : EdgeKind) : (w.setKind v t .plain).count a b k = w.count a b k := by
        simp [Web.setKind, setCount, hs]
      rwa [link, this, this]
  · rw [Web.nearby, List.mem_filter] at hb ⊢
    rwa [hjoins] at hb
  · exact le_of_eq (Finset.sum_congr rfl fun b _ => hjoins a b)

theorem setPhase (ht : t ∈ w.outputs) (hv : w.IsZ v) (hk : w.link v t = some .plain) :
    Tidier w (w.setPhase v .zero) := by
  refine ⟨.single (.phase ht hv hk), rfl, rfl, fun _ _ => rfl, fun u _ => ?_, fun _ _ _ _ h => h,
    fun _ _ _ h => .inl h, fun _ _ => le_rfl⟩
  rw [phase_setPhase, Function.update_apply]
  split
  · exact .inr rfl
  · exact .inl rfl

theorem cut (hs : s ∈ w.outputs) (ht : t ∈ w.outputs) (hu : w.IsZ u) (hv : w.IsZ v)
    (hus : w.link u s = some .plain) (hvt : w.link v t = some .plain)
    (hk : w.link u v = some .hadamard) : Tidier w (w.cut u v) := by
  have hle (a b : Vertex) : (w.cut u v).joins a b ≤ w.joins a b := by
    rw [joins, count_cut, count_cut, joins]
    split <;> omega
  refine ⟨.single (.cz hs ht hu hv hus hvt hk), rfl, rfl, fun _ _ => rfl, fun _ _ => .inl rfl,
    fun a b hb _ h => ?_, fun a _ b hb => .inl ?_, fun a _ => Finset.sum_le_sum fun b _ => hle a b⟩
  · have : ¬SamePair a b u v := by
      rintro (⟨-, rfl⟩ | ⟨-, rfl⟩)
      · exact hv.not_isEnd hb
      · exact hu.not_isEnd hb
    rwa [link, count_cut, count_cut, if_neg this, if_neg this]
  · rw [Web.nearby, List.mem_filter] at hb ⊢
    refine ⟨hb.1, ?_⟩
    have h := of_decide_eq_true hb.2
    exact decide_eq_true (h.trans_le (hle a b))

theorem split (hw : w.InForm) (hto : t ∈ w.outputs) (hv : w.IsZ v)
    (hvt : w.link v t = some .plain) (hi : i ∈ w.inputs) (hk : w.link v i = some k)
    (hd : 2 < w.degree v) : Tidier w (w.split v i k) := by
  have hval := hw.simple.valid
  have hend := hw.isEnd_input hi
  have hne := hval.ne_end hk
  have hsplit := hw.split hv hend hk
  have hnew : (w.split v i k).IsZ w.next := isZ_split.2 (.inr rfl)
  have hnear (u : Vertex) (hu : w.IsZ u) (huv : u ≠ v) :
      (w.split v i k).nearby u = w.nearby u :=
    hval.nearby_split hv.has hend.has hne hu.has huv fun h => hu.not_isEnd (h ▸ hend)
  have hmem (u : Vertex) : u ∈ (w.split v i k).nearby v ↔ u ∈ w.nearby v ∧ u ≠ i ∨ u = w.next :=
    hval.mem_nearby_split hv.has hend.has hne hsplit.simple.valid
  refine ⟨.single (.pad hto hv hvt hi hk hd), rfl, rfl,
    fun u hu => update_of_ne (hval.ne_next hu) _ _,
    fun u hu => .inl (update_of_ne (hval.ne_next hu) _ _), fun u t ht hin h => ?_,
    fun u hu t ht => ?_, fun u hu => ?_⟩
  · have hti : t ≠ i := fun h => hin (h ▸ hi)
    have htv : t ≠ v := fun h => hv.not_isEnd (h ▸ ht)
    have htn := hval.ne_next ht.has
    have hun := hval.ne_next (hval.has_of_link h).1
    have (k' : EdgeKind) : (w.split v i k).count u t k' = w.count u t k' := by
      rw [hval.count_split hv.has hend.has hne, if_neg (by rw [SamePair]; tauto),
        if_neg (by rw [SamePair]; tauto), if_neg (by rw [SamePair]; tauto)]
    rwa [link, this, this]
  · by_cases huv : u = v
    · subst huv
      rcases (hmem t).1 ht with h | rfl
      · exact .inl h.1
      · exact .inr ⟨hval.not_has_next, hnew⟩
    · rw [hnear u hu huv] at ht
      exact .inl ht
  · rw [hsplit.simple.degree_eq, hw.simple.degree_eq]
    by_cases huv : u = v
    · subst huv
      have hsub : (w.split u i k).nearby u ⊆ w.next :: (w.nearby u).erase i := fun t ht => by
        rcases (hmem t).1 ht with h | rfl
        · exact List.mem_cons_of_mem _ (nodup_nearby.mem_erase_iff.2 ⟨h.2, h.1⟩)
        · exact List.mem_cons_self
      have hle := (nodup_nearby.subperm hsub).length_le
      have hi' := hval.mem_nearby_of_link hk
      have hpos := List.length_pos_of_mem hi'
      rw [List.length_cons, List.length_erase_of_mem hi'] at hle
      omega
    · rw [hnear u hu huv]

end Tidier

/-- The only edge of an end. -/
theorem InForm.incident_end (hw : w.InForm) (ht : w.IsEnd t) :
    ∃ v k, w.incident t = [(v, k)] ∧ w.link t v = some k := by
  obtain ⟨v, hv⟩ := hw.exists_nearby_eq ht
  have hmem : v ∈ w.nearby t := by simp [hv]
  obtain ⟨k, hk⟩ := Option.isSome_iff_exists.1
    (link_isSome_iff.2 (hw.simple.valid.mem_nearby.1 hmem))
  exact ⟨v, k, by simp [incident, hv, hk], hk⟩

/-! ### The frontier -/

/-- A spider without a phase that is wired to the output of a qubit. -/
structure AtOutput (w : Web) (q : ℕ) (v : Vertex) : Prop where
  lt : q < w.outputs.length
  isZ : w.IsZ v
  wired : w.link v (w.output q) = some .plain
  phase : (w.phase v).isZero

/-- A spider at an output which has no edge to another output, and is joined to an input only if it
    has no other edges. -/
structure Settled (w : Web) (q : ℕ) (v : Vertex) : Prop extends AtOutput w q v where
  ends : ∀ t ∈ w.nearby v, w.IsEnd t → t = w.output q ∨ t ∈ w.inputs ∧ w.degree v ≤ 2

/-- A frontier, with the qubits up to `m` looked at. -/
structure Prepared (w : Web) (frontier : List (ℕ × Vertex)) (m : ℕ) : Prop where
  settled : ∀ p ∈ frontier, w.Settled p.1 p.2
  apart : ∀ p ∈ frontier, ∀ p' ∈ frontier, p'.2 ∉ w.nearby p.2
  ascending : frontier.Pairwise (·.1 < ·.1)
  lt : ∀ p ∈ frontier, p.1 < m
  covered : ∀ q < m, (∃ v, (q, v) ∈ frontier) ∨
    ∃ t, w.IsEnd t ∧ w.link t (w.output q) = some .plain

theorem Tidier.output (h : Tidier w w') (q : ℕ) : w'.output q = w.output q := by
  rw [Web.output, h.outputs, Web.output]

theorem InForm.isEnd_output' (hw : w.InForm) (h : q < w.outputs.length) : w.IsEnd (w.output q) :=
  hw.isEnd_output (getElem?_outputs h)

theorem InForm.output_notMem_inputs (hw : w.InForm) (h : q < w.outputs.length) :
    w.output q ∉ w.inputs := by
  rw [hw.mem_inputs, (hw.mem_outputs _).1 (List.mem_of_getElem? (getElem?_outputs h))]
  simp

theorem AtOutput.tidier (h : w.AtOutput q v) (hw : w.InForm) (ht : Tidier w w') :
    w'.AtOutput q v where
  lt := ht.outputs ▸ h.lt
  isZ := ht.isZ h.isZ
  wired := by
    rw [ht.output]
    exact ht.wired v _ (hw.isEnd_output' h.lt) (hw.output_notMem_inputs h.lt) h.wired
  phase := by
    rcases ht.phase v h.isZ.has with h' | h'
    · rw [h']
      exact h.phase
    · rw [h']
      rfl

theorem Settled.tidier (h : w.Settled q v) (hw : w.InForm) (ht : Tidier w w') :
    w'.Settled q v where
  toAtOutput := h.toAtOutput.tidier hw ht
  ends t hm he := by
    rw [ht.output, ht.inputs]
    rcases ht.nearby v h.isZ t hm with hm | ⟨-, hz⟩
    · have := h.ends t hm (ht.isEnd_of (hw.simple.valid.has_of_mem_nearby hm) he)
      exact this.imp_right fun h' => ⟨h'.1, (ht.degree v h.isZ).trans h'.2⟩
    · exact absurd he hz.not_isEnd

theorem Prepared.tidier {frontier : List (ℕ × Vertex)} {m : ℕ} (h : w.Prepared frontier m)
    (hw : w.InForm) (hm : m ≤ w.outputs.length) (ht : Tidier w w') : w'.Prepared frontier m where
  settled p hp := (h.settled p hp).tidier hw ht
  apart p hp p' hp' hmem := by
    rcases ht.nearby p.2 (h.settled p hp).isZ p'.2 hmem with hmem | ⟨hnot, -⟩
    · exact h.apart p hp p' hp' hmem
    · exact hnot (h.settled p' hp').isZ.has
  ascending := h.ascending
  lt := h.lt
  covered q hq := by
    refine (h.covered q hq).imp_right ?_
    rintro ⟨t, he, hk⟩
    refine ⟨t, ht.isEnd he, ?_⟩
    rw [ht.output]
    exact ht.wired t _ (hw.isEnd_output' (hq.trans_le hm))
      (hw.output_notMem_inputs (hq.trans_le hm)) hk

/-- No spider of the frontier is there twice. -/
theorem Prepared.eq_of_spider {frontier : List (ℕ × Vertex)} {m : ℕ} (h : w.Prepared frontier m)
    (hw : w.InForm) {p p' : ℕ × Vertex} (hp : p ∈ frontier) (hp' : p' ∈ frontier)
    (he : p.2 = p'.2) : p = p' := by
  have h₁ := h.settled p hp
  have h₂ := h.settled p' hp'
  have hmem : w.output p'.1 ∈ w.nearby p.2 :=
    hw.simple.valid.mem_nearby_of_link (he ▸ h₂.wired)
  have hout : w.output p'.1 = w.output p.1 := by
    refine (h₁.ends _ hmem (hw.isEnd_output' h₂.lt)).resolve_right fun h => ?_
    exact hw.output_notMem_inputs h₂.lt h.1
  have hq : p'.1 = p.1 := by
    have h₃ := getElem?_outputs h₂.lt
    have h₄ := getElem?_outputs h₁.lt
    rw [hout] at h₃
    exact (List.getElem?_inj h₂.lt hw.outputs_nodup).1 (h₃.trans h₄.symm)
  exact Prod.ext hq.symm he

/-- A spider next to an output is on the frontier. -/
theorem Prepared.exists_of_output {frontier : List (ℕ × Vertex)}
    (h : w.Prepared frontier w.outputs.length) (hw : w.InForm)
    (hz : w.IsZ u) (ht : t ∈ w.outputs) (hj : t ∈ w.nearby u) : ∃ p ∈ frontier, p.2 = u := by
  have hval := hw.simple.valid
  obtain ⟨q, hq⟩ := List.getElem?_of_mem ht
  have hone {x : Vertex} (hx : w.link x (w.output q) = some .plain) : x = u := by
    rw [output_eq hq] at hx
    have hmem := hval.mem_nearby_comm.1 (hval.mem_nearby_of_link hx)
    rwa [hw.nearby_end (hw.isEnd_of_mem_outputs ht) (hval.mem_nearby_comm.1 hj),
      List.mem_singleton] at hmem
  rcases h.covered q (List.getElem?_eq_some_iff.1 hq).1 with ⟨v, hv⟩ | ⟨x, hx, hlink⟩
  · exact ⟨_, hv, hone (h.settled _ hv).wired⟩
  · exact absurd (hone hlink ▸ hx) hz.not_isEnd

end Web

/-! ### The program -/

namespace Extraction.State

open Web (Peel Peels Tidier)

variable {w : Web} {s s' : State} {gadgets : Prop} {o u v n i : Vertex} {k : EdgeKind}
  {q : ℕ}

/-- The web that is left. -/
abbrev web (s : State) : Web := s.graph.web

/-- What an extraction of the diagram `w` comes to by steps. -/
structure Reached (gadgets : Prop) (w : Web) (s : State) : Prop where
  coherent : s.graph.Coherent
  peels : w.Peels gadgets s.web s.circuit.gates
  qubits : s.circuit.qubits = w.outputs.length

/-- A step on the diagram, with the gates put in front. -/
theorem Reached.peel (h : s.Reached gadgets w) {r : State} {l : List Gate} (hc : r.graph.Coherent)
    (hp : Peel s.web r.web l) (hgates : r.circuit.gates = l ++ s.circuit.gates)
    (hq : r.circuit.qubits = s.circuit.qubits) : r.Reached gadgets w :=
  ⟨hc, hgates ▸ h.peels.tail hp, hq.trans h.qubits⟩

/-- A refusal holds what was come to by steps; there are no faults. -/
def Stopped (gadgets : Prop) (w : Web) (P : Web → Obstacle → Prop) : Failure Unextracted → Prop
  | .fault _ => False
  | .refused u => (State.mk u.rest u.circuit []).Reached gadgets w ∧ P u.rest.web u.obstacle

/-- Why preparing stops: a spider is next to two outputs. -/
def Shared (w : Web) (_ : Obstacle) : Prop :=
  ∃ q < w.outputs.length, ∃ v t, w.IsZ v ∧ w.link v (w.output q) = some .plain ∧
    t ∈ w.nearby v ∧ w.kind t = some .output ∧ t ≠ w.output q

/-- Preparing stops after some of its steps. -/
def SharedFrom (w₁ w : Web) (o : Obstacle) : Prop := Shared w o ∧ w₁.Tidier w

theorem SharedFrom.trans {w₀ w₁ w : Web} {o : Obstacle} (ht : w₀.Tidier w₁)
    (h : SharedFrom w₁ w o) : SharedFrom w₀ w o := ⟨h.1, ht.trans h.2⟩

theorem Stopped.mono {P Q : Web → Obstacle → Prop} (h : ∀ w o, P w o → Q w o)
    (e : Failure Unextracted) (he : Stopped gadgets w P e) : Stopped gadgets w Q e := by
  cases e with
  | fault => exact he
  | refused u => exact ⟨he.1, h _ _ he.2⟩

section

variable (hw : w.InForm)
include hw

theorem Reached.keeps (h : s.Reached gadgets w) : w.Keeps s.web := h.peels.keeps hw

/-- Taking the Hadamard gate off the edge to an output. -/
theorem Reached.takeHadamard (h : s.Reached gadgets w) (hq : w.outputs[q]? = some o)
    (hk : s.web.link v o = some k) : ∃ s', s.takeHadamard q o v k = .ok s' ∧
      s'.Reached gadgets w ∧ s'.frontier = s.frontier ∧ Tidier s.web s'.web ∧
        s'.web.link v o = some .plain := by
  have hs := h.keeps hw
  have hval := hs.form.simple.valid
  rw [State.takeHadamard]
  cases k with
  | plain => exact ⟨s, rfl, h, rfl, .refl _, hk⟩
  | hadamard =>
    obtain ⟨hv, ho⟩ := hval.has_of_link hk
    obtain ⟨g, hok, hcoh, hweb, -⟩ :=
      GraphLike.Gives.setEdgeKind h.coherent hv ho (hval.ne_end hk) .plain
    have hpos : 0 < s.web.joins v o := hval.mem_nearby.1 (hval.mem_nearby_of_link hk)
    refine ⟨({ s with graph := g } : State).emit (.plain .hadamard [q]), by simp [hok], ?_, rfl,
      ?_, ?_⟩
    · refine h.peel (l := [.plain .hadamard [q]]) hcoh ?_ rfl rfl
      change Peel s.graph.web g.web _
      rw [hweb]
      exact .hadamard (hs.outputs ▸ hq) hk
    · change Tidier s.graph.web g.web
      rw [hweb]
      exact .setKind hs.form (List.mem_of_getElem? (hs.outputs ▸ hq)) hk
    · change g.web.link v o = some .plain
      rw [hweb, Web.link]
      simp [Web.setKind, Web.setCount, SamePair, hpos]

/-- Taking the phase off a spider that is wired to an output. -/
theorem Reached.takePhase (h : s.Reached gadgets w) (hq : w.outputs[q]? = some o)
    (hv : s.web.IsZ v) (hk : s.web.link v o = some .plain) :
    (s.takePhase q v).Reached gadgets w ∧ (s.takePhase q v).frontier = s.frontier ∧
      Tidier s.web (s.takePhase q v).web ∧ ((s.takePhase q v).web.phase v).isZero := by
  have hs := h.keeps hw
  rw [State.takePhase]
  split
  · next hp => exact ⟨h, rfl, .refl _, hp⟩
  · have hweb := GraphLike.web_setPhase (g := s.graph) (v := v) (p := .zero)
    refine ⟨h.peel (l := [⟨.zPhase, [q], s.graph.phase v⟩])
      (GraphLike.Coherent.setPhase h.coherent v .zero) ?_ rfl rfl, rfl, ?_, ?_⟩
    · change Peel s.graph.web (s.graph.setPhase v .zero).web _
      rw [hweb]
      exact .phase (hs.outputs ▸ hq) hv hk
    · change Tidier s.graph.web (s.graph.setPhase v .zero).web
      rw [hweb]
      exact .setPhase (List.mem_of_getElem? (hs.outputs ▸ hq)) hv hk
    · change ((s.graph.setPhase v .zero).web.phase v).isZero
      rw [hweb, Web.phase_setPhase, update_self]
      rfl

/-- Putting a new spider between a spider and an input. -/
theorem Reached.padInput (h : s.Reached gadgets w) (hv : s.web.IsZ v) (hi : i ∈ s.web.inputs)
    (hk : s.web.link v i = some k) : ∃ s', s.padInput v i = .ok s' ∧ s'.Reached gadgets w ∧
      s'.frontier = s.frontier ∧ s'.web = s.web.split v i k := by
  have hs := h.keeps hw
  have hval := hs.form.simple.valid
  have hend := hs.form.isEnd_input hi
  have hne := hval.ne_end hk
  have hvn := hval.ne_next hv.has
  have hin := hval.ne_next hend.has
  -- the edges come up in another order
  obtain ⟨B, hB⟩ : ∃ B, B = s.web.addSpider .zero := ⟨_, rfl⟩
  have hvalB : B.Valid := hB ▸ hval.addSpider .zero
  have hnew : B.Has s.web.next := by
    rw [hB, Web.Has, Web.kind_addSpider, update_self]
    rfl
  have hold {u : Vertex} (hu : s.web.Has u) : B.Has u := by
    rw [hB, Web.Has, Web.kind_addSpider, update_of_ne (hval.ne_next hu)]
    exact hu
  have hvalB' : (B.addEdges i s.web.next k.opposite 1).Valid :=
    hvalB.setCount (hold hend.has) hnew hin _
  have hsplit : ((B.addEdges i s.web.next k.opposite 1).addEdges s.web.next v .hadamard 1).cut i v =
      s.web.split v i k := by
    have h₁ : ¬SamePair s.web.next i v s.web.next := by
      rw [SamePair]
      tauto
    have h₂ : ¬SamePair s.web.next i v i := by
      rw [SamePair]
      tauto
    have h₃ : ¬SamePair v s.web.next v i := by
      rw [SamePair]
      tauto
    rw [hvalB'.addEdges_comm, hvalB.addEdges_comm, Web.addEdges_addEdges h₁, Web.cut_comm,
      Web.cut_addEdges h₂, Web.cut_addEdges h₃, hB]
    rfl
  have hweb := GraphLike.web_addSpider (q := s.graph.qubit? i)
    (c := (s.graph.column? i).map (· + 1)) s.graph .zero
  have hadd := GraphLike.Gives.addEdge (s := i) (t := s.web.next)
    (GraphLike.Coherent.addSpider (q := s.graph.qubit? i)
      (c := (s.graph.column? i).map (· + 1)) h.coherent .zero)
    (hweb ▸ hB ▸ hold hend.has) (hweb ▸ hB ▸ hnew) hin k.opposite
  obtain ⟨g₁, hok₁, hc₁, hw₁, -⟩ := hadd
  rw [hweb, ← hB] at hw₁
  obtain ⟨g₂, hok₂, hc₂, hw₂, -⟩ := GraphLike.Gives.addEdge hc₁ (s := s.web.next) (t := v)
    (hw₁ ▸ hnew) (hw₁ ▸ hold hv.has) hvn.symm .hadamard
  obtain ⟨g₃, hok₃, hc₃, hw₃, -⟩ := GraphLike.Gives.removeEdge hc₂ (s := i)
    (by rw [hw₂, hw₁]; exact hold hend.has) v
  rw [hw₂, hw₁, hsplit] at hw₃
  refine ⟨{ s with graph := g₃ }, ?_, h.peel (l := []) hc₃ ?_ rfl rfl, rfl, hw₃⟩
  · have hkind : s.graph.edgeKind? i v = .ok (some k) := by
      rw [GraphLike.edgeKind?_eq h.coherent hend.has, ← hk]
      exact congrArg _ (hval.link_comm i v)
    rw [State.padInput, hkind]
    change (do
      let g ← (s.graph.addSpider .zero (s.graph.qubit? i)
        ((s.graph.column? i).map (· + 1))).2.addEdge i s.web.next k.opposite
      let g ← g.addEdge s.web.next v .hadamard
      return { s with graph := ← g.removeEdge i v }) = _
    rw [hok₁]
    change (do
      let g ← g₁.addEdge s.web.next v .hadamard
      return { s with graph := ← g.removeEdge i v }) = _
    rw [hok₂]
    change (do return { s with graph := ← g₂.removeEdge i v }) = _
    rw [hok₃]
    rfl
  · change Peel s.web g₃.web []
    rw [hw₃]
    exact .pad hv hi hk

/-! ### The neighbours of a spider at an output -/

/-- Preparing at a spider, some of the neighbours of which have been looked at. -/
structure Pending (gadgets : Prop) (w w₁ : Web) (frontier : List (ℕ × Vertex)) (q : ℕ)
    (v : Vertex) (done : List Vertex) (s : State) : Prop where
  reached : s.Reached gadgets w
  frontier_eq : s.frontier = frontier ++ [(q, v)]
  tidier : Tidier w₁ s.web
  ends : ∀ t ∈ done, t ∈ s.web.nearby v → s.web.IsEnd t →
    t = s.web.output q ∨ t ∈ s.web.inputs ∧ s.web.degree v ≤ 2
  apart : ∀ t ∈ done, t ∈ s.web.nearby v → ∀ p ∈ frontier, p.2 ≠ t
  rest : ∀ t ∈ w₁.nearby v, t ∉ done → t ∈ s.web.nearby v

omit hw in
/-- One more neighbour was looked at. -/
theorem Pending.extend {w₁ : Web} {frontier : List (ℕ × Vertex)} {done : List Vertex}
    (h : Pending gadgets w w₁ frontier q v done s) (hprep : w₁.Prepared frontier q)
    (hval : s.web.Valid) (hv : s.web.IsZ v) (hr : s'.Reached gadgets w)
    (hf : s'.frontier = s.frontier) (ht : Tidier s.web s'.web)
    (hgood : n ∈ s'.web.nearby v → (s'.web.IsEnd n →
      n = s'.web.output q ∨ n ∈ s'.web.inputs ∧ s'.web.degree v ≤ 2) ∧ ∀ p ∈ frontier, p.2 ≠ n)
    (hrest : ∀ t ∈ s.web.nearby v, t ≠ n → t ∈ s'.web.nearby v) :
    Pending gadgets w w₁ frontier q v (done ++ [n]) s' where
  reached := hr
  frontier_eq := hf.trans h.frontier_eq
  tidier := h.tidier.trans ht
  ends t hm hnear he := by
    rcases List.mem_append.1 hm with hm | hm
    · rcases ht.nearby v hv t hnear with hold | ⟨-, hz⟩
      · rw [ht.output, ht.inputs]
        have hend := ht.isEnd_of (hval.has_of_mem_nearby hold) he
        exact (h.ends t hm hold hend).imp_right fun h' => ⟨h'.1, (ht.degree v hv).trans h'.2⟩
      · exact absurd he hz.not_isEnd
    · rw [List.mem_singleton.1 hm] at hnear he ⊢
      exact (hgood hnear).1 he
  apart t hm hnear p hp := by
    rcases List.mem_append.1 hm with hm | hm
    · rcases ht.nearby v hv t hnear with hold | ⟨hnot, -⟩
      · exact h.apart t hm hold p hp
      · rintro rfl
        exact hnot (h.tidier.has (hprep.settled p hp).isZ.has)
    · rw [List.mem_singleton.1 hm] at hnear ⊢
      exact (hgood hnear).2 p hp
  rest t hm hnot := by
    rw [List.mem_append, List.mem_singleton, not_or] at hnot
    exact hrest t (h.rest t hm hnot.1) hnot.2

/-- An input at a spider with other edges comes to be behind a new spider. -/
theorem Pending.exists_padInput {w₁ : Web} {frontier : List (ℕ × Vertex)} {done : List Vertex}
    (h : Pending gadgets w w₁ frontier q v done s) (hprep : w₁.Prepared frontier q)
    (hat : s.web.AtOutput q v) (hnear : n ∈ s.web.nearby v) (hin : n ∈ s.web.inputs)
    (hd : 2 < s.web.degree v) : ∃ s', s.padInput v n = .ok s' ∧
      Pending gadgets w w₁ frontier q v (done ++ [n]) s' := by
  have hs := h.reached.keeps hw
  have hval := hs.form.simple.valid
  have hhas := hval.has_of_mem_nearby hnear
  obtain ⟨k, hk⟩ := Option.isSome_iff_exists.1 (Web.link_isSome_iff.2 (hval.mem_nearby.1 hnear))
  obtain ⟨s', hok, hr, hf, hweb⟩ := h.reached.padInput hw hat.isZ hin hk
  have hsplit := hs.form.split hat.isZ (hs.form.isEnd_input hin) hk
  have hmem (t : Vertex) : t ∈ s'.web.nearby v ↔ t ∈ s.web.nearby v ∧ t ≠ n ∨
      t = s.web.next := by
    rw [hweb]
    exact hval.mem_nearby_split hat.isZ.has hhas (hval.ne_end hk) hsplit.simple.valid
  refine ⟨s', hok, h.extend hprep hval hat.isZ hr hf (hweb ▸ .split hs.form
    (List.mem_of_getElem? (Web.getElem?_outputs hat.lt)) hat.isZ hat.wired hin hk hd)
    (fun hn' => ?_) fun t ht htn => (hmem t).2 (.inl ⟨ht, htn⟩)⟩
  rcases (hmem n).1 hn' with hn' | hn'
  · exact absurd rfl hn'.2
  · exact absurd hn' (hval.ne_next hhas)

/-- The edge to a spider of the frontier is taken off. -/
theorem Pending.exists_removeEdge {w₁ : Web} {frontier : List (ℕ × Vertex)} {done : List Vertex}
    {r : ℕ} (h : Pending gadgets w w₁ frontier q v done s) (hw₁ : w₁.InForm)
    (hprep : w₁.Prepared frontier q) (hat : s.web.AtOutput q v) (hnear : n ∈ s.web.nearby v)
    (hz : s.web.IsZ n) (hr : s.frontierQubit? n = some r) : ∃ g, s.graph.removeEdge v n = .ok g ∧
      Pending gadgets w w₁ frontier q v (done ++ [n])
        ({ s with graph := g }.emit (.plain .cz [q, r])) := by
  have hs := h.reached.keeps hw
  have hval := hs.form.simple.valid
  obtain ⟨p, hp, rfl⟩ := Option.map_eq_some_iff.1 hr
  have hpn : p.2 = n := by simpa using List.find?_some hp
  have hpf : p ∈ frontier := by
    have hmem := List.mem_of_find?_eq_some hp
    rw [h.frontier_eq, List.mem_append, List.mem_singleton] at hmem
    refine hmem.resolve_right fun he => ?_
    rw [he] at hpn
    exact hval.notMem_nearby_self (hpn ▸ hnear)
  have hat₂ := (hprep.settled p hpf).toAtOutput.tidier hw₁ h.tidier
  rw [hpn] at hat₂
  have hjoin : s.web.link v n = some .hadamard := by
    rw [hs.form.simple.link_eq hat.isZ hz, if_pos (hval.mem_nearby.1 hnear)]
  obtain ⟨g, hok, hcoh, hweb, -⟩ := GraphLike.Gives.removeEdge h.reached.coherent hat.isZ.has n
  have hcut := Web.nearby_cut (w := s.web) (hval.ne_end hjoin)
  refine ⟨g, hok, h.extend hprep hval hat.isZ
    (h.reached.peel (l := [.plain .cz [q, p.1]]) hcoh ?_ rfl rfl) rfl ?_ (fun hn' => ?_)
    fun t ht htn => ?_⟩
  · change Peel s.web g.web _
    rw [hweb]
    exact .cz (Web.getElem?_outputs hat.lt) (Web.getElem?_outputs hat₂.lt) hat.isZ hz hat.wired
      hat₂.wired hjoin
  · change Tidier s.web g.web
    rw [hweb]
    exact .cut (List.mem_of_getElem? (Web.getElem?_outputs hat.lt))
      (List.mem_of_getElem? (Web.getElem?_outputs hat₂.lt)) hat.isZ hz hat.wired hat₂.wired hjoin
  · change n ∈ g.web.nearby v at hn'
    rw [hweb, hcut, List.mem_filter] at hn'
    simp at hn'
  · change t ∈ g.web.nearby v
    rw [hweb, hcut, List.mem_filter]
    exact ⟨ht, by simpa using htn⟩

/-- Looking at one neighbour of a spider at an output. -/
theorem Pending.prepareNeighbor {w₁ : Web} {frontier : List (ℕ × Vertex)} {done : List Vertex}
    (h : Pending gadgets w w₁ frontier q v done s) (hw₁ : w₁.InForm) (hat : w₁.AtOutput q v)
    (hprep : w₁.Prepared frontier q) (hn : n ∈ w₁.nearby v) (hnot : n ∉ done) :
    Meets (s.prepareNeighbor q (w.output q) v n)
      (Pending gadgets w w₁ frontier q v (done ++ [n])) (Stopped gadgets w (SharedFrom w₁)) := by
  have hs := h.reached.keeps hw
  have hval := hs.form.simple.valid
  have hv := h.tidier.isZ hat.isZ
  have hnear := h.rest n hn hnot
  have hhas := hval.has_of_mem_nearby hnear
  have hout : s.web.output q = w.output q := by rw [Web.output, hs.outputs, Web.output]
  have hat' := hat.tidier hw₁ h.tidier
  have hlt : q < w.outputs.length := hs.outputs ▸ hat'.lt
  have hfz : ∀ p ∈ frontier, s.web.IsZ p.2 := fun p hp => h.tidier.isZ (hprep.settled p hp).isZ
  have hsame (hgood : (s.web.IsEnd n →
      n = s.web.output q ∨ n ∈ s.web.inputs ∧ s.web.degree v ≤ 2) ∧ ∀ p ∈ frontier, p.2 ≠ n) :=
    h.extend hprep hval hv h.reached rfl (.refl _) (fun _ => hgood) fun t ht _ => ht
  have hends (he : s.web.IsEnd n) : ∀ p ∈ frontier, p.2 ≠ n := fun p hp hpn =>
    (hfz p hp).not_isEnd (hpn ▸ he)
  rw [State.prepareNeighbor]
  split
  · -- the output
    next hno =>
    refine hsame ⟨fun _ => .inl (hno.trans hout.symm), hends ?_⟩
    rw [hno, ← hout]
    exact hs.form.isEnd_output' hat'.lt
  next hno =>
  refine Meets.bind (P := fun b => b = decide (s.web.IsEnd n))
    (Meets.lift (by rw [Diagram.isBoundary_eq hhas]; rfl)) fun b hb => ?_
  subst hb
  by_cases hend : s.web.IsEnd n
  · rw [if_pos (decide_eq_true hend)]
    split
    · -- another output
      next hin =>
      refine ⟨⟨h.reached.coherent, h.reached.peels, h.reached.qubits⟩, ⟨q, hat'.lt, v, n, hv,
        hat'.wired, hnear, ?_, fun he => hno (he.trans hout)⟩, h.tidier⟩
      have hnin : s.web.kind n ≠ some .input := fun hk => hin ((hs.form.mem_inputs n).2 hk)
      rw [Web.IsEnd] at hend
      cases hk : s.web.kind n with
      | none => simp [hk] at hend
      | some kind =>
        rw [hk] at hend hnin
        cases kind <;> simp_all [SpiderKind.isBoundary]
    · next hin =>
      have hin' : n ∈ s.web.inputs := not_not.1 hin
      refine Meets.bind (P := fun d => d = s.web.degree v)
        (Meets.lift (by rw [show s.graph.toDiagram.degree v = _ from
          GraphLike.degree_eq h.reached.coherent hv.has]; rfl)) fun d hd => ?_
      subst hd
      split
      · -- an input, and other edges
        next hd =>
        exact Meets.lift (Meets.of_exists (h.exists_padInput hw hprep hat' hnear hin' hd))
      · next hd => exact hsame ⟨fun _ => .inr ⟨hin', Nat.le_of_not_lt hd⟩, hends hend⟩
  · rw [if_neg (by simpa using hend)]
    have hz : s.web.IsZ n := (hs.form.simple.colour n hhas).resolve_right hend
    cases hr : s.frontierQubit? n with
    | some r =>
      -- a spider of the frontier
      obtain ⟨g, hok, hg⟩ := h.exists_removeEdge hw hw₁ hprep hat' hnear hz hr
      refine Meets.bind (P := fun g' => g' = g) (Meets.lift (by rw [hok]; rfl)) fun g' hg' => ?_
      exact hg' ▸ hg
    | none =>
      refine Meets.bind (P := fun b => b = true) (Meets.lift (by
        rw [GraphLike.isZ_eq hhas]
        exact decide_eq_true hz)) fun b hb => ?_
      rw [hb, if_pos rfl]
      refine hsame ⟨fun he => absurd he hend, fun p hp hpn => ?_⟩
      rw [State.frontierQubit?, Option.map_eq_none_iff, List.find?_eq_none] at hr
      exact hr p (by rw [h.frontier_eq]; exact List.mem_append_left _ hp) (by simpa using hpn)

omit hw in
/-- All neighbours were looked at. -/
theorem Pending.prepared {w₁ : Web} {frontier : List (ℕ × Vertex)}
    (h : Pending gadgets w w₁ frontier q v (w₁.nearby v) s) (hw₁ : w₁.InForm)
    (hval : s.web.Valid) (hat : w₁.AtOutput q v) (hprep : w₁.Prepared frontier q) :
    s.web.Prepared s.frontier (q + 1) := by
  have hat' := hat.tidier hw₁ h.tidier
  have hold := hprep.tidier hw₁ hat.lt.le h.tidier
  have hfar : ∀ p ∈ frontier, p.2 ∉ s.web.nearby v := fun p hp hmem => by
    rcases h.tidier.nearby v hat.isZ _ hmem with hn | ⟨hnot, -⟩
    · exact h.apart _ hn hmem p hp rfl
    · exact hnot (hprep.settled p hp).isZ.has
  rw [h.frontier_eq]
  refine ⟨fun p hp => ?_, fun p hp p' hp' => ?_, ?_, fun p hp => ?_, fun r hr => ?_⟩
  · rcases List.mem_append.1 hp with hp | hp
    · exact hold.settled p hp
    · rw [List.mem_singleton.1 hp]
      refine ⟨hat', fun t ht he => ?_⟩
      rcases h.tidier.nearby v hat.isZ t ht with hn | ⟨-, hz⟩
      · exact h.ends t hn ht he
      · exact absurd he hz.not_isEnd
  · rcases List.mem_append.1 hp with hp | hp <;> rcases List.mem_append.1 hp' with hp' | hp'
    · exact hold.apart p hp p' hp'
    · rw [List.mem_singleton.1 hp', hval.mem_nearby_comm]
      exact hfar p hp
    · rw [List.mem_singleton.1 hp]
      exact hfar p' hp'
    · rw [List.mem_singleton.1 hp, List.mem_singleton.1 hp']
      exact hval.notMem_nearby_self
  · refine List.pairwise_append.2 ⟨hprep.ascending, List.pairwise_singleton _ _, fun p hp p' hp' => ?_⟩
    rw [List.mem_singleton.1 hp']
    exact hprep.lt p hp
  · rcases List.mem_append.1 hp with hp | hp
    · exact Nat.lt_succ_of_lt (hprep.lt p hp)
    · rw [List.mem_singleton.1 hp]
      exact Nat.lt_succ_self q
  · rcases Nat.lt_succ_iff_lt_or_eq.1 hr with hr | rfl
    · exact (hold.covered r hr).imp_left fun hu => hu.imp fun _ => List.mem_append_left _
    · exact .inl ⟨v, by simp⟩

/-- Looking at one output. -/
theorem Reached.prepareOutput (h : s.Reached gadgets w) (hprep : s.web.Prepared s.frontier q)
    (hq : w.outputs[q]? = some o) :
    Meets (s.prepareOutput o q)
      (fun s' => s'.Reached gadgets w ∧ s'.web.Prepared s'.frontier (q + 1) ∧
        Tidier s.web s'.web) (Stopped gadgets w (SharedFrom s.web)) := by
  have hs := h.keeps hw
  have hval := hs.form.simple.valid
  have ho : w.output q = o := Web.output_eq hq
  have hq' : s.web.outputs[q]? = some o := hs.outputs ▸ hq
  have hlt := Web.lt_of_getElem?_outputs hq'
  have hend := hs.form.isEnd_output hq'
  obtain ⟨v, k, hinc, hk⟩ := hs.form.incident_end hend
  rw [State.prepareOutput]
  refine Meets.bind (P := fun l => l = [(v, k)]) (Meets.lift (by
    rw [GraphLike.incidentEdges_eq h.coherent hs.form.simple.noParallel hend.has]
    exact hinc)) fun l hl => ?_
  subst hl
  obtain ⟨s₁, hok₁, hr₁, hf₁, ht₁, hwire₁⟩ :=
    h.takeHadamard hw hq ((hval.link_comm v o).trans hk)
  refine Meets.bind (P := fun s' => s' = s₁) (Meets.lift (Meets.of_exists ⟨s₁, hok₁, rfl⟩))
    fun s' hs' => ?_
  subst hs'
  have hs₁ := hr₁.keeps hw
  have hval₁ := hs₁.form.simple.valid
  have hhas₁ := (hval₁.has_of_link hwire₁).1
  have hprep₁ := hf₁ ▸ hprep.tidier hs.form hlt.le ht₁
  have hout₁ : s'.web.output q = o := (ht₁.output q).trans (Web.output_eq hq')
  refine Meets.bind (P := fun b => b = decide (s'.web.IsEnd v))
    (Meets.lift (by rw [Diagram.isBoundary_eq hhas₁]; rfl)) fun b hb => ?_
  subst hb
  by_cases he : s'.web.IsEnd v
  · -- the end of a wire
    rw [if_pos (decide_eq_true he)]
    refine ⟨hr₁, ⟨hprep₁.settled, hprep₁.apart, hprep₁.ascending,
      fun p hp => Nat.lt_succ_of_lt (hprep₁.lt p hp), fun r hr => ?_⟩, ht₁⟩
    rcases Nat.lt_succ_iff_lt_or_eq.1 hr with hr | rfl
    · exact hprep₁.covered r hr
    · exact .inr ⟨v, he, by rwa [hout₁]⟩
  rw [if_neg (by simpa using he)]
  have hz : s'.web.IsZ v := (hs₁.form.simple.colour v hhas₁).resolve_right he
  have hr₂ : ({ s' with frontier := s'.frontier ++ [(q, v)] } : State).Reached gadgets w :=
    ⟨hr₁.coherent, hr₁.peels, hr₁.qubits⟩
  obtain ⟨hr₃, hf₃, ht₃, hp₃⟩ := hr₂.takePhase hw hq hz hwire₁
  set s₃ := ({ s' with frontier := s'.frontier ++ [(q, v)] } : State).takePhase q v
  have hs₃ := hr₃.keeps hw
  have hlt₃ : q < s₃.web.outputs.length := by
    rw [ht₃.outputs, ht₁.outputs]
    exact hlt
  have hat₃ : s₃.web.AtOutput q v := by
    refine ⟨hlt₃, ht₃.isZ hz, ?_, hp₃⟩
    rw [ht₃.output, hout₁]
    refine ht₃.wired v o (ht₁.isEnd hend) (fun hin => ?_) hwire₁
    rw [hr₂.keeps hw |>.inputs, ← hs.inputs, hs.form.mem_inputs,
      (hs.form.mem_outputs o).1 (List.mem_of_getElem? hq')] at hin
    simp at hin
  have hprep₃ : s₃.web.Prepared s'.frontier q :=
    hprep₁.tidier hs₁.form (by rw [ht₁.outputs]; exact hlt.le) ht₃
  refine Meets.bind (P := fun l => l = s₃.web.nearby v) (Meets.lift (by
    rw [show s₃.graph.toDiagram.neighborSet v = _ from
      GraphLike.neighborSet_eq hr₃.coherent hat₃.isZ.has]
    rfl)) fun l hl => ?_
  subst hl
  rw [← ho]
  refine Meets.mono (Meets.foldlM (Pending gadgets w s₃.web s'.frontier q v) _ ?_
    fun done n rest s₄ hl hpend => ?_)
    (fun s₄ hpend => ⟨hpend.reached, ?_, (ht₁.trans ht₃).trans hpend.tidier⟩)
    (Stopped.mono fun _ _ => .trans (ht₁.trans ht₃))
  · exact ⟨hr₃, hf₃, .refl _, fun _ h => absurd h List.not_mem_nil,
      fun _ h => absurd h List.not_mem_nil, fun _ h _ => h⟩
  · have hnd := hl ▸ (Web.nodup_nearby (w := s₃.web) (v := v))
    refine hpend.prepareNeighbor hw hs₃.form hat₃ hprep₃ (hl ▸ by simp) fun hmem => ?_
    exact (List.nodup_append.1 hnd).2.2 n hmem n List.mem_cons_self rfl
  · exact hpend.prepared hs₃.form (hpend.reached.keeps hw).form.simple.valid hat₃ hprep₃

/-- Preparing the frontier takes steps of an extraction only. -/
theorem Reached.prepare (h : s.Reached gadgets w) :
    Meets s.prepare
      (fun s' => s'.Reached gadgets w ∧ s'.web.Prepared s'.frontier w.outputs.length ∧
        Tidier s.web s'.web) (Stopped gadgets w (SharedFrom s.web)) := by
  have hs := h.keeps hw
  have hout : s.graph.outputs = w.outputs := hs.outputs
  rw [State.prepare, hout]
  refine Meets.mono (Meets.foldlM (fun done s' => s'.Reached gadgets w ∧
    s'.web.Prepared s'.frontier done.length ∧ Tidier s.web s'.web) _ ?_
      fun done p rest s' hl hinv => ?_)
    (fun s' hs' => by rwa [List.length_zipIdx] at hs') fun _ he => he
  · exact ⟨⟨h.coherent, h.peels, h.qubits⟩, ⟨fun _ h => absurd h List.not_mem_nil,
      fun _ h => absurd h List.not_mem_nil, .nil, fun _ h => absurd h List.not_mem_nil,
      fun _ h => absurd h (Nat.not_lt_zero _)⟩, .refl _⟩
  · obtain ⟨hr, hprep, ht⟩ := hinv
    have hget : w.outputs.zipIdx[done.length]? = some p := by
      rw [hl]
      simp
    rw [List.getElem?_zipIdx, Nat.zero_add] at hget
    obtain ⟨o, ho, hp⟩ := Option.map_eq_some_iff.1 hget
    subst hp
    rw [List.length_append, List.length_singleton]
    exact (hr.prepareOutput hw hprep ho).mono (fun s'' h => ⟨h.1, h.2.1, ht.trans h.2.2⟩)
      (Stopped.mono fun _ _ => .trans ht)

end

end Extraction.State

end ZXRewriting
