import ZXRewriting.Proofs.Diagram.Attempts
import ZXRewriting.Proofs.Diagram.Books
import ZXRewriting.Proofs.Diagram.Ends

/-!
# Diagrams in good order

On bare wires, gates are put on at both sides, and the diagram is rewritten, in any order
(`Diagram.develop`). What comes of it is in good order (`Diagram.Orderly`): its tables are about the
spiders that are there, its edges are plain, and the ends of the wires are those that it started
with, each with a single wire. At every match that a rule accepts it can be rewritten
(`Diagram.orderly_develop`). Nothing breaks off on the way but a swap of wires at ends that a wire
joins (`Diagram.exists_knot`).

What one action keeps is `Diagram.Upheld`: the tables go together (`Booked`), and gates can be put
on (`Ready`) at the same ends.
-/

namespace ZXRewriting

namespace Diagram

open Web

variable {n q : ℕ} {κ : Vertex → Option SpiderKind} {d d' : Diagram} {v : Vertex} {f : Fault}

/-! ### What is done with a diagram -/

/-- A gate is asked for, or a match is to be rewritten. -/
inductive Action
  | ask (r : Request)
  | rewrite (rule : DiagramRule) (m : Match)

/-- Does what is to be done. A gate that is turned down leaves the diagram as it is, and so does a
    match that the rule does not accept. -/
def perform (d : Diagram) : Action → Except Fault Diagram
  | .ask r => d.attempt r
  | .rewrite rule m => do if ← rule.check d m then rule.apply d m else return d

/-- A swap of wires at ends that a wire joins. -/
def Request.IsKnot (r : Request) (d : Diagram) : Prop :=
  r.kind = .swap ∧ ∃ p ∈ r.qubits, ∃ q ∈ r.qubits,
    0 < d.web.joins (d.web.terminal r.side p) (d.web.terminal r.side q)

/-- Bare wires, and what is done with them. -/
def develop (n : ℕ) (actions : List Action) : Except Fault Diagram := do
  actions.foldlM perform (← ofWires n)

/-- The spiders are those with a kind, and those with a phase. The coloured ones are those that are
    carried, and all others have the phase zero. What is not there lies nowhere. Edges are plain. The
    inputs and the outputs are those of bare wires, and each of them has a single wire. -/
structure Orderly (n : ℕ) (d : Diagram) : Prop where
  kinds : ∀ v, v ∈ d.kinds ↔ d.contains v
  phases : ∀ v, v ∈ d.phases ↔ d.contains v
  carriers : ∀ v, v ∈ d.carriers ↔ d.kind v = .ok .z ∨ d.kind v = .ok .x
  phase : ∀ v, d.kind v ≠ .ok .z → d.kind v ≠ .ok .x → d.phase v = .zero
  qubits : ∀ v ∈ d.layout.qubits, d.contains v
  columns : ∀ v ∈ d.layout.columns, d.contains v
  plain : ∀ s t, d.graph.count s t .hadamard = 0
  inputs : d.inputs = (List.range n).map (2 * ·)
  outputs : d.outputs = (List.range n).map (2 * · + 1)
  input : ∀ v ∈ d.inputs, d.kind v = .ok .input ∧ d.degree v = .ok 1
  output : ∀ v ∈ d.outputs, d.kind v = .ok .output ∧ d.degree v = .ok 1

variable {actions : List Action}

/-! ### What one action keeps -/

/-- The tables go together, and gates can be put on at the ends of bare wires. -/
structure Upheld (n : ℕ) (d : Diagram) : Prop where
  booked : Booked n (fun _ => none) d
  ready : d.Ready n
  inputs : d.inputs = (List.range n).map (2 * ·)
  outputs : d.outputs = (List.range n).map (2 * · + 1)

theorem Booked.leaves_addBareWire (h : Booked n κ d) : Leaves (d.addBareWire q) (Booked n κ) := by
  refine Meets.bind h.leaves_addSpider fun r hr => ?_
  obtain ⟨hr, hi⟩ := hr
  obtain ⟨k, hk⟩ := Option.isSome_iff_exists.1 hi
  -- the input is still there when the output has come
  refine Meets.bind (P := fun r' => Booked n κ r'.2 ∧ r'.2.web.Has r.1 ∧ r'.2.web.Has r'.1) ?_
    fun r' hr' => ?_
  · exact hr.full.leaves_addSpider.imp fun r' hr' =>
      ⟨hr'.1.mono fun u k hu => hr.kind u k hu, hr'.1.has hk, hr'.2⟩
  · obtain ⟨hbooked, hi, ho⟩ := hr'
    have hplaced := (hbooked.place hi (some q) none).place (v := r'.1) ho (some q) none
    exact { hplaced with }

theorem booked_blank (n : ℕ) : Booked n (fun _ => none) (blank n) := by
  have hnone {α : Type} (v : Vertex) : ((∅ : VertexMap α)[v]?).isSome = false := by simp
  have hhas (v : Vertex) : ¬(blank n).web.Has v := by
    simp [Has, web, blank]
  exact {
    kind := fun v k hk => by cases hk
    lt := fun v hv => absurd hv (hhas v)
    phased := fun v => iff_of_false (by simp [blank]) (hhas v)
    carried := fun v => iff_of_false (by simp [blank, web]) fun hc => hhas v hc.has
    rest := fun v _ => by simp [web, blank, Diagram.phase]
    qubit := fun v hv => by simp [blank, Diagram.qubit?, Layout.new, Layout.qubit?] at hv
    column := fun v hv => by simp [blank, Diagram.column?, Layout.new, Layout.column?] at hv
    wires := rfl }

/-- Bare wires. -/
theorem exists_upheld (n : ℕ) : ∃ d, ofWires n = .ok d ∧ d.Upheld n := by
  obtain ⟨d, hok, hbare, hwires⟩ := exists_ofWires n
  have hbooked : Leaves (ofWires n) (Booked n fun _ => none) :=
    Leaves.foldlM (booked_blank n) fun _ _ _ h => h.leaves_addBareWire
  exact ⟨d, hok, hbooked.of_ok hok, hbare.ready hwires, hbare.inputs, hbare.outputs⟩

/-- Gates can be asked for where they can be put on. -/
theorem Ready.wired (h : d.Ready n) : d.Wired where
  coherent := h.coherent
  listed := h.web.toListed
  wires side := (h.wires.trans (h.web.length side).symm).le

/-- Where a gate has been put on, others can be. -/
theorem Ready.of_attach (h : d.Ready n) {side : Side} {gate : GateKind} {qubits : List ℕ}
    {angle : Angle} {convert : Bool} (hok : d.attach side gate qubits angle convert = .ok d') :
    d'.Ready n ∧ ∀ side, d'.web.terminals side = d.web.terminals side := by
  obtain ⟨⟨⟩, hcheck, -⟩ := of_bind_eq_ok (x := d.checkQubits gate qubits) hok
  -- as this did not break off, it was no swap at ends that a wire joins
  have hmeets := h.wired.attach side gate qubits angle convert fun hswap _ q hq r hr => by
    by_contra hne
    obtain ⟨f, hf⟩ := h.wired.fault_iff.2 ⟨hswap, hcheck, q, hq, r, hr, Nat.pos_of_ne_zero hne⟩
    rw [hok] at hf
    cases hf
  rw [hok] at hmeets
  obtain ⟨hwired, hwires, hfit⟩ := hmeets
  exact ⟨⟨hwired.coherent, hwires.trans h.wires, hfit.ready h.web⟩, hfit.spares.terminals⟩

/-- Gates can still be put on after a rewrite that leaves the ends as they are. -/
theorem Ready.of_moored (h : d.Ready n) (hd' : d'.Coherent) (hwires : d'.layout.wires = n)
    (hmoored : d.web.Moored d'.web) : d'.Ready n := by
  have hends (side : Side) : d'.web.terminals side = d.web.terminals side := by
    cases side <;> [exact hmoored.inputs; exact hmoored.outputs]
  have hend {side : Side} {v : Vertex} (hv : v ∈ d'.web.terminals side) :
      v ∈ d.web.terminals side ∧ d.web.IsEnd v := by
    rw [hends] at hv
    exact ⟨hv, h.web.isEnd hv⟩
  exact ⟨hd', hwires, {
    valid := hd'.valid
    plain := hmoored.plain
    nodup := fun side => hends side ▸ h.web.nodup side
    kind := fun side v hv => (hmoored.kind v (hend hv).2).trans (h.web.kind side v (hend hv).1)
    length := fun side => hends side ▸ h.web.length side
    degree := fun side v hv => hmoored.degree v (hend hv).2 (h.web.degree side v (hend hv).1) }⟩

namespace Upheld

variable (h : d.Upheld n)
include h

theorem attempt (r : Request) : Leaves (d.attempt r) (Upheld n) := by
  have hbooked : Leaves (d.attach r.side r.kind r.qubits r.angle r.convert)
      (Booked n fun _ => none) := h.booked.leaves_attach
  rw [Diagram.attempt]
  split
  · next d' hok =>
    obtain ⟨hready, hends⟩ := h.ready.of_attach hok
    exact ⟨hbooked.of_ok hok, hready, (hends .front).trans h.inputs, (hends .back).trans h.outputs⟩
  · exact h
  · exact trivial

/-- Rewriting does not break off. -/
theorem rewrite {rule : DiagramRule} {m : Match} (hcheck : rule.check d m = .ok true) :
    Attains (rule.apply d m) (Upheld n) := by
  obtain ⟨d', hok, hd', hmoored⟩ := exists_moored h.ready.coherent h.ready.web.plain hcheck
  have hbooked := (h.booked.leaves_apply h.ready.coherent hcheck).of_ok hok
  exact ⟨d', hok, hbooked, h.ready.of_moored hd' hbooked.wires hmoored,
    hmoored.inputs.trans h.inputs, hmoored.outputs.trans h.outputs⟩

/-- What is done with a diagram breaks off at a swap at ends that a wire joins, or not at all. -/
theorem perform (a : Action) :
    Meets (d.perform a) (Upheld n) fun _ => ∃ r, a = .ask r ∧ r.IsKnot d := by
  cases a with
  | ask r =>
    have hleaves := h.attempt r
    change Meets (d.attempt r) _ _
    cases hok : d.attempt r with
    | ok d' => exact hleaves.of_ok hok
    | error f =>
      have hfault : d.attach r.side r.kind r.qubits r.angle r.convert = .error (.fault f) := by
        rw [Diagram.attempt] at hok
        split at hok
        · cases hok
        · cases hok
        · next hf => rw [hf, Except.error.inj hok]
      obtain ⟨hswap, -, hjoined⟩ := h.ready.wired.fault_iff.1 ⟨f, hfault⟩
      exact ⟨r, rfl, hswap, hjoined⟩
  | rewrite rule m =>
    refine Meets.of_exists ?_
    obtain ⟨accepted, hcheck⟩ := succeeds_check h.ready.coherent rule m
    rw [Diagram.perform, hcheck]
    cases accepted with
    | true => exact h.rewrite hcheck
    | false => exact ⟨d, rfl, h⟩

/-- What is upheld is in good order. -/
theorem orderly : d.Orderly n := by
  have hd := h.ready.coherent
  have hhas (v : Vertex) : d.contains v ↔ d.web.Has v := by
    rw [contains_eq hd, decide_eq_true_iff]
  have hkind {v : Vertex} {k : SpiderKind} : d.kind v = .ok k ↔ d.web.kind v = some k :=
    ⟨kind_of_eq_ok, kind_eq⟩
  have hcoloured (v : Vertex) : d.web.IsColoured v ↔ d.kind v = .ok .z ∨ d.kind v = .ok .x := by
    rw [hkind, hkind, IsColoured]
    cases d.web.kind v with
    | none => simp
    | some k => cases k <;> simp [SpiderKind.isPhased]
  have hend (side : Side) {v : Vertex} (hv : v ∈ d.web.terminals side) :
      d.kind v = .ok side.kind ∧ d.degree v = .ok 1 := by
    have hk := h.ready.web.kind side v hv
    rw [Diagram.degree, degree_eq hd (has_of_kind hk), h.ready.web.degree side v hv]
    exact ⟨hkind.2 hk, rfl⟩
  exact {
    kinds := fun v => Std.ExtTreeMap.mem_iff_isSome_getElem?.trans (hhas v).symm
    phases := fun v => by
      rw [Std.ExtTreeMap.mem_iff_isSome_getElem?, hhas]
      exact h.booked.phased v
    carriers := fun v => by
      rw [Std.ExtTreeMap.mem_iff_isSome_getElem?, ← hcoloured]
      exact h.booked.carried v
    phase := fun v hz hx => h.booked.rest v fun hc => ((hcoloured v).1 hc).elim hz hx
    qubits := fun v hv => (hhas v).2 (h.booked.qubit v (Std.ExtTreeMap.mem_iff_isSome_getElem?.1 hv))
    columns := fun v hv =>
      (hhas v).2 (h.booked.column v (Std.ExtTreeMap.mem_iff_isSome_getElem?.1 hv))
    plain := h.ready.web.plain
    inputs := h.inputs
    outputs := h.outputs
    input := fun v hv => hend .front hv
    output := fun v hv => hend .back hv }

end Upheld

/-! ### Runs -/

theorem develop_snoc (n : ℕ) (actions : List Action) (a : Action) :
    develop n (actions ++ [a]) = (do (← develop n actions).perform a) := by
  obtain ⟨bare, hbare, -⟩ := exists_upheld n
  rw [develop, develop, hbare]
  change List.foldlM _ bare (actions ++ [a]) = List.foldlM _ bare actions >>= fun d => d.perform a
  rw [List.foldlM_append]
  exact bind_congr fun d => bind_pure _

/-- A run keeps up what each action does, until it breaks off. -/
theorem meets_develop (n : ℕ) (actions : List Action) : Meets (develop n actions) (Upheld n)
    fun _ => ∃ done r rest d, actions = done ++ .ask r :: rest ∧ develop n done = .ok d ∧
      r.IsKnot d := by
  obtain ⟨bare, hbare, h⟩ := exists_upheld n
  have hrun : develop n actions = actions.foldlM perform bare := by
    rw [develop, hbare]
    rfl
  have hstart : develop n [] = .ok bare := by
    rw [develop, hbare]
    rfl
  rw [hrun]
  refine (Meets.foldlM (fun done d => develop n done = .ok d ∧ d.Upheld n) actions ⟨hstart, h⟩
    fun done a rest d hsplit hd => ?_).mono (fun d hd => hd.2) fun _ he => he
  obtain ⟨hdone, hd⟩ := hd
  have hmeets := hd.perform a
  have hnext : develop n (done ++ [a]) = d.perform a := by
    rw [develop_snoc, hdone]
    rfl
  cases hok : d.perform a with
  | ok d' =>
    rw [hok] at hmeets hnext
    exact ⟨hnext, hmeets⟩
  | error f =>
    rw [hok] at hmeets
    obtain ⟨r, rfl, hknot⟩ := hmeets
    exact ⟨done, r, rest, d, hsplit, hdone, hknot⟩

/-- A run breaks off at a swap of wires at ends that a wire joins, if it does, and never where the
    diagram is rewritten. -/
theorem exists_knot (h : develop n actions = .error f) : ∃ done r rest d,
    actions = done ++ .ask r :: rest ∧ develop n done = .ok d ∧ r.IsKnot d := by
  have hmeets := meets_develop n actions
  rwa [h] at hmeets

/-- However gates are put onto bare wires or turned down, and the diagram is rewritten in between,
    what comes of it is in good order, and a rule that accepts a match rewrites there. -/
theorem orderly_develop (h : develop n actions = .ok d) : d.Orderly n ∧ ∀ (rule : DiagramRule) m,
    Succeeds (rule.check d m) ∧ (rule.check d m = .ok true → Succeeds (rule.apply d m)) := by
  have hmeets := meets_develop n actions
  rw [h] at hmeets
  have hd : d.Upheld n := hmeets
  exact ⟨hd.orderly, fun rule m => ⟨succeeds_check hd.ready.coherent rule m,
    fun hcheck => (hd.rewrite hcheck).succeeds⟩⟩

/-- A gate at either side of two wires and one for a wire that is not there, then boxes around the X
    spider, a match that is not accepted, and Z spiders that are fused. -/
def dealings : List Action :=
  [.ask ⟨.back, .cnot, [0, 1], .exact .zero, false⟩,
    .ask ⟨.back, .hadamard, [5], .exact .zero, false⟩,
    .ask ⟨.front, .zPhase, [0], .exact (.reduce 1 4), false⟩,
    .rewrite .hadamard [5],
    .rewrite .cancel [4, 5],
    .rewrite .fusion [6, 4]]

/-- The boxes can be taken off again. -/
theorem dealings_orderly : ∃ d, develop 2 dealings = .ok d ∧ d.Orderly 2 ∧
    DiagramRule.colourChange.check d [5, 7, 8, 9] = .ok true ∧
    Succeeds (DiagramRule.colourChange.apply d [5, 7, 8, 9]) := by
  have hrun : (do DiagramRule.colourChange.check (← develop 2 dealings) [5, 7, 8, 9]) =
      .ok true := by decide +kernel
  obtain ⟨d, hok, hcheck⟩ := of_bind_eq_ok hrun
  obtain ⟨horderly, hrules⟩ := orderly_develop hok
  exact ⟨d, hok, horderly, hcheck, (hrules _ _).2 hcheck⟩

end Diagram

end ZXRewriting
