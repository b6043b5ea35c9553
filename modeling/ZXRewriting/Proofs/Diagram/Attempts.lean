import ZXRewriting.Proofs.Diagram.Composition

/-!
# Putting a gate on is all or nothing

A diagram with plain edges and an end at either side for each of its wires (`Diagram.Wired`) takes a
gate on, or turns it down and stays as it is. There is one exception, a swap of two wires at ends
that a wire joins (`Wired.fault_iff`): the check asks for a single edge at each end, but not where
it leads. Without such wires nothing breaks off, however many gates are asked for
(`Wired.exists_attempts`). A wire without an output makes the check itself break off
(`Diagram.attach_outOfBounds`).
-/

namespace ZXRewriting

open Multigraph (SamePair)

namespace Diagram

open Web

variable {d d' : Diagram} {o o' u : Vertex} {g : Gate} {kind : GateKind} {qubits : List ℕ}
  {angle : Angle} {convert : Bool} {n q r : ℕ} {side : Side}

/-- A diagram with plain edges, and an end at either side for each of its wires. -/
structure Wired (d : Diagram) : Prop where
  coherent : d.Coherent
  listed : d.web.Listed
  wires : ∀ side, d.layout.wires ≤ (d.web.terminals side).length

/-- A request that was turned down, not one that broke off. -/
def Refused (e : Failure Refusal) : Prop := ∃ reason, e = .refused reason

/-- The phase that a gate is put on with is that of some gate, as a diagram takes it on. -/
theorem meets_gatePhase (kind : GateKind) (qubits : List ℕ) (angle : Angle) (convert : Bool) :
    Meets (gatePhase kind angle convert) (fun p => ∃ p', p = (Gate.taken ⟨kind, qubits, p'⟩).phase)
      Refused := by
  rw [gatePhase.eq_def]
  split
  · next hphase =>
    have htaken (p : Phase) : p = (Gate.taken ⟨kind, qubits, p⟩).phase := (if_pos hphase).symm
    split
    · exact ⟨_, htaken _⟩
    · split
      · exact ⟨_, htaken _⟩
      · exact ⟨_, rfl⟩
  · next hphase => exact ⟨.zero, (if_neg hphase).symm⟩

namespace Wired

variable (h : d.Wired)
include h

/-- The check of a wire asks for a single edge at either end. -/
theorem checkEnds (hq : q < d.layout.wires) : Meets (d.checkEnds q)
    (fun _ => ∀ side, ∃ u, d.web.Tied (d.web.terminal side q) u) Refused := by
  have hlt (side : Side) := hq.trans_le (h.wires side)
  have hdegree (side : Side) : d.degree (d.web.terminal side q) =
      .ok (d.web.degree (d.web.terminal side q)) :=
    degree_eq h.coherent (h.listed.isEnd (terminal_mem (hlt side))).has
  rw [Diagram.checkEnds, boundary_terminal (hlt .back), boundary_terminal (hlt .front)]
  simp only [liftM_ok_bind, hdegree]
  split
  · exact ⟨_, rfl⟩
  · next hback =>
    split
    · exact ⟨_, rfl⟩
    · next hfront =>
      rintro (_ | _)
      · exact h.listed.exists_tied (not_not.1 hfront)
      · exact h.listed.exists_tied (not_not.1 hback)

theorem forM_checkEnds (hlt : ∀ q ∈ qubits, q < d.layout.wires) : Meets (qubits.forM d.checkEnds)
    (fun _ => ∀ q ∈ qubits, ∀ side, ∃ u, d.web.Tied (d.web.terminal side q) u) Refused := by
  induction qubits with
  | nil => exact fun q hq => absurd hq List.not_mem_nil
  | cons q rest ih =>
    change Meets (d.checkEnds q >>= fun _ => rest.forM d.checkEnds) _ _
    refine (h.checkEnds (hlt q List.mem_cons_self)).bind fun _ hq => ?_
    exact (ih fun r hr => hlt r (List.mem_cons_of_mem q hr)).mono
      (fun _ hrest => List.forall_mem_cons.2 ⟨hq, hrest⟩) fun _ he => he

/-- What passes the check are the qubits of a valid gate, with a single edge at either end. -/
theorem checkQubits (kind : GateKind) (qubits : List ℕ) : Meets (d.checkQubits kind qubits)
    (fun _ => (∀ p, Gate.Valid d.layout.wires ⟨kind, qubits, p⟩) ∧
      ∀ q ∈ qubits, ∀ side, ∃ u, d.web.Tied (d.web.terminal side q) u) Refused := by
  rw [Diagram.checkQubits]
  split
  · exact ⟨_, rfl⟩
  · next harity =>
    split
    · exact ⟨_, rfl⟩
    · next hnone =>
      obtain ⟨hnodup, hlt⟩ := badQubit?_eq_none_iff.1 hnone
      have hlt := fun q hq => (hlt q hq).1
      exact (h.forM_checkEnds hlt).mono
        (fun _ htied => ⟨fun p => ⟨not_not.1 harity, hnodup, hlt⟩, htied⟩) fun _ he => he

/-- A gate is put on at the ends of its wires, or it is turned down, unless it is a swap of two wires
    at ends that a wire joins. -/
theorem attach (side : Side) (kind : GateKind) (qubits : List ℕ) (angle : Angle) (convert : Bool)
    (hcross : kind = .swap → (∀ q ∈ qubits, q < d.layout.wires) → ∀ q ∈ qubits,
    ∀ r ∈ qubits, d.web.joins (d.web.terminal side q) (d.web.terminal side r) = 0) :
    Meets (d.attach side kind qubits angle convert) (fun d' => d'.Wired ∧
      d'.layout.wires = d.layout.wires ∧
      d.web.Fitted (qubits.map (d.web.terminal side)) d'.web) Refused := by
  rw [Diagram.attach]
  refine (h.checkQubits kind qubits).bind fun _ hvalid => ?_
  refine (meets_gatePhase kind qubits angle convert).bind fun p hp => ?_
  obtain ⟨hg, htied⟩ := hvalid
  obtain ⟨p, rfl⟩ := hp
  obtain ⟨d', hok, hd', hl', hfit, -⟩ := exists_attachUnchecked h.coherent h.listed (hg p)
    (h.wires side) (fun q hq => htied q hq side) fun hswap => hcross hswap (hg p).lt
  rw [show d.attachUnchecked side kind qubits _ = .ok d' from hok]
  exact ⟨⟨hd', hfit.listed, fun side' => by
    rw [hl', hfit.spares.terminals]
    exact h.wires side'⟩, hl', hfit⟩

end Wired

/-! ### What breaks off -/

/-- Wires cannot cross at two ends that a wire joins: one of them would be joined to itself. -/
theorem crossWires_joined (hd : d.Coherent) (hq : d.boundary side q = .ok o)
    (hr : d.boundary side r = .ok o') (ht : d.web.Tied o o') (ht' : d.web.Tied o' o) :
    d.crossWires side q r = .error (.selfLoop o) := by
  obtain ⟨ho, ho'⟩ := ht.has hd.valid
  obtain ⟨m₁, d₁, hok₁, hd₁, hw₁, -⟩ := exists_cut hd ht
  have ho₁ : d₁.web.Has o' := hw₁ ▸ ho'
  obtain ⟨m₂, d₂, hok₂, -⟩ := Gives.removeWires hd₁ ho₁ o 1
  rw [crossWires, hq, hr]
  change (d.firstNeighbor? o >>= fun wa => _) = _
  rw [firstNeighbor?_eq hd ho ht.joins]
  change (d.firstNeighbor? o' >>= fun wb => _) = _
  rw [firstNeighbor?_eq hd ho' ht'.joins]
  change (d.removeWires o o' 1 >>= fun r => _) = _
  rw [hok₁]
  change (d₁.removeWires o' o 1 >>= fun r => _) = _
  rw [hok₂]
  change (d₂.addWire o o >>= fun d => _) = _
  rw [addWire, Multigraph.addEdge, Multigraph.addEdges, if_pos rfl]
  rfl

/-- The check reads the output of a wire even if there is none. -/
theorem attach_outOfBounds (harity : kind.arity = 1) (hq : q < d.layout.wires)
    (hout : d.outputs.length ≤ q) :
    d.attach side kind [q] angle convert = .error (.fault .outOfBounds) := by
  have hnone : d.boundary .back q = .error .outOfBounds := by
    simp only [boundary, List.getElem?_eq_none hout]
  have hends : d.checkEnds q = .error (.fault .outOfBounds) := by
    rw [checkEnds, hnone]
    rfl
  have hgood : badQubit? d.layout.wires [] [q] = none :=
    badQubit?_eq_none_iff.2 ⟨List.nodup_singleton q, by simpa using hq⟩
  have hcheck : d.checkQubits kind [q] = .error (.fault .outOfBounds) := by
    rw [checkQubits, if_neg (by simp [harity]), hgood]
    change (d.checkEnds q >>= fun _ => _) = _
    rw [hends]
    rfl
  rw [attach, hcheck]
  rfl

namespace Wired

variable (h : d.Wired)
include h

/-- Putting a gate on breaks off for a swap of wires at two ends that a wire joins, and for nothing
    else. -/
theorem fault_iff : (∃ f, d.attach side kind qubits angle convert = .error (.fault f)) ↔
    kind = .swap ∧ d.checkQubits kind qubits = .ok () ∧ ∃ q ∈ qubits, ∃ r ∈ qubits,
      0 < d.web.joins (d.web.terminal side q) (d.web.terminal side r) := by
  constructor
  · rintro ⟨f, hf⟩
    have hcheck : d.checkQubits kind qubits = .ok () := by
      have hmeets := h.checkQubits kind qubits
      cases hc : d.checkQubits kind qubits with
      | ok => rfl
      | error e =>
        rw [hc] at hmeets
        obtain ⟨reason, rfl⟩ := hmeets
        rw [Diagram.attach, hc] at hf
        cases hf
    by_contra hno
    have hmeets := h.attach side kind qubits angle convert fun hswap _ q hq r hr => by
      by_contra hne
      exact hno ⟨hswap, hcheck, q, hq, r, hr, Nat.pos_of_ne_zero hne⟩
    rw [hf] at hmeets
    obtain ⟨reason, hreason⟩ := hmeets
    cases hreason
  · rintro ⟨rfl, hcheck, q, hq, r, hr, hjoin⟩
    have hmeets := h.checkQubits .swap qubits
    rw [hcheck] at hmeets
    obtain ⟨hg, htied⟩ := hmeets
    obtain ⟨a, b, rfl, ha, hb, hab⟩ := (hg .zero).exists_two rfl
    set t := d.web.terminal side with ht
    -- the two qubits are the two of the gate, in some order
    have hjoin : 0 < d.web.joins (t a) (t b) := by
      rcases List.mem_pair.1 hq with rfl | rfl <;> rcases List.mem_pair.1 hr with rfl | rfl
      · rw [h.listed.valid.joins_self] at hjoin
        exact absurd hjoin (Nat.lt_irrefl 0)
      · exact hjoin
      · rwa [h.listed.valid.joins_comm]
      · rw [h.listed.valid.joins_self] at hjoin
        exact absurd hjoin (Nat.lt_irrefl 0)
    have hto {q r : ℕ} (hq : q ∈ [a, b]) (hjoin : 0 < d.web.joins (t q) (t r)) :
        d.web.Tied (t q) (t r) := by
      obtain ⟨u, hu⟩ := htied q hq side
      exact hu.joins_pos_iff.1 hjoin ▸ hu
    have hcross := crossWires_joined h.coherent (boundary_terminal (ha.trans_le (h.wires side)))
      (boundary_terminal (hb.trans_le (h.wires side))) (hto List.mem_cons_self hjoin)
      (hto (List.mem_cons_of_mem a List.mem_cons_self) (h.listed.valid.joins_comm _ _ ▸ hjoin))
    refine ⟨.selfLoop (t a), ?_⟩
    rw [Diagram.attach, hcheck]
    change (liftM (d.crossWires side a b) : Attempt Refusal Diagram) = _
    rw [hcross]
    rfl

end Wired

/-- Two inputs joined by a wire, and two outputs. -/
def cups : Diagram where
  graph := ⟨#[some [⟨1, .plain, 1⟩], some [⟨0, .plain, 1⟩], some [⟨3, .plain, 1⟩],
    some [⟨2, .plain, 1⟩]], 4, 2⟩
  kinds := .ofList [(0, .input), (1, .input), (2, .output), (3, .output)] compare
  phases := ∅
  layout := .new 2
  inputs := [0, 1]
  outputs := [2, 3]
  carriers := ∅

/-- The swap breaks off at either side, the first end being the one that is joined to itself. -/
example : cups.push (.plain .swap [0, 1]) = .error (.fault (.selfLoop 2)) ∧
    cups.pushFront (.plain .swap [1, 0]) = .error (.fault (.selfLoop 1)) := by decide +kernel

/-! ### Attempts, one after another -/

/-- A gate as it is asked for. -/
structure Request where
  side : Side
  kind : GateKind
  qubits : List ℕ
  angle : Angle
  convert : Bool

/-- Puts a gate onto the wires, or leaves the diagram as it is if that is turned down. -/
def attempt (d : Diagram) (r : Request) : Except Fault Diagram :=
  match d.attach r.side r.kind r.qubits r.angle r.convert with
  | .ok d' => .ok d'
  | .error (.refused _) => .ok d
  | .error (.fault f) => .error f

/-- Where no wire joins two ends at a side, what is asked for does not break off, and leaves no such
    wire. -/
theorem Wired.exists_attempt (h : d.Wired) (ha : ∀ side, d.web.Unjoined side) (r : Request) : ∃ d',
    d.attempt r = .ok d' ∧ d'.Wired ∧ (∀ side, d'.web.Unjoined side) ∧
      d'.layout.wires = d.layout.wires := by
  have hmeets := h.attach r.side r.kind r.qubits r.angle r.convert fun _ hlt q hq t ht =>
      ha _ _ (terminal_mem ((hlt q hq).trans_le (h.wires _))) _
        (terminal_mem ((hlt t ht).trans_le (h.wires _)))
  rw [attempt]
  cases hattach : d.attach r.side r.kind r.qubits r.angle r.convert with
  | ok d' =>
    rw [hattach] at hmeets
    obtain ⟨hd', hl', hfit⟩ := hmeets
    exact ⟨d', rfl, hd', fun side => hfit.unjoined side (ha side), hl'⟩
  | error e =>
    rw [hattach] at hmeets
    obtain ⟨reason, rfl⟩ := hmeets
    exact ⟨d, rfl, h, ha, rfl⟩

/-- Nothing that is asked for breaks off, however often that is done. -/
theorem Wired.exists_attempts (h : d.Wired) (ha : ∀ side, d.web.Unjoined side) (rs : List Request) :
    ∃ d', rs.foldlM attempt d = .ok d' ∧ d'.Wired ∧ (∀ side, d'.web.Unjoined side) ∧
      d'.layout.wires = d.layout.wires :=
  exists_foldlM (fun _ (d' : Diagram) => d'.Wired ∧ (∀ side, d'.web.Unjoined side) ∧
    d'.layout.wires = d.layout.wires) rs ⟨h, ha, rfl⟩ fun _ r _ _ _ hinv => by
      obtain ⟨d', hok, hd', ha', hl'⟩ := hinv.1.exists_attempt hinv.2.1 r
      exact ⟨d', hok, hd', ha', hl'.trans hinv.2.2⟩

/-- Gates can be asked for on bare wires. -/
theorem Bare.wired (h : Bare n d) (hwires : d.layout.wires = n) : d.Wired where
  coherent := h.coherent
  listed := (h.ready hwires).web.toListed
  wires side := hwires.trans_le ((h.ready hwires).web.length side).ge

/-- Gates can be asked for on the diagram of a graph with plain edges and no fewer outputs than
    inputs. -/
theorem wired_ofGraph {graph : Multigraph} {kinds : VertexMap SpiderKind}
    {phases : VertexMap Phase} (hgraph : graph.WellFormed)
    (hok : ofGraph graph kinds phases = .ok d) (hplain : d.web.Plain)
    (hlen : d.inputs.length ≤ d.outputs.length) : d.Wired := by
  obtain ⟨hd, hlisted, hwires⟩ := listed_ofGraph hgraph hok hplain
  refine ⟨hd, hlisted, fun side => hwires.trans_le ?_⟩
  cases side <;> [exact le_refl _; exact hlen]

end Diagram

end ZXRewriting
