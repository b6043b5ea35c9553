import ZXRewriting.Extraction.Basic
import ZXRewriting.Proofs.GraphLike.TCount

/-!
# The T-count of an extraction

A phase that is no multiple of a quarter turn leaves the diagram only as a rotation in the circuit, and
all other gates that are taken off are Clifford gates. So if the T-counts of the diagram and of the
circuit add up to `n` at most (`Extraction.State.Within`), they do after each step of an extraction, and
the circuit that comes out in the end has a T-count of `n` at most (`Extraction.tCount_le_of_circuitOf`).
Whether the steps make sense for the diagram plays no part.
-/

namespace ZXRewriting

theorem of_lift_eq_ok {ε α : Type} {x : Except Fault α} {a : α}
    (h : (liftM x : Attempt ε α) = .ok a) : x = .ok a := by
  cases x with
  | ok b => exact congrArg Except.ok (Except.ok.inj h)
  | error f => cases h

theorem Circuit.tCount_pushFront {c : Circuit} {g : Gate} :
    (c.pushFront g).tCount = c.tCount + if g.isNonClifford then 1 else 0 :=
  List.countP_cons

namespace GraphLike

open Web

variable {g : GraphLike} {k : ℕ} {p : Phase} {s t v : Vertex}

theorem Bounded.setPhase (h : Bounded k g) (hp : p.isClifford) : Bounded k (g.setPhase v p) := by
  refine ⟨h.uniform, ?_⟩
  rw [web_setPhase]
  exact h.tCountLe.setPhase hp

theorem Bounded.removeIdentity (h : Bounded k g) : Leaves (g.removeIdentity v) (Bounded k) := by
  refine Leaves.after fun edges _ => ?_
  split
  · exact h.removeSpider.bind fun g₁ h₁ => stable_bounded.leaves_addEdgeReduced h₁ rfl
  · trivial

/-- What is no end of a wire is a Z spider. -/
theorem Bounded.isZ_of_isBoundary (h : Bounded k g) (hv : g.isBoundary v = .ok false) :
    g.web.IsZ v := by
  obtain ⟨κ, hκ, hb⟩ := of_bind_eq_ok hv
  have hkind := Diagram.kind_of_eq_ok hκ
  refine (h.uniform v (has_of_kind hkind)).resolve_right fun hend => ?_
  rw [IsEnd, hkind] at hend
  exact absurd (hend.symm.trans (Except.ok.inj hb)) (by decide)

end GraphLike

namespace Extraction.State

open GraphLike

variable {s : State} {n : ℕ} {g : Gate} {v : Vertex}

/-- The T-counts of the diagram that is left and of the gates taken off add up to `n` at most. -/
def Within (n : ℕ) (s : State) : Prop := ∃ k, Bounded k s.graph ∧ k + s.circuit.tCount ≤ n

namespace Within

section

variable (h : s.Within n)
include h

/-- Changing the diagram. -/
theorem leaves_graph {x : Except Fault GraphLike}
    (hx : ∀ k, Bounded k s.graph → Leaves x (Bounded k)) :
    Leaves x fun g => ({ s with graph := g } : State).Within n := by
  obtain ⟨k, hk, hle⟩ := h
  exact (hx k hk).imp fun g hg => ⟨k, hg, hle⟩

/-- A Clifford gate. -/
theorem emit (hg : g.isNonClifford = false) : (s.emit g).Within n := by
  obtain ⟨k, hk, hle⟩ := h
  refine ⟨k, hk, ?_⟩
  change k + (s.circuit.pushFront g).tCount ≤ n
  rw [Circuit.tCount_pushFront, hg]
  exact hle

/-- A rotation takes its phase off the diagram. -/
theorem takePhase (qubit : ℕ) (hv : s.graph.web.IsZ v) : (s.takePhase qubit v).Within n := by
  rw [State.takePhase]
  split
  · exact h
  obtain ⟨k, hk, hle⟩ := h
  set p := s.graph.phase v with hp
  set s' : State := { s with graph := s.graph.setPhase v .zero }.emit ⟨.zPhase, [qubit], p⟩
  have hcount : s'.circuit.tCount = s.circuit.tCount + if p.isClifford then 0 else 1 := by
    refine Circuit.tCount_pushFront.trans ?_
    cases hc : p.isClifford <;> simp [Gate.isNonClifford, GateKind.hasPhase, hc]
  by_cases hc : p.isClifford
  · refine ⟨k, hk.setPhase rfl, ?_⟩
    rw [hcount, if_pos hc]
    exact hle
  · have htaken (u : Vertex) (hu : (s.graph.web.setPhase v .zero).IsNonClifford u) :
        s.graph.web.IsNonClifford u ∧ u ≠ v := by
      obtain ⟨hcol, hphase⟩ := hu
      rw [Web.phase_setPhase, Function.update_apply] at hphase
      split at hphase
      · exact absurd rfl hphase
      · next hne => exact ⟨⟨hcol, hphase⟩, hne⟩
    obtain ⟨j, rfl, hj⟩ := hk.tCountLe.take ⟨hv.isColoured, hc⟩ (fun hnc => (htaken v hnc).2 rfl)
      fun u hu => (htaken u hu).1
    refine ⟨j, ⟨hk.uniform, ?_⟩, ?_⟩
    · change (s.graph.setPhase v .zero).web.TCountLe j
      rw [web_setPhase]
      exact hj
    · rw [hcount, if_neg hc]
      omega

theorem takeHadamard {qubit : ℕ} {o : Vertex} {kind : EdgeKind} :
    Leaves (s.takeHadamard qubit o v kind) (Within n) := by
  rw [State.takeHadamard]
  split
  · exact (h.leaves_graph fun k hk => stable_bounded.leaves_setEdgeKind hk).bind
      fun g hg => hg.emit rfl
  · exact h

theorem padInput {i : Vertex} : Leaves (s.padInput v i) (Within n) := by
  refine Leaves.after fun kind _ => ?_
  obtain ⟨k, hk, hle⟩ := h
  have hnew := stable_bounded.addSpider s.graph (s.graph.qubit? i) ((s.graph.column? i).map (· + 1)) hk
  refine (stable_bounded.leaves_addEdge hnew).bind fun g₁ h₁ =>
    (stable_bounded.leaves_addEdge h₁).bind fun g₂ h₂ =>
      (stable_bounded.leaves_removeEdge h₂).bind fun g₃ h₃ => ⟨k, h₃, hle⟩

/-! ### The frontier -/

theorem prepareNeighbor {qubit : ℕ} {o u : Vertex} :
    Leaves (s.prepareNeighbor qubit o v u) (Within n) := by
  rw [State.prepareNeighbor]
  split
  · exact h
  refine Leaves.after fun b _ => ?_
  split
  · split
    · trivial
    refine Leaves.after fun m _ => ?_
    split
    · exact Meets.lift h.padInput
    · exact h
  split
  · exact (Meets.lift (h.leaves_graph fun k hk => stable_bounded.leaves_removeEdge hk)).bind
      fun g hg => hg.emit rfl
  · refine Leaves.after fun b _ => ?_
    split
    · exact h
    · trivial

theorem prepareOutput {o : Vertex} {qubit : ℕ} : Leaves (s.prepareOutput o qubit) (Within n) := by
  refine Leaves.after fun edges _ => ?_
  split
  · trivial
  refine Meets.bind (Meets.lift h.takeHadamard) fun s₁ h₁ => Leaves.after fun b hb => ?_
  split
  · exact h₁
  next u kind _ _ hne =>
  have hu : s₁.graph.web.IsZ u := by
    obtain ⟨k, hk, -⟩ := h₁
    exact hk.isZ_of_isBoundary (of_lift_eq_ok (by simpa [hne] using hb))
  have h₂ : ({ s₁ with frontier := s₁.frontier ++ [(qubit, u)] } : State).Within n := h₁
  exact Leaves.after fun us _ => .foldlM (h₂.takePhase qubit hu) fun _ _ _ hs => hs.prepareNeighbor

theorem prepare : Leaves s.prepare (Within n) :=
  .foldlM (show ({ s with frontier := [] } : State).Within n from h) fun _ _ _ hs => hs.prepareOutput

/-! ### Taking spiders out -/

theorem removeGadget (centres : List Vertex) :
    Leaves (s.removeGadget centres) fun r => ∀ x, r = some x → x.2.Within n := by
  refine Leaves.after fun near _ => ?_
  split
  · intro x hx
    cases hx
  refine Leaves.after fun b hb => ?_
  split
  · next hpass =>
    have hcheck := of_lift_eq_ok hb
    rw [hpass] at hcheck
    exact (Meets.lift (h.leaves_graph fun k hk => hk.frontierPivot hcheck)).bind
      fun g hg x hx => Option.some.inj hx ▸ hg
  · trivial

theorem removeWires : Leaves s.removeWires fun r => ∀ s', r = some s' → s'.Within n := by
  obtain ⟨k, hk, hle⟩ := h
  refine Meets.bind (P := fun r : ℕ × GraphLike => Bounded k r.2) ?_ fun r hr => ?_
  · refine Leaves.foldlM (P := fun r : ℕ × GraphLike => Bounded k r.2) hk fun v _ r hr => ?_
    refine Leaves.after fun b _ => ?_
    split
    · exact hr.removeIdentity.bind fun g hg => hg
    · exact hr
  · dsimp only
    split
    · intro s' hs'
      cases hs'
    · exact fun s' hs' => Option.some.inj hs' ▸ ⟨k, hr, hle⟩

theorem setMatrix {neighbors : List Vertex} {m : BitMatrix} :
    Leaves (s.setMatrix neighbors m) (Within n) := by
  refine (h.leaves_graph fun k hk => .foldlM hk fun row _ g hg => .foldlM hg fun cell _ g hg =>
    ?_).bind fun g hg => hg
  refine Leaves.after fun joined _ => ?_
  split <;> split
  · exact hg
  · exact stable_bounded.leaves_addEdge hg
  · exact stable_bounded.leaves_removeEdge hg
  · exact hg

theorem emitAll {gates : List Gate} (hgates : ∀ g ∈ gates, g.isNonClifford = false) :
    (gates.foldl State.emit s).Within n := by
  induction gates generalizing s with
  | nil => exact h
  | cons g rest ih =>
    exact ih (h.emit (hgates g List.mem_cons_self)) fun g' hg' => hgates g' (List.mem_cons_of_mem g hg')

theorem addFrontierRows {neighbors : List Vertex} {m : BitMatrix} {target : ℕ} {sources : List ℕ} :
    Leaves (s.addFrontierRows neighbors m target sources) (Within n) := by
  refine Leaves.after fun sum _ => ?_
  refine Meets.bind (P := fun gates : List Gate => ∀ g ∈ gates, g.isNonClifford = false)
    (Leaves.mapM fun a _ => ?_) fun gates hgates => (h.emitAll hgates).setMatrix
  split
  · exact rfl
  · trivial

theorem rowStep : Leaves s.rowStep (Within n) := by
  refine Leaves.after fun neighbors _ => Leaves.after fun m _ => Leaves.after fun sums _ => ?_
  split
  · exact h.addFrontierRows
  · exact h

end

end Within

/-! ### Rounds -/

/-- What a round leaves behind. -/
def WithinRound (n : ℕ) : Round → Prop
  | .finished s => s.Within n
  | .next s _ => s.Within n

namespace Within

section

variable (h : s.Within n)
include h

/-- The last part of a round. -/
theorem retry {centres : List Vertex} : Leaves (do
      match ← s.removeWires with
      | some s => return .next s centres
      | none => s.stop .stuck : Attempt Unextracted Round) (WithinRound n) := by
  refine Meets.bind (Meets.lift h.removeWires) fun r hr => ?_
  cases r with
  | some s' => exact hr s' rfl
  | none => trivial

theorem round (options : Options) (centres : List Vertex) :
    Leaves (s.round options centres) (WithinRound n) := by
  refine Meets.bind h.prepare fun s₁ h₁ => ?_
  split
  · exact h₁
  refine Meets.bind (h₁.removeGadget centres) fun r hr => ?_
  cases r with
  | some x => exact hr x rfl
  | none =>
    refine Meets.bind (Meets.lift h₁.removeWires) fun r hr => ?_
    cases r with
    | some s₂ => exact hr s₂ rfl
    | none =>
      dsimp only
      split
      · exact Meets.bind (Meets.lift h₁.rowStep) fun s₂ h₂ => h₂.retry
      · exact h₁.retry

theorem runWithin (options : Options) (rounds : ℕ) (centres : List Vertex) :
    Leaves (s.runWithin options rounds centres) (Within n) := by
  induction rounds generalizing s centres with
  | zero => trivial
  | succ rounds ih =>
    refine Meets.bind (h.round options centres) fun r hr => ?_
    cases r with
    | finished s' => exact hr
    | next s' centres' => exact ih hr centres'

omit h in
/-- The swaps that are put in front are Clifford gates. -/
theorem isNonClifford_routeWire {arrivals : List ℕ} {state : List ℕ × List Gate} {q : ℕ}
    (hswaps : ∀ g ∈ state.2, g.isNonClifford = false) :
    ∀ g ∈ (State.routeWire arrivals state q).2, g.isNonClifford = false := by
  rw [State.routeWire]
  split
  · exact hswaps
  split
  · exact hswaps
  intro g hg
  rcases List.mem_append.1 hg with hg | hg
  · exact hswaps g hg
  · rw [List.mem_singleton.1 hg]
    rfl

theorem permute : Leaves s.permute (Within n) := by
  refine Leaves.after fun arrivals _ => ?_
  obtain ⟨k, hk, hle⟩ := h
  have hswaps : ∀ (qs : List ℕ) (state : List ℕ × List Gate),
      (∀ g ∈ state.2, g.isNonClifford = false) →
        ∀ g ∈ (qs.foldl (State.routeWire arrivals) state).2, g.isNonClifford = false := fun qs => by
    induction qs with
    | nil => exact fun _ hstate => hstate
    | cons q rest ih => exact fun state hstate => ih _ (isNonClifford_routeWire hstate)
  have hnone := hswaps (List.range arrivals.length) (List.range arrivals.length, [])
    fun g hg => absurd hg List.not_mem_nil
  refine ⟨k, hk, ?_⟩
  change k + List.countP _ (_ ++ s.circuit.gates) ≤ n
  rw [List.countP_append, List.countP_eq_zero.2 fun g hg => by simp [hnone g hg], Nat.zero_add]
  exact hle

end

end Within

end Extraction.State

namespace Extraction

open GraphLike

variable {g : GraphLike} {n : ℕ} {c : Circuit}

/-- A circuit has no greater T-count than the graph-like diagram that it is extracted from. -/
theorem tCount_le_of_circuitOf (hg : Bounded n g) (hok : circuitOf g = .ok c) : c.tCount ≤ n := by
  have hstart : (State.mk g (.empty g.outputs.length) []).Within n := ⟨n, hg, Nat.le_refl n⟩
  have hextract : Leaves (extract ⟨true, true⟩ g) fun r => r.2.tCount ≤ n := by
    refine Leaves.after fun centres _ => Meets.bind (hstart.runWithin _ _ centres) fun s hs => ?_
    refine Meets.bind (P := State.Within n) hs.permute fun s' hinv => ?_
    obtain ⟨k, _, hle⟩ := hinv
    exact Nat.le_trans (Nat.le_add_left _ k) hle
  obtain ⟨r, hr, heq⟩ := of_bind_eq_ok hok
  obtain rfl : r.2 = c := Except.ok.inj heq
  exact hextract.of_ok hr

end Extraction

end ZXRewriting
