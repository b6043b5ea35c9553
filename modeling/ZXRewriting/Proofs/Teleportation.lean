import ZXRewriting.Proofs.Diagram.RoundTrip
import ZXRewriting.Proofs.Diagram.Thinning
import ZXRewriting.Proofs.TCount

/-!
# Phase teleportation keeps the gates on two wires

Moving phases leaves the cells of a diagram as they are, but for their phases (`Cell.withPhases`), and
tidying leaves some of them, with all the gates on two wires. What is read back has the gates of the
cells, and a rotation for each spider with a phase. So the circuit that phase teleportation leads to
has the gates on two wires that there were, in their order, some of the Hadamard gates, and the
T-count of the diagram (`phaseTeleportation_keeps`).

Every coloured spider of it still names the spider that carries its phase, which is carried by itself
or was taken away in tidying (`phaseTeleportation_names`).
-/

namespace ZXRewriting

open Equiv (Perm)

namespace Cell

variable {w w' : Web} {beside : Vertex → List Vertex} {c : Cell} {φ : Vertex → Phase}

/-- The cell with other phases. -/
def withPhases (φ : Vertex → Phase) : Cell → Cell
  | wire κ _ v t => wire κ (φ v) v t
  | cnot _ _ a b s t => cnot (φ a) (φ b) a b s t
  | cz _ _ a b h s t => cz (φ a) (φ b) a b h s t

@[simp] theorem spots_withPhases : (c.withPhases φ).spots = c.spots := by cases c <;> rfl

@[simp] theorem spiders_withPhases : (c.withPhases φ).spiders = c.spiders := by cases c <;> rfl

@[simp] theorem isPair_withPhases : (c.withPhases φ).isPair = c.isPair := by cases c <;> rfl

theorem gate_withPhases (h : c.gate.kind.hasPhase = false) : (c.withPhases φ).gate = c.gate := by
  cases c with
  | wire κ p v t => cases κ <;> first | rfl | cases h
  | cnot | cz => rfl

theorem kind_gate_withPhases : (c.withPhases φ).gate.kind = c.gate.kind := by
  cases c with
  | wire κ p v t => cases κ <;> rfl
  | cnot | cz => rfl

theorem isPair_iff : c.isPair = true ↔ c.gate.kind.arity = 2 := by
  cases c with
  | wire κ p v t => cases κ <;> exact iff_of_false (fun h => by cases h) fun h => by cases h
  | cnot | cz => exact iff_of_true rfl rfl

theorem hasPhase_of_rotations {g : Gate} (h : g ∈ c.rotations) : g.kind.hasPhase = true := by
  cases c with
  | wire => exact absurd h List.not_mem_nil
  | cnot | cz => rcases List.mem_pair.1 h with rfl | rfl <;> rfl

/-- A web with the same kinds shows the cell with its own phases. -/
theorem Shown.withPhases (h : c.Shown w beside) (hkind : ∀ v ∈ c.spiders, w'.kind v = w.kind v) :
    (c.withPhases w'.phase).Shown w' beside := by
  cases h with
  | wire hκ hk _ hb => exact .wire hκ ((hkind _ (by simp [spiders])).trans hk) (fun _ => rfl) hb
  | cnot hab hst ha hb _ _ hba hbb =>
    exact .cnot hab hst ((hkind _ (by simp [spiders])).trans ha)
      ((hkind _ (by simp [spiders])).trans hb) rfl rfl hba hbb
  | cz hab hst ha hb hm _ _ hba hbb hbox =>
    exact .cz hab hst ((hkind _ (by simp [spiders])).trans ha)
      ((hkind _ (by simp [spiders])).trans hb) ((hkind _ (by simp [spiders])).trans hm) rfl rfl
      hba hbb hbox

theorem isNonClifford_wire {κ : SpiderKind} {p : Phase} {v : Vertex} {t : ℕ}
    (hκ : κ.isBoundary = false) (hk : w.kind v = some κ) (hp : κ.isPhased = true → w.phase v = p) :
    (Cell.wire κ p v t).gate.isNonClifford = true ↔ w.IsNonClifford v := by
  simp only [Web.IsNonClifford, Web.IsColoured, hk, Option.any_some]
  cases κ with
  | z | x => simp [gate, Gate.isNonClifford, GateKind.hasPhase, hp rfl, SpiderKind.isPhased]
  | box => exact iff_of_false (fun h => by cases h) fun h => by cases h.1
  | input | output => cases hκ

/-- The rotations of a cell that are no quarter turns are for spiders with such phases. -/
theorem Shown.countP_gates (h : c.Shown w beside) :
    c.gates.countP (·.isNonClifford) = c.spiders.countP fun v => w.IsNonClifford v := by
  cases h with
  | @wire κ p v t hκ hk hp _ =>
    change [(Cell.wire κ p v t).gate].countP _ = [v].countP _
    simp only [List.countP_singleton, isNonClifford_wire hκ hk hp, decide_eq_true_iff]
  | @cnot p p' a b s t _ _ ha hb hpa hpb _ _ =>
    change [_, (Cell.wire .z p a s).gate, (Cell.wire .x p' b t).gate].countP _ = [a, b].countP _
    simp only [List.countP_cons, List.countP_nil, isNonClifford_wire rfl ha fun _ => hpa,
      isNonClifford_wire rfl hb fun _ => hpb, decide_eq_true_iff]
    rfl
  | @cz p p' a b m s t _ _ ha hb hm hpa hpb _ _ _ =>
    have hbox : ¬w.IsNonClifford m := fun hn => by
      rw [Web.IsNonClifford, Web.IsColoured, hm] at hn
      cases hn.1
    change [_, (Cell.wire .z p a s).gate, (Cell.wire .z p' b t).gate].countP _ = [a, b, m].countP _
    simp only [List.countP_cons, List.countP_nil, isNonClifford_wire rfl ha fun _ => hpa,
      isNonClifford_wire rfl hb fun _ => hpb, decide_eq_true_iff, if_neg hbox]
    rfl

end Cell

namespace Diagram

variable {d d' : Diagram} {n : ℕ} {lines : Side → Perm ℕ} {beside : Vertex → List Vertex}
  {cells cells' : List (ℤ × Cell)} {first last : ℤ} {σ : Perm ℕ}

/-- The cells with other phases. -/
def rephase (φ : Vertex → Phase) (cells : List (ℤ × Cell)) : List (ℤ × Cell) :=
  cells.map fun c => (c.1, c.2.withPhases φ)

theorem flatMap_rephase {α : Type} {φ : Vertex → Phase} {f : ℤ × Cell → List α}
    (hf : ∀ c : ℤ × Cell, f (c.1, c.2.withPhases φ) = f c) :
    (rephase φ cells).flatMap f = cells.flatMap f := by
  rw [rephase, List.flatMap_map]
  exact List.flatMap_congr fun c _ => hf c

theorem forall_mem_rephase {φ : Vertex → Phase} {P : ℤ × Cell → Prop}
    (h : ∀ c ∈ cells, P (c.1, c.2.withPhases φ)) : ∀ c ∈ rephase φ cells, P c :=
  List.forall_mem_map.2 h

/-- With other phases, a diagram has the same cells but for their phases. -/
theorem Written.rephase (h : d.Written n lines beside cells first last)
    (hframe : ∃ phases carriers, d' = { d with phases, carriers }) :
    d'.Written n lines beside (rephase d'.web.phase cells) first last := by
  obtain ⟨phases, carriers, rfl⟩ := hframe
  set d' : Diagram := { d with phases, carriers }
  have hval : d'.web.Valid :=
    ⟨h.coherent.valid.lt, h.coherent.valid.symm, h.coherent.valid.self, h.coherent.valid.has⟩
  exact {
    coherent := ⟨h.coherent.wf, h.coherent.has⟩
    wires := h.wires
    threaded := by
      rw [flatMap_rephase fun _ => Cell.spots_withPhases]
      exact h.threaded.of_beside hval rfl rfl (fun _ _ => rfl) (fun _ hv => hv)
        h.threaded.beside_spider (fun _ _ hwired hv => hwired hv) (fun _ _ _ ht => ht)
        fun _ _ _ _ hwired => hwired
    shown := forall_mem_rephase fun c hc => (h.shown c hc).withPhases fun _ _ => rfl
    inside := fun v => by
      rw [flatMap_rephase fun _ => Cell.spiders_withPhases]
      exact h.inside v
    nodup := by
      rw [flatMap_rephase fun _ => Cell.spiders_withPhases]
      exact h.nodup
    sorted := forall_mem_rephase fun c hc => by
      rw [Cell.spiders_withPhases]
      exact h.sorted c hc
    column := forall_mem_rephase fun c hc v hv =>
      h.column c hc v (Cell.spiders_withPhases ▸ hv)
    column_output := h.column_output
    ordered := List.pairwise_map.2 h.ordered
    range := forall_mem_rephase fun c hc => h.range c hc
    first_eq := h.first_eq
    last_eq := h.last_eq
    first_le := h.first_le
    le_last := h.le_last }

/-! ### The gates that are read -/

/-- Of the gates that are read, those that are no rotations by nothing. -/
theorem filter_read {p : Gate → Bool} (hp : ∀ g : Gate, p (g.relabel σ) = p g)
    (hidle : ∀ g : Gate, p g = true → g.isIdle = false) (gs : List Gate) :
    ((gs.map (Gate.relabel σ)).filter (!·.isIdle)).filter p =
      (gs.filter p).map (Gate.relabel σ) := by
  rw [List.filter_filter, List.filter_map]
  refine congrArg _ (List.filter_congr fun g _ => ?_)
  rw [Function.comp_apply, hp, Gate.isIdle_relabel]
  cases hg : p g with
  | false => rfl
  | true => rw [hidle g hg]; rfl

theorem filter_isPair : (cells.map (·.2.gate)).filter (·.kind.arity == 2) =
    (cells.filter (·.2.isPair)).map (·.2.gate) := by
  rw [List.filter_map]
  refine congrArg _ (List.filter_congr fun c _ => ?_)
  rw [Function.comp_apply, Bool.eq_iff_iff, Cell.isPair_iff, beq_iff_eq]

/-- Other phases do not matter to gates other than rotations. -/
theorem filter_rephase {p : Gate → Bool} {φ : Vertex → Phase}
    (hp : ∀ g g' : Gate, g.kind = g'.kind → p g = p g')
    (hphase : ∀ g : Gate, p g = true → g.kind.hasPhase = false) :
    ((rephase φ cells).map (·.2.gate)).filter p = (cells.map (·.2.gate)).filter p := by
  rw [rephase, List.map_map, List.filter_map, List.filter_map]
  have hkeep : (cells.filter fun c => p (c.2.withPhases φ).gate) = cells.filter fun c => p c.2.gate :=
    List.filter_congr fun c _ => hp _ _ Cell.kind_gate_withPhases
  refine (congrArg _ hkeep).trans (List.map_congr_left fun c hc => ?_)
  exact Cell.gate_withPhases (hphase _ (List.mem_filter.1 hc).2)

section

variable {p : Gate → Bool} (hkind : ∀ g g' : Gate, g.kind = g'.kind → p g = p g')
  (hplain : ∀ g : Gate, p g = true → g.kind.hasPhase = false)
include hkind hplain

/-- The gates of the cells, for gates other than rotations. -/
theorem filter_read_gates : (((cells.flatMap (·.2.gates)).map (Gate.relabel σ)).filter
    (!·.isIdle)).filter p = ((cells.map (·.2.gate)).filter p).map (Gate.relabel σ) := by
  rw [filter_read (fun g => hkind _ _ rfl) fun g hg => by rw [Gate.isIdle, hplain g hg]; rfl,
    filter_gates fun c _ g hg => ?_]
  by_contra hne
  rw [Bool.not_eq_false] at hne
  exact Bool.false_ne_true ((hplain g hne).symm.trans (Cell.hasPhase_of_rotations hg))

end

/-- The rotations that are read are by no quarter turns as often as spiders are. -/
theorem Written.tCount_eq (h : d.Written n lines beside cells first last) (σ : Perm ℕ) :
    d.tCount = .ok ((((cells.flatMap (·.2.gates)).map (Gate.relabel σ)).filter
      (!·.isIdle)).countP (·.isNonClifford)) := by
  have hread : (((cells.flatMap (·.2.gates)).map (Gate.relabel σ)).filter
      (!·.isIdle)).countP (·.isNonClifford) = (cells.flatMap (·.2.spiders)).countP fun v =>
        d.web.IsNonClifford v := by
    rw [List.countP_eq_length_filter, filter_read (fun _ => rfl) fun g hg => ?_, List.length_map,
      ← List.countP_eq_length_filter, List.countP_flatMap, List.countP_flatMap]
    · exact congrArg _ (List.map_congr_left fun c hc => (h.shown c hc).countP_gates)
    · obtain ⟨hphase, hclifford⟩ := Bool.and_eq_true_iff.1 hg
      rw [Gate.isIdle, hphase, Bool.true_and, Bool.eq_false_iff]
      intro hzero
      rw [Phase.isClifford_of_isZero hzero] at hclifford
      cases hclifford
  rw [Diagram.tCount_eq h.coherent, hread, List.countP_eq_length_filter]
  refine congrArg Except.ok (List.Perm.length_eq ?_)
  refine (List.perm_ext_iff_of_nodup (Multigraph.nodup_vertices.filter _) (h.nodup.filter _)).2
    fun v => ?_
  rw [List.mem_filter, List.mem_filter, ← h.inside, decide_eq_true_iff]
  refine and_congr_left fun hv => ?_
  rw [show v ∈ d.graph.vertices ↔ d.web.Has v from
    Multigraph.mem_vertices.trans (h.coherent.has v).symm]
  exact (and_iff_left hv.1.not_isEnd).symm

end Diagram

/-- Phase teleportation keeps the structure of a circuit. A circuit is read back from the diagram it
    leads to that has the same gates on two qubits, in the same order, as the one read back before,
    some of its Hadamard gates, and the T-count of the diagram. -/
theorem phaseTeleportation_keeps {c : Circuit} (hc : ∀ g ∈ c.gates, g.Valid c.qubits)
    (hsize : c.gates.length < 2 ^ 53) : ∃ d d' before after,
      Diagram.ofCircuit c = .ok d ∧ phaseTeleportation d = .ok d' ∧
      d.toCircuit = .ok before ∧ d'.toCircuit = .ok after ∧
      after.gates.filter (·.kind.arity == 2) = before.gates.filter (·.kind.arity == 2) ∧
      (after.gates.filter (·.kind == .hadamard)).Sublist
        (before.gates.filter (·.kind == .hadamard)) ∧
      d'.tCount = .ok after.tCount := by
  obtain ⟨d, bare, hokd, hd, hbare, hputs⟩ := Diagram.exists_ofCircuit hc
  have hrequests : Diagram.ofRequests c.qubits (c.gates.map (Diagram.Side.back, ·)) = .ok d :=
    (Diagram.ofCircuit_eq c).symm.trans hokd
  obtain ⟨lines, beside, cells, first, last, h⟩ :=
    Diagram.recorded_of_ofRequests (by rwa [List.length_map]) hrequests
  rw [Diagram.stream_back] at h
  have hwidth := h.width
  obtain ⟨n, -, hleast⟩ := Diagram.exists_tCount hd
  obtain ⟨m, r, r', hframe, hok₁, hok₂, hok, -⟩ := exists_tidied_master
    (GraphLike.bookkeeping_held n) (Web.durable_tCountLe n) (fun _ _ h => h.tCountLe) hd
    (hputs.drawn hbare.drawn).framed.toHung (.start ((hleast n).2 (Nat.le_refl n)))
  have hm := h.toWritten.rephase hframe
  have hmout : m.outputs = d.outputs := by
    obtain ⟨_, _, rfl⟩ := hframe
    rfl
  obtain ⟨cells₁, h₁, hthin₁, hout₁⟩ :=
    (Diagram.keeps_thinned (by decide) m.outputs).of_simplifyWithin ⟨_, hm, .refl, rfl⟩ hok₁
  obtain ⟨cells₂, h₂, hthin₂, hout₂⟩ :=
    (Diagram.keeps_thinned (by decide) m.outputs).of_simplifyWithin ⟨_, h₁, hthin₁, hout₁⟩ hok₂
  obtain ⟨s, hroute, hswaps, -⟩ := h.exists_routed
  have hroute₂ : (List.range c.qubits).foldlM (r'.2.routeOutput ((List.range c.qubits).map
      ((lines .front).symm * lines .back : Perm ℕ))) (List.range c.qubits, []) = .ok s := by
    rw [← hroute]
    have hsame (arrivals : List ℕ) : r'.2.routeOutput arrivals = d.routeOutput arrivals := by
      funext x j
      rw [Diagram.routeOutput, Diagram.routeOutput, hout₂, hmout]
    rw [hsame]
  refine ⟨d, r'.2, _, _, hokd, hok, h.toCircuit_eq (by omega) rfl hroute,
    h₂.toCircuit_eq (by omega) rfl hroute₂, ?_, ?_, ?_⟩
  · have hkind (g g' : Gate) (he : g.kind = g'.kind) :
        (g.kind.arity == 2) = (g'.kind.arity == 2) := by rw [he]
    have hplain (g : Gate) (hg : (g.kind.arity == 2) = true) : g.kind.hasPhase = false := by
      cases hk : g.kind <;> rw [hk] at hg <;> first | rfl | cases hg
    rw [List.filter_append, List.filter_append, Diagram.filter_read_gates hkind hplain,
      Diagram.filter_read_gates hkind hplain, Diagram.filter_isPair, hthin₂.pairs,
      ← Diagram.filter_isPair, Diagram.filter_rephase hkind hplain]
  · have hkind (g g' : Gate) (he : g.kind = g'.kind) :
        (g.kind == .hadamard) = (g'.kind == .hadamard) := by rw [he]
    have hplain (g : Gate) (hg : (g.kind == .hadamard) = true) : g.kind.hasPhase = false := by
      rw [beq_iff_eq.1 hg]
      rfl
    rw [List.filter_append, List.filter_append, Diagram.filter_read_gates hkind hplain,
      Diagram.filter_read_gates hkind hplain]
    have hleft := (hthin₂.sublist.map (·.2.gate)).filter (·.kind == .hadamard)
    rw [Diagram.filter_rephase hkind hplain] at hleft
    exact (hleft.map _).append (List.Sublist.refl _)
  · rw [h₂.tCount_eq (lines .front).symm, Circuit.tCount, List.countP_append]
    have hnone : s.2.countP (·.isNonClifford) = 0 := List.countP_eq_zero.2 fun g hg => by
      simp [Gate.isNonClifford, (hswaps g hg).2, GateKind.hasPhase]
    rw [hnone, Nat.add_zero]

/-- Two eighth turns of one parity, which is computed twice, with a swap and Hadamard gates between. -/
def parityTurns : Circuit :=
  ⟨2, [.plain .cnot [0, 1], ⟨.zPhase, [1], .reduce 1 4⟩,
    .plain .cnot [0, 1], .plain .swap [0, 1], .plain .hadamard [1], .plain .hadamard [1],
    .plain .cnot [1, 0], ⟨.zPhase, [0], .reduce 1 4⟩]⟩

theorem parityTurns_keeps : (∀ g ∈ parityTurns.gates, g.Valid parityTurns.qubits) ∧
    parityTurns.gates.length < 2 ^ 53 ∧ ∃ d d' before after,
      Diagram.ofCircuit parityTurns = .ok d ∧ phaseTeleportation d = .ok d' ∧
      d.toCircuit = .ok before ∧ d'.toCircuit = .ok after ∧
      after.gates.filter (·.kind.arity == 2) = before.gates.filter (·.kind.arity == 2) ∧
      (after.gates.filter (·.kind == .hadamard)).Sublist
        (before.gates.filter (·.kind == .hadamard)) ∧
      d'.tCount = .ok after.tCount := by
  have hc : ∀ g ∈ parityTurns.gates, g.Valid parityTurns.qubits := fun g hg => by
    simp only [parityTurns, List.mem_cons, List.not_mem_nil, or_false] at hg
    rcases hg with rfl | rfl | rfl | rfl | rfl | rfl | rfl | rfl <;>
      exact ⟨by decide, by decide, by decide⟩
  have hsize : parityTurns.gates.length < 2 ^ 53 := by decide
  exact ⟨hc, hsize, phaseTeleportation_keeps hc hsize⟩

/-! ### Names -/

namespace Web

variable {w w' : Web} {v : Vertex}

/-- The coloured spiders, and no others, name a spider. It is one that is carried by itself, or it is
    gone; and whoever names another one has no phase. -/
structure NamedOrGone (w : Web) : Prop where
  entry : ∀ v, w.IsColoured v ↔ (w.carrier v).isSome
  sign : ∀ v c, w.carrier v = some c → c.sign = 1 ∨ c.sign = -1
  named : ∀ v c, w.carrier v = some c → w.IsOwn c.spider ∨ ¬w.Has c.spider
  rest : ∀ v, w.IsColoured v → ¬w.IsOwn v → w.phase v = .zero

theorem Named.orGone (h : w.Named w.IsColoured) : w.NamedOrGone :=
  ⟨h.entry, h.sign, fun v c hc => .inl (h.own v c hc), h.rest⟩

/-- A spider that is removed takes its own name with it, but may be named by others. -/
theorem durable_namedOrGone : Durable NamedOrGone where
  remove {w} h v := by
    have hcol (u : Vertex) : (w.remove v).IsColoured u ↔ u ≠ v ∧ w.IsColoured u := by
      rw [IsColoured, kind_remove, Function.update_apply]
      split <;> simp_all [IsColoured]
    have hcarrier (u : Vertex) : (w.remove v).carrier u = if u = v then none else w.carrier u :=
      Function.update_apply _ _ _ _
    have hname {u : Vertex} {c : Carrier} (hc : (w.remove v).carrier u = some c) :
        w.carrier u = some c := by
      rw [hcarrier] at hc
      split at hc
      · cases hc
      · exact hc
    refine ⟨fun u => ?_, fun u c hc => h.sign u c (hname hc), fun u c hc => ?_, fun u hu hnot => ?_⟩
    · rw [hcol, hcarrier, h.entry]
      split <;> simp_all
    · by_cases hgone : c.spider = v
      · refine .inr ?_
        rw [hgone, Has, kind_remove, Function.update_self]
        exact Bool.false_ne_true
      · rw [IsOwn, hcarrier, if_neg hgone, Has, kind_remove, Function.update_of_ne hgone]
        exact h.named u c (hname hc)
    · obtain ⟨huv, hu⟩ := (hcol u).1 hu
      rw [phase_remove, Function.update_of_ne huv]
      refine h.rest u hu fun hown => hnot ?_
      rw [IsOwn, hcarrier, if_neg huv]
      exact hown
  congr h hk hp hc := by
    have hcol (u : Vertex) : _ ↔ _ := iff_of_eq (congrArg (fun k => (k u).any (·.isPhased) = true) hk)
    refine ⟨fun u => ?_, fun u c hu => ?_, fun u c hu => ?_, fun u hu hnot => ?_⟩
    · rw [hc, ← h.entry]
      exact hcol u
    · exact h.sign u c (hc ▸ hu)
    · rw [IsOwn, hc, Has, hk]
      exact h.named u c (hc ▸ hu)
    · rw [hp]
      refine h.rest u ((hcol u).1 hu) fun hown => hnot ?_
      rwa [IsOwn, hc]

end Web

/-- In the diagram that phase teleportation of a circuit leads to, each coloured spider names the one
    that carries its phase, unless tidying took that one away. No bound on phases is needed. -/
theorem phaseTeleportation_names {c : Circuit} (hc : ∀ g ∈ c.gates, g.Valid c.qubits) :
    ∃ d d', Diagram.ofCircuit c = .ok d ∧ phaseTeleportation d = .ok d' ∧ d'.web.NamedOrGone := by
  obtain ⟨d, bare, hokd, hd, hbare, hputs⟩ := Diagram.exists_ofCircuit hc
  have hown : d.web.carrier = d.web.ownNames := hputs.ownNames hbare.drawn hbare.own
  have hkept := (GraphLike.bookkeeping_frame d).and
    (GraphLike.bookkeeping_entitled d.web.IsColoured)
  obtain ⟨m, r, r', -, -, -, hok, -, hnames⟩ := exists_tidied_master hkept Web.durable_namedOrGone
    (fun cs m ⟨⟨_, _, hm⟩, h⟩ => by
      subst hm
      exact h.named.orGone)
    hd (hputs.drawn hbare.drawn).framed.toHung ⟨⟨d.phases, d.carriers, rfl⟩, .start hown⟩
  exact ⟨d, r'.2, hokd, hok, hnames⟩

end ZXRewriting
