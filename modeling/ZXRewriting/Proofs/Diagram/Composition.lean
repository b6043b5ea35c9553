import ZXRewriting.Proofs.Diagram.Rules
import ZXRewriting.Proofs.Diagram.Stream
import ZXRewriting.Proofs.Semantics.Reversible

/-!
# Putting a gate onto a diagram composes linear maps

Gates can be put onto any diagram with plain edges, as many inputs as outputs and a single edge at
each of them (`Diagram.Ready`), whatever is between them. At a side where no two ends are joined,
the new diagram denotes the linear map of the gate after the old one, or before it
(`Ready.push_composes`), and it differs from the old one at the ends of the wires of the gate only
(`Web.Spares`).

A gate is put together from few edits: spiders on wires, an edge or a box between two new spiders,
and wires that cross. What all of them keep is collected in `Web.Fitted`.
-/

namespace ZXRewriting

open Function (update update_self update_of_ne)
open Multigraph (SamePair)

/-- The kind of the ends of the wires at a side. -/
def Diagram.Side.kind : Diagram.Side → SpiderKind
  | .front => .input
  | .back => .output

theorem Diagram.Side.isBoundary_kind (side : Diagram.Side) : side.kind.isBoundary = true := by
  cases side <;> rfl

namespace Web

variable {w w' : Web} {a b o o' s t u u' v : Vertex} {κ : SpiderKind} {p : Phase} {n q r : ℕ}
  {side : Diagram.Side} {ends : List Vertex}

/-- A web with plain edges only, and a list of ends at either side, each of them once. -/
structure Listed (w : Web) : Prop where
  valid : w.Valid
  plain : w.Plain
  nodup : ∀ side, (w.terminals side).Nodup
  kind : ∀ side, ∀ v ∈ w.terminals side, w.kind v = some side.kind

/-- A web that gates can be put onto: there are as many inputs as outputs, and each of them has a
    single edge. -/
structure Ready (w : Web) (n : ℕ) : Prop extends w.Listed where
  length : ∀ side, (w.terminals side).length = n
  degree : ∀ side, ∀ v ∈ w.terminals side, w.degree v = 1

/-- No wire joins two ends at a side. -/
def Unjoined (w : Web) (side : Diagram.Side) : Prop :=
  ∀ u ∈ w.terminals side, ∀ v ∈ w.terminals side, w.joins u v = 0

/-- What a gate on the wires that end at `ends` leaves as it is: the inputs and the outputs, the
    kinds and the phases of the spiders, the edges between others than these ends, and all edges at
    a spider which is next to none of them. -/
structure Spares (w : Web) (ends : List Vertex) (w' : Web) : Prop where
  terminals : ∀ side, w'.terminals side = w.terminals side
  kind : ∀ v, w.Has v → w'.kind v = w.kind v
  phase : ∀ v, w.Has v → w'.phase v = w.phase v
  between : ∀ a b k, w.Has a → w.Has b → a ∉ ends → b ∉ ends → w'.count a b k = w.count a b k
  away : ∀ a b k, w.Has a → a ∉ ends → (∀ e ∈ ends, w.joins a e = 0) →
    w'.count a b k = w.count a b k

/-- A web made from another one by edits at the given ends. -/
structure Fitted (w : Web) (ends : List Vertex) (w' : Web) : Prop where
  base : w.Listed
  valid : w'.Valid
  plain : w'.Plain
  unjoined : ∀ side, w.Unjoined side → w'.Unjoined side
  tied : ∀ side, ∀ v ∈ w.terminals side, (∃ u, w.Tied v u) → ∃ u, w'.Tied v u
  spares : w.Spares ends w'

/-! ### Single edges -/

/-- With plain edges only, a single edge is one to a neighbour. -/
theorem Valid.exists_tied (hw : w.Valid) (hplain : w.Plain) (hv : w.degree v = 1) :
    ∃ u, w.Tied v u := by
  have hpos : 0 < w.degree v := hv ▸ Nat.one_pos
  obtain ⟨u, hu, hjoin⟩ := Finset.exists_ne_zero_of_sum_ne_zero (Nat.ne_of_gt hpos)
  -- the other vertices share what is left of the sum, which is nothing
  have hsplit : w.joins v u + ∑ x ∈ (Finset.range w.next).erase u, w.joins v x = 1 := by
    rw [Finset.add_sum_erase _ _ hu]
    exact hv
  have hone : w.joins v u = 1 := by omega
  have hrest : ∀ x ∈ (Finset.range w.next).erase u, w.joins v x = 0 :=
    Finset.sum_eq_zero_iff.1 (by omega)
  refine ⟨u, fun x k => ?_⟩
  cases k with
  | hadamard => rw [hplain, if_neg fun h => EdgeKind.noConfusion h.2]
  | plain =>
    rw [← hplain.joins]
    by_cases hx : x = u
    · rw [hx, hone, if_pos ⟨rfl, rfl⟩]
    · rw [if_neg fun h => hx h.1]
      by_contra hne
      have hlt := hw.lt x (hw.has_of_joins (Nat.pos_of_ne_zero hne)).2
      exact hne (hrest x (Finset.mem_erase.2 ⟨hx, Finset.mem_range.2 hlt⟩))

theorem Tied.degree (ht : w.Tied t u) (hw : w.Valid) : w.degree t = 1 :=
  (tied_iff.1 ht).degree hw

namespace Listed

variable (h : w.Listed)
include h

theorem isEnd (hv : v ∈ w.terminals side) : w.IsEnd v := by
  rw [IsEnd, h.kind side v hv]
  exact side.isBoundary_kind

theorem exists_tied (hv : w.degree v = 1) : ∃ u, w.Tied v u := h.valid.exists_tied h.plain hv

/-- What the ends are called says at which side they are. -/
theorem side_eq {side' : Diagram.Side} (hv : v ∈ w.terminals side) (hv' : v ∈ w.terminals side') :
    side = side' := by
  have hkind := h.kind side v hv
  rw [h.kind side' v hv'] at hkind
  cases side <;> cases side' <;> first | rfl | exact absurd hkind (by decide)

end Listed

namespace Ready

variable (h : w.Ready n)
include h

theorem terminal_mem (side : Diagram.Side) (hq : q < n) : w.terminal side q ∈ w.terminals side :=
  Web.terminal_mem (h.length side ▸ hq)

theorem exists_tied (side : Diagram.Side) (hq : q < n) : ∃ u, w.Tied (w.terminal side q) u :=
  h.toListed.exists_tied (h.degree side _ (h.terminal_mem side hq))

theorem isEnds : Ends n w.outputs w.inputs where
  outputs_nodup := h.nodup .back
  inputs_nodup := h.nodup .front
  disjoint _ (hv : _ ∈ w.terminals .back) (hv' : _ ∈ w.terminals .front) :=
    Diagram.Side.noConfusion (h.side_eq hv hv')
  outputs_length := h.length .back
  inputs_length := h.length .front

end Ready

/-- The ends stay unjoined if nothing new joins them. -/
theorem Unjoined.of_le (h : w.Unjoined side) (hends : w'.terminals side = w.terminals side)
    (hle : ∀ a ∈ w.terminals side, ∀ b ∈ w.terminals side, ∀ k, w'.count a b k ≤ w.count a b k) :
    w'.Unjoined side := by
  intro u hu v hv
  rw [hends] at hu hv
  refine Nat.eq_zero_of_le_zero (le_of_le_of_eq ?_ (h u hu v hv))
  exact Nat.add_le_add (hle u hu v hv _) (hle u hu v hv _)

/-- The neighbour of an end is none that it is not joined to. -/
theorem Tied.ne_of_joins (ht : w.Tied o u) (h : w.joins o o' = 0) : u ≠ o' := by
  rintro rfl
  exact Nat.lt_irrefl 0 (h ▸ ht.joins_pos_iff.2 rfl)

/-! ### The edits -/

namespace Fitted

theorem refl (h : w.Listed) : w.Fitted [] w where
  base := h
  valid := h.valid
  plain := h.plain
  unjoined _ ha := ha
  tied _ _ _ ht := ht
  spares := ⟨fun _ => rfl, fun _ _ => rfl, fun _ _ => rfl, fun _ _ _ _ _ _ _ => rfl,
    fun _ _ _ _ _ _ => rfl⟩

section

variable (h : w.Fitted ends w')
include h

theorem has (hv : w.Has v) : w'.Has v := by
  rw [Has, h.spares.kind v hv]
  exact hv

theorem listed : w'.Listed where
  valid := h.valid
  plain := h.plain
  nodup side := h.spares.terminals side ▸ h.base.nodup side
  kind side v hv := by
    rw [h.spares.terminals] at hv
    rw [h.spares.kind v (h.base.isEnd hv).has, h.base.kind side v hv]

/-- Gates can be put onto what was made by edits. -/
theorem ready (hw : w.Ready n) : w'.Ready n where
  toListed := h.listed
  length side := h.spares.terminals side ▸ hw.length side
  degree side v hv := by
    rw [h.spares.terminals] at hv
    obtain ⟨u, ht⟩ := h.tied side v hv (hw.toListed.exists_tied (hw.degree side v hv))
    exact ht.degree h.valid

/-- A spider on the wire at an end. -/
theorem splice (ht : w'.Tied o u) (κ : SpiderKind) (p : Phase) :
    w.Fitted (ends ++ [o]) (w'.splice o u κ p) := by
  have hw := h.valid
  have hcount (a b : Vertex) (k : EdgeKind) := ht.count_splice hw (κ := κ) (p := p) a b k
  have hkind {v : Vertex} (hv : w'.Has v) : (w'.splice o u κ p).kind v = w'.kind v := by
    rw [kind_splice, update_of_ne (hw.ne_next hv)]
  have hends (side : Diagram.Side) : (w'.splice o u κ p).terminals side = w'.terminals side := by
    cases side <;> rfl
  -- between vertices that are there already, nothing but the edge at the end goes
  have hfew {a b : Vertex} (k : EdgeKind) (ha : w'.Has a) (hb : w'.Has b) :
      (w'.splice o u κ p).count a b k = if SamePair a b o u then 0 else w'.count a b k := by
    have han := hw.ne_next ha
    have hbn := hw.ne_next hb
    rw [hcount, if_neg]
    rintro ((⟨he, -⟩ | ⟨-, he⟩) | (⟨he, -⟩ | ⟨-, he⟩))
      <;> [exact han he; exact hbn he; exact han he; exact hbn he]
  refine ⟨h.base, ht.valid_splice hw, fun a b => ?_, fun side ha => (h.unjoined side ha).of_le
    (hends side) fun a ha b hb k => ?_, fun side v hv htied => ?_, ?_⟩
  · rw [hcount, h.plain]
    simp
  · rw [hfew k (h.listed.isEnd ha).has (h.listed.isEnd hb).has]
    split <;> simp
  · by_cases hvo : v = o
    · rw [hvo]
      exact ⟨_, ht.splice hw⟩
    · obtain ⟨x, hx⟩ := h.tied side v hv htied
      exact ⟨_, tied_iff.2 ((tied_iff.1 hx).splice hw ht hvo
        (hw.ne_next (h.has (h.base.isEnd hv).has)))⟩
  · refine ⟨fun side => (hends side).trans (h.spares.terminals side),
      fun v hv => (hkind (h.has hv)).trans (h.spares.kind v hv), fun v hv => ?_,
      fun a b k ha hb hae hbe => ?_, fun a b k ha hae hjoin => ?_⟩
    · refine Eq.trans ?_ (h.spares.phase v hv)
      exact update_of_ne (hw.ne_next (h.has hv)) _ _
    · rw [List.mem_append, List.mem_singleton, not_or] at hae hbe
      rw [hfew k (h.has ha) (h.has hb), if_neg, h.spares.between a b k ha hb hae.1 hbe.1]
      rintro (⟨he, -⟩ | ⟨-, he⟩) <;> [exact hae.2 he; exact hbe.2 he]
    · rw [List.mem_append, List.mem_singleton, not_or] at hae
      obtain ⟨hold, hnext⟩ := List.forall_mem_append.1 hjoin
      have hsame := fun b k => h.spares.away a b k ha hae.1 hold
      -- the spider is not the one next to the end
      have hau : a ≠ u := by
        rintro rfl
        have hone : w'.joins a o = 1 := by rw [hw.joins_comm, ht.joins, if_pos rfl]
        rw [joins, hsame, hsame, ← joins, hnext o (List.mem_singleton_self o)] at hone
        exact Nat.zero_ne_one hone
      have han := hw.ne_next (h.has ha)
      rw [hcount, if_neg, if_neg, hsame]
      · rintro (⟨he, -⟩ | ⟨he, -⟩) <;> [exact hae.2 he; exact hau he]
      · rintro ((⟨he, -⟩ | ⟨he, -⟩) | (⟨he, -⟩ | ⟨he, -⟩))
          <;> [exact han he; exact hau he; exact han he; exact hae.2 he]

/-- Edits that leave the old vertices alone. -/
theorem of_same {w'' : Web} (hval : w''.Valid) (hplain : w''.Plain)
    (hends : ∀ side, w''.terminals side = w'.terminals side)
    (hkind : ∀ v, w.Has v → w''.kind v = w'.kind v)
    (hphase : ∀ v, w.Has v → w''.phase v = w'.phase v)
    (hcount : ∀ a, w.Has a → ∀ b k, w''.count a b k = w'.count a b k) : w.Fitted ends w'' := by
  have hhas {side : Diagram.Side} {v : Vertex} (hv : v ∈ w'.terminals side) : w.Has v :=
    (h.base.isEnd (h.spares.terminals side ▸ hv)).has
  refine ⟨h.base, hval, hplain, fun side ha => (h.unjoined side ha).of_le (hends side)
    fun a ha b _ k => (hcount a (hhas ha) b k).le, fun side v hv htied => ?_, ?_⟩
  · obtain ⟨x, hx⟩ := h.tied side v hv htied
    exact ⟨x, fun y k => (hcount v (h.base.isEnd hv).has y k).trans (hx y k)⟩
  · exact {
      terminals := fun side => (hends side).trans (h.spares.terminals side)
      kind := fun v hv => (hkind v hv).trans (h.spares.kind v hv)
      phase := fun v hv => (hphase v hv).trans (h.spares.phase v hv)
      between := fun a b k ha hb hae hbe => (hcount a ha b k).trans
        (h.spares.between a b k ha hb hae hbe)
      away := fun a b k ha hae hjoin => (hcount a ha b k).trans (h.spares.away a b k ha hae hjoin) }

section New

variable (hs : w'.Has s) (ht : w'.Has t) (hst : s ≠ t) (hs' : ¬w.Has s) (ht' : ¬w.Has t)
include hs ht hst hs' ht'

/-- An edge between new spiders. -/
theorem addEdges : w.Fitted ends (w'.addEdges s t .plain 1) := by
  refine h.of_same (h.valid.setCount hs ht hst _) h.plain.addEdges
    (fun side => by cases side <;> rfl) (fun _ _ => rfl) (fun _ _ => rfl) fun a ha b k => ?_
  rw [h.valid.count_addEdges_eq, if_neg, Nat.add_zero]
  rintro ⟨⟨rfl, -⟩ | ⟨rfl, -⟩, -⟩ <;> [exact hs' ha; exact ht' ha]

/-- A spider between new spiders. -/
theorem addBetween (κ : SpiderKind) (p : Phase) : w.Fitted ends (w'.addBetween s t κ p) := by
  have hw := h.valid
  have hcount (a b : Vertex) (k : EdgeKind) : (w'.addBetween s t κ p).count a b k = _ :=
    hw.count_addBetween hs ht hst a b k
  refine h.of_same (hw.addBetween hs ht) (fun a b => ?_) (fun side => by cases side <;> rfl)
    (fun v hv => ?_) (fun v hv => update_of_ne (hw.ne_next (h.has hv)) _ _) fun a ha b k => ?_
  · rw [hcount, h.plain]
    simp
  · rw [kind_addBetween, update_of_ne (hw.ne_next (h.has hv))]
  · have han := hw.ne_next (h.has ha)
    rw [hcount, if_neg]
    rintro ((⟨he, -⟩ | ⟨rfl, -⟩) | (⟨he, -⟩ | ⟨rfl, -⟩))
      <;> [exact han he; exact hs' ha; exact han he; exact ht' ha]

end New

end

/-- Two wires that cross. -/
theorem cross (h : w.Listed) (ho : o ∈ w.terminals side) (ho' : o' ∈ w.terminals side)
    (hne : o ≠ o') (ht : w.Tied o u) (ht' : w.Tied o' u') (hu : u ≠ o') (hu' : u' ≠ o) :
    w.Fitted [o, o'] (w.cross o o' u u') := by
  have hw := h.valid
  have hends (side : Diagram.Side) : (w.cross o o' u u').terminals side = w.terminals side := by
    cases side <;> rfl
  have hcount := hw.count_cross ht hu ht' hu' hne
  have hfix {a : Vertex} (ha : a ∉ [o, o']) : Equiv.swap o o' a = a := by
    simp only [List.mem_cons, List.not_mem_nil, or_false, not_or] at ha
    exact Equiv.swap_apply_of_ne_of_ne ha.1 ha.2
  -- the ends at a side change places, or stay
  have hswap {side' : Diagram.Side} {v : Vertex} (hv : v ∈ w.terminals side') :
      Equiv.swap o o' v ∈ w.terminals side' := by
    rw [Equiv.swap_apply_def]
    split_ifs with h₁ h₂
    · exact h.side_eq ho (h₁ ▸ hv) ▸ ho'
    · exact h.side_eq ho' (h₂ ▸ hv) ▸ ho
    · exact hv
  refine ⟨h, hw.cross ht hu ht' hu' hne, fun a b => ?_, fun side' ha a hma b hmb => ?_,
    fun side' v hv htied => ?_, ?_⟩
  · rw [hcount, h.plain]
  · rw [hends] at hma hmb
    rw [joins, hcount, hcount]
    exact ha _ (hswap hma) _ (hswap hmb)
  · -- the end whose place it takes has a single edge too
    have htied : ∃ x, w.Tied (Equiv.swap o o' v) x := by
      rw [Equiv.swap_apply_def]
      split_ifs
      · exact ⟨u', ht'⟩
      · exact ⟨u, ht⟩
      · exact htied
    obtain ⟨x, hx⟩ := htied
    have hwired := (tied_iff.1 hx).cross hw ht hu ht' hu' hne
    rw [Equiv.swap_apply_self] at hwired
    exact ⟨_, tied_iff.2 hwired⟩
  · refine ⟨hends, fun _ _ => rfl, fun _ _ => rfl, fun a b k _ _ ha hb => ?_,
      fun a b k _ ha hjoin => ?_⟩
    · rw [hcount, hfix ha, hfix hb]
    · have hnone {e : Vertex} (he : e ∈ [o, o']) (k : EdgeKind) : w.count a e k = 0 := by
        have hj := hjoin e he
        rw [joins] at hj
        cases k <;> omega
      rw [hcount, hfix ha]
      by_cases hb : b ∈ [o, o']
      · rw [hnone hb, Equiv.swap_apply_def]
        split_ifs
        · exact hnone (by simp) k
        · exact hnone (by simp) k
        · exact hnone hb k
      · rw [hfix hb]

end Fitted

end Web

namespace Diagram

open Web

variable {d d' : Diagram} {g : Gate} {n q r : ℕ} {side : Side}

/-- A diagram that gates can be put onto. -/
structure Ready (d : Diagram) (n : ℕ) : Prop where
  coherent : d.Coherent
  wires : d.layout.wires = n
  web : d.web.Ready n

/-- A gate at a side of a linear map. -/
noncomputable def Side.compose (side : Side) (M U : Matrix (Fin n → Bool) (Fin n → Bool) ℂ) :
    Matrix (Fin n → Bool) (Fin n → Bool) ℂ :=
  match side with
  | .front => U * M
  | .back => M * U

section Attach

variable (hd : d.Coherent) (h : d.web.Listed)
include hd h

/-- A spider on a wire. -/
theorem exists_spliced (hq : q < (d.web.terminals side).length)
    (ht : ∃ u, d.web.Tied (d.web.terminal side q) u) (κ : SpiderKind) (p : Phase) : ∃ u d',
    d.web.Tied (d.web.terminal side q) u ∧
      (do return (← d.splice side q κ p (d.freshColumn side)).2) = .ok d' ∧ d'.Coherent ∧
      d'.layout.wires = d.layout.wires ∧ d.web.Fitted [d.web.terminal side q] d'.web ∧
      d'.web = d.web.splice (d.web.terminal side q) u κ p := by
  obtain ⟨u, ht⟩ := ht
  obtain ⟨d', hok, hd', hw', hl'⟩ := exists_spider hd (boundary_terminal hq) ht κ p
    (d.freshColumn side)
  have hfit := (Fitted.refl h).splice ht κ p
  rw [← hw'] at hfit
  exact ⟨u, d', ht, hok, hd', hl', hfit, hw'⟩

omit hd in
/-- What two ends are next to, the second one after a Z spider was put onto the wire at the first. -/
theorem exists_tied_tied (hr : r < (d.web.terminals side).length)
    (ht : ∃ u, d.web.Tied (d.web.terminal side q) u)
    (ht' : ∃ u, d.web.Tied (d.web.terminal side r) u) : ∃ u u',
    d.web.Tied (d.web.terminal side q) u ∧
      (d.web.splice (d.web.terminal side q) u .z .zero).Tied (d.web.terminal side r) u' := by
  obtain ⟨u, ht⟩ := ht
  obtain ⟨u', ht'⟩ := ((Fitted.refl h).splice ht .z .zero).tied side _ (terminal_mem hr) ht'
  exact ⟨u, u', ht, ht'⟩

/-- Putting a gate onto wires that have a single edge at their ends edits these ends only, and acts
    on what is denoted as the gate does. Only wires that cross must not join the two ends. -/
theorem exists_attachUnchecked (hg : g.Valid n) (hn : n ≤ (d.web.terminals side).length)
    (htied : ∀ q ∈ g.qubits, ∃ u, d.web.Tied (d.web.terminal side q) u)
    (hcross : g.kind = .swap → ∀ q ∈ g.qubits, ∀ r ∈ g.qubits,
      d.web.joins (d.web.terminal side q) (d.web.terminal side r) = 0) : ∃ d',
    d.attachUnchecked side g.kind g.qubits g.taken.phase = .ok d' ∧ d'.Coherent ∧
      d'.layout.wires = d.layout.wires ∧
      d.web.Fitted (g.qubits.map (d.web.terminal side)) d'.web ∧
      Proportional (d'.web.tensors 1).amplitude
        (g.act (d.web.terminal side) (d.web.tensors 1).amplitude) := by
  have hw := h.valid
  have hmem {q : ℕ} (hq : q < n) : d.web.terminal side q ∈ d.web.terminals side :=
    terminal_mem (hq.trans_le hn)
  have hend {q : ℕ} (hq : q < n) := h.isEnd (hmem hq)
  have one := hg.exists_one
  have two (harity : g.kind.arity = 2) : ∃ q r, g.qubits = [q, r] ∧ q < n ∧ r < n ∧
      d.web.terminal side q ≠ d.web.terminal side r := by
    obtain ⟨q, r, hqubits, hq, hr, hqr⟩ := hg.exists_two harity
    exact ⟨q, r, hqubits, hq, hr, fun he =>
      hqr ((terminal_inj (h.nodup side) (hq.trans_le hn) (hr.trans_le hn)).1 he)⟩
  have hnew : ¬d.web.Has d.web.next := hw.not_has_next
  have hnew' : ¬d.web.Has (d.web.next + 1) := fun hv => Nat.not_succ_lt_self (hw.lt _ hv)
  have hne : d.web.next ≠ d.web.next + 1 := Nat.ne_of_lt (Nat.lt_succ_self _)
  -- a gate on one wire is a spider spliced in at the end; one on two wires is two of them and an
  -- edge
  obtain ⟨κ, qubits, phase⟩ := g
  cases κ with
  | zPhase =>
    obtain ⟨q, rfl, hq⟩ := one rfl
    obtain ⟨u, d', ht, hok, hd', hl', hfit, hw'⟩ := exists_spliced hd h (hq.trans_le hn)
      (htied q List.mem_cons_self) .z phase
    refine ⟨d', hok, hd', hl', hfit, .of_eq fun b => ?_⟩
    rw [hw', ht.amplitude_z hw (hend hq)]
    simp only [Pi.one_apply, mul_one]
    rfl
  | xPhase =>
    obtain ⟨q, rfl, hq⟩ := one rfl
    obtain ⟨u, d', ht, hok, hd', hl', hfit, hw'⟩ := exists_spliced hd h (hq.trans_le hn)
      (htied q List.mem_cons_self) .x phase
    refine ⟨d', hok, hd', hl', hfit, .of_eq fun b => ?_⟩
    rw [hw', ht.amplitude_x hw (hend hq), SpiderKind.act_x]
    simp only [Pi.one_apply, mul_one]
    rfl
  | hadamard =>
    obtain ⟨q, rfl, hq⟩ := one rfl
    obtain ⟨u, d', ht, hok, hd', hl', hfit, hw'⟩ := exists_spliced hd h (hq.trans_le hn)
      (htied q List.mem_cons_self) .box .zero
    refine ⟨d', hok, hd', hl', hfit, .of_eq fun b => ?_⟩
    rw [hw', ht.amplitude_hadamard hw (hend hq)]
    rfl
  | cnot =>
    obtain ⟨q, r, rfl, hq, hr, hqr⟩ := two rfl
    obtain ⟨u, u', ht, ht'⟩ := exists_tied_tied h (hr.trans_le hn) (htied q List.mem_cons_self)
      (htied r (List.mem_cons_of_mem q List.mem_cons_self))
    obtain ⟨d', hok, hd', hw', hl'⟩ := exists_cnot hd (boundary_terminal (hq.trans_le hn))
      (boundary_terminal (hr.trans_le hn)) ht ht'
    have hfit := (((Fitted.refl h).splice ht .z .zero).splice ht' .x .zero).addEdges
      (has_of_kind kind_spliceTwo_first) (has_of_kind kind_spliceTwo_second) hne hnew hnew'
    change d.web.Fitted _ (Web.addEdges (d.web.spliceTwo _ _ _ _ _) _ _ _ _) at hfit
    rw [← hw'] at hfit
    refine ⟨d', hok, hd', hl', hfit, 2, two_ne_zero, fun b => ?_⟩
    rw [hw']
    exact ht.amplitude_cnot hw (hend hr) hqr ht' (hend hq) b
  | cz =>
    obtain ⟨q, r, rfl, hq, hr, hqr⟩ := two rfl
    obtain ⟨u, u', ht, ht'⟩ := exists_tied_tied h (hr.trans_le hn) (htied q List.mem_cons_self)
      (htied r (List.mem_cons_of_mem q List.mem_cons_self))
    obtain ⟨d', hok, hd', hw', hl'⟩ := exists_cz hd (boundary_terminal (hq.trans_le hn))
      (boundary_terminal (hr.trans_le hn)) ht ht'
    have hfit := (((Fitted.refl h).splice ht .z .zero).splice ht' .z .zero).addBetween
      (has_of_kind kind_spliceTwo_first) (has_of_kind kind_spliceTwo_second) hne hnew hnew' .box
      .zero
    change d.web.Fitted _ (Web.addBetween (d.web.spliceTwo _ _ _ _ _) _ _ _ _) at hfit
    rw [← hw'] at hfit
    refine ⟨d', hok, hd', hl', hfit, .of_eq fun b => ?_⟩
    rw [hw']
    exact ht.amplitude_cz hw (hend hr) hqr ht' (hend hq) b
  | swap =>
    obtain ⟨q, r, rfl, hq, hr, hqr⟩ := two rfl
    obtain ⟨u, ht⟩ := htied q List.mem_cons_self
    obtain ⟨u', ht'⟩ := htied r (List.mem_cons_of_mem q List.mem_cons_self)
    have hmemq : q ∈ [q, r] := List.mem_cons_self
    have hmemr : r ∈ [q, r] := List.mem_cons_of_mem q List.mem_cons_self
    have hu := ht.ne_of_joins (hcross rfl q hmemq r hmemr)
    have hu' := ht'.ne_of_joins (hcross rfl r hmemr q hmemq)
    obtain ⟨d', hok, hd', hw', hl'⟩ := exists_crossWires hd (boundary_terminal (hq.trans_le hn))
      (boundary_terminal (hr.trans_le hn)) hqr ht hu ht' hu'
    have hfit := Fitted.cross h (hmem hq) (hmem hr) hqr ht ht' hu hu'
    rw [← hw'] at hfit
    refine ⟨d', hok, hd', hl' ▸ rfl, hfit, .of_eq fun b => ?_⟩
    rw [hw']
    exact ht.amplitude_cross hw (hend hq) (hend hr) ht' hqr hu hu' b

end Attach

namespace Ready

variable (h : d.Ready n)
include h

theorem checkQubits (hg : g.Valid n) : d.checkQubits g.kind g.qubits = .ok () := by
  refine checkQubits_eq (fun q hq => ?_) h.wires hg
  obtain ⟨u, ht⟩ := h.web.exists_tied .back hq
  obtain ⟨u', ht'⟩ := h.web.exists_tied .front hq
  exact checkEnds_eq h.coherent (boundary_terminal (h.web.length .back ▸ hq))
    (boundary_terminal (h.web.length .front ▸ hq)) ht ht'

/-- What acts on what is denoted at a side composes the linear maps. -/
theorem exists_linearMap (h' : d'.Ready n) (hg : g.Valid n)
    (hends : ∀ side, d'.web.terminals side = d.web.terminals side)
    (hact : Proportional (d'.web.tensors 1).amplitude
      (g.act (d.web.terminal side) (d.web.tensors 1).amplitude)) : ∃ k : ℂ, k ≠ 0 ∧
      d'.linearMap n n = k • side.compose (g.matrix n) (d.linearMap n n) := by
  have hin : d'.inputs = d.inputs := hends .front
  have hout : d'.outputs = d.outputs := hends .back
  have hisEnds : Ends n d.outputs d.inputs := h.web.isEnds
  have hterm (side : Side) (q : ℕ) (hq : q < (d.web.terminals side).length) :
      (d.web.terminals side)[q]? = some (d.web.terminal side q) := getElem?_terminals hq
  obtain ⟨k, hk, hprop⟩ := (h'.web.valid.contraction h'.web.plain).trans (hact.trans
    ((h.web.valid.contraction h.web.plain).symm.act (d.web.terminal side) g))
  have hmap : d'.linearMap n n = k • toMatrix n n d.outputs d.inputs
      (g.act (d.web.terminal side) d.web.contraction) := by
    ext y x
    rw [linearMap, hin, hout]
    exact hprop _
  cases side with
  | back =>
    obtain ⟨c, hc, hmul⟩ := Gate.matrix_mul_toMatrix n d.inputs (h.web.nodup .back)
      (h.web.length .back) (hterm .back) hg d.web.contraction
    refine ⟨k * c, mul_ne_zero hk hc, ?_⟩
    rw [hmap, mul_smul]
    exact congrArg (k • ·) hmul
  | front =>
    obtain ⟨c, hc, hmul⟩ := Gate.matrix_mul_toMatrix n d.outputs (h.web.nodup .front)
      (h.web.length .front) (hterm .front) hg d.web.contraction
    refine ⟨k * c, mul_ne_zero hk hc, ?_⟩
    -- the map read backwards has the gate after it
    have hback := congrArg Matrix.transpose hmul
    change (toMatrix n n d.inputs d.outputs _).transpose = _ at hback
    rw [← hisEnds.symm.toMatrix_comm, Matrix.transpose_smul, Matrix.transpose_mul,
      hg.transpose_matrix] at hback
    rw [hmap, mul_smul, hback]
    change k • c • ((toMatrix n n d.inputs d.outputs d.web.contraction).transpose * _) = _
    rw [← hisEnds.symm.toMatrix_comm]
    rfl

/-- Putting a gate onto the wires at a side. -/
theorem exists_request {r : Side × Gate} (ha : d.web.Unjoined r.1) (hg : r.2.Valid n) : ∃ d',
    d.request r = .ok d' ∧ d'.Ready n ∧ (∀ side, d.web.Unjoined side → d'.web.Unjoined side) ∧
      d.web.Spares (r.2.qubits.map (d.web.terminal r.1)) d'.web ∧ ∃ k : ℂ, k ≠ 0 ∧
        d'.linearMap n n = k • r.1.compose (r.2.matrix n) (d.linearMap n n) := by
  obtain ⟨d', hok, hd', hl', hfit, hact⟩ := exists_attachUnchecked h.coherent h.web.toListed hg
    (h.web.length r.1).ge (fun q hq => h.web.exists_tied r.1 (hg.lt q hq)) fun _ q hq t ht =>
      ha _ (h.web.terminal_mem r.1 (hg.lt q hq)) _ (h.web.terminal_mem r.1 (hg.lt t ht))
  have hready : d'.Ready n := ⟨hd', hl'.trans h.wires, hfit.ready h.web⟩
  refine ⟨d', ?_, hready, hfit.unjoined, hfit.spares,
    h.exists_linearMap hready hg hfit.spares.terminals hact⟩
  rw [request_of_checkQubits (h.checkQubits hg)]
  exact congrArg liftM hok

end Ready

/-! ### Streams of gates -/

/-- Gates can be put onto bare wires at both sides, and bare wires denote the identity. -/
theorem Bare.ready (h : Bare n d) (hwires : d.layout.wires = n) : d.Ready n where
  coherent := h.coherent
  wires := hwires
  web := {
    valid := h.drawn.valid
    plain := h.drawn.plain
    length := fun side => by
      cases side
      · exact (congrArg List.length h.inputs).trans (by simp)
      · exact (congrArg List.length h.outputs).trans (by simp)
    nodup := fun side => by
      cases side
      · exact h.drawn.inputs_nodup
      · exact h.drawn.outputs_nodup
    kind := fun side v hv => by
      cases side
      · exact (h.drawn.mem_inputs v).1 hv
      · exact (h.drawn.mem_outputs v).1 hv
    degree := fun side v hv => by
      have hend : d.web.IsEnd v := by
        cases side
        · exact isEnd_of_input ((h.drawn.mem_inputs v).1 hv)
        · exact isEnd_of_output ((h.drawn.mem_outputs v).1 hv)
      obtain ⟨u, ht, -⟩ := h.drawn.ends v hend
      exact ht.degree h.drawn.valid }

theorem Bare.unjoined (h : Bare n d) (side : Side) : d.web.Unjoined side := by
  intro u hu v hv
  -- the even vertices are the inputs, and the odd ones the outputs
  cases side with
  | front =>
    rw [terminals, h.inputs, List.mem_map] at hu hv
    obtain ⟨q, hq, rfl⟩ := hu
    obtain ⟨r, -, rfl⟩ := hv
    refine ((h.tied q (List.mem_range.1 hq)).1.joins _).trans (if_neg ?_)
    change ¬2 * r = 2 * q + 1
    omega
  | back =>
    rw [terminals, h.outputs, List.mem_map] at hu hv
    obtain ⟨q, hq, rfl⟩ := hu
    obtain ⟨r, -, rfl⟩ := hv
    refine ((h.tied q (List.mem_range.1 hq)).2.joins _).trans (if_neg ?_)
    change ¬2 * r + 1 = 2 * q
    omega

/-- Bare wires denote the identity. -/
theorem Bare.exists_linearMap (h : Bare n d) : ∃ k : ℂ, k ≠ 0 ∧ d.linearMap n n = k • 1 := by
  obtain ⟨k, hk, hprop⟩ := h.drawn.valid.contraction h.drawn.plain
  refine ⟨k, hk, ?_⟩
  rw [← h.toMatrix_eq_one 1]
  ext y x
  exact hprop _

/-- Gates that are put onto bare wires at either side denote the unitary of their stream, up to a
    scalar. -/
theorem exists_ofRequests {rs : List (Side × Gate)} (hrs : ∀ r ∈ rs, r.2.Valid n) : ∃ d,
    ofRequests n rs = .ok d ∧ ∃ k : ℂ, k ≠ 0 ∧ d.linearMap n n = k • (stream n rs).unitary n := by
  obtain ⟨bare, hbare, h, hwires⟩ := exists_ofWires n
  obtain ⟨d, hok, -, -, hden⟩ := exists_foldlM (f := request) (fun done d => d.Ready n ∧
    (∀ side, d.web.Unjoined side) ∧ ∃ k : ℂ, k ≠ 0 ∧
      d.linearMap n n = k • (stream n done).unitary n) rs (s := bare)
    ⟨h.ready hwires, h.unjoined, h.exists_linearMap⟩ fun done r rest d hsplit hinv => by
      obtain ⟨hd, hun, k, hk, hmap⟩ := hinv
      obtain ⟨d', hok, hd', hun', -, c, hc, hstep⟩ := hd.exists_request (hun r.1)
        (hrs r (hsplit ▸ List.mem_append_right _ List.mem_cons_self))
      refine ⟨d', hok, hd', fun side => hun' side (hun side), c * k, mul_ne_zero hc hk, ?_⟩
      have hone : gatesMatrix n [r.2] = r.2.matrix n := by
        rw [gatesMatrix, List.foldl_cons, List.foldl_nil, Matrix.mul_one]
      rw [hstep, hmap, stream_append, mul_smul]
      obtain ⟨_ | _, g⟩ := r
      · simp only [Side.compose, Side.join, Circuit.unitary, gatesMatrix_append, hone,
          Matrix.smul_mul]
      · simp only [Side.compose, Side.join, Circuit.unitary, gatesMatrix_append, hone,
          Matrix.mul_smul]
  refine ⟨d, ?_, hden⟩
  rw [ofRequests, hbare]
  exact hok

/-! ### Diagrams of graphs -/

/-- What holds of a diagram that takes in the vertices of a graph: the ends are in the lists of
    their side, each once. -/
structure Enrolled (graph : Multigraph) (done : List Vertex) (d : Diagram) : Prop where
  graph_eq : d.graph = graph
  has : ∀ v, d.web.Has v ↔ v ∈ done
  mem : ∀ side v, v ∈ d.web.terminals side ↔ d.web.kind v = some side.kind
  nodup : ∀ side, (d.web.terminals side).Nodup

variable {graph : Multigraph} {kinds : VertexMap SpiderKind} {phases : VertexMap Phase}
  {done : List Vertex} {v : Vertex}

theorem Enrolled.enroll (h : Enrolled graph done d) (hv : v ∉ done) :
    Meets (d.enroll kinds phases v) (Enrolled graph (done ++ [v])) fun _ => True := by
  rw [Diagram.enroll]
  cases hkind : kinds[v]? with
  | none => trivial
  | some κ =>
    refine Meets.bind (P := fun _ => True) (E := fun _ => True) ?_ fun degree _ => ?_
    · cases (liftM (d.degree v) : Attempt Refusal ℕ) <;> trivial
    split
    · trivial
    -- the lists of either side, with the new vertex if it is an end there
    have hlist (side : Side) : Web.terminals (web { d with
        kinds := d.kinds.insert v κ
        phases := d.phases.insert v (if κ.isPhased then (phases[v]?).getD .zero else .zero)
        carriers := if κ.isPhased then d.carriers.insert v ⟨v, 1⟩ else d.carriers
        inputs := if κ = .input then d.inputs ++ [v] else d.inputs
        outputs := if κ = .output then d.outputs ++ [v] else d.outputs }) side =
        if κ = side.kind then d.web.terminals side ++ [v] else d.web.terminals side := by
      cases side <;> rfl
    have hget (u : Vertex) : (d.kinds.insert v κ)[u]? = if u = v then some κ else d.kinds[u]? := by
      rw [Std.ExtTreeMap.getElem?_insert]
      exact if_congr (compare_eq_iff_eq.trans eq_comm) rfl rfl
    have hnew (side : Side) : v ∉ d.web.terminals side := fun hmem =>
      hv ((h.has v).1 (has_of_kind ((h.mem side v).1 hmem)))
    refine ⟨h.graph_eq, fun u => ?_, fun side u => ?_, fun side => ?_⟩
    · change ((d.kinds.insert v κ)[u]?).isSome = true ↔ _
      have hold := h.has u
      change (d.kinds[u]?).isSome = true ↔ _ at hold
      rw [hget, List.mem_append, List.mem_singleton, ← hold]
      split <;> simp [*]
    · have hold := h.mem side u
      change _ ↔ d.kinds[u]? = _ at hold
      change _ ↔ (d.kinds.insert v κ)[u]? = _
      rw [hlist, hget]
      by_cases hu : u = v
      · subst hu
        have hnone := mt hold.2 (hnew side)
        have := hnew side
        split <;> simp [*]
      · split <;> simp [*]
    · rw [hlist]
      split
      · exact List.nodup_append'.2 ⟨h.nodup side, List.nodup_singleton v,
          List.disjoint_singleton.2 (hnew side)⟩
      · exact h.nodup side

/-- Putting spiders onto the wires changes the layout only. -/
theorem exists_placeInOrder (d : Diagram) (vs : List Vertex) :
    ∃ l : Layout, l.wires = d.layout.wires ∧ d.placeInOrder vs = { d with layout := l } := by
  rw [placeInOrder]
  induction vs.zipIdx generalizing d with
  | nil => exact ⟨d.layout, rfl, rfl⟩
  | cons x xs ih =>
    obtain ⟨l, hl, heq⟩ := ih (d.place x.1 (some x.2) none)
    exact ⟨l, hl.trans (Layout.wires_place ..), heq⟩

/-- The diagram of a graph has the ends in its lists, and a wire for every input. -/
theorem listed_ofGraph (hgraph : graph.WellFormed) (hok : ofGraph graph kinds phases = .ok d)
    (hplain : d.web.Plain) :
    d.Coherent ∧ d.web.Listed ∧ d.layout.wires = (d.web.terminals .front).length := by
  have hmeets := Meets.foldlM (f := Diagram.enroll kinds phases) (E := fun _ => True)
    (Enrolled graph) graph.vertices (s := { blank 0 with graph })
    ⟨rfl, fun v => by simp [Has, web, blank],
      fun side v => by cases side <;> simp [terminals, web, blank],
      fun side => by cases side <;> exact List.nodup_nil⟩
    fun done v rest d hsplit hd => hd.enroll fun hmem => by
      have hnodup := Multigraph.nodup_vertices (g := graph)
      rw [hsplit, List.nodup_append'] at hnodup
      exact hnodup.2.2 hmem List.mem_cons_self
  rw [ofGraph] at hok
  obtain ⟨d₀, hfold, hok⟩ := of_bind_eq_ok hok
  rw [hfold] at hmeets
  have hd : Enrolled graph graph.vertices d₀ := hmeets
  obtain ⟨l, hl, hplace⟩ := exists_placeInOrder { d₀ with layout := .new d₀.inputs.length } d₀.inputs
  obtain ⟨l', hl', hplace'⟩ := exists_placeInOrder { d₀ with layout := l } d₀.outputs
  obtain rfl : d = { d₀ with layout := l' } := by
    rw [← Except.ok.inj hok, hplace, ← hplace']
  have hcoherent : Coherent { d₀ with layout := l' } :=
    ⟨hd.graph_eq ▸ hgraph, fun v => (hd.has v).trans (by rw [Multigraph.mem_vertices, ← hd.graph_eq])⟩
  exact ⟨hcoherent, ⟨hcoherent.valid, hplain, hd.nodup, fun side v => (hd.mem side v).1⟩,
    hl'.trans hl⟩

/-- Gates can be put onto the diagram of a graph with plain edges and as many inputs as outputs,
    each of which has a single edge. -/
theorem ready_ofGraph (hgraph : graph.WellFormed) (hok : ofGraph graph kinds phases = .ok d)
    (hplain : d.web.Plain) (hlen : d.outputs.length = d.inputs.length)
    (hdegree : ∀ v, d.web.IsEnd v → d.web.degree v = 1) : d.Ready d.inputs.length := by
  obtain ⟨hd, hlisted, hwires⟩ := listed_ofGraph hgraph hok hplain
  refine ⟨hd, hwires, hlisted, fun side => ?_, fun side v hv => hdegree v (hlisted.isEnd hv)⟩
  cases side <;> [rfl; exact hlen]

/-- Putting a gate onto the outputs of a diagram composes its linear map with the one before, and
    putting it onto the inputs composes it with the one after, up to a scalar; and nothing changes
    but at the ends of its wires. So the diagram of a circuit denotes its unitary. -/
theorem Ready.push_composes (h : d.Ready n) (hg : g.Valid n) :
    (d.web.Unjoined .back → ∃ d', d.push g = .ok d' ∧ d'.Ready n ∧
      d.web.Spares (g.qubits.map d.web.output) d'.web ∧ ∃ k : ℂ, k ≠ 0 ∧
        d'.linearMap n n = k • (g.matrix n * d.linearMap n n)) ∧
    (d.web.Unjoined .front → ∃ d', d.pushFront g = .ok d' ∧ d'.Ready n ∧
      d.web.Spares (g.qubits.map d.web.input) d'.web ∧ ∃ k : ℂ, k ≠ 0 ∧
        d'.linearMap n n = k • (d.linearMap n n * g.matrix n)) ∧
    ∀ c : Circuit, (∀ g ∈ c.gates, g.Valid c.qubits) → ∃ d', ofCircuit c = .ok d' ∧
      ∃ k : ℂ, k ≠ 0 ∧ d'.linearMap c.qubits c.qubits = k • c.unitary c.qubits := by
  refine ⟨fun ha => ?_, fun ha => ?_, fun c hc => ?_⟩
  · obtain ⟨d', hok, hd', -, hspares, hmap⟩ := h.exists_request (r := (.back, g)) ha hg
    exact ⟨d', hok, hd', hspares, hmap⟩
  · obtain ⟨d', hok, hd', -, hspares, hmap⟩ := h.exists_request (r := (.front, g)) ha hg
    exact ⟨d', hok, hd', hspares, hmap⟩
  · have hrs : ∀ r ∈ c.gates.map (Prod.mk Side.back), r.2.Valid c.qubits := by
      intro r hr
      obtain ⟨g, hg, rfl⟩ := List.mem_map.1 hr
      exact hc g hg
    obtain ⟨d', hok, k, hk, hmap⟩ := exists_ofRequests hrs
    refine ⟨d', (ofCircuit_eq c).trans hok, k, hk, ?_⟩
    rw [hmap, Circuit.unitary, stream_back, Circuit.unitary]

/-! ### An example -/

/-- A Z spider next to two inputs and two outputs. -/
def fan : Diagram where
  graph := ⟨#[some [⟨4, .plain, 1⟩], some [⟨4, .plain, 1⟩], some [⟨4, .plain, 1⟩],
    some [⟨4, .plain, 1⟩], some [⟨0, .plain, 1⟩, ⟨1, .plain, 1⟩, ⟨2, .plain, 1⟩, ⟨3, .plain, 1⟩]],
    5, 4⟩
  kinds := .ofList [(0, .input), (1, .input), (2, .output), (3, .output), (4, .z)] compare
  phases := .ofList [(4, .reduce 1 4)] compare
  layout := .new 2
  inputs := [0, 1]
  outputs := [2, 3]
  carriers := ∅

theorem ready_fan : fan.Ready 2 := by
  have hplain : fan.Coherent ∧ fan.web.Plain := by decide +kernel
  refine ⟨hplain.1, rfl, ⟨hplain.1.valid, hplain.2, fun side => ?_, fun side => ?_⟩, fun side => ?_,
    fun side => ?_⟩
  · cases side <;> decide +kernel
  · cases side <;> decide +kernel
  · cases side <;> rfl
  · cases side <;> decide +kernel

/-- The wires of two ends that share their neighbour cross. -/
theorem fan_composes : (Gate.plain .swap [1, 0]).Valid 2 ∧ fan.web.Unjoined .back ∧
    fan.web.Unjoined .front ∧ (∃ d', fan.push (.plain .swap [1, 0]) = .ok d' ∧ ∃ k : ℂ, k ≠ 0 ∧
      d'.linearMap 2 2 = k • ((Gate.plain .swap [1, 0]).matrix 2 * fan.linearMap 2 2)) ∧
    ∃ d', fan.pushFront (.plain .swap [1, 0]) = .ok d' ∧ ∃ k : ℂ, k ≠ 0 ∧
      d'.linearMap 2 2 = k • (fan.linearMap 2 2 * (Gate.plain .swap [1, 0]).matrix 2) := by
  have hg : (Gate.plain .swap [1, 0]).Valid 2 := ⟨rfl, by decide, by decide⟩
  have hback : fan.web.Unjoined .back := by unfold Web.Unjoined; decide +kernel
  have hfront : fan.web.Unjoined .front := by unfold Web.Unjoined; decide +kernel
  obtain ⟨hpush, hpushFront, -⟩ := ready_fan.push_composes hg
  obtain ⟨d', hok, -, -, hmap⟩ := hpush hback
  obtain ⟨d'', hok', -, -, hmap'⟩ := hpushFront hfront
  exact ⟨hg, hback, hfront, ⟨d', hok, hmap⟩, d'', hok', hmap'⟩

end Diagram

end ZXRewriting
