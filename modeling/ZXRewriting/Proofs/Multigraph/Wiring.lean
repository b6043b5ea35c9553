import Mathlib.Algebra.BigOperators.Group.Finset.Piecewise
import Mathlib.Algebra.BigOperators.Group.Finset.Sigma
import ZXRewriting.Proofs.Multigraph.WellFormed

/-!
# Abstract multigraphs

A `Wiring` is an undirected multigraph without loops and nothing else: which vertices are there,
and how many edges of each kind join any two of them. Nothing in it is stored twice, and the
numbers of edges are sums rather than counters: `Wiring.size` counts every pair of vertices once,
`Wiring.degree` the edges at one vertex, and `two_mul_size` relates the two.

`Edit` is a request to change a multigraph, and `Wiring.perform` what it asks for: which requests
are turned down, what the others answer, and the counts after them. Every edit of edges gives the
edges between one pair of vertices other multiplicities (`Wiring.rejoin`), so that the rest of the
wiring stays by definition.
-/

namespace ZXRewriting

open Multigraph (SamePair)

/-- An undirected multigraph without loops. -/
structure Wiring where
  /-- How many vertices were ever made; the next one gets this name. -/
  made : ℕ
  /-- The vertices that are there. -/
  live : Finset Vertex
  /-- The number of edges of a kind between two vertices. -/
  count : Vertex → Vertex → EdgeKind → ℕ
  symm : ∀ s t kind, count s t kind = count t s kind
  loopless : ∀ v kind, count v v kind = 0
  live_of_pos : ∀ s t kind, 0 < count s t kind → s ∈ live
  lt_made : ∀ v ∈ live, v < made

namespace Wiring

variable {w w' : Wiring} {s t v : Vertex} {kind : EdgeKind}

/-- The wiring without vertices. -/
def empty : Wiring where
  made := 0
  live := ∅
  count _ _ _ := 0
  symm _ _ _ := rfl
  loopless _ _ := rfl
  live_of_pos _ _ _ h := absurd h (Nat.lt_irrefl 0)
  lt_made _ h := absurd h (Finset.notMem_empty _)

/-- The number of edges of either kind between two vertices. -/
def joins (w : Wiring) (s t : Vertex) : ℕ := w.count s t .plain + w.count s t .hadamard

/-- The number of edges at a vertex. -/
def degree (w : Wiring) (v : Vertex) : ℕ := ∑ u ∈ w.live, w.joins v u

/-- The number of edges, each pair of vertices taken once. -/
def size (w : Wiring) : ℕ := ∑ s ∈ w.live, ∑ t ∈ w.live with s < t, w.joins s t

theorem joins_comm (w : Wiring) (s t : Vertex) : w.joins s t = w.joins t s := by
  rw [joins, joins, w.symm s t, w.symm s t]

@[simp] theorem joins_self (w : Wiring) (v : Vertex) : w.joins v v = 0 := by
  rw [joins, w.loopless, w.loopless]

theorem joins_eq_zero (h : ¬(s ∈ w.live ∧ t ∈ w.live ∧ s ≠ t)) : w.joins s t = 0 := by
  by_contra hne
  refine h ⟨?_, ?_, fun hst => hne (hst ▸ w.joins_self s)⟩
  · by_contra hs
    have hz kind : w.count s t kind = 0 :=
      Nat.eq_zero_of_not_pos fun hp => hs (w.live_of_pos _ _ _ hp)
    exact hne (by rw [joins, hz, hz])
  · by_contra ht
    have hz kind : w.count s t kind = 0 :=
      Nat.eq_zero_of_not_pos fun hp => ht (w.live_of_pos _ _ _ (w.symm s t kind ▸ hp))
    exact hne (by rw [joins, hz, hz])

/-- Every edge is at two vertices. -/
theorem two_mul_size (w : Wiring) : 2 * w.size = ∑ v ∈ w.live, w.degree v := by
  have hsplit (s t : Vertex) : w.joins s t =
      (if s < t then w.joins s t else 0) + if t < s then w.joins t s else 0 := by
    rcases Nat.lt_trichotomy s t with h | rfl | h
    · rw [if_pos h, if_neg (Nat.lt_asymm h), Nat.add_zero]
    · simp
    · rw [if_neg (Nat.lt_asymm h), if_pos h, Nat.zero_add, w.joins_comm]
  have hswap : ∑ s ∈ w.live, ∑ t ∈ w.live, (if t < s then w.joins t s else 0) =
      ∑ t ∈ w.live, ∑ s ∈ w.live, if t < s then w.joins t s else 0 := Finset.sum_comm
  calc 2 * w.size
      = ∑ s ∈ w.live, ∑ t ∈ w.live, (if s < t then w.joins s t else 0) +
          ∑ s ∈ w.live, ∑ t ∈ w.live, (if t < s then w.joins t s else 0) := by
        rw [hswap, ← Nat.two_mul]
        simp only [size, Finset.sum_filter]
    _ = ∑ v ∈ w.live, w.degree v := by simp only [← Finset.sum_add_distrib, ← hsplit, degree]

theorem size_congr (hl : w'.live = w.live) (hj : ∀ s t, w'.joins s t = w.joins s t) :
    w'.size = w.size := by
  simp only [size, hl, hj]

/-! ### Changes -/

/-- One more vertex, without edges. -/
def addVertex (w : Wiring) : Wiring where
  made := w.made + 1
  live := insert w.made w.live
  count := w.count
  symm := w.symm
  loopless := w.loopless
  live_of_pos s t kind h := Finset.mem_insert_of_mem (w.live_of_pos s t kind h)
  lt_made v h := by
    rcases Finset.mem_insert.1 h with rfl | h
    · exact Nat.lt_succ_self _
    · exact Nat.lt_succ_of_lt (w.lt_made v h)

/-- Without a vertex and its edges. -/
def removeVertex (w : Wiring) (v : Vertex) : Wiring where
  made := w.made
  live := w.live.erase v
  count s t kind := if s = v ∨ t = v then 0 else w.count s t kind
  symm s t kind := by simp only [w.symm s t, or_comm]
  loopless u kind := by simp [w.loopless]
  live_of_pos s t kind h := by
    split at h
    · exact absurd h (Nat.lt_irrefl 0)
    · next hv => exact Finset.mem_erase.2 ⟨fun hs => hv (.inl hs), w.live_of_pos s t kind h⟩
  lt_made u h := w.lt_made u (Finset.mem_of_mem_erase h)

/-- With the given numbers of edges between two vertices, which are there and are not the same if
    any edges are to join them. -/
def rejoin (w : Wiring) (s t : Vertex) (c : EdgeKind → ℕ)
    (h : ∀ kind, 0 < c kind → s ∈ w.live ∧ t ∈ w.live ∧ s ≠ t) : Wiring where
  made := w.made
  live := w.live
  count a b kind := if SamePair a b s t then c kind else w.count a b kind
  symm a b kind := by simp only [SamePair.swap_iff (a := a) (b := b), w.symm a b]
  loopless v kind := by
    split
    · next hp =>
      by_contra hc
      obtain ⟨-, -, hne⟩ := h kind (Nat.pos_of_ne_zero hc)
      rcases hp with ⟨hs, ht⟩ | ⟨ht, hs⟩ <;> exact hne (hs.symm.trans ht)
    · exact w.loopless v kind
  live_of_pos a b kind hpos := by
    split at hpos
    · next hp =>
      obtain ⟨hs, ht, -⟩ := h kind hpos
      rcases hp with ⟨rfl, -⟩ | ⟨rfl, -⟩
      · exact hs
      · exact ht
    · exact w.live_of_pos a b kind hpos
  lt_made := w.lt_made

section Rejoin

variable {c : EdgeKind → ℕ} {h : ∀ kind, 0 < c kind → s ∈ w.live ∧ t ∈ w.live ∧ s ≠ t}

@[simp] theorem live_rejoin : (w.rejoin s t c h).live = w.live := rfl

theorem joins_rejoin (a b : Vertex) : (w.rejoin s t c h).joins a b =
    if SamePair a b s t then c .plain + c .hadamard else w.joins a b := by
  rw [joins, joins]
  change (if _ then _ else _) + (if _ then _ else _) = _
  split <;> rfl

/-- The edges between two vertices are replaced, the others stay. -/
theorem size_rejoin :
    (w.rejoin s t c h).size + w.joins s t = w.size + (c .plain + c .hadamard) := by
  by_cases hst : s ∈ w.live ∧ t ∈ w.live ∧ s ≠ t
  · obtain ⟨hs, ht, hne⟩ := hst
    have hpair (x : ℕ) :
        ∑ a ∈ w.live, ∑ b ∈ w.live, (if SamePair a b s t then x else 0) = 2 * x := by
      have hor (a b : Vertex) : (if SamePair a b s t then x else 0) =
          (if a = s then if b = t then x else 0 else 0) +
            if a = t then if b = s then x else 0 else 0 := by
        simp only [SamePair]
        split_ifs <;> grind
      simp only [hor, Finset.sum_add_distrib]
      simp [Finset.sum_ite_eq', hs, ht]
      omega
    have hjoins (a b : Vertex) : (w.rejoin s t c h).joins a b +
        (if SamePair a b s t then w.joins s t else 0) =
          w.joins a b + if SamePair a b s t then c .plain + c .hadamard else 0 := by
      rw [joins_rejoin]
      split
      · next hp =>
        obtain ⟨rfl, rfl⟩ | ⟨rfl, rfl⟩ := hp
        · exact Nat.add_comm _ _
        · rw [w.joins_comm b a, Nat.add_comm]
      · rfl
    have htwo : 2 * (w.rejoin s t c h).size + 2 * w.joins s t =
        2 * w.size + 2 * (c .plain + c .hadamard) := by
      rw [two_mul_size, two_mul_size, ← hpair, ← hpair]
      simp only [degree, live_rejoin, ← Finset.sum_add_distrib, hjoins]
    omega
  · have hc (kind : EdgeKind) : c kind = 0 := Nat.eq_zero_of_not_pos fun hp => hst (h kind hp)
    have hz := joins_eq_zero hst
    have hsize : (w.rejoin s t c h).size = w.size := size_congr rfl fun a b => by
      rw [joins_rejoin, hc, hc]
      split
      · next hp =>
        obtain ⟨rfl, rfl⟩ | ⟨rfl, rfl⟩ := hp
        · exact hz.symm
        · exact (w.joins_comm _ _ ▸ hz).symm
      · rfl
    rw [hsize, hz, hc, hc]

end Rejoin

theorem joins_le_size (w : Wiring) (s t : Vertex) : w.joins s t ≤ w.size := by
  have := size_rejoin (w := w) (s := s) (t := t) (c := fun _ => 0)
    (h := fun _ h => absurd h (Nat.lt_irrefl 0))
  omega

theorem size_addVertex (w : Wiring) : w.addVertex.size = w.size := by
  have hnew : w.made ∉ w.live := fun h => Nat.lt_irrefl _ (w.lt_made _ h)
  have hz (u : Vertex) : w.joins w.made u = 0 := joins_eq_zero fun h => hnew h.1
  have htwo : 2 * w.addVertex.size = 2 * w.size := by
    have hj (a b : Vertex) : w.addVertex.joins a b = w.joins a b := rfl
    rw [two_mul_size, two_mul_size]
    simp only [degree, hj]
    change ∑ v ∈ insert w.made w.live, ∑ u ∈ insert w.made w.live, _ = _
    simp only [Finset.sum_insert hnew, hz, w.joins_comm _ w.made, Nat.zero_add,
      Finset.sum_const_zero]
  omega

/-- A vertex takes its edges with it. -/
theorem size_removeVertex (hv : v ∈ w.live) : (w.removeVertex v).size + w.degree v = w.size := by
  have hj (a b : Vertex) (ha : a ∈ w.live.erase v) (hb : b ∈ w.live.erase v) :
      (w.removeVertex v).joins a b = w.joins a b := by
    rw [joins, joins]
    change (if _ then _ else _) + (if _ then _ else _) = _
    rw [if_neg, if_neg]
    all_goals
      rintro (rfl | rfl)
      · exact Finset.notMem_erase _ _ ha
      · exact Finset.notMem_erase _ _ hb
  have hrest : 2 * (w.removeVertex v).size =
      ∑ a ∈ w.live.erase v, ∑ b ∈ w.live.erase v, w.joins a b := by
    rw [two_mul_size]
    exact Finset.sum_congr rfl fun a ha => Finset.sum_congr rfl fun b hb => hj a b ha hb
  have hdegree (a : Vertex) : w.degree a = w.joins a v + ∑ b ∈ w.live.erase v, w.joins a b :=
    (Finset.add_sum_erase _ _ hv).symm
  have hat : ∑ a ∈ w.live.erase v, w.joins a v = w.degree v := by
    rw [hdegree, joins_self, Nat.zero_add]
    exact Finset.sum_congr rfl fun a _ => w.joins_comm a v
  have htwo : 2 * w.size = 2 * (w.removeVertex v).size + 2 * w.degree v :=
    calc 2 * w.size
        = w.degree v + ∑ a ∈ w.live.erase v, w.degree a := by
          rw [two_mul_size, Finset.add_sum_erase _ _ hv]
      _ = w.degree v + (w.degree v + 2 * (w.removeVertex v).size) := by
          rw [Finset.sum_congr rfl fun a _ => hdegree a, Finset.sum_add_distrib, hat, hrest]
      _ = 2 * (w.removeVertex v).size + 2 * w.degree v := by omega
  omega

end Wiring

/-! ### Edits -/

/-- A request to change a multigraph. -/
inductive Edit
  | addVertex
  | removeVertex (v : Vertex)
  | addEdge (s t : Vertex) (kind : EdgeKind)
  | addEdges (s t : Vertex) (kind : EdgeKind) (m : ℕ)
  | removeEdges (s t : Vertex) (kind : EdgeKind) (m : ℕ)
  | removeKind (s t : Vertex) (kind : EdgeKind)
  | disconnect (s t : Vertex)
  | setEdgeKind (s t : Vertex) (kind : EdgeKind)
  deriving DecidableEq, Repr

/-- What an edit tells whoever asked for it. -/
inductive Answer
  | done
  /-- The name of a new vertex. -/
  | made (v : Vertex)
  /-- How many edges were removed. -/
  | removed (m : ℕ)
  deriving DecidableEq, Repr

/-- The vertex that is made by an edit, if it is one that makes any. -/
def Answer.vertex? : Answer → Option Vertex
  | made v => some v
  | _ => none

/-- Edits one after the other, with the answer to each. -/
def performAll {σ : Type} (perform : σ → Edit → Except Fault (Answer × σ)) :
    List Edit → σ → Except Fault (List Answer × σ)
  | [], s => .ok ([], s)
  | edit :: rest, s => do
    let (answer, s) ← perform s edit
    let (answers, s) ← performAll perform rest s
    return (answer :: answers, s)

namespace Wiring

/-- With `m` more edges of a kind between two vertices, which have to be there unless `m` is
    zero. -/
def addEdges (w : Wiring) (s t : Vertex) (kind : EdgeKind) (m : ℕ) : Except Fault Wiring :=
  if hne : s = t then .error (.selfLoop s)
  else if m = 0 then .ok w
  else if hs : s ∈ w.live then
    if ht : t ∈ w.live then
      .ok <| w.rejoin s t (fun k => w.count s t k + if kind = k then m else 0)
        fun _ _ => ⟨hs, ht, hne⟩
    else .error (.vertexNotFound t)
  else .error (.vertexNotFound s)

theorem fewer_present {w : Wiring} {s t : Vertex} {c : EdgeKind → ℕ}
    (hc : ∀ kind, c kind ≤ w.count s t kind) :
    ∀ kind, 0 < c kind → s ∈ w.live ∧ t ∈ w.live ∧ s ≠ t := by
  intro kind hpos
  by_contra hst
  have hz := joins_eq_zero hst
  have hle := hc kind
  rw [joins] at hz
  cases kind <;> omega

/-- With fewer edges between two vertices, the first of which has to be there. -/
def fewer (w : Wiring) (s t : Vertex) (c : EdgeKind → ℕ) (hc : ∀ kind, c kind ≤ w.count s t kind) :
    Except Fault Wiring :=
  if s ∈ w.live then .ok (w.rejoin s t c (fewer_present hc))
  else .error (.vertexNotFound s)

/-- With all edges between two vertices of one kind, as many as there are. -/
def setEdgeKind (w : Wiring) (s t : Vertex) (kind : EdgeKind) : Except Fault Wiring :=
  if s ∈ w.live then
    if s = t then .error (.selfLoop s)
    else
      .ok <| w.rejoin s t (fun k => if kind = k then w.joins s t else 0) fun k hpos => by
        by_contra hst
        rw [joins_eq_zero hst, ite_self] at hpos
        exact Nat.lt_irrefl 0 hpos
  else .error (.vertexNotFound s)

/-- What an edit asks for. -/
def perform (w : Wiring) : Edit → Except Fault (Answer × Wiring)
  | .addVertex => .ok (.made w.made, w.addVertex)
  | .removeVertex v =>
    if v ∈ w.live then .ok (.done, w.removeVertex v) else .error (.vertexNotFound v)
  | .addEdge s t kind => return (.done, ← w.addEdges s t kind 1)
  | .addEdges s t kind m => return (.done, ← w.addEdges s t kind m)
  | .removeEdges s t kind m =>
    return (.removed (min (w.count s t kind) m),
      ← w.fewer s t (fun k => w.count s t k - if kind = k then m else 0) fun _ => Nat.sub_le _ _)
  | .removeKind s t kind =>
    return (.removed (w.count s t kind),
      ← w.fewer s t (fun k => if kind = k then 0 else w.count s t k) fun k => by split <;> omega)
  | .disconnect s t =>
    return (.removed (w.joins s t), ← w.fewer s t (fun _ => 0) fun _ => Nat.zero_le _)
  | .setEdgeKind s t kind => return (.done, ← w.setEdgeKind s t kind)

variable {w w' : Wiring} {s t v : Vertex} {kind : EdgeKind} {m : ℕ}

/-- The edges that are removed are those which are missing afterwards. -/
theorem size_of_fewer {c : EdgeKind → ℕ} {hc : ∀ kind, c kind ≤ w.count s t kind}
    (h : w.fewer s t c hc = .ok w') :
    w'.size + (w.joins s t - (c .plain + c .hadamard)) = w.size := by
  rw [fewer] at h
  split at h
  · obtain rfl := Except.ok.inj h
    have hle : c .plain + c .hadamard ≤ w.joins s t := Nat.add_le_add (hc _) (hc _)
    have hsize := size_rejoin (h := fewer_present hc)
    omega
  · cases h

/-- An edit which removes edges says how many there are less. -/
theorem size_of_removed {edit : Edit} {r : ℕ} (h : w.perform edit = .ok (.removed r, w')) :
    w'.size + r = w.size := by
  have hfewer {x : Except Fault Wiring} {r' : ℕ}
      (h : (do return (Answer.removed r', ← x)) = Except.ok (.removed r, w')) :
      x = .ok w' ∧ r' = r := by
    obtain ⟨w₁, hx, h⟩ := of_bind_eq_ok h
    obtain ⟨hr, rfl⟩ := Prod.mk.inj (Except.ok.inj h)
    exact ⟨hx, Answer.removed.inj hr⟩
  have hdone {x : Except Fault Wiring}
      (h : (do return (Answer.done, ← x)) = Except.ok (.removed r, w')) : False := by
    obtain ⟨w₁, -, h⟩ := of_bind_eq_ok h
    cases h
  cases edit with
  | addVertex => cases h
  | removeVertex v =>
    rw [perform] at h
    split at h <;> cases h
  | addEdge s t kind => exact (hdone h).elim
  | addEdges s t kind m => exact (hdone h).elim
  | setEdgeKind s t kind => exact (hdone h).elim
  | removeEdges s t kind m =>
    obtain ⟨hok, rfl⟩ := hfewer h
    rw [← size_of_fewer hok, joins]
    cases kind <;> simp <;> omega
  | removeKind s t kind =>
    obtain ⟨hok, rfl⟩ := hfewer h
    rw [← size_of_fewer hok, joins]
    cases kind <;> simp
  | disconnect s t =>
    obtain ⟨hok, rfl⟩ := hfewer h
    rw [← size_of_fewer hok]
    rfl

/-- Edges that get another kind stay as many as they were. -/
theorem joins_of_setEdgeKind (h : w.setEdgeKind s t kind = .ok w') (a b : Vertex) :
    w'.joins a b = w.joins a b := by
  rw [setEdgeKind] at h
  split at h
  · split at h
    · cases h
    · rw [← Except.ok.inj h, joins_rejoin]
      split
      · next hp =>
        obtain ⟨rfl, rfl⟩ | ⟨rfl, rfl⟩ := hp
        · cases kind <;> simp
        · rw [w.joins_comm a b]
          cases kind <;> simp
      · rfl
  · cases h

theorem made_of_addEdges (h : w.addEdges s t kind m = .ok w') : w'.made = w.made := by
  rw [addEdges] at h
  split_ifs at h <;> obtain rfl := Except.ok.inj h <;> rfl

theorem made_of_fewer {c : EdgeKind → ℕ} {hc : ∀ kind, c kind ≤ w.count s t kind}
    (h : w.fewer s t c hc = .ok w') : w'.made = w.made := by
  rw [fewer] at h
  split_ifs at h
  obtain rfl := Except.ok.inj h
  rfl

theorem made_of_setEdgeKind (h : w.setEdgeKind s t kind = .ok w') : w'.made = w.made := by
  rw [setEdgeKind] at h
  split_ifs at h
  obtain rfl := Except.ok.inj h
  rfl

/-- A vertex that is made gets the next name, and other edits leave that name for later. -/
theorem made_of_perform {edit : Edit} {answer : Answer} (h : w.perform edit = .ok (answer, w')) :
    (answer.vertex? = none ∧ w'.made = w.made) ∨
      answer.vertex? = some w.made ∧ w'.made = w.made + 1 := by
  have hkept {x : Except Fault Wiring} {a : Answer} (ha : a.vertex? = none)
      (hx : x = .ok w' → w'.made = w.made)
      (h : (do return (a, ← x)) = Except.ok (answer, w')) :
      answer.vertex? = none ∧ w'.made = w.made := by
    obtain ⟨w₁, hok, h⟩ := of_bind_eq_ok h
    obtain ⟨rfl, rfl⟩ := Prod.mk.inj (Except.ok.inj h)
    exact ⟨ha, hx hok⟩
  cases edit with
  | addVertex =>
    obtain ⟨rfl, rfl⟩ := Prod.mk.inj (Except.ok.inj h)
    exact .inr ⟨rfl, rfl⟩
  | removeVertex v =>
    rw [perform] at h
    split_ifs at h
    obtain ⟨rfl, rfl⟩ := Prod.mk.inj (Except.ok.inj h)
    exact .inl ⟨rfl, rfl⟩
  | addEdge s t kind => exact .inl (hkept rfl made_of_addEdges h)
  | addEdges s t kind m => exact .inl (hkept rfl made_of_addEdges h)
  | removeEdges s t kind m => exact .inl (hkept rfl made_of_fewer h)
  | removeKind s t kind => exact .inl (hkept rfl made_of_fewer h)
  | disconnect s t => exact .inl (hkept rfl made_of_fewer h)
  | setEdgeKind s t kind => exact .inl (hkept rfl made_of_setEdgeKind h)

/-- The names that are handed out go up, so that none is handed out twice. -/
theorem pairwise_vertices {edits : List Edit} {answers : List Answer}
    (h : performAll perform edits w = .ok (answers, w')) :
    (answers.filterMap Answer.vertex?).Pairwise (· < ·) ∧
      ∀ v ∈ answers.filterMap Answer.vertex?, w.made ≤ v := by
  induction edits generalizing w answers with
  | nil =>
    obtain ⟨rfl, -⟩ := Prod.mk.inj (Except.ok.inj h)
    exact ⟨.nil, by simp⟩
  | cons edit rest ih =>
    obtain ⟨⟨answer, w₁⟩, h₁, h⟩ := of_bind_eq_ok h
    obtain ⟨⟨answers', w₂⟩, h₂, h⟩ := of_bind_eq_ok h
    obtain ⟨rfl, rfl⟩ := Prod.mk.inj (Except.ok.inj h)
    obtain ⟨hlt, hle⟩ := ih h₂
    rcases made_of_perform h₁ with ⟨hnone, hmade⟩ | ⟨hsome, hmade⟩
    · rw [List.filterMap_cons_none hnone]
      exact ⟨hlt, hmade ▸ hle⟩
    · rw [List.filterMap_cons_some hsome]
      rw [hmade] at hle
      exact ⟨.cons hle hlt, List.forall_mem_cons.2
        ⟨Nat.le_refl _, fun v hv => Nat.le_of_succ_le (hle v hv)⟩⟩

end Wiring

end ZXRewriting
