import ZXRewriting.Proofs.GraphLike.Gadgets
import ZXRewriting.Proofs.GraphLike.Kinds

/-!
# Matches in any coherent graph

What the checks of the rules for graph-like diagrams come to on a coherent graph that need not be in
graph-like form: whatever its edges and the kinds of its spiders, a check is no fault
(`GraphLike.succeeds_check`), and neither is rewriting at a match that it accepts
(`GraphLike.attains_apply`).

A pivot joins the neighbours of two spiders, so that none of these may be the end of a wire: the two
have to be *sheltered* (`Web.Sheltered`). An inner spider is, and moving the boundary off shelters the
one next to it.
-/

namespace ZXRewriting

open Function (update update_self update_of_ne)
open Multigraph (SamePair)

namespace Web

variable {w w' : Web} {s t u v x y : Vertex} {k : EdgeKind}

/-- A vertex none of whose neighbours is the end of a wire. -/
def Sheltered (w : Web) (v : Vertex) : Prop := w.Has v ∧ ∀ u ∈ w.nearby v, ¬w.IsEnd u

theorem joins_of_setCount {n : EdgeKind → ℕ} (h : 0 < (w.setCount s t n).joins x y) :
    SamePair x y s t ∨ 0 < w.joins x y := by
  by_cases hpair : SamePair x y s t
  · exact .inl hpair
  · right
    simpa only [joins, setCount, if_neg hpair] using h

/-- Spiders are added, and whatever a spider comes to be joined to is a Z spider. -/
structure Extends (w w' : Web) : Prop where
  kind : ∀ u, w.Has u → w'.kind u = w.kind u
  joins : ∀ x y, w.Has x → 0 < w'.joins x y → 0 < w.joins x y ∨ w'.IsZ y

theorem Extends.refl (w : Web) : Extends w w := ⟨fun _ _ => rfl, fun _ _ _ => .inl⟩

theorem Extends.has (h : Extends w w') (hu : w.Has u) : w'.Has u := by
  rw [Has, h.kind u hu]
  exact hu

theorem Extends.sheltered (h : Extends w w') (hw : w.Valid) (hw' : w'.Valid) (hv : w.Sheltered v) :
    w'.Sheltered v := by
  refine ⟨h.has hv.1, fun u hu => ?_⟩
  rcases h.joins v u hv.1 (hw'.mem_nearby.1 hu) with hold | hz
  · have hnear := hw.mem_nearby.2 hold
    rw [IsEnd, h.kind u (hw.has_of_mem_nearby hnear)]
    exact hv.2 u hnear
  · exact hz.not_isEnd

theorem Valid.extends_split (hw : w.Valid) : Extends w (w.split s t k) where
  kind u hu := by rw [kind_split, update_of_ne (hw.ne_next hu)]
  joins x y hx h := by
    rw [split] at h
    rcases joins_of_setCount h with hpair | h
    · rcases hpair with ⟨rfl, -⟩ | ⟨-, rfl⟩
      · exact absurd hx hw.not_has_next
      · exact .inr (isZ_split.2 (.inr rfl))
    rcases joins_of_setCount h with hpair | h
    · rcases hpair with ⟨-, rfl⟩ | ⟨rfl, -⟩
      · exact .inr (isZ_split.2 (.inr rfl))
      · exact absurd hx hw.not_has_next
    · have hle (k' : EdgeKind) : (w.cut s t).count x y k' ≤ w.count x y k' := by
        rw [count_cut]
        split <;> omega
      exact .inl (Nat.lt_of_lt_of_le h (Nat.add_le_add (hle .plain) (hle .hadamard)))

theorem Valid.extends_shiftPhase (hw : w.Valid) : Extends w (w.shiftPhase v) := by
  rw [shiftPhase]
  split
  · exact .refl w
  obtain ⟨-, hkind, -, hcount, -⟩ := moveCarrier_fields
    (((((w.addSpider .zero).addSpider (w.phase v)).setPhase v .zero).addEdges v w.next .hadamard
      1).addEdges w.next (w.next + 1) .hadamard 1) v (w.next + 1)
  have hold {u : Vertex} (hu : w.Has u) : u ≠ w.next ∧ u ≠ w.next + 1 :=
    ⟨hw.ne_next hu, fun he => Nat.not_succ_lt_self (he ▸ hw.lt u hu)⟩
  refine ⟨fun u hu => ?_, fun x y hx h => ?_⟩
  · rw [hkind]
    exact (update_of_ne (hold hu).2 _ _).trans (update_of_ne (hold hu).1 _ _)
  · rw [joins, hcount] at h
    rcases joins_of_setCount h with hpair | h
    · rcases hpair with ⟨rfl, -⟩ | ⟨rfl, -⟩
      · exact absurd rfl (hold hx).1
      · exact absurd rfl (hold hx).2
    rcases joins_of_setCount h with hpair | h
    · rcases hpair with ⟨-, rfl⟩ | ⟨rfl, -⟩
      · right
        rw [IsZ, hkind]
        exact (update_of_ne (Nat.ne_of_lt (Nat.lt_succ_self _)) _ _).trans (update_self _ _ _)
      · exact absurd rfl (hold hx).1
    · exact .inl h

end Web

namespace GraphLike

variable {g : GraphLike} {c d l m s t u v : Vertex}

open Web

/-! ### Reading -/

section

variable (hg : g.Coherent)
include hg

theorem attains_links (hv : g.web.Has v) : Attains (g.links v) fun ls =>
    (∀ l ∈ ls, l.node ∈ g.web.nearby v) ∧ ∀ u ∈ g.web.nearby v, ∃ l ∈ ls, l.node = u := by
  obtain ⟨ls, hls, -, hmem⟩ := Diagram.exists_links hg hv
  refine ⟨ls, hls, fun l hl => ?_, fun u hu => ?_⟩
  · obtain ⟨hpos, hcount⟩ := (hmem l).1 hl
    rw [hg.valid.mem_nearby, joins_pos_iff]
    exact ⟨l.kind, hcount ▸ hpos⟩
  · rw [hg.valid.mem_nearby, joins_pos_iff] at hu
    obtain ⟨k, hk⟩ := hu
    exact ⟨⟨u, k, g.web.count v u k⟩, (hmem _).2 ⟨hk, rfl⟩, rfl⟩

theorem attains_incidentEdges (hv : g.web.Has v) : Attains (g.incidentEdges v) fun es =>
    (∀ e ∈ es, e.1 ∈ g.web.nearby v) ∧ ∀ u ∈ g.web.nearby v, ∃ e ∈ es, e.1 = u := by
  obtain ⟨ls, hls, hin, hout⟩ := attains_links hg hv
  rw [incidentEdges, hls]
  refine .ok ⟨fun e he => ?_, fun u hu => ?_⟩
  · obtain ⟨l, hl, rfl⟩ := List.mem_map.1 (List.mem_mergeSort.1 he)
    exact hin l hl
  · obtain ⟨l, hl, rfl⟩ := hout u hu
    exact ⟨(l.node, l.kind), List.mem_mergeSort.2 (List.mem_map.2 ⟨l, hl, rfl⟩), rfl⟩

omit hg in
theorem isZ_of_eq (hv : g.web.Has v) (h : g.isZ v = .ok true) : g.web.IsZ v := by
  rw [isZ_eq hv] at h
  exact of_decide_eq_true (Except.ok.inj h)

/-- A test of every edge of a spider. -/
theorem of_allM_incidentEdges (hv : g.web.Has v) {f : Vertex × EdgeKind → Except Fault Bool}
    (h : (do (← g.incidentEdges v).allM f) = .ok true) :
    ∀ u ∈ g.web.nearby v, ∃ k, f (u, k) = .ok true := by
  obtain ⟨es, hes, -, hout⟩ := attains_incidentEdges hg hv
  rw [hes] at h
  intro u hu
  obtain ⟨e, he, rfl⟩ := hout u hu
  exact ⟨e.2, of_allM_eq_true h e he⟩

/-! ### Checks -/

theorem succeeds_isInner (hv : g.web.Has v) : Succeeds (g.isInner v) := by
  obtain ⟨ls, hls, hin, -⟩ := attains_links hg hv
  rw [isInner, isZ_eq hv, degree_eq hg hv, hls]
  refine (Succeeds.ok _).and fun _ => (Succeeds.ok _).and fun _ => Succeeds.allM fun l hl => ?_
  have hhas := hg.valid.has_of_mem_nearby (hin l hl)
  rw [isInnerLink, isZ_eq hhas, degree_eq hg hhas]
  exact (Succeeds.ok _).and fun _ => (Succeeds.ok _).and fun _ => .ok _

theorem of_isInner (hv : g.web.Has v) (h : g.isInner v = .ok true) :
    g.web.IsZ v ∧ ∀ u ∈ g.web.nearby v, g.web.IsZ u := by
  obtain ⟨ls, hls, hin, hout⟩ := attains_links hg hv
  rw [isInner, and_eq_true_iff, and_eq_true_iff, hls] at h
  refine ⟨isZ_of_eq hv h.1, fun u hu => ?_⟩
  obtain ⟨l, hl, rfl⟩ := hout u hu
  have hlink := of_allM_eq_true h.2.2 l hl
  rw [isInnerLink, and_eq_true_iff, and_eq_true_iff] at hlink
  exact isZ_of_eq (hg.valid.has_of_mem_nearby hu) hlink.2.1

theorem succeeds_isInnerPauli (hv : g.web.Has v) : Succeeds (g.isInnerPauli v) :=
  (Succeeds.ok _).and fun _ => succeeds_isInner hg hv

theorem sheltered_of_isInner (hv : g.web.Has v) (h : g.isInner v = .ok true) : g.web.Sheltered v :=
  ⟨hv, fun u hu => ((of_isInner hg hv h).2 u hu).not_isEnd⟩

theorem sheltered_of_isInnerPauli (hv : g.web.Has v) (h : g.isInnerPauli v = .ok true) :
    g.web.Sheltered v :=
  sheltered_of_isInner hg hv (and_eq_true_iff.1 h).2

theorem succeeds_isLeaf (hv : g.web.Has v) : Succeeds (g.isLeaf v) := by
  obtain ⟨ls, hls, hin, -⟩ := attains_links hg hv
  rw [isLeaf, isZ_eq hv, degree_eq hg hv, hls]
  refine (Succeeds.ok _).and fun _ => (Succeeds.ok _).and fun _ => Succeeds.allM fun l hl => ?_
  rw [isZ_eq (hg.valid.has_of_mem_nearby (hin l hl))]
  exact (Succeeds.ok _).and fun _ => .ok _

theorem succeeds_isBoundaryAdjacent (hv : g.web.Has v) : Succeeds (g.isBoundaryAdjacent v) := by
  obtain ⟨es, hes, hin, -⟩ := attains_incidentEdges hg hv
  rw [isBoundaryAdjacent, boundaryNeighbors_eq hg hv, isZ_eq hv]
  refine (Succeeds.ok _).and fun _ => ?_
  split
  swap
  · exact .ok _
  rw [edgeCount_eq hg hv, hes]
  refine (Succeeds.ok _).and fun _ => Succeeds.allM fun hinv he => ?_
  obtain ⟨n, k⟩ := hinv
  have hhas := hg.valid.has_of_mem_nearby (hin (n, k) he)
  dsimp only
  rw [Diagram.isBoundary_eq hhas, isZ_eq hhas, edgeCount_eq hg hv, degree_eq hg hhas]
  exact (Succeeds.ok _).or fun _ => (Succeeds.ok _).and fun _ => (Succeeds.ok _).and fun _ =>
    (Succeeds.ok _).and fun _ => .ok _

theorem of_isBoundaryAdjacent (hv : g.web.Has v) (h : g.isBoundaryAdjacent v = .ok true) :
    g.web.IsZ v ∧ ∃ b, g.web.ends v = [b] := by
  rw [isBoundaryAdjacent, boundaryNeighbors_eq hg hv] at h
  change (g.isZ v <&&> _) = _ at h
  rw [and_eq_true_iff] at h
  refine ⟨isZ_of_eq hv h.1, ?_⟩
  have hone := h.2
  split at hone
  · next b hb => exact ⟨b, hb⟩
  · cases hone

theorem succeeds_hadamardJoined (hv : g.web.Has v) : Succeeds (g.hadamardJoined v u) :=
  ⟨_, hadamardJoined_eq hg hv⟩

theorem of_hadamardJoined (hv : g.web.Has v) (h : g.hadamardJoined v u = .ok true) :
    v ≠ u ∧ u ∈ g.web.nearby v := by
  rw [hadamardJoined_eq hg hv] at h
  obtain ⟨hne, hlink⟩ := of_decide_eq_true (Except.ok.inj h)
  exact ⟨hne, hg.valid.mem_nearby_of_link hlink⟩

theorem hadamardJoined_comm (hv : g.web.Has v) (hu : g.web.Has u)
    (h : g.hadamardJoined v u = .ok true) : g.hadamardJoined u v = .ok true := by
  rw [hadamardJoined_eq hg hv] at h
  rw [hadamardJoined_eq hg hu, hg.valid.link_comm]
  obtain ⟨hne, hlink⟩ := of_decide_eq_true (Except.ok.inj h)
  exact congrArg Except.ok (decide_eq_true ⟨hne.symm, hlink⟩)

section

variable (hv : g.web.Has v) (hu : g.web.Has u)
include hv hu

theorem succeeds_checkPivot : Succeeds (g.checkPivot v u) :=
  (succeeds_hadamardJoined hg hv).and fun _ => (succeeds_isInnerPauli hg hv).and fun _ =>
    succeeds_isInnerPauli hg hu

theorem succeeds_checkPivotBoundary : Succeeds (g.checkPivotBoundary v u) :=
  (succeeds_hadamardJoined hg hv).and fun _ => (succeeds_isInnerPauli hg hv).and fun _ =>
    (Succeeds.ok _).and fun _ => succeeds_isBoundaryAdjacent hg hu

theorem succeeds_checkPivotGadget : Succeeds (g.checkPivotGadget v u) :=
  (succeeds_hadamardJoined hg hv).and fun _ => (succeeds_isInnerPauli hg hv).and fun _ =>
    (Succeeds.ok _).and fun _ => succeeds_isInner hg hu

theorem succeeds_checkPivotBoundaryGadget : Succeeds (g.checkPivotBoundaryGadget v u) :=
  (succeeds_hadamardJoined hg hv).and fun _ => (succeeds_isInnerPauli hg hv).and fun _ =>
    (Succeeds.ok _).and fun _ => succeeds_isBoundaryAdjacent hg hu

end

theorem succeeds_checkFuseNeighbors (hv : g.web.Has v) : Succeeds (g.checkFuseNeighbors v) := by
  obtain ⟨es, hes, hin, -⟩ := attains_incidentEdges hg hv
  rw [checkFuseNeighbors, isZ_eq hv, degree_eq hg hv, hes, identityEnds_eq hg hv]
  refine (Succeeds.ok _).and fun _ => (Succeeds.ok _).and fun _ => (Succeeds.ok _).and fun _ =>
    (Succeeds.allM fun e he => ?_).and fun _ => .ok _
  obtain ⟨n, k⟩ := e
  dsimp only
  rw [isZ_eq (hg.valid.has_of_mem_nearby (hin (n, k) he)), edgeCount_eq hg hv]
  exact (Succeeds.ok _).and fun _ => (Succeeds.ok _).and fun _ => .ok _

/-- Both ends of a spider that can be removed are Z spiders. -/
theorem of_checkFuseNeighbors (hv : g.web.Has v) (h : g.checkFuseNeighbors v = .ok true) :
    ∀ u ∈ g.web.nearby v, g.web.IsZ u := by
  rw [checkFuseNeighbors] at h
  simp only [and_eq_true_iff] at h
  intro u hu
  obtain ⟨k, hk⟩ := of_allM_incidentEdges hg hv h.2.2.2.1 u hu
  rw [and_eq_true_iff, and_eq_true_iff] at hk
  exact isZ_of_eq (hg.valid.has_of_mem_nearby hu) hk.2.1

/-- Looking for the leaf of a gadget gives a neighbour, if anything. -/
theorem attains_gadgetLeaf? (hc : g.web.Has c) :
    Attains (g.gadgetLeaf? c) fun r => ∀ l ∈ r, l ∈ g.web.nearby c := by
  have hnone : Attains (.ok none : Except Fault (Option Vertex)) fun r => ∀ l ∈ r, l ∈ g.web.nearby c :=
    .ok fun l hl => by cases hl
  obtain ⟨es, hes, hin, -⟩ := attains_incidentEdges hg hc
  rw [gadgetLeaf?, isZ_eq hc, hes]
  change Attains (if _ then _ else _) _
  split
  · exact hnone
  split
  · exact hnone
  obtain ⟨proper, hproper⟩ : Succeeds (es.allM fun e => pure (e.2 == .hadamard) <&&>
      g.isZ e.1 <&&> (return (← g.edgeCount c e.1) == 1)) := Succeeds.allM fun e he => by
    rw [isZ_eq (hg.valid.has_of_mem_nearby (hin e he)), edgeCount_eq hg hc]
    exact (Succeeds.ok _).and fun _ => (Succeeds.ok _).and fun _ => .ok _
  change Attains (List.allM _ es >>= fun proper => _) _
  rw [hproper]
  change Attains (if proper = true then _ else _) _
  split
  swap
  · exact hnone
  -- the loop only collects neighbours
  refine Attains.bind (P := fun r : List Vertex × List Vertex => ∀ l ∈ r.1, l ∈ g.web.nearby c) ?_
    fun r hr => ?_
  · refine .foldlM (by simp) ?_
    rintro ⟨n, k⟩ he ⟨leaves, others⟩ hr
    have hn := hin (n, k) he
    obtain ⟨b, hb⟩ := succeeds_isLeaf hg (hg.valid.has_of_mem_nearby hn)
    dsimp only
    rw [hb]
    cases b with
    | false => exact .ok hr
    | true => exact .ok (List.forall_mem_cons.2 ⟨hn, hr⟩)
  · obtain ⟨leaves, others⟩ := r
    dsimp only
    split
    · next leaf _ _ =>
      refine .ok fun l hl => ?_
      rw [← Option.some.inj hl]
      exact hr leaf (List.mem_singleton_self leaf)
    · exact hnone

theorem succeeds_checkFuseGadgets (hc : g.web.Has c) (hd : g.web.Has d) :
    Succeeds (g.checkFuseGadgets c d) := by
  obtain ⟨l, hl, -⟩ := attains_gadgetLeaf? hg hc
  obtain ⟨m, hm, -⟩ := attains_gadgetLeaf? hg hd
  rw [checkFuseGadgets]
  split
  · exact .ok _
  rw [hl, hm]
  cases l with
  | none => exact .ok _
  | some l =>
    cases m with
    | none => exact .ok _
    | some m =>
      change Succeeds (do return (← g.gadgetSupport c l) == (← g.gadgetSupport d m))
      rw [gadgetSupport_eq hg hc, gadgetSupport_eq hg hd]
      exact .ok _

omit hg in
/-- Two centres are accepted if they are distinct and have leaves and the same support. -/
theorem of_checkFuseGadgets (h : g.checkFuseGadgets c d = .ok true) : c ≠ d ∧ ∃ l m us,
    g.gadgetLeaf? c = .ok (some l) ∧ g.gadgetLeaf? d = .ok (some m) ∧
      g.gadgetSupport c l = .ok us ∧ g.gadgetSupport d m = .ok us := by
  rw [checkFuseGadgets] at h
  split at h
  · cases h
  next hne =>
  obtain ⟨l, hl, h⟩ := of_bind_eq_ok h
  obtain ⟨m, hm, h⟩ := of_bind_eq_ok h
  cases l with
  | none => cases h
  | some l =>
    cases m with
    | none => cases h
    | some m =>
      obtain ⟨us, hus, h⟩ := of_bind_eq_ok h
      obtain ⟨us', hus', h⟩ := of_bind_eq_ok h
      obtain rfl : us = us' := eq_of_beq (Except.ok.inj h)
      exact ⟨hne, l, m, us, hl, hm, hus, hus'⟩

/-- A match is accepted if its spiders are there and it is accepted among them. -/
theorem check_iff {rule : GraphRule} {ms : Match} : rule.check g ms = .ok true ↔
    (∀ v ∈ ms, g.web.Has v) ∧ rule.checkPresent g ms = .ok true := by
  rw [GraphRule.check, ← Diagram.all_contains_iff hg]
  split
  · next h => exact (and_iff_right h).symm
  · next h => exact iff_of_false (fun he => by cases he) fun he => h he.1

/-- Checking a match is no fault. -/
theorem succeeds_check (rule : GraphRule) (ms : Match) : Succeeds (rule.check g ms) := by
  rw [GraphRule.check]
  split
  swap
  · exact .ok _
  next hall =>
  have hhas := (Diagram.all_contains_iff hg).1 hall
  have hends {u : Vertex} (b : Vertex) (hu : g.web.Has u) :
      Succeeds (do return (← g.boundaryNeighbors u) == [b]) := by
    rw [boundaryNeighbors_eq hg hu]
    exact .ok _
  rw [GraphRule.checkPresent.eq_def]
  split
  · exact (Succeeds.ok _).and fun _ => succeeds_isInner hg (hhas _ (by simp))
  · exact succeeds_checkPivot hg (hhas _ (by simp)) (hhas _ (by simp))
  · exact (succeeds_checkPivotBoundary hg (hhas _ (by simp)) (hhas _ (by simp))).and fun _ =>
      hends _ (hhas _ (by simp))
  · exact succeeds_checkPivotGadget hg (hhas _ (by simp)) (hhas _ (by simp))
  · exact (succeeds_checkPivotBoundaryGadget hg (hhas _ (by simp)) (hhas _ (by simp))).and fun _ =>
      hends _ (hhas _ (by simp))
  · rw [identityEnds_eq hg (hhas _ (by simp))]
    exact (succeeds_checkFuseNeighbors hg (hhas _ (by simp))).and fun _ => .ok _
  · obtain ⟨l, hl, -⟩ := attains_gadgetLeaf? hg (hhas _ List.mem_cons_self)
    obtain ⟨m, hm, -⟩ := attains_gadgetLeaf? hg (hhas _ (List.mem_cons_of_mem _ List.mem_cons_self))
    rw [hl, hm]
    exact (succeeds_checkFuseGadgets hg (hhas _ (by simp)) (hhas _ (by simp))).and fun _ =>
      (Succeeds.ok _).and fun _ => .ok _
  · exact .ok _

/-! ### Rewriting at a match -/

theorem Sheltered.inside (h : g.web.Sheltered v) : ∀ u ∈ g.web.nearby v, Inside g.web.kind u := by
  intro u hu
  obtain ⟨k, hk⟩ := Option.isSome_iff_exists.1 (hg.valid.has_of_mem_nearby hu)
  refine ⟨k, hk, ?_⟩
  have hend := h.2 u hu
  rw [IsEnd, hk] at hend
  simpa using hend

theorem attains_localComplement (hv : g.web.Sheltered v) :
    Attains (g.localComplement v) fun g' => g'.Coherent := by
  rw [localComplement, neighborSet_eq hg hv.1]
  exact ((Coherent.bears hg).complement _ (Sheltered.inside hg hv)).bind fun g₁ h₁ =>
    (h₁.removeSpider hv.1).mono fun _ h => h.coherent

theorem attains_pivot (hv : g.web.Sheltered v) (hu : g.web.Sheltered u) (hne : v ≠ u) :
    Attains (g.pivot v u) fun g' => g'.Coherent := by
  have hvs := Sheltered.inside hg hv
  have hus := Sheltered.inside hg hu
  have hphases (us : List Vertex) (p : Phase) {g₁ : GraphLike} (h : Bears g.web.kind g₁) :
      Bears g.web.kind (us.foldl (·.addToPhase · p) g₁) := by
    induction us generalizing g₁ with
    | nil => exact h
    | cons n rest ih => exact ih (h.addToPhase n p)
  rw [pivot, neighborSet_eq hg hv.1, neighborSet_eq hg hu.1]
  refine (Attains.foldlM (P := Bears g.web.kind) (Coherent.bears hg) fun n hn g₁ h₁ => ?_).bind
    fun g₁ h₁ => ?_
  · refine (h₁.addToPhase n _).joinTo (hvs n hn) (fun x hx => ?_) .hadamard
    split at hx
    · cases hx
    · exact hus x (List.mem_filter.1 hx).1
  · refine ((hphases _ _ h₁).removeSpider hv.1).bind fun g₂ h₂ => ?_
    refine (h₂.removeSpider ?_).mono fun _ h => h.coherent
    rw [update_of_ne hne.symm]
    exact hu.1

/-- Moving the boundary off a spider next to one end. -/
theorem attains_shiftBoundaries (hu : g.web.IsZ u) {b : Vertex} (hb : g.web.ends u = [b]) :
    Attains (g.shiftBoundaries u) fun g' => g'.Coherent ∧ Extends g.web g'.web ∧
      g'.web.Sheltered u := by
  have hmem : b ∈ g.web.ends u := hb ▸ List.mem_singleton_self b
  obtain ⟨hnear, hend⟩ := List.mem_filter.1 hmem
  have hend : g.web.IsEnd b := of_decide_eq_true hend
  have hne : u ≠ b := fun he => hu.not_isEnd (he ▸ hend)
  obtain ⟨k, hk⟩ := Option.isSome_iff_exists.1 (link_isSome_iff.2 (hg.valid.mem_nearby.1 hnear))
  obtain ⟨g₁, hok, hg₁, hw₁, -⟩ := Gives.shiftBoundary hg hu hend
  rw [Web.shiftBoundary, hk] at hw₁
  refine ⟨g₁, ?_, hg₁, hw₁ ▸ hg.valid.extends_split, ?_, fun x hx => ?_⟩
  · rw [shiftBoundaries, boundaryNeighbors_eq hg hu.has, hb]
    change (g.shiftBoundary u b >>= fun g => Except.ok g) = _
    rw [hok]
    rfl
  · rw [hw₁]
    exact hg.valid.extends_split.has hu.has
  · have hvalid := hg₁.valid
    rw [hw₁] at hvalid hx ⊢
    rw [hg.valid.mem_nearby_split hu.has hend.has hne hvalid] at hx
    rw [hg.valid.isEnd_split]
    rcases hx with ⟨hx, hxb⟩ | rfl
    · intro he
      have : x ∈ g.web.ends u := List.mem_filter.2 ⟨hx, decide_eq_true he⟩
      rw [hb, List.mem_singleton] at this
      exact hxb this
    · exact fun he => hg.valid.not_has_next he.has

theorem attains_shiftPhase (hu : g.web.IsZ u) :
    Attains (g.shiftPhase u) fun g' => g'.Coherent ∧ Extends g.web g'.web := by
  obtain ⟨g₁, hok, hg₁, hw₁, -⟩ := Gives.shiftPhase hg hu
  exact ⟨g₁, hok, hg₁, hw₁ ▸ hg.valid.extends_shiftPhase⟩

theorem attains_fuseNeighbors (hv : g.web.Has v) (h : g.checkFuseNeighbors v = .ok true) :
    Attains (g.fuseNeighbors v) fun g' => g'.Coherent := by
  have hz := of_checkFuseNeighbors hg hv h
  cases hends : g.web.identityEnds v with
  | none =>
    rw [fuseNeighbors, identityEnds_eq hg hv, hends]
    exact .ok hg
  | some e =>
  obtain ⟨keep, gone⟩ := e
  obtain ⟨hnear, hgone⟩ := nearby_of_identityEnds hends
  have hkeep : keep ∈ g.web.nearby v := by rcases hnear with he | he <;> simp [he]
  have hmem : gone ∈ g.web.nearby v := by rcases hnear with he | he <;> simp [he]
  have hsheltered : g.web.Sheltered gone := by
    refine ⟨(hz gone hmem).has, fun u hu he => ?_⟩
    have : u ∈ g.web.ends gone := List.mem_filter.2 ⟨hu, decide_eq_true he⟩
    rw [hgone] at this
    exact List.not_mem_nil this
  have hinside := Sheltered.inside hg hsheltered
  obtain ⟨g₁, hok₁, hg₁, hw₁, -⟩ := Gives.pushThrough (v := v) hg (hz gone hmem).has
  have h₁ : Bears g.web.kind (g₁.addToPhase keep (g₁.phase gone)) :=
    ⟨⟨hg₁.wf, hg₁.has⟩, fun u k hk => by
      change g₁.web.kind u = _
      rwa [hw₁, kind_pushThrough]⟩
  have hnearby : (g₁.addToPhase keep (g₁.phase gone)).web.nearby gone = g.web.nearby gone := by
    change g₁.web.nearby gone = _
    rw [hw₁, nearby_pushThrough]
  obtain ⟨es, hes, hin, -⟩ := attains_incidentEdges h₁.coherent (h₁.has (hz gone hmem).has)
  rw [hnearby] at hin
  rw [fuseNeighbors_eq hg hv hends, hok₁]
  change Attains (GraphLike.incidentEdges _ gone >>= fun edges => _) _
  rw [hes]
  refine Attains.bind (P := Bears g.web.kind) ?_ fun g₂ h₂ => ?_
  · refine .foldlM h₁ ?_
    rintro ⟨n, k⟩ he g₂ h₂
    exact h₂.addEdgeReduced (inside_of_isZ (hz keep hkeep))
      (hinside n (hin (n, k) (List.mem_filter.1 he).1)) k
  · refine ((h₂.mergeCarriers keep gone).removeSpider hv).bind fun g₃ h₃ => ?_
    refine (h₃.removeSpider ?_).mono fun _ h => h.coherent
    rw [update_of_ne fun he => hg.valid.notMem_nearby_self (he ▸ hmem)]
    exact (hz gone hmem).has

theorem attains_fuseGadgets (hc : g.web.Has c) (hd : g.web.Has d) :
    Attains (g.fuseGadgets c d) fun g' => g'.Coherent := by
  obtain ⟨l, hl, -⟩ := attains_gadgetLeaf? hg hc
  obtain ⟨m, hm, hmem⟩ := attains_gadgetLeaf? hg hd
  rw [fuseGadgets, hl, hm]
  cases l with
  | none => exact .ok hg
  | some l =>
    cases m with
    | none => exact .ok hg
    | some m =>
      have hclear {g₁ : GraphLike} (h : Bears g.web.kind g₁) (c l : Vertex) :
          Bears g.web.kind (g₁.clearCentre c l) := by
        rw [clearCentre]
        split
        · exact (h.setPhase c .zero).negatePhase l
        · exact h
      have hm := hmem m rfl
      have h₁ := (((hclear (hclear (Coherent.bears hg) c l) d m).addToPhase l
        (((g.clearCentre c l).clearCentre d m).phase m)).mergeCarriers l m)
      refine (h₁.removeSpider (hg.valid.has_of_mem_nearby hm)).bind fun g₂ h₂ => ?_
      refine (h₂.removeSpider ?_).mono fun _ h => h.coherent
      rw [update_of_ne fun he => hg.valid.notMem_nearby_self (he ▸ hm)]
      exact hd

/-- Rewriting at a match that is accepted is no fault. -/
theorem attains_apply {rule : GraphRule} {ms : Match} (h : rule.check g ms = .ok true) :
    Attains (rule.apply g ms) fun g' => g'.Coherent := by
  rw [check_iff hg, GraphRule.checkPresent.eq_def] at h
  obtain ⟨hhas, h⟩ := h
  split at h
  case h_1 v =>
    have hv := hhas v (by simp)
    exact attains_localComplement hg (sheltered_of_isInner hg hv (and_eq_true_iff.1 h).2)
  case h_2 v u =>
    have hv := hhas v (by simp)
    have hu := hhas u (by simp)
    rw [checkPivot, and_eq_true_iff, and_eq_true_iff] at h
    exact attains_pivot hg (sheltered_of_isInnerPauli hg hv h.2.1)
      (sheltered_of_isInnerPauli hg hu h.2.2) (of_hadamardJoined hg hv h.1).1
  case h_3 v u b =>
    have hv := hhas v (by simp)
    rw [checkPivotBoundary] at h
    simp only [and_eq_true_iff] at h
    obtain ⟨⟨hj, hinner, -, hadj⟩, -⟩ := h
    obtain ⟨hz, b, hb⟩ := of_isBoundaryAdjacent hg (hhas u (by simp)) hadj
    refine (attains_shiftBoundaries hg hz hb).bind fun g₁ hinv => ?_
    obtain ⟨hg₁, hext, hu⟩ := hinv
    exact attains_pivot hg₁ (hext.sheltered hg.valid hg₁.valid (sheltered_of_isInnerPauli hg hv hinner))
      hu (of_hadamardJoined hg hv hj).1
  case h_4 v u =>
    have hv := hhas v (by simp)
    have hu := hhas u (by simp)
    rw [checkPivotGadget] at h
    simp only [and_eq_true_iff] at h
    obtain ⟨hj, hinner, -, hinner'⟩ := h
    refine (attains_shiftPhase hg (of_isInner hg hu hinner').1).bind fun g₁ hinv => ?_
    obtain ⟨hg₁, hext⟩ := hinv
    exact attains_pivot hg₁ (hext.sheltered hg.valid hg₁.valid (sheltered_of_isInnerPauli hg hv hinner))
      (hext.sheltered hg.valid hg₁.valid (sheltered_of_isInner hg hu hinner'))
      (of_hadamardJoined hg hv hj).1
  case h_5 v u b =>
    have hv := hhas v (by simp)
    rw [checkPivotBoundaryGadget] at h
    simp only [and_eq_true_iff] at h
    obtain ⟨⟨hj, hinner, -, hadj⟩, -⟩ := h
    obtain ⟨hz, b, hb⟩ := of_isBoundaryAdjacent hg (hhas u (by simp)) hadj
    refine (attains_shiftBoundaries hg hz hb).bind fun g₁ hinv => ?_
    obtain ⟨hg₁, hext₁, hu⟩ := hinv
    have hz₁ : g₁.web.IsZ u := (hext₁.kind u hz.has).trans hz
    refine (attains_shiftPhase hg₁ hz₁).bind fun g₂ hinv => ?_
    obtain ⟨hg₂, hext₂⟩ := hinv
    have hv₁ := hext₁.sheltered hg.valid hg₁.valid (sheltered_of_isInnerPauli hg hv hinner)
    exact attains_pivot hg₂ (hext₂.sheltered hg₁.valid hg₂.valid hv₁)
      (hext₂.sheltered hg₁.valid hg₂.valid hu) (of_hadamardJoined hg hv hj).1
  case h_6 v keep gone => exact attains_fuseNeighbors hg (hhas v (by simp)) (and_eq_true_iff.1 h).1
  case h_7 c d _ _ => exact attains_fuseGadgets hg (hhas c (by simp)) (hhas d (by simp))
  case h_8 => cases h

end

end GraphLike

end ZXRewriting
