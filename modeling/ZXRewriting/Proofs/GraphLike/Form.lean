import Mathlib.Algebra.BigOperators.Ring.Finset
import ZXRewriting.GraphLike.Pivot
import ZXRewriting.Proofs.GraphLike.Edits

/-!
# Graph-like form

A web is *simple* when its spiders are Z spiders and ends of wires, no two vertices are joined
more than once, and Z spiders only by Hadamard edges. It is in *graph-like form* when besides
every end of a wire has a single edge, and the ends are listed as the inputs and the outputs.
Rewrites go through simple webs from one graph-like web to another.

The second half says what the conditions of the rules test on a simple web.
-/

namespace ZXRewriting

open Function (update)
open Multigraph (SamePair)

namespace Web

variable {w : Web} {s t u v : Vertex} {k : EdgeKind}

/-- No two vertices are joined more than once. -/
structure NoParallel (w : Web) : Prop where
  valid : w.Valid
  single : ∀ s t, w.joins s t ≤ 1

/-- The spiders are Z spiders and ends of wires, joined at most once, and two Z spiders only by a
    Hadamard edge. -/
structure Simple (w : Web) : Prop where
  valid : w.Valid
  colour : ∀ v, w.Has v → w.IsZ v ∨ w.IsEnd v
  plain : ∀ s t, w.IsZ s → w.IsZ t → w.count s t .plain = 0
  single : ∀ s t, w.joins s t ≤ 1

/-- A simple web, the ends of which have a single edge and are listed. -/
structure InForm (w : Web) : Prop where
  simple : w.Simple
  degree_end : ∀ v, w.IsEnd v → w.degree v = 1
  inputs_nodup : w.inputs.Nodup
  outputs_nodup : w.outputs.Nodup
  mem_inputs : ∀ v, v ∈ w.inputs ↔ w.kind v = some .input
  mem_outputs : ∀ v, v ∈ w.outputs ↔ w.kind v = some .output

/-- A simple web, the ends of which have a single edge, whatever is listed. -/
structure Formed (w : Web) : Prop where
  simple : w.Simple
  degree_end : ∀ v, w.IsEnd v → w.degree v = 1

theorem InForm.formed (hw : w.InForm) : w.Formed := ⟨hw.simple, hw.degree_end⟩

theorem Simple.noParallel (hw : w.Simple) : w.NoParallel := ⟨hw.valid, hw.single⟩

/-! ### Edges of webs without parallel edges -/

/-- The counts by the kind of the edge. -/
theorem NoParallel.count_eq (hw : w.NoParallel) (s t : Vertex) (k : EdgeKind) :
    w.count s t k = if w.link s t = some k then 1 else 0 := by
  have h := hw.single s t
  rw [joins] at h
  rw [link]
  split
  · cases k <;> simp <;> omega
  · split
    · cases k <;> simp <;> omega
    · cases k <;> simp <;> omega

/-- The number of edges at a spider is that of its neighbours. -/
theorem NoParallel.degree_eq (hw : w.NoParallel) (v : Vertex) :
    w.degree v = (w.nearby v).length := by
  have hone (u : Vertex) : w.joins v u = if 0 < w.joins v u then 1 else 0 := by
    have := hw.single v u
    split <;> omega
  rw [degree, Finset.sum_congr rfl fun u _ => hone u, Finset.sum_boole, nearby,
    ← List.toFinset_card_of_nodup (List.nodup_range.filter _), Nat.cast_id]
  congr 1
  ext u
  simp

theorem NoParallel.remove (hw : w.NoParallel) (v : Vertex) : (w.remove v).NoParallel where
  valid := hw.valid.remove v
  single s t := by
    rw [joins_remove]
    split
    · exact Nat.zero_le 1
    · exact hw.single s t

/-! ### Edges of simple webs -/

theorem Simple.isZ_iff (hw : w.Simple) (hv : w.Has v) : w.IsZ v ↔ ¬w.IsEnd v :=
  ⟨fun h => h.not_isEnd, (hw.colour v hv).resolve_right⟩

/-- The counts of a simple web by the kind of the edge. -/
theorem Simple.count_eq (hw : w.Simple) (s t : Vertex) (k : EdgeKind) :
    w.count s t k = if w.link s t = some k then 1 else 0 := hw.noParallel.count_eq s t k

theorem Valid.link_comm (hw : w.Valid) (s t : Vertex) : w.link s t = w.link t s := by
  simp only [link, hw.symm s t]

theorem link_eq_none_iff : w.link s t = none ↔ w.joins s t = 0 := by
  rw [link, joins]
  split
  · simp
    omega
  · split
    · simp
      omega
    · simp
      omega

theorem link_isSome_iff : (w.link s t).isSome ↔ 0 < w.joins s t := by
  rw [← not_iff_not, Bool.not_eq_true, Option.isSome_eq_false_iff, Option.isNone_iff_eq_none,
    link_eq_none_iff, Nat.not_lt, Nat.le_zero]

theorem Valid.mem_nearby_of_link {k : EdgeKind} (hw : w.Valid) (hk : w.link s t = some k) :
    t ∈ w.nearby s := by
  rw [hw.mem_nearby, ← link_isSome_iff, hk]
  rfl

/-- Z spiders are joined by Hadamard edges. -/
theorem Simple.link_eq (hw : w.Simple) (hs : w.IsZ s) (ht : w.IsZ t) :
    w.link s t = if 0 < w.joins s t then some .hadamard else none := by
  have := hw.plain s t hs ht
  simp [link, joins, this]

theorem Simple.hadamard_eq (hw : w.Simple) (hs : w.IsZ s) (ht : w.IsZ t) :
    w.count s t .hadamard = w.joins s t := by
  rw [joins, hw.plain s t hs ht, Nat.zero_add]

/-- The number of edges at a spider of a simple web is that of its neighbours. -/
theorem Simple.degree_eq (hw : w.Simple) (v : Vertex) : w.degree v = (w.nearby v).length :=
  hw.noParallel.degree_eq v

/-- The only neighbour of an end. -/
theorem InForm.exists_nearby_eq (hw : w.InForm) (hv : w.IsEnd v) :
    ∃ u, w.nearby v = [u] := by
  have := hw.degree_end v hv
  rw [hw.simple.degree_eq] at this
  exact List.length_eq_one_iff.1 this

/-! ### Toggling edges -/

theorem Simple.setPhase (hw : w.Simple) (v : Vertex) (p : Phase) : (w.setPhase v p).Simple :=
  ⟨hw.valid.setPhase v p, hw.colour, hw.plain, hw.single⟩

theorem Simple.addToPhase (hw : w.Simple) (v : Vertex) (p : Phase) : (w.addToPhase v p).Simple :=
  hw.setPhase v _

/-- The counts after toggling an edge. -/
theorem Simple.count_toggle (hw : w.Simple) (hs : w.IsZ s) (ht : w.IsZ t) (a b : Vertex)
    (k : EdgeKind) : (w.toggle s t).count a b k =
      if s ≠ t ∧ SamePair a b s t ∧ k = .hadamard then 1 - w.count a b k else w.count a b k := by
  rw [toggle]
  split
  · next h => simp [h]
  · next h =>
    simp only [setCount, ne_eq, h, not_false_eq_true, true_and]
    by_cases hp : SamePair a b s t
    · have hat (k : EdgeKind) : w.count a b k = w.count s t k := by
        rcases hp with ⟨rfl, rfl⟩ | ⟨rfl, rfl⟩
        · rfl
        · exact hw.valid.symm _ _ _
      cases k
      · simp [hp, hat, hw.plain s t hs ht]
      · simp [hp, hat]
    · simp [hp]

theorem Simple.toggle (hw : w.Simple) (hs : w.IsZ s) (ht : w.IsZ t) : (w.toggle s t).Simple := by
  have hkind : (w.toggle s t).kind = w.kind := kind_toggle
  have hz (v : Vertex) : (w.toggle s t).IsZ v ↔ w.IsZ v := by rw [IsZ, hkind, IsZ]
  refine ⟨hw.valid.toggle hs.has ht.has, fun v hv => ?_, fun a b ha hb => ?_, fun a b => ?_⟩
  · rw [Has, hkind] at hv
    rw [hz, IsEnd, hkind]
    exact hw.colour v hv
  · rw [hw.count_toggle hs ht, if_neg (by simp)]
    exact hw.plain a b ((hz a).1 ha) ((hz b).1 hb)
  · have hone := hw.single a b
    rw [joins, hw.count_toggle hs ht, hw.count_toggle hs ht, if_neg (by simp)]
    rw [joins] at hone
    split
    · next h =>
      have hp : w.count a b .plain = 0 := by
        rcases h.2.1 with ⟨rfl, rfl⟩ | ⟨rfl, rfl⟩
        · exact hw.plain _ _ hs ht
        · exact hw.plain _ _ ht hs
      omega
    · exact hone

theorem Simple.remove (hw : w.Simple) (v : Vertex) : (w.remove v).Simple := by
  have hkind {u : Vertex} {k : SpiderKind} (h : (w.remove v).kind u = some k) :
      w.kind u = some k := by
    rw [kind_remove, Function.update_apply] at h
    split at h
    · simp at h
    · exact h
  have hle (a b : Vertex) (k : EdgeKind) : (w.remove v).count a b k ≤ w.count a b k := by
    simp only [Web.remove]
    split <;> omega
  refine ⟨hw.valid.remove v, fun u hu => ?_, fun a b ha hb => ?_, fun a b => ?_⟩
  · obtain ⟨k, hk⟩ := Option.isSome_iff_exists.1 hu
    have := hw.colour u (Option.isSome_iff_exists.2 ⟨k, hkind hk⟩)
    rw [IsZ, IsEnd, hk]
    rwa [IsZ, IsEnd, hkind hk] at this
  · exact Nat.le_zero.1 ((hle a b .plain).trans_eq (hw.plain a b (hkind ha) (hkind hb)))
  · exact (Nat.add_le_add (hle a b .plain) (hle a b .hadamard)).trans (hw.single a b)

/-! ### Conditions of rules -/

/-- The ends next to a spider, in ascending order. -/
def ends (w : Web) (v : Vertex) : List Vertex := (w.nearby v).filter fun u => w.IsEnd u

/-- The edges of a spider, no two of which are parallel, by neighbour and kind, in ascending
    order. -/
def incident (w : Web) (v : Vertex) : List (Vertex × EdgeKind) :=
  (w.nearby v).filterMap fun u => (w.link v u).map fun k => (u, k)

/-- Whether a vertex is a Z spider with further edges. -/
def IsHub (w : Web) (v : Vertex) : Prop := w.IsZ v ∧ 1 < w.degree v

/-- Whether a spider is away from the boundary and from the leaves. -/
def IsInner (w : Web) (v : Vertex) : Prop := w.IsHub v ∧ ∀ u ∈ w.nearby v, w.IsHub u

/-- A Z spider that hangs off another one by its only edge. -/
def IsLeaf (w : Web) (v : Vertex) : Prop := w.IsZ v ∧ w.degree v = 1 ∧ ∀ u ∈ w.nearby v, w.IsZ u

instance : DecidablePred w.IsHub := fun _ => inferInstanceAs (Decidable (_ ∧ _))

instance : DecidablePred w.IsInner := fun _ => inferInstanceAs (Decidable (_ ∧ _))

instance : DecidablePred w.IsLeaf := fun _ => inferInstanceAs (Decidable (_ ∧ _ ∧ _))

theorem mem_incident {p : Vertex × EdgeKind} :
    p ∈ w.incident v ↔ p.1 ∈ w.nearby v ∧ w.link v p.1 = some p.2 := by
  rw [incident, List.mem_filterMap]
  constructor
  · rintro ⟨u, hu, h⟩
    obtain ⟨k, hk, rfl⟩ := Option.map_eq_some_iff.1 h
    exact ⟨hu, hk⟩
  · rintro ⟨hu, hk⟩
    exact ⟨p.1, hu, by rw [hk]; rfl⟩

theorem pairwise_incident : (w.incident v).Pairwise fun a b => a.1 < b.1 := by
  rw [incident, List.pairwise_filterMap]
  refine pairwise_nearby.imp fun {a b} hab p hp q hq => ?_
  obtain ⟨k, -, rfl⟩ := Option.map_eq_some_iff.1 hp
  obtain ⟨k', -, rfl⟩ := Option.map_eq_some_iff.1 hq
  exact hab

theorem nodup_incident : (w.incident v).Nodup :=
  pairwise_incident.imp fun h => ne_of_apply_ne Prod.fst (Nat.ne_of_lt h)

/-- Each neighbour has an edge. -/
theorem Valid.length_incident (hw : w.Valid) (v : Vertex) :
    (w.incident v).length = (w.nearby v).length := by
  refine List.filterMap_length_eq_length.2 fun u hu => ?_
  rw [Option.isSome_map]
  exact link_isSome_iff.2 (hw.mem_nearby.1 hu)

theorem incident_eq (hw : w.Simple) (hv : w.IsZ v) (h : ∀ u ∈ w.nearby v, w.IsZ u) :
    w.incident v = (w.nearby v).map fun u => (u, .hadamard) := by
  rw [incident, ← List.filterMap_eq_map]
  refine List.filterMap_congr fun u hu => ?_
  rw [hw.link_eq hv (h u hu), if_pos (hw.valid.mem_nearby.1 hu)]
  rfl

end Web

namespace GraphLike

variable {g : GraphLike} {s t u v : Vertex}

open Web

/-- Both of two tests that succeed. -/
theorem and_eq {ε : Type} {a b : Bool} {y : Except ε Bool} (h : a = true → y = .ok b) :
    ((.ok a : Except ε Bool) <&&> y) = .ok (a && b) := by
  cases a with
  | false => rfl
  | true => exact h rfl

/-- One of two tests that succeed. -/
theorem or_eq {ε : Type} {a b : Bool} {y : Except ε Bool} (h : a = false → y = .ok b) :
    ((.ok a : Except ε Bool) <||> y) = .ok (a || b) := by
  cases a with
  | false => exact h rfl
  | true => rfl

theorem isZ_eq (hv : g.web.Has v) : g.isZ v = .ok (decide (g.web.IsZ v)) := by
  obtain ⟨k, hk⟩ := Option.isSome_iff_exists.1 hv
  rw [isZ, Diagram.kind_eq hk]
  refine congrArg Except.ok ?_
  rw [Bool.eq_iff_iff, decide_eq_true_iff, IsZ, hk, Option.some_inj, beq_iff_eq]

theorem neighborSet_eq (hg : g.Coherent) (hv : g.web.Has v) :
    g.neighborSet v = .ok (g.web.nearby v) := Diagram.neighborSet_eq hg hv

theorem degree_eq (hg : g.Coherent) (hv : g.web.Has v) : g.degree v = .ok (g.web.degree v) :=
  Diagram.degree_eq hg hv

theorem edgeKind?_eq (hg : g.Coherent) (hs : g.web.Has s) :
    g.edgeKind? s t = .ok (g.web.link s t) := Diagram.edgeKind?_eq hg hs

theorem edgeCount_eq (hg : g.Coherent) (hs : g.web.Has s) :
    g.edgeCount s t = .ok (g.web.joins s t) := Diagram.totalMultiplicity_eq hg hs

theorem boundaryNeighbors_eq (hg : g.Coherent) (hv : g.web.Has v) :
    g.boundaryNeighbors v = .ok (g.web.ends v) := by
  rw [boundaryNeighbors, neighborSet_eq hg hv]
  exact filterM_eq fun u hu => Diagram.isBoundary_eq (hg.valid.has_of_mem_nearby hu)

theorem linkOrder_iff {a b : Vertex × EdgeKind} :
    linkOrder a b = true ↔ a.1 < b.1 ∨ a.1 = b.1 ∧ a.2.rank ≤ b.2.rank := by
  simp [linkOrder]

theorem incidentEdges_eq (hg : g.Coherent) (hw : g.web.NoParallel) (hv : g.web.Has v) :
    g.incidentEdges v = .ok (g.web.incident v) := by
  obtain ⟨links, hl, hproper, hmem⟩ := Diagram.exists_links hg hv
  rw [incidentEdges, GraphLike.links, hl]
  refine congrArg Except.ok ?_
  have hkeys : (links.map fun l => (l.node, l.kind)).Nodup := by
    rw [List.Nodup, List.pairwise_map]
    exact hproper.keyed.imp fun h hc => h ⟨congrArg Prod.fst hc, congrArg Prod.snd hc⟩
  refine List.Perm.eq_of_pairwise
    (fun a b _ _ h₁ h₂ => ?_)
    (List.pairwise_mergeSort (fun a b c h₁ h₂ => ?_) (fun a b => ?_) _)
    (pairwise_incident.imp fun h => linkOrder_iff.2 (.inl h)) ?_
  · rw [linkOrder_iff] at h₁ h₂
    obtain ⟨a, ka⟩ := a
    obtain ⟨b, kb⟩ := b
    simp only at h₁ h₂
    obtain rfl : a = b := by
      rcases h₁ with h₁ | h₁
      · rcases h₂ with h₂ | h₂
        · exact absurd h₁ (Nat.lt_asymm h₂)
        · exact h₂.1.symm
      · exact h₁.1
    have hr : ka.rank ≤ kb.rank ∧ kb.rank ≤ ka.rank := by simpa using And.intro h₁ h₂
    cases ka <;> cases kb <;> simp [EdgeKind.rank] at hr ⊢
  · rw [linkOrder_iff] at h₁ h₂ ⊢
    rcases h₁ with h₁ | ⟨h₁, h₁'⟩
    · rcases h₂ with h₂ | ⟨h₂, -⟩
      · exact .inl (Nat.lt_trans h₁ h₂)
      · exact .inl (h₂ ▸ h₁)
    · rcases h₂ with h₂ | ⟨h₂, h₂'⟩
      · exact .inl (h₁ ▸ h₂)
      · exact .inr ⟨h₁.trans h₂, h₁'.trans h₂'⟩
  · rw [Bool.or_eq_true, linkOrder_iff, linkOrder_iff]
    rcases Nat.lt_trichotomy a.1 b.1 with h | h | h
    · exact .inl (.inl h)
    · rcases Nat.le_total a.2.rank b.2.rank with h' | h'
      · exact .inl (.inr ⟨h, h'⟩)
      · exact .inr (.inr ⟨h.symm, h'⟩)
    · exact .inr (.inl h)
  · refine (List.mergeSort_perm _ _).trans
      ((List.perm_ext_iff_of_nodup hkeys nodup_incident).2 fun p => ?_)
    rw [mem_incident, hw.valid.mem_nearby, List.mem_map]
    constructor
    · rintro ⟨l, hl, rfl⟩
      obtain ⟨hpos, hcount⟩ := (hmem l).1 hl
      have hone := hw.count_eq v l.node l.kind
      rw [hcount] at hone
      refine ⟨joins_pos_iff.2 ⟨l.kind, hcount ▸ hpos⟩, ?_⟩
      by_contra hne
      rw [if_neg hne] at hone
      omega
    · rintro ⟨-, hk⟩
      have hone := hw.count_eq v p.1 p.2
      rw [if_pos hk] at hone
      exact ⟨⟨p.1, p.2, 1⟩, (hmem _).2 ⟨Nat.one_pos, hone⟩, rfl⟩

/-- A test of all links of a spider. -/
theorem allM_links_eq (hg : g.Coherent) (hw : g.web.Simple) (hv : g.web.Has v)
    {f : Link → Except Fault Bool} {p : Vertex → EdgeKind → Bool}
    (h : ∀ u ∈ g.web.nearby v, ∀ k, g.web.link v u = some k → f ⟨u, k, 1⟩ = .ok (p u k)) :
    (do (← g.links v).allM f) =
      .ok ((g.web.incident v).all fun (u, k) => p u k) := by
  obtain ⟨links, hl, -, hmem⟩ := Diagram.exists_links hg hv
  have hlink : ∀ l, l ∈ links ↔ (l.node, l.kind) ∈ g.web.incident v ∧ l.count = 1 := by
    intro l
    rw [hmem, mem_incident, hw.count_eq, hw.valid.mem_nearby]
    constructor
    · rintro ⟨hpos, hc⟩
      split at hc
      · next hk =>
        exact ⟨⟨link_isSome_iff.1 (by rw [hk]; rfl), hk⟩, hc.symm⟩
      · omega
    · rintro ⟨⟨-, hk⟩, hc⟩
      exact ⟨by omega, by rw [if_pos hk, hc]⟩
  rw [GraphLike.links, hl]
  refine (allM_eq (p := fun l => p l.node l.kind) fun l hl => ?_).trans (congrArg Except.ok ?_)
  · obtain ⟨hi, hc⟩ := (hlink l).1 hl
    obtain ⟨hu, hk⟩ := mem_incident.1 hi
    obtain ⟨u, k, c⟩ := l
    obtain rfl : c = 1 := hc
    exact h u hu k hk
  · rw [Bool.eq_iff_iff, List.all_eq_true, List.all_eq_true]
    constructor
    · intro hall q hq
      exact hall ⟨q.1, q.2, 1⟩ ((hlink _).2 ⟨hq, rfl⟩)
    · intro hall l hl
      exact hall (l.node, l.kind) ((hlink l).1 hl).1

theorem isInner_eq (hg : g.Coherent) (hw : g.web.Simple) (hv : g.web.Has v) :
    g.isInner v = .ok (decide (g.web.IsInner v)) := by
  have hlinks : g.web.IsHub v → (do (← g.links v).allM g.isInnerLink) =
      .ok (decide (∀ u ∈ g.web.nearby v, g.web.IsHub u)) := fun hhub => by
    refine (allM_links_eq (p := fun u k => k == .hadamard && decide (g.web.IsHub u)) hg hw hv
      fun u hu k hk => ?_).trans (congrArg Except.ok ?_)
    · have hu' := hg.valid.has_of_mem_nearby hu
      rw [isInnerLink, beq_self_eq_true, Bool.true_and]
      refine and_eq fun _ => ?_
      rw [isZ_eq hu', degree_eq hg hu']
      refine (and_eq fun _ => rfl).trans (congrArg Except.ok ?_)
      rw [Bool.eq_iff_iff, Bool.and_eq_true, decide_eq_true_iff, decide_eq_true_iff,
        decide_eq_true_iff]
      exact .rfl
    · rw [Bool.eq_iff_iff, List.all_eq_true, decide_eq_true_iff]
      constructor
      · intro h u hu
        obtain ⟨k, hk⟩ := Option.isSome_iff_exists.1
          (link_isSome_iff.2 (hw.valid.mem_nearby.1 hu))
        have hboth := h (u, k) (mem_incident.2 ⟨hu, hk⟩)
        rw [Bool.and_eq_true] at hboth
        exact of_decide_eq_true hboth.2
      · rintro h ⟨u, k⟩ hp
        obtain ⟨hu, hk⟩ := mem_incident.1 hp
        have hz := h u hu
        rw [hw.link_eq hhub.1 hz.1, if_pos (hw.valid.mem_nearby.1 hu)] at hk
        obtain rfl : EdgeKind.hadamard = k := Option.some.inj hk
        exact decide_eq_true hz
  unfold GraphLike.isInner
  rw [isZ_eq hv, degree_eq hg hv]
  refine (and_eq (b := decide (1 < g.web.degree v) &&
    decide (∀ u ∈ g.web.nearby v, g.web.IsHub u)) fun hz => ?_).trans (congrArg Except.ok ?_)
  · exact and_eq fun hd => hlinks ⟨by simpa using hz, by simpa using hd⟩
  · rw [Bool.eq_iff_iff, Bool.and_eq_true, Bool.and_eq_true, decide_eq_true_iff,
      decide_eq_true_iff, decide_eq_true_iff, decide_eq_true_iff, ← and_assoc]
    exact .rfl

theorem isLeaf_eq (hg : g.Coherent) (hw : g.web.Simple) (hv : g.web.Has v) :
    g.isLeaf v = .ok (decide (g.web.IsLeaf v)) := by
  have hlinks : g.web.IsZ v → (do
      (← g.links v).allM fun (l : Link) => pure (l.kind == .hadamard) <&&> g.isZ l.node) =
        Except.ok (decide (∀ u ∈ g.web.nearby v, g.web.IsZ u)) := fun hz => by
    refine (allM_links_eq (p := fun u k => k == .hadamard && decide (g.web.IsZ u)) hg hw hv
      fun u hu k hk => ?_).trans (congrArg Except.ok ?_)
    · exact and_eq fun _ => isZ_eq (hg.valid.has_of_mem_nearby hu)
    · rw [Bool.eq_iff_iff, List.all_eq_true, decide_eq_true_iff]
      constructor
      · intro h u hu
        obtain ⟨k, hk⟩ := Option.isSome_iff_exists.1
          (link_isSome_iff.2 (hw.valid.mem_nearby.1 hu))
        have hboth := h (u, k) (mem_incident.2 ⟨hu, hk⟩)
        rw [Bool.and_eq_true] at hboth
        exact of_decide_eq_true hboth.2
      · rintro h ⟨u, k⟩ hp
        obtain ⟨hu, hk⟩ := mem_incident.1 hp
        have hz' := h u hu
        rw [hw.link_eq hz hz', if_pos (hw.valid.mem_nearby.1 hu)] at hk
        obtain rfl : EdgeKind.hadamard = k := Option.some.inj hk
        exact decide_eq_true hz'
  unfold GraphLike.isLeaf
  rw [isZ_eq hv, degree_eq hg hv]
  refine (and_eq (b := decide (g.web.degree v = 1) &&
    decide (∀ u ∈ g.web.nearby v, g.web.IsZ u)) fun hz => ?_).trans (congrArg Except.ok ?_)
  · refine (and_eq fun _ => hlinks (of_decide_eq_true hz)).trans (congrArg Except.ok ?_)
    rw [Bool.eq_iff_iff]
    simp
  · rw [Bool.eq_iff_iff, Bool.and_eq_true, Bool.and_eq_true, decide_eq_true_iff,
      decide_eq_true_iff, decide_eq_true_iff, decide_eq_true_iff]
    exact .rfl

theorem isInnerPauli_eq (hg : g.Coherent) (hw : g.web.Simple) (hv : g.web.Has v) :
    g.isInnerPauli v = .ok (decide ((g.phase v).isPauli ∧ g.web.IsInner v)) := by
  refine (and_eq fun _ => isInner_eq hg hw hv).trans (congrArg Except.ok ?_)
  rw [Bool.eq_iff_iff]
  simp

theorem hadamardJoined_eq (hg : g.Coherent) (hv : g.web.Has s) :
    g.hadamardJoined s t = .ok (decide (s ≠ t ∧ g.web.link s t = some .hadamard)) := by
  rw [hadamardJoined, edgeKind?_eq hg hv]
  refine (and_eq fun _ => rfl).trans (congrArg Except.ok ?_)
  rw [Bool.eq_iff_iff]
  simp

end GraphLike

end ZXRewriting
