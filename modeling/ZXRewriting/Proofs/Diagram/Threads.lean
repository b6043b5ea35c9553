import ZXRewriting.Proofs.Diagram.Drawn
import ZXRewriting.Proofs.Semantics.Lines

/-!
# Threads

In the diagram of a circuit every input is the start of a *thread*, which runs through spiders to an output.
`Web.Threaded` says that the spiders on threads come in a certain order, each next to the one before
it on its thread, a later one, and spiders *beside* it, which are none of its thread.

It holds of bare wires, and is kept when a spider is put onto the wire at an end, when spiders
on threads are joined, and when two wires cross; at the inputs as well as at the outputs.
-/

namespace ZXRewriting

open Equiv (Perm)
open Function (update update_self update_of_ne)
open Multigraph (SamePair)

namespace Diagram.Side

variable {α : Type} {side : Side} {x : α} {l l' : List α}

/-- The list with more elements at a side. -/
def join : Side → List α → List α → List α
  | .front, l, l' => l ++ l'
  | .back, l, l' => l' ++ l

@[simp] theorem mem_join : x ∈ side.join l l' ↔ x ∈ l ∨ x ∈ l' := by
  cases side
  · exact List.mem_append
  · rw [join, List.mem_append, or_comm]

end Diagram.Side

namespace Web

variable {w w' : Web} {e e' u u' v x : Vertex} {us : List Vertex} {κ : SpiderKind} {p : Phase}

/-! ### Plain edges -/

/-- A vertex with plain edges only, to the vertices of a list, as often as they occur there. -/
def WiredTo (w : Web) (v : Vertex) (us : List Vertex) : Prop :=
  ∀ x k, w.count v x k = if k = .plain then us.count x else 0

theorem count_single : [u].count x = if x = u then 1 else 0 := by
  by_cases h : x = u
  · simp [h]
  · simp [h, Ne.symm h]

theorem tied_iff : w.Tied v u ↔ w.WiredTo v [u] := by
  refine forall_congr' fun x => forall_congr' fun k => ?_
  rw [count_single]
  by_cases hk : k = .plain <;> simp [hk]

namespace WiredTo

theorem joins (h : w.WiredTo v us) (x : Vertex) : w.joins v x = us.count x := by
  rw [Web.joins, h, h]
  simp

theorem perm {us' : List Vertex} (h : w.WiredTo v us) (hp : us.Perm us') : w.WiredTo v us' :=
  fun x k => by rw [h, hp.count_eq]

theorem has (hw : w.Valid) (h : w.WiredTo v us) (hx : x ∈ us) : w.Has v ∧ w.Has x :=
  hw.has_of_joins (by rw [h.joins]; exact List.count_pos_iff.2 hx)

theorem mem_nearby (hw : w.Valid) (h : w.WiredTo v us) : x ∈ w.nearby v ↔ x ∈ us := by
  rw [hw.mem_nearby, h.joins, List.count_pos_iff]

theorem degree (hw : w.Valid) (h : w.WiredTo v us) : w.degree v = us.length := by
  rw [Web.degree, Finset.sum_congr rfl fun x _ => h.joins x, ← Multiset.coe_card,
    ← Multiset.sum_count_eq_card fun x hx => Finset.mem_range.2 (hw.lt x (h.has hw hx).2)]
  simp only [Multiset.coe_count]

/-- An edge is seen from both of its ends. -/
theorem count_comm (hw : w.Valid) {us' : List Vertex} (h : w.WiredTo v us) (h' : w.WiredTo u us') :
    us.count u = us'.count v := by
  rw [← h.joins, ← h'.joins, hw.joins_comm]

end WiredTo

/-- Putting a name for another one. -/
theorem count_map_update {o n : Vertex} (hn : n ∉ us) (y : Vertex) :
    (us.map (update id o n)).count y =
      if y = n then us.count o + (if o = n then 0 else us.count n)
      else if y = o then 0 else us.count y := by
  induction us with
  | nil => simp
  | cons a us ih =>
    have ih := ih fun h => hn (List.mem_cons_of_mem _ h)
    have hne : a ≠ n := fun h => hn (h ▸ List.mem_cons_self)
    simp only [List.map_cons, List.count_cons, ih, Function.update_apply, id, beq_iff_eq]
    grind

section Splice

variable (hw : w.Valid) (ht : w.Tied e u)
include hw ht

/-- With a new spider on the wire at an end, its neighbour has the spider in place of the end. -/
theorem WiredTo.splice (h : w.WiredTo v us) (hve : v ≠ e) (hvn : v ≠ w.next) :
    (w.splice e u κ p).WiredTo v (us.map (update id e w.next)) := by
  have heu := ht.ne hw
  have hen := hw.ne_next (ht.has hw).1
  have hn : w.next ∉ us := fun hmem => hw.not_has_next (h.has hw hmem).2
  have hcount : us.count e = if v = u then 1 else 0 := by
    rw [h.count_comm hw (tied_iff.1 ht), count_single]
  have hnone : us.count w.next = 0 := List.count_eq_zero.2 hn
  intro x k
  have hx := h x k
  rw [ht.count_splice hw, count_map_update hn, hcount, hnone]
  simp only [SamePair]
  grind

/-- The new spider is next to the end and to the neighbour it had. -/
theorem Tied.wiredTo_next : (w.splice e u κ p).WiredTo w.next [u, e] := by
  have heu := ht.ne hw
  have hen := hw.ne_next (ht.has hw).1
  have hun := hw.ne_next (ht.has hw).2
  intro x k
  have hnone := hw.count_next x k
  rw [ht.count_splice hw]
  simp only [SamePair, List.count_cons, List.count_nil, beq_iff_eq]
  grind

end Splice

theorem WiredTo.addEdges (hw : w.Valid) {a b : Vertex} (hab : a ≠ b) (h : w.WiredTo v us) :
    (w.addEdges a b .plain 1).WiredTo v
      (us ++ if v = a then [b] else if v = b then [a] else []) := by
  intro x k
  rw [hw.count_addEdges_eq, h, List.count_append]
  simp only [SamePair]
  by_cases hva : v = a
  · simp only [hva, hab, count_single, if_true]
    grind
  · by_cases hvb : v = b
    · simp only [hvb, hab.symm, count_single, if_true, if_false]
      grind
    · simp [hva, hvb]

theorem WiredTo.addBetween (hw : w.Valid) {a b : Vertex} (ha : w.Has a) (hb : w.Has b) (hab : a ≠ b)
    (h : w.WiredTo v us) (hv : v ≠ w.next) :
    (w.addBetween a b κ p).WiredTo v (us ++ if v = a ∨ v = b then [w.next] else []) := by
  have han := hw.ne_next ha
  have hbn := hw.ne_next hb
  have hn : us.count w.next = 0 :=
    List.count_eq_zero.2 fun hmem => hw.not_has_next (h.has hw hmem).2
  intro x k
  have hx := h x k
  rw [hw.count_addBetween ha hb hab, List.count_append]
  simp only [SamePair]
  by_cases hmem : v = a ∨ v = b
  · simp only [if_pos hmem, count_single]
    grind
  · simp only [if_neg hmem, List.count_nil]
    grind

theorem wiredTo_next_addBetween (hw : w.Valid) {a b : Vertex} (ha : w.Has a) (hb : w.Has b)
    (hab : a ≠ b) : (w.addBetween a b κ p).WiredTo w.next [a, b] := by
  have han := hw.ne_next ha
  have hbn := hw.ne_next hb
  intro x k
  have hnone := hw.count_next x k
  rw [hw.count_addBetween ha hb hab]
  simp only [SamePair, List.count_cons, List.count_nil, beq_iff_eq]
  grind

/-- Crossing wires exchanges the ends. -/
theorem WiredTo.cross (hw : w.Valid) (ht : w.Tied e u) (hu : u ≠ e') (ht' : w.Tied e' u')
    (hu' : u' ≠ e) (hne : e ≠ e') (h : w.WiredTo v us) :
    (w.cross e e' u u').WiredTo (Equiv.swap e e' v) (us.map (Equiv.swap e e')) := fun x k => by
  have hx := (List.count_map_of_injective us _ (Equiv.swap e e').injective (Equiv.swap e e' x)).symm
  rw [hw.count_cross ht hu ht' hu' hne, Equiv.swap_apply_self, h, hx, Equiv.swap_apply_self]

/-! ### Spiders in order -/

section Runs

variable {n : ℕ} {ends : Perm ℕ} {beside : Vertex → List Vertex}
  {spots rest : List (Vertex × ℕ)} {tip tip' : ℕ → Vertex} {t : ℕ}

/-- A vertex that comes later on a thread: a spider still to come, or the output. -/
def Later (w : Web) (n : ℕ) (ends : Perm ℕ) (rest : List (Vertex × ℕ)) (t : ℕ) (u : Vertex) :
    Prop :=
  (u, t) ∈ rest ∨ ∃ q < n, ends q = t ∧ u = w.output q

/-- Threads run on from their tips through the spiders `spots`, each of which is given with its
    thread. -/
def Runs (w : Web) (n : ℕ) (ends : Perm ℕ) (beside : Vertex → List Vertex) :
    (tip : ℕ → Vertex) → (spots : List (Vertex × ℕ)) → Prop
  | tip, [] => ∀ q < n, w.Tied (w.output q) (tip (ends q))
  | tip, (v, t) :: rest =>
    (∃ u, w.Later n ends rest t u ∧ w.WiredTo v (tip t :: u :: beside v)) ∧
      w.Runs n ends beside (update tip t v) rest

/-- Only the tips of threads that are there matter. -/
theorem Runs.congr (hends : KeepsPlaces n ends) (hspots : ∀ s ∈ spots, s.2 < n)
    (htip : ∀ t < n, tip t = tip' t) (h : w.Runs n ends beside tip spots) :
    w.Runs n ends beside tip' spots := by
  induction spots generalizing tip tip' with
  | nil =>
    intro q hq
    rw [← htip _ ((hends q).2 hq)]
    exact h q hq
  | cons s rest ih =>
    obtain ⟨⟨u, hu, hwired⟩, hrest⟩ := h
    refine ⟨⟨u, hu, htip _ (hspots s List.mem_cons_self) ▸ hwired⟩,
      ih (fun s' hs => hspots s' (List.mem_cons_of_mem _ hs)) (fun t ht => ?_) hrest⟩
    rw [Function.update_apply, Function.update_apply, htip t ht]

/-- Threads still run when vertices are renamed by `ρ` and others come to be beside, and when more
    spiders come at the end. -/
theorem Runs.map (ends' : Perm ℕ) (beside' : Vertex → List Vertex) (extra : List (Vertex × ℕ))
    (ρ : Vertex → Vertex) (hwired : ∀ s ∈ spots, ∀ a b, w.WiredTo s.1 (a :: b :: beside s.1) →
      w'.WiredTo s.1 (ρ a :: ρ b :: beside' s.1))
    (hfix : ∀ s ∈ spots, ρ s.1 = s.1)
    (hlater : ∀ rest ⊆ spots, ∀ t u, w.Later n ends rest t u →
      w'.Later n ends' (rest ++ extra) t (ρ u))
    (hend : ∀ tip, w.Runs n ends beside tip [] → w'.Runs n ends' beside' (ρ ∘ tip) extra)
    (h : w.Runs n ends beside tip spots) :
    w'.Runs n ends' beside' (ρ ∘ tip) (spots ++ extra) := by
  induction spots generalizing tip with
  | nil => exact hend tip h
  | cons s rest ih =>
    obtain ⟨⟨u, hu, hwire⟩, hrest⟩ := h
    have hmem {s' : Vertex × ℕ} (hs : s' ∈ rest) : s' ∈ s :: rest := List.mem_cons_of_mem _ hs
    refine ⟨⟨ρ u, hlater rest (List.subset_cons_self _ _) _ _ hu,
      hwired s List.mem_cons_self _ _ hwire⟩, ?_⟩
    have hstep := ih (fun s' hs => hwired s' (hmem hs)) (fun s' hs => hfix s' (hmem hs))
      (fun rest' hsub => hlater rest' (List.Subset.trans hsub (List.subset_cons_self _ _))) hrest
    rwa [Function.comp_update, hfix s List.mem_cons_self] at hstep

/-- Spiders of different threads can be taken in any order. -/
theorem Runs.exchange {v' : Vertex} {t' : ℕ} (ht : t ≠ t')
    (h : w.Runs n ends beside tip ((v, t) :: (v', t') :: rest)) :
    w.Runs n ends beside tip ((v', t') :: (v, t) :: rest) := by
  obtain ⟨⟨u, hu, hwired⟩, ⟨u', hu', hwired'⟩, hrest⟩ := h
  rw [update_of_ne ht.symm] at hwired'
  refine ⟨⟨u', ?_, hwired'⟩, ⟨u, ?_, ?_⟩, ?_⟩
  · exact hu'.imp_left (List.mem_cons_of_mem _)
  · refine hu.imp_left fun hmem => (List.mem_cons.1 hmem).resolve_left fun he => ht ?_
    exact congrArg Prod.snd he
  · rwa [update_of_ne ht]
  · rwa [Function.update_comm ht.symm]

end Runs

/-! ### Threaded webs -/

/-- The ends of the wires at a side. -/
def terminals (w : Web) : Diagram.Side → List Vertex
  | .front => w.inputs
  | .back => w.outputs

/-- The end of a wire at a side. -/
def terminal (w : Web) (side : Diagram.Side) (q : ℕ) : Vertex := (w.terminals side).getD q 0

theorem terminal_back (q : ℕ) : w.terminal .back q = w.output q := rfl

theorem getElem?_terminals {side : Diagram.Side} {q : ℕ} (hq : q < (w.terminals side).length) :
    (w.terminals side)[q]? = some (w.terminal side q) := by
  rw [terminal, List.getD_eq_getElem?_getD, List.getElem?_eq_getElem hq]
  rfl

theorem terminal_mem {side : Diagram.Side} {q : ℕ} (hq : q < (w.terminals side).length) :
    w.terminal side q ∈ w.terminals side :=
  List.mem_of_getElem? (getElem?_terminals hq)

theorem terminal_inj {side : Diagram.Side} {q r : ℕ} (hnodup : (w.terminals side).Nodup)
    (hq : q < (w.terminals side).length) (hr : r < (w.terminals side).length) :
    w.terminal side q = w.terminal side r ↔ q = r := by
  refine ⟨fun he => (List.getElem?_inj hq hnodup).1 ?_, fun he => he ▸ rfl⟩
  rw [getElem?_terminals hq, getElem?_terminals hr, he]

/-- A web with threads: the input `q` is the start of the thread `lines .front q`, which runs through
    the spiders `spots` on it in their order, and ends at the output that `lines .back` puts onto it.
    A spider on no thread has edges to what is beside it only. -/
structure Threaded (w : Web) (n : ℕ) (lines : Diagram.Side → Perm ℕ) (beside : Vertex → List Vertex)
    (spots : List (Vertex × ℕ)) : Prop where
  valid : w.Valid
  length : ∀ side, (w.terminals side).length = n
  nodup : ∀ side, (w.terminals side).Nodup
  inputs : ∀ v, v ∈ w.inputs ↔ w.kind v = some .input
  outputs : ∀ v, v ∈ w.outputs ↔ w.kind v = some .output
  keeps : ∀ side, KeepsPlaces n (lines side)
  spider : ∀ s ∈ spots, w.Has s.1 ∧ ¬w.IsEnd s.1 ∧ s.2 < n
  beside_spider : ∀ v, ∀ x ∈ beside v, (w.Has v ∧ ¬w.IsEnd v) ∧ w.Has x ∧ ¬w.IsEnd x
  loose : ∀ v, w.Has v → ¬w.IsEnd v → (∀ t, (v, t) ∉ spots) → w.WiredTo v (beside v)
  start : ∀ q < n, ∃ u, w.Later n (lines .back) spots (lines .front q) u ∧ w.Tied (w.input q) u
  runs : w.Runs n (lines .back) beside (fun t => w.input ((lines .front).symm t)) spots

/-- Every output is tied to the last spider on its thread, or to its tip. -/
theorem Runs.exists_tied {n : ℕ} {ends : Perm ℕ} {beside : Vertex → List Vertex}
    {spots : List (Vertex × ℕ)} {tip : ℕ → Vertex} (h : w.Runs n ends beside tip spots) {q : ℕ}
    (hq : q < n) : ∃ u, w.Tied (w.output q) u ∧ (u = tip (ends q) ∨ ∃ t, (u, t) ∈ spots) := by
  induction spots generalizing tip with
  | nil => exact ⟨_, h q hq, .inl rfl⟩
  | cons s rest ih =>
    obtain ⟨v, t⟩ := s
    obtain ⟨u, hu, hspot⟩ := ih h.2
    refine ⟨u, hu, ?_⟩
    rcases hspot with hspot | ⟨t', hmem⟩
    · rw [Function.update_apply] at hspot
      split at hspot
      · exact .inr ⟨t, hspot ▸ List.mem_cons_self⟩
      · exact .inl hspot
    · exact .inr ⟨t', List.mem_cons_of_mem _ hmem⟩

namespace Threaded

variable {n q r : ℕ} {lines : Diagram.Side → Perm ℕ} {beside : Vertex → List Vertex}
  {spots : List (Vertex × ℕ)} {side : Diagram.Side}

section

variable (h : w.Threaded n lines beside spots)
include h

theorem getElem?_terminals (side : Diagram.Side) (hq : q < n) :
    (w.terminals side)[q]? = some (w.terminal side q) :=
  Web.getElem?_terminals (h.length side ▸ hq)

theorem terminal_mem (side : Diagram.Side) (hq : q < n) : w.terminal side q ∈ w.terminals side :=
  Web.terminal_mem (h.length side ▸ hq)

theorem isEnd_of_mem (hv : v ∈ w.terminals side) : w.IsEnd v := by
  cases side
  · exact isEnd_of_input ((h.inputs v).1 hv)
  · exact isEnd_of_output ((h.outputs v).1 hv)

theorem isEnd_terminal (side : Diagram.Side) (hq : q < n) : w.IsEnd (w.terminal side q) :=
  h.isEnd_of_mem (h.terminal_mem _ hq)

theorem terminal_inj (side : Diagram.Side) (hq : q < n) (hr : r < n) :
    w.terminal side q = w.terminal side r ↔ q = r :=
  Web.terminal_inj (h.nodup side) (h.length side ▸ hq) (h.length side ▸ hr)

theorem input_ne_output (hq : q < n) (hr : r < n) : w.input q ≠ w.output r := fun he => by
  have hin := (h.inputs _).1 (h.terminal_mem .front hq)
  have hout := (h.outputs _).1 (h.terminal_mem .back hr)
  rw [show w.terminal .front q = w.output r from he] at hin
  cases hin.symm.trans hout

/-- The end of a wire is tied to what is none at its side. -/
theorem exists_tied (side : Diagram.Side) (hq : q < n) :
    ∃ u, w.Tied (w.terminal side q) u ∧ u ∉ w.terminals side := by
  cases side with
  | front =>
    obtain ⟨u, hu, htied⟩ := h.start q hq
    refine ⟨u, htied, fun hmem => ?_⟩
    rcases hu with hspot | ⟨r, hr, -, rfl⟩
    · exact (h.spider _ hspot).2.1 (h.isEnd_of_mem hmem)
    · have hout := (h.outputs _).1 (h.terminal_mem .back hr)
      cases ((h.inputs _).1 hmem).symm.trans hout
  | back =>
    obtain ⟨u, htied, hu⟩ := h.runs.exists_tied hq
    refine ⟨u, htied, fun hmem => ?_⟩
    rcases hu with rfl | ⟨t, hspot⟩
    · have hlt := ((h.keeps .front).symm _).2 ((h.keeps .back q).2 hq)
      have hin := (h.inputs _).1 (h.terminal_mem .front hlt)
      cases ((h.outputs _).1 hmem).symm.trans hin
    · exact (h.spider _ hspot).2.1 (h.isEnd_of_mem hmem)

end

/-! ### A spider on a thread -/

section Splice

variable (h : w.Threaded n lines beside spots) (hq : q < n) (ht : w.Tied (w.terminal side q) u)
  (hκ : κ.isBoundary = false)
include h hq ht

omit ht in
theorem map_beside_splice (v : Vertex) :
    (beside v).map (update id (w.terminal side q) w.next) = beside v := by
  conv_rhs => rw [← List.map_id (beside v)]
  refine List.map_congr_left fun x hx => update_of_ne (fun he => ?_) _ _
  exact (h.beside_spider v x hx).2.2 (he ▸ h.isEnd_terminal _ hq)

/-- Only the neighbour of an end sees a new spider on its wire. -/
theorem wiredTo_splice (hv : w.Has v) (hve : v ≠ w.terminal side q) (a b : Vertex)
    (hwired : w.WiredTo v (a :: b :: beside v)) :
    (w.splice (w.terminal side q) u κ p).WiredTo v
      (update id (w.terminal side q) w.next a :: update id (w.terminal side q) w.next b ::
        beside v) := by
  have hsplice := hwired.splice h.valid ht (κ := κ) (p := p) hve (h.valid.ne_next hv)
  rwa [List.map_cons, List.map_cons, h.map_beside_splice hq] at hsplice

/-- What comes later on a thread, with a new spider on the wire at an end. -/
theorem later_splice {rest : List (Vertex × ℕ)} (hsub : rest ⊆ spots) (t : ℕ) (v : Vertex)
    (hv : w.Later n (lines .back) rest t v) :
    (w.splice (w.terminal side q) u κ p).Later n (lines .back)
      (match side with | .front => rest | .back => rest ++ [(w.next, lines .back q)]) t
      (update id (w.terminal side q) w.next v) := by
  rcases hv with hmem | ⟨r, hr, rfl, rfl⟩
  · have hne : v ≠ w.terminal side q := fun he =>
      (h.spider _ (hsub hmem)).2.1 (he ▸ h.isEnd_terminal _ hq)
    rw [update_of_ne hne]
    cases side
    · exact .inl hmem
    · exact .inl (List.mem_append_left _ hmem)
  · cases side with
    | front =>
      exact .inr ⟨r, hr, rfl, update_of_ne (h.input_ne_output hq hr).symm _ _⟩
    | back =>
      by_cases hrq : r = q
      · subst hrq
        exact .inl (List.mem_append_right _ (by rw [← terminal_back, update_self]; simp))
      · refine .inr ⟨r, hr, rfl, update_of_ne (fun he => hrq ?_) _ _⟩
        exact (h.terminal_inj .back hr hq).1 he

include hκ

/-- What is left to be shown of a web with a new spider. -/
theorem of_splice {spots' : List (Vertex × ℕ)} {t : ℕ} (htn : t < n)
    (hspots : ∀ s, s ∈ spots' ↔ s = (w.next, t) ∨ s ∈ spots)
    (hstart : ∀ r < n, ∃ v, (w.splice (w.terminal side q) u κ p).Later n (lines .back) spots'
      (lines .front r) v ∧ (w.splice (w.terminal side q) u κ p).Tied (w.input r) v)
    (hruns : (w.splice (w.terminal side q) u κ p).Runs n (lines .back) beside
      (fun t => w.input ((lines .front).symm t)) spots') :
    (w.splice (w.terminal side q) u κ p).Threaded n lines beside spots' := by
  have hkind {v : Vertex} (hv : v ≠ w.next) :
      (w.splice (w.terminal side q) u κ p).kind v = w.kind v := by
    rw [kind_splice, update_of_ne hv]
  have hnew : (w.splice (w.terminal side q) u κ p).kind w.next = some κ := by
    rw [kind_splice, update_self]
  have hhas {v : Vertex} (hv : w.Has v) : (w.splice (w.terminal side q) u κ p).Has v := by
    rwa [Has, hkind (h.valid.ne_next hv)]
  have hend {v : Vertex} (hv : w.Has v) (hve : ¬w.IsEnd v) :
      ¬(w.splice (w.terminal side q) u κ p).IsEnd v := by
    rwa [IsEnd, hkind (h.valid.ne_next hv)]
  have hmem {v : Vertex} {l : List Vertex} {κ' : SpiderKind} (hκ' : κ'.isBoundary = true)
      (hl : v ∈ l ↔ w.kind v = some κ') :
      v ∈ l ↔ (w.splice (w.terminal side q) u κ p).kind v = some κ' := by
    rw [hl]
    by_cases hv : v = w.next
    · rw [hv, hnew]
      refine ⟨fun hk => absurd (has_of_kind hk) h.valid.not_has_next, fun hk => ?_⟩
      rw [Option.some.inj hk, hκ'] at hκ
      cases hκ
    · rw [hkind hv]
  exact {
    valid := ht.valid_splice h.valid
    length := fun side => by cases side <;> [exact h.length .front; exact h.length .back]
    nodup := fun side => by cases side <;> [exact h.nodup .front; exact h.nodup .back]
    inputs := fun v => hmem rfl (h.inputs v)
    outputs := fun v => hmem rfl (h.outputs v)
    keeps := h.keeps
    spider := fun s hs => by
      rcases (hspots s).1 hs with rfl | hs
      · exact ⟨has_of_kind hnew, not_isEnd_of_kind hnew hκ, htn⟩
      · obtain ⟨hsh, hse, hst⟩ := h.spider s hs
        exact ⟨hhas hsh, hend hsh hse, hst⟩
    beside_spider := fun v x hx => by
      obtain ⟨⟨hv, hve⟩, hxh, hxe⟩ := h.beside_spider v x hx
      exact ⟨⟨hhas hv, hend hv hve⟩, hhas hxh, hend hxh hxe⟩
    loose := fun v hv hve hno => by
      have hvn : v ≠ w.next := fun he => hno t ((hspots _).2 (.inl (by rw [he])))
      rw [Has, hkind hvn] at hv
      rw [IsEnd, hkind hvn] at hve
      have hwired := (h.loose v hv hve fun t' hm => hno t' ((hspots _).2 (.inr hm))).splice h.valid ht
        (κ := κ) (p := p) (fun he => hve (he ▸ h.isEnd_terminal _ hq)) hvn
      rwa [h.map_beside_splice hq] at hwired
    start := hstart
    runs := hruns }

end Splice

/-- A spider can be put onto the end of a thread. -/
theorem splice_back (h : w.Threaded n lines beside spots) (hq : q < n)
    (ht : w.Tied (w.terminal .back q) u) (hκ : κ.isBoundary = false) :
    (w.splice (w.terminal .back q) u κ p).Threaded n lines beside
      (Diagram.Side.back.join [(w.next, lines .back q)] spots) := by
  have hval := h.valid
  have hnext : beside w.next = [] := List.eq_nil_iff_forall_not_mem.2 fun x hx =>
    hval.not_has_next (h.beside_spider _ x hx).1.1
  have hspot {s : Vertex × ℕ} (hs : s ∈ spots) : w.Has s.1 ∧ s.1 ≠ w.terminal .back q :=
    ⟨(h.spider s hs).1, fun he => (h.spider s hs).2.1 (he ▸ h.isEnd_terminal _ hq)⟩
  have hinput {r : ℕ} (hr : r < n) : w.input r ≠ w.terminal .back q := h.input_ne_output hr hq
  have hin {r : ℕ} (hr : r < n) : w.Has (w.input r) :=
    (h.isEnd_terminal .front hr).has
  have hout {r : ℕ} (hr : r < n) : w.Has (w.output r) :=
    (h.isEnd_terminal .back hr).has
  refine h.of_splice hq ht hκ ((h.keeps .back q).2 hq) (fun s => ?_) (fun r hr => ?_) ?_
  · rw [Diagram.Side.mem_join, List.mem_singleton]
  · obtain ⟨v, hv, htied⟩ := h.start r hr
    refine ⟨_, h.later_splice hq ht (List.Subset.refl _) _ v hv, tied_iff.2 ?_⟩
    exact (tied_iff.1 htied).splice hval ht (hinput hr) (hval.ne_next (hin hr))
  · have hruns := h.runs.map (lines .back) beside [(w.next, lines .back q)]
      (update id (w.terminal .back q) w.next)
      (fun s hs => h.wiredTo_splice hq ht (hspot hs).1 (hspot hs).2 (κ := κ) (p := p))
      (fun s hs => update_of_ne (hspot hs).2 _ _)
      (fun rest hsub => h.later_splice hq ht hsub) fun tip htip => ?_
    · refine hruns.congr (h.keeps .back) (fun s hs => ?_) fun t ht => ?_
      · rcases List.mem_append.1 hs with hs | hs
        · exact (h.spider s hs).2.2
        · rw [List.mem_singleton.1 hs]
          exact (h.keeps .back q).2 hq
      · exact update_of_ne (hinput (((h.keeps .front).symm t).2 ht)) _ _
    · -- the end of the thread, which its last spider was tied to
      have hu := ht.unique (htip q hq)
      have hue : tip (lines .back q) ≠ w.terminal .back q := hu ▸ (ht.ne hval).symm
      refine ⟨⟨w.output q, .inr ⟨q, hq, rfl, rfl⟩, ?_⟩, fun r hr => ?_⟩
      · rw [hnext, Function.comp_apply, update_of_ne hue, id, ← hu]
        exact ht.wiredTo_next hval
      · by_cases hrq : r = q
        · rw [hrq, update_self]
          exact ht.splice hval
        · have hne : w.output r ≠ w.terminal .back q := fun he =>
            hrq ((h.terminal_inj .back hr hq).1 he)
          rw [update_of_ne fun he => hrq ((lines .back).injective he)]
          exact tied_iff.2 ((tied_iff.1 (htip r hr)).splice hval ht hne (hval.ne_next (hout hr)))

/-- A spider can be put onto the start of a thread. -/
theorem splice_front (h : w.Threaded n lines beside spots) (hq : q < n)
    (ht : w.Tied (w.terminal .front q) u) (hκ : κ.isBoundary = false) :
    (w.splice (w.terminal .front q) u κ p).Threaded n lines beside
      (Diagram.Side.front.join [(w.next, lines .front q)] spots) := by
  have hval := h.valid
  have hnext : beside w.next = [] := List.eq_nil_iff_forall_not_mem.2 fun x hx =>
    hval.not_has_next (h.beside_spider _ x hx).1.1
  have hspot {s : Vertex × ℕ} (hs : s ∈ spots) : w.Has s.1 ∧ s.1 ≠ w.terminal .front q :=
    ⟨(h.spider s hs).1, fun he => (h.spider s hs).2.1 (he ▸ h.isEnd_terminal _ hq)⟩
  have hin {r : ℕ} (hr : r < n) : w.Has (w.input r) :=
    (h.isEnd_terminal .front hr).has
  have hout {r : ℕ} (hr : r < n) : w.Has (w.output r) :=
    (h.isEnd_terminal .back hr).has
  have hlater {v : Vertex} {rest : List (Vertex × ℕ)} (hsub : rest ⊆ spots) (t : ℕ)
      (hv : w.Later n (lines .back) rest t v) :
      update id (w.terminal .front q) w.next v = v := by
    refine update_of_ne (fun he => ?_) _ _
    rcases hv with hmem | ⟨r, hr, -, rfl⟩
    · exact (hspot (hsub hmem)).2 he
    · exact h.input_ne_output hq hr he.symm
  refine h.of_splice hq ht hκ ((h.keeps .front q).2 hq) (fun s => List.mem_cons)
    (fun r hr => ?_) ⟨?_, ?_⟩
  · by_cases hrq : r = q
    · rw [hrq]
      exact ⟨w.next, .inl List.mem_cons_self, ht.splice hval⟩
    · obtain ⟨v, hv, htied⟩ := h.start r hr
      have hne : w.input r ≠ w.terminal .front q := fun he =>
        hrq ((h.terminal_inj .front hr hq).1 he)
      refine ⟨v, hv.imp_left (List.mem_cons_of_mem _), tied_iff.2 ?_⟩
      have hwired := (tied_iff.1 htied).splice hval ht (κ := κ) (p := p) hne (hval.ne_next (hin hr))
      rwa [List.map_singleton, hlater (List.Subset.refl _) _ hv] at hwired
  · obtain ⟨v, hv, htied⟩ := h.start q hq
    obtain rfl := ht.unique htied
    refine ⟨u, hv, ?_⟩
    dsimp only
    rw [hnext, Equiv.symm_apply_apply]
    exact (ht.wiredTo_next hval).perm (List.Perm.swap _ _ _)
  · have hruns := h.runs.map (lines .back) beside [] (update id (w.terminal .front q) w.next)
      (fun s hs => h.wiredTo_splice hq ht (hspot hs).1 (hspot hs).2 (κ := κ) (p := p))
      (fun s hs => update_of_ne (hspot hs).2 _ _)
      (fun rest hsub t v hv => by
        rw [List.append_nil]
        exact h.later_splice hq ht hsub t v hv) fun tip htip r hr =>
      tied_iff.2 ((tied_iff.1 (htip r hr)).splice hval ht (h.input_ne_output hq hr).symm
        (hval.ne_next (hout hr)))
    rw [List.append_nil] at hruns
    refine hruns.congr (h.keeps .back) (fun s hs => (h.spider s hs).2.2) fun t ht => ?_
    rw [Function.update_apply]
    by_cases htq : t = lines .front q
    · rw [if_pos htq, htq, Function.comp_apply, Equiv.symm_apply_apply]
      exact update_self _ _ _
    · rw [if_neg htq]
      refine update_of_ne (fun he => htq ?_) _ _
      have hlt := ((h.keeps .front).symm t).2 ht
      rw [← (h.terminal_inj .front hlt hq).1 he, Equiv.apply_symm_apply]

/-- A spider can be put onto a thread at either side. -/
theorem splice (h : w.Threaded n lines beside spots) (hq : q < n)
    (ht : w.Tied (w.terminal side q) u) (hκ : κ.isBoundary = false) :
    (w.splice (w.terminal side q) u κ p).Threaded n lines beside
      (side.join [(w.next, lines side q)] spots) := by
  cases side
  · exact h.splice_front hq ht hκ
  · exact h.splice_back hq ht hκ

/-- Two spiders on different threads, one put onto its thread after the other. -/
theorem pair {a b : Vertex} {s t : ℕ} (hst : s ≠ t)
    (h : w.Threaded n lines beside (side.join [(b, t)] (side.join [(a, s)] spots))) :
    w.Threaded n lines beside (side.join [(a, s), (b, t)] spots) := by
  cases side with
  | back =>
    rw [show Diagram.Side.back.join [(a, s), (b, t)] spots = Diagram.Side.back.join [(b, t)]
      (Diagram.Side.back.join [(a, s)] spots) from (List.append_assoc spots [(a, s)] [(b, t)]).symm]
    exact h
  | front =>
    have hmem (x : Vertex × ℕ) : x ∈ (b, t) :: (a, s) :: spots ↔ x ∈ (a, s) :: (b, t) :: spots :=
      (List.Perm.swap _ _ _).mem_iff
    exact {
      valid := h.valid
      length := h.length
      nodup := h.nodup
      inputs := h.inputs
      outputs := h.outputs
      keeps := h.keeps
      spider := fun x hx => h.spider x ((hmem x).2 hx)
      beside_spider := h.beside_spider
      loose := fun v hv hve hno => h.loose v hv hve fun t' hm => hno t' ((hmem _).1 hm)
      start := fun q hq => by
        obtain ⟨v, hv, htied⟩ := h.start q hq
        exact ⟨v, hv.imp_left (hmem _).1, htied⟩
      runs := h.runs.exchange hst.symm }

/-! ### Edges beside threads -/

section Beside

variable {a b : Vertex} {s t : ℕ}

/-- Other spiders beside a web with threads, and other edges to them. -/
theorem of_beside (h : w.Threaded n lines beside spots) {beside' : Vertex → List Vertex}
    (hval : w'.Valid) (hin : w'.inputs = w.inputs) (hout : w'.outputs = w.outputs)
    (hkind : ∀ v, (w.IsEnd v ∨ ∃ t, (v, t) ∈ spots) → w'.kind v = w.kind v)
    (hend : ∀ v, ¬w.IsEnd v → ¬w'.IsEnd v)
    (hbeside : ∀ v, ∀ x ∈ beside' v, (w'.Has v ∧ ¬w'.IsEnd v) ∧ w'.Has x ∧ ¬w'.IsEnd x)
    (hloose : ∀ v, (∀ t, (v, t) ∉ spots) → (w.Has v → w.WiredTo v (beside v)) →
      w'.Has v → w'.WiredTo v (beside' v))
    (htied : ∀ v u, w.IsEnd v → w.Tied v u → w'.Tied v u)
    (hwired : ∀ s ∈ spots, ∀ a b, w.WiredTo s.1 (a :: b :: beside s.1) →
      w'.WiredTo s.1 (a :: b :: beside' s.1)) :
    w'.Threaded n lines beside' spots := by
  have hterm (side : Diagram.Side) : w'.terminals side = w.terminals side := by
    cases side <;> [exact hin; exact hout]
  have hinput (q : ℕ) : w'.input q = w.input q := by rw [input, hin, input]
  have houtput (q : ℕ) : w'.output q = w.output q := by rw [output, hout, output]
  have hlater (rest : List (Vertex × ℕ)) (t : ℕ) (u : Vertex)
      (hu : w.Later n (lines .back) rest t u) : w'.Later n (lines .back) rest t u := by
    refine hu.imp_right ?_
    rintro ⟨q, hq, hqt, he⟩
    exact ⟨q, hq, hqt, he.trans (houtput q).symm⟩
  have hmem {v : Vertex} {κ' : SpiderKind} (hκ : κ'.isBoundary = true) :
      w.kind v = some κ' ↔ w'.kind v = some κ' := by
    by_cases hv : w.IsEnd v
    · rw [hkind v (.inl hv)]
    · refine iff_of_false (fun hk => hv ?_) fun hk => hend v hv ?_
      · rw [IsEnd, hk]
        exact hκ
      · rw [IsEnd, hk]
        exact hκ
  -- the threads run along the same vertices, and only what is beside them is another
  have hruns := h.runs.map (lines .back) beside' [] id hwired (fun _ _ => rfl)
    (fun rest _ t u hu => by rw [List.append_nil]; exact hlater rest t u hu) fun tip htip q hq => by
      rw [houtput]
      exact htied _ _ (h.isEnd_terminal .back hq) (htip q hq)
  rw [List.append_nil] at hruns
  exact {
    valid := hval
    length := fun side => hterm side ▸ h.length side
    nodup := fun side => hterm side ▸ h.nodup side
    inputs := fun v => by rw [hin, h.inputs, hmem rfl]
    outputs := fun v => by rw [hout, h.outputs, hmem rfl]
    keeps := h.keeps
    spider := fun s hs => by
      obtain ⟨hsh, hse, hst⟩ := h.spider s hs
      have hkept := hkind s.1 (.inr ⟨s.2, hs⟩)
      refine ⟨?_, ?_, hst⟩
      · rwa [Has, hkept]
      · rwa [IsEnd, hkept]
    beside_spider := hbeside
    loose := fun v hv hve hno => hloose v hno (fun hvh => h.loose v hvh
      (fun he => hve (by rwa [IsEnd, hkind v (.inl he)])) hno) hv
    start := fun q hq => by
      obtain ⟨u, hu, ht⟩ := h.start q hq
      refine ⟨u, hlater _ _ _ hu, ?_⟩
      rw [hinput]
      exact htied _ _ (h.isEnd_terminal .front hq) ht
    runs := by
      simp only [hinput]
      exact hruns }

variable (h : w.Threaded n lines beside spots) (ha : (a, s) ∈ spots) (hb : (b, t) ∈ spots)
  (hab : a ≠ b)
include h ha hb hab

/-- Two spiders can be joined. -/
theorem addEdges : (w.addEdges a b .plain 1).Threaded n lines
    (fun v => beside v ++ if v = a then [b] else if v = b then [a] else []) spots := by
  have hval := h.valid
  obtain ⟨hah, hae, -⟩ := h.spider _ ha
  obtain ⟨hbh, hbe, -⟩ := h.spider _ hb
  refine h.of_beside (hval.setCount hah hbh hab _) rfl rfl (fun _ _ => rfl) (fun _ hv => hv)
    (fun v x hx => ?_)
    (fun v _ hwired hv => (hwired hv).addEdges hval hab) (fun v u hv hvu => ?_)
    fun s _ c d hwired => hwired.addEdges hval hab
  · rcases List.mem_append.1 hx with hx | hx
    · exact h.beside_spider v x hx
    · split at hx
      · next hv =>
        rw [List.mem_singleton.1 hx, hv]
        exact ⟨⟨hah, hae⟩, hbh, hbe⟩
      · split at hx
        · next hv =>
          rw [List.mem_singleton.1 hx, hv]
          exact ⟨⟨hbh, hbe⟩, hah, hae⟩
        · exact absurd hx List.not_mem_nil
  · have hwired := (tied_iff.1 hvu).addEdges hval hab
    have hva : v ≠ a := fun heq => hae (heq ▸ hv)
    have hvb : v ≠ b := fun heq => hbe (heq ▸ hv)
    rw [if_neg hva, if_neg hvb, List.append_nil] at hwired
    exact tied_iff.2 hwired

/-- A box can be put between two spiders. -/
theorem addBetween (hκ : κ.isBoundary = false) : (w.addBetween a b κ p).Threaded n lines
    (fun v => if v = w.next then [a, b] else beside v ++ if v = a ∨ v = b then [w.next] else [])
    spots := by
  have hval := h.valid
  obtain ⟨hah, hae, -⟩ := h.spider _ ha
  obtain ⟨hbh, hbe, -⟩ := h.spider _ hb
  have hkind {v : Vertex} (hv : v ≠ w.next) : (w.addBetween a b κ p).kind v = w.kind v := by
    rw [kind_addBetween, update_of_ne hv]
  have hnew : (w.addBetween a b κ p).kind w.next = some κ := by rw [kind_addBetween, update_self]
  have hhas {v : Vertex} (hv : w.Has v) : (w.addBetween a b κ p).Has v := hval.has_addBetween hv
  refine h.of_beside (hval.addBetween hah hbh) rfl rfl
    (fun v hv => hkind (hval.ne_next (hv.elim IsEnd.has fun ⟨_, hs⟩ => (h.spider _ hs).1)))
    (fun v hv he => ?_) (fun v x hx => ?_) (fun v _ hwired hv => ?_) (fun v u hv hvu => ?_)
    fun s hs c d hwired => ?_
  · by_cases hvn : v = w.next
    · exact not_isEnd_of_kind hnew hκ (hvn ▸ he)
    · rw [IsEnd, hkind hvn] at he
      exact hv he
  · have hold {y : Vertex} (hy : w.Has y ∧ ¬w.IsEnd y) :
        (w.addBetween a b κ p).Has y ∧ ¬(w.addBetween a b κ p).IsEnd y := by
      refine ⟨hhas hy.1, ?_⟩
      rw [IsEnd, hkind (hval.ne_next hy.1)]
      exact hy.2
    by_cases hvn : v = w.next
    · rw [if_pos hvn] at hx
      rw [hvn]
      refine ⟨⟨has_of_kind hnew, not_isEnd_of_kind hnew hκ⟩, ?_⟩
      rcases List.mem_pair.1 hx with rfl | rfl <;> [exact hold ⟨hah, hae⟩; exact hold ⟨hbh, hbe⟩]
    rw [if_neg hvn] at hx
    rcases List.mem_append.1 hx with hx | hx
    · obtain ⟨hv, hx⟩ := h.beside_spider v x hx
      exact ⟨hold hv, hold hx⟩
    · split at hx
      · next hv =>
        rw [List.mem_singleton.1 hx]
        refine ⟨?_, has_of_kind hnew, not_isEnd_of_kind hnew hκ⟩
        rcases hv with rfl | rfl <;> [exact hold ⟨hah, hae⟩; exact hold ⟨hbh, hbe⟩]
      · exact absurd hx List.not_mem_nil
  · by_cases hvn : v = w.next
    · rw [if_pos hvn, hvn]
      exact wiredTo_next_addBetween hval hah hbh hab
    · rw [if_neg hvn]
      rw [Has, hkind hvn] at hv
      exact (hwired hv).addBetween hval hah hbh hab hvn
  · have hwired := (tied_iff.1 hvu).addBetween hval hah hbh hab (κ := κ) (p := p)
      (hval.ne_next hv.has)
    have hno : ¬(v = a ∨ v = b) := by
      rintro (rfl | rfl)
      · exact hae hv
      · exact hbe hv
    rw [if_neg hno, List.append_nil] at hwired
    exact tied_iff.2 hwired
  · have hsn := hval.ne_next (h.spider s hs).1
    rw [if_neg hsn]
    exact hwired.addBetween hval hah hbh hab hsn

end Beside

/-! ### Threads that cross -/

section Cross

variable (h : w.Threaded n lines beside spots) (hq : q < n) (hr : r < n)
include h hq hr

/-- Exchanging two ends exchanges no spiders, -/
theorem swap_spider {v : Vertex} (hv : ¬w.IsEnd v) :
    Equiv.swap (w.terminal side q) (w.terminal side r) v = v :=
  Equiv.swap_apply_of_ne_of_ne (fun heq => hv (heq ▸ h.isEnd_terminal side hq))
    fun heq => hv (heq ▸ h.isEnd_terminal side hr)

/-- but their places at the side, -/
theorem swap_terminal {s : ℕ} (hs : s < n) :
    Equiv.swap (w.terminal side q) (w.terminal side r) (w.terminal side s) =
      w.terminal side (Equiv.swap q r s) := by
  rw [Equiv.swap_apply_def, Equiv.swap_apply_def]
  simp only [h.terminal_inj _ hs hq, h.terminal_inj _ hs hr]
  split_ifs <;> rfl

/-- and none at the other one. -/
theorem swap_other {side' : Diagram.Side} (hne : side' ≠ side) {s : ℕ} (hs : s < n) :
    Equiv.swap (w.terminal side q) (w.terminal side r) (w.terminal side' s) =
      w.terminal side' s := by
  have hoff : w.terminal side' s ∉ w.terminals side := fun hmem => by
    have hin := h.terminal_mem side' hs
    cases side <;> cases side' <;> first
      | exact hne rfl
      | exact absurd (((h.inputs _).1 hmem).symm.trans ((h.outputs _).1 hin)) (by simp)
      | exact absurd (((h.inputs _).1 hin).symm.trans ((h.outputs _).1 hmem)) (by simp)
  exact Equiv.swap_apply_of_ne_of_ne (fun heq => hoff (heq ▸ h.terminal_mem side hq))
    fun heq => hoff (heq ▸ h.terminal_mem side hr)

/-- An end goes to the place that its thread then has, -/
theorem exists_goes (side side' : Diagram.Side) {s : ℕ} (hs : s < n) : ∃ s' < n,
    Equiv.swap (w.terminal side q) (w.terminal side r) (w.terminal side' s) =
        w.terminal side' s' ∧
      update lines side (lines side * Equiv.swap q r) side' s' = lines side' s := by
  by_cases hside : side' = side
  · subst hside
    refine ⟨Equiv.swap q r s, (KeepsPlaces.swap hq hr s).2 hs, h.swap_terminal hq hr hs, ?_⟩
    rw [update_self, Equiv.Perm.mul_apply, Equiv.swap_apply_self]
  · exact ⟨s, hs, h.swap_other hq hr hside hs, by rw [update_of_ne hside]⟩

/-- and comes from the place that its thread had. -/
theorem exists_comes (side side' : Diagram.Side) {s : ℕ} (hs : s < n) : ∃ s' < n,
    Equiv.swap (w.terminal side q) (w.terminal side r) (w.terminal side' s') =
        w.terminal side' s ∧
      update lines side (lines side * Equiv.swap q r) side' s = lines side' s' := by
  by_cases hside : side' = side
  · subst hside
    have hlt := (KeepsPlaces.swap hq hr s).2 hs
    refine ⟨Equiv.swap q r s, hlt, ?_, ?_⟩
    · rw [h.swap_terminal hq hr hlt, Equiv.swap_apply_self]
    · rw [update_self, Equiv.Perm.mul_apply]
  · exact ⟨s, hs, h.swap_other hq hr hside hs, by rw [update_of_ne hside]⟩

theorem keepsPlaces_cross (side' : Diagram.Side) :
    KeepsPlaces n (update lines side (lines side * Equiv.swap q r) side') := by
  rw [Function.update_apply]
  split
  · exact (h.keeps side).mul (.swap hq hr)
  · exact h.keeps side'

theorem map_beside_swap (v : Vertex) :
    (beside v).map (Equiv.swap (w.terminal side q) (w.terminal side r)) = beside v := by
  conv_rhs => rw [← List.map_id (beside v)]
  exact List.map_congr_left fun x hx => h.swap_spider hq hr (h.beside_spider _ x hx).2.2

/-- What comes later on a thread does so on the one that crosses. -/
theorem later_cross {rest : List (Vertex × ℕ)} (hsub : rest ⊆ spots) (t : ℕ) (v : Vertex)
    (hv : w.Later n (lines .back) rest t v) :
    (w.cross (w.terminal side q) (w.terminal side r) u u').Later n
      (update lines side (lines side * Equiv.swap q r) .back) rest t
        (Equiv.swap (w.terminal side q) (w.terminal side r) v) := by
  rcases hv with hmem | ⟨s, hs, rfl, rfl⟩
  · exact .inl (h.swap_spider hq hr (h.spider _ (hsub hmem)).2.1 ▸ hmem)
  · obtain ⟨s', hs', hterm, hline⟩ := h.exists_goes hq hr side .back hs
    exact .inr ⟨s', hs', hline, hterm⟩

variable (hqr : q ≠ r) (ht : w.Tied (w.terminal side q) u) (ht' : w.Tied (w.terminal side r) u')
  (hu : u ∉ w.terminals side) (hu' : u' ∉ w.terminals side)
include hqr ht ht' hu hu'

theorem wiredTo_cross {v : Vertex} {us : List Vertex} (hv : w.WiredTo v us) :
    (w.cross (w.terminal side q) (w.terminal side r) u u').WiredTo
      (Equiv.swap (w.terminal side q) (w.terminal side r) v)
        (us.map (Equiv.swap (w.terminal side q) (w.terminal side r))) :=
  hv.cross h.valid ht (fun heq => hu (heq ▸ h.terminal_mem _ hr)) ht'
    (fun heq => hu' (heq ▸ h.terminal_mem _ hq)) fun heq => hqr ((h.terminal_inj _ hq hr).1 heq)

/-- Threads run on to the ends that have been exchanged. -/
theorem runs_cross : (w.cross (w.terminal side q) (w.terminal side r) u u').Runs n
    (update lines side (lines side * Equiv.swap q r) .back) beside
      (fun t => Equiv.swap (w.terminal side q) (w.terminal side r)
        (w.input ((lines .front).symm t))) spots := by
  have hwire {v : Vertex} {us : List Vertex} (hv : w.WiredTo v us) :=
    h.wiredTo_cross hq hr hqr ht ht' hu hu' hv
  have hruns := h.runs.map (update lines side (lines side * Equiv.swap q r) .back) beside []
    (Equiv.swap (w.terminal side q) (w.terminal side r))
    (fun s hs a b hab => by
      have hswap := hwire hab
      rwa [h.swap_spider hq hr (h.spider s hs).2.1, List.map_cons, List.map_cons,
        h.map_beside_swap hq hr] at hswap)
    (fun s hs => h.swap_spider hq hr (h.spider s hs).2.1)
    (fun rest hsub t v hv => by
      rw [List.append_nil]
      exact h.later_cross hq hr hsub t v hv)
    fun tip htip s hs => by
      obtain ⟨s', hs', hterm, hline⟩ := h.exists_comes hq hr side .back hs
      have htied := hwire (tied_iff.1 (htip s' hs'))
      rw [show w.output s' = w.terminal .back s' from rfl, hterm] at htied
      rw [hline]
      exact tied_iff.2 htied
  rwa [List.append_nil] at hruns

end Cross

/-- The wires of two qubits can cross at a side. -/
theorem cross (h : w.Threaded n lines beside spots) (hq : q < n) (hr : r < n) (hqr : q ≠ r)
    (ht : w.Tied (w.terminal side q) u) (ht' : w.Tied (w.terminal side r) u')
    (hu : u ∉ w.terminals side) (hu' : u' ∉ w.terminals side) :
    (w.cross (w.terminal side q) (w.terminal side r) u u').Threaded n
      (update lines side (lines side * Equiv.swap q r)) beside spots := by
  have hwire {v : Vertex} {us : List Vertex} (hv : w.WiredTo v us) :=
    h.wiredTo_cross hq hr hqr ht ht' hu hu' hv
  exact {
    valid := h.valid.cross ht (fun heq => hu (heq ▸ h.terminal_mem _ hr)) ht'
      (fun heq => hu' (heq ▸ h.terminal_mem _ hq)) fun heq => hqr ((h.terminal_inj _ hq hr).1 heq)
    length := fun side => by cases side <;> [exact h.length .front; exact h.length .back]
    nodup := fun side => by cases side <;> [exact h.nodup .front; exact h.nodup .back]
    inputs := h.inputs
    outputs := h.outputs
    keeps := h.keepsPlaces_cross hq hr
    spider := h.spider
    beside_spider := h.beside_spider
    loose := fun v hv hve hno => by
      have hwired := hwire (h.loose v hv hve hno)
      rwa [h.swap_spider hq hr (show ¬w.IsEnd v from hve), h.map_beside_swap hq hr] at hwired
    start := fun s hs => by
      obtain ⟨s', hs', hterm, hline⟩ := h.exists_comes hq hr side .front hs
      obtain ⟨v, hv, hvt⟩ := h.start s' hs'
      have htied := hwire (tied_iff.1 hvt)
      rw [show w.input s' = w.terminal .front s' from rfl, hterm] at htied
      exact ⟨_, hline ▸ h.later_cross hq hr (List.Subset.refl _) _ v hv, tied_iff.2 htied⟩
    runs := by
      refine (h.runs_cross hq hr hqr ht ht' hu hu').congr (h.keepsPlaces_cross hq hr .back)
        (fun s hs => (h.spider s hs).2.2) fun t ht => ?_
      have hs := ((h.keeps .front).symm t).2 ht
      obtain ⟨s', hs', hterm, hline⟩ := h.exists_goes hq hr side .front hs
      rw [Equiv.apply_symm_apply] at hline
      rw [← hline, Equiv.symm_apply_apply, hline]
      exact hterm }

end Threaded

end Web

end ZXRewriting
