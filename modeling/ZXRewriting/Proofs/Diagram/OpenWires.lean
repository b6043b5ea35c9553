import ZXRewriting.Proofs.Diagram.Composition
import ZXRewriting.Proofs.Diagram.Visits

/-!
# Wires that are still open

A reading goes on from the vertices that have a neighbour ahead, one that is not seen yet (`live`).
It starts with the inputs; and a cell that is taken moves it on from as many vertices as the cell has
spiders on threads, to those at most (`Takes.card_live_le`). So a wire that comes to a dead end is
missing ever after, and a reading with as many live vertices in the end has never met one: its
threads run from spider to spider (`Course.runs`).
-/

namespace ZXRewriting

open Equiv (Perm)
open Function (update update_self update_of_ne)

namespace Diagram

variable {d : Diagram} {n : ℕ} {r r' : Reading} {v x y : Vertex} {c : Cell} {cs : List Cell}
  {before : Vertex → Vertex} {tip : ℕ → Vertex}

/-- A vertex that is read, or that reading starts from. -/
def Seen (d : Diagram) (r : Reading) (v : Vertex) : Prop := v ∈ r.done ∨ v ∈ d.inputs

instance : DecidablePred (d.Seen r) := fun _ => inferInstanceAs (Decidable (_ ∨ _))

/-- A neighbour that is not seen yet. -/
def Ahead (d : Diagram) (r : Reading) (v x : Vertex) : Prop := 0 < d.web.joins v x ∧ ¬d.Seen r x

/-- The vertices from which reading goes on. -/
def live (d : Diagram) (r : Reading) : Finset Vertex :=
  (Finset.range d.web.next).filter fun v => d.Seen r v ∧ ∃ x ∈ d.web.nearby v, ¬d.Seen r x

theorem mem_live (hd : d.Coherent) : v ∈ d.live r ↔ d.Seen r v ∧ ∃ x, d.Ahead r v x := by
  have hnear (x : Vertex) : x ∈ d.web.nearby v ↔ 0 < d.web.joins v x := hd.valid.mem_nearby
  simp only [live, Finset.mem_filter, Finset.mem_range, hnear, Ahead, and_iff_right_iff_imp]
  rintro ⟨-, x, hx, -⟩
  exact hd.valid.lt v (hd.valid.has_of_joins hx).1

/-- A reading that has come to spiders inside, and from no vertex can go on to two. -/
structure Sound (d : Diagram) (r : Reading) : Prop where
  inner : ∀ v ∈ r.done, ¬d.web.IsEnd v
  front : ∀ v q, r.front[v]? = some q → d.Seen r v
  narrow : ∀ v x y, d.Seen r v → d.Ahead r v x → d.Ahead r v y → x = y

theorem eq_or_of_advance {front : VertexMap ℕ} {q q' : ℕ} {u : Vertex}
    (h : (advance front q' u x)[v]? = some q) : v = x ∨ front[v]? = some q := by
  rw [advance, Std.ExtTreeMap.getElem?_insert, Std.ExtTreeMap.getElem?_erase] at h
  simp only [Nat.compare_eq_eq] at h
  split_ifs at h with hv
  · exact .inl hv.symm
  · exact .inr h

/-- What is in the front after a cell was there before, or is of the cell. -/
theorem mem_of_advance {spots : List (Vertex × ℕ)} {front : VertexMap ℕ} {q : ℕ}
    (h : (spots.foldl (fun front s => advance front s.2 (before s.1) s.1) front)[v]? = some q) :
    v ∈ spots.map Prod.fst ∨ front[v]? = some q := by
  induction spots generalizing front with
  | nil => exact .inr h
  | cons s spots ih =>
    rw [List.map_cons, List.mem_cons]
    rcases ih h with hmem | hget
    · exact .inl (.inr hmem)
    · exact (eq_or_of_advance hget).imp_left .inl

/-! ### One cell -/

section Step

variable (h : d.Takes r before c r')
include h

theorem Takes.seen_iff : d.Seen r' x ↔ x ∈ c.spiders ∨ d.Seen r x := by
  rw [Seen, h.done, or_assoc]
  rfl

theorem Takes.ahead (hx : d.Ahead r' v x) : d.Ahead r v x :=
  ⟨hx.1, fun hseen => hx.2 (h.seen_iff.2 (.inr hseen))⟩

/-- A spider of the cell that is on no thread has nothing ahead. -/
theorem Takes.not_ahead_loose (hv : v ∈ c.spiders) (hno : v ∉ c.spots.map Prod.fst) :
    ¬d.Ahead r' v x := fun hx => by
  have hmem : x ∈ c.partners v := by
    have hjoin := hx.1
    rw [(h.found.loose v hv hno).joins] at hjoin
    exact List.count_pos_iff.1 hjoin
  exact hx.2 (h.seen_iff.2 (.inl (Cell.mem_spiders_of_partners hmem).1))

variable (hd : d.Ready n)
include hd

/-- A spider of the cell that is seen before is read already. -/
theorem Takes.boxed (hx : x ∈ c.spiders) (hseen : d.Seen r x) : c.Boxed x :=
  h.fresh x hx (hseen.resolve_right fun hin =>
    (h.found.inner x hx).2 (hd.web.isEnd (show x ∈ d.web.terminals .front from hin)))

variable (hr : d.Sound r)
include hr

/-- A spider of the cell is next to the one before it and to others of the cell, all of them
    different and seen now. -/
theorem Takes.nodup_beside {s : Vertex × ℕ} (hs : s ∈ c.spots) :
    (before s.1 :: c.partners s.1).Nodup ∧ (∀ z ∈ before s.1 :: c.partners s.1, d.Seen r' z) ∧
      ∀ z ∈ before s.1 :: c.partners s.1, 0 < d.web.joins s.1 z := by
  obtain ⟨hfront, hjoin⟩ := h.precedes s hs
  have hback := hr.front _ _ hfront
  have hmem {z : Vertex} (hz : z ∈ c.partners s.1) : z ∈ c.spiders :=
    (Cell.mem_spiders_of_partners hz).1
  refine ⟨List.nodup_cons.2 ⟨fun hz => ?_, Cell.nodup_partners h.found.nodup⟩,
    List.forall_mem_cons.2 ⟨h.seen_iff.2 (.inr hback), fun z hz => h.seen_iff.2 (.inl (hmem hz))⟩,
    List.forall_mem_cons.2 ⟨hjoin, h.found.joined s hs⟩⟩
  exact Cell.not_boxed_of_partners h.found.nodup hs hz (h.boxed hd (hmem hz) hback)

/-- From it there is one way on at most. -/
theorem Takes.eq_of_ahead {s : Vertex × ℕ} (hs : s ∈ c.spots) (hx : d.Ahead r' s.1 x)
    (hy : d.Ahead r' s.1 y) : x = y := by
  obtain ⟨hnodup, hseen, hjoin⟩ := h.nodup_beside hd hr hs
  by_contra hne
  have hall : (x :: y :: before s.1 :: c.partners s.1).Nodup :=
    List.nodup_cons.2 ⟨fun hmem => (List.mem_cons.1 hmem).elim hne fun hz => hx.2 (hseen x hz),
      List.nodup_cons.2 ⟨fun hz => hy.2 (hseen y hz), hnodup⟩⟩
  have hlength := hd.coherent.valid.length_le_degree hall
    (List.forall_mem_cons.2 ⟨hx.1, List.forall_mem_cons.2 ⟨hy.1, hjoin⟩⟩)
  have hdegree := h.found.degree s hs
  simp only [List.length_cons] at hlength
  omega

/-- With a way on, these are all its edges. -/
theorem Takes.wiredTo {s : Vertex × ℕ} (hs : s ∈ c.spots) (hx : d.Ahead r' s.1 x) :
    d.web.WiredTo s.1 (before s.1 :: x :: c.partners s.1) := by
  obtain ⟨hnodup, hseen, hjoin⟩ := h.nodup_beside hd hr hs
  have hwired := hd.coherent.valid.wiredTo hd.web.plain
    (List.nodup_cons.2 ⟨fun hz => hx.2 (hseen x hz), hnodup⟩)
    (List.forall_mem_cons.2 ⟨hx.1, hjoin⟩) (h.found.degree s hs)
  exact hwired.perm (List.Perm.swap _ _ _)

/-- Taking a cell keeps a reading sound. -/
theorem Takes.sound : d.Sound r' where
  inner v hv := by
    rcases (h.done v).1 hv with hv | hv
    · exact (h.found.inner v hv).2
    · exact hr.inner v hv
  front v q hq := by
    rw [h.front] at hq
    rcases mem_of_advance hq with hmem | hq
    · exact h.seen_iff.2 (.inl (Cell.mem_spiders_of_fst hmem))
    · exact h.seen_iff.2 (.inr (hr.front v q hq))
  narrow v x y hv hx hy := by
    rcases h.seen_iff.1 hv with hmem | hold
    · by_cases hspot : v ∈ c.spots.map Prod.fst
      · obtain ⟨s, hs, rfl⟩ := List.mem_map.1 hspot
        exact h.eq_of_ahead hd hr hs hx hy
      · exact absurd hx (h.not_ahead_loose hmem hspot)
    · exact hr.narrow v x y hold (h.ahead hx) (h.ahead hy)

/-- The vertex that is left behind on the wire of a spider: the one before it, or itself if it was
    read before with a box that is taken only now. -/
def leaves (d : Diagram) (r : Reading) (before : Vertex → Vertex) (v : Vertex) : Vertex :=
  if d.Seen r v then v else before v

omit h hd hr in
theorem leaves_of_not_seen (hv : ¬d.Seen r v) : d.leaves r before v = before v := if_neg hv

/-- From there the reading goes on, to a spider of the cell. -/
theorem Takes.exists_ahead_leaves {s : Vertex × ℕ} (hs : s ∈ c.spots) :
    d.Seen r (d.leaves r before s.1) ∧ ∃ x ∈ c.spiders, d.Ahead r (d.leaves r before s.1) x ∧
      (if d.Seen r s.1 then x ∉ c.spots.map Prod.fst else x = s.1) := by
  by_cases hseen : d.Seen r s.1
  · obtain ⟨-, x, hx, hno⟩ := h.boxed hd (Cell.spiders_of_spots hs) hseen
    have hmem := (Cell.mem_spiders_of_partners hx).1
    rw [leaves, if_pos hseen]
    exact ⟨hseen, x, hmem, ⟨h.found.joined s hs x hx, fun hx' => hno (h.boxed hd hmem hx').1⟩,
      by rwa [if_pos hseen]⟩
  · obtain ⟨hfront, hjoin⟩ := h.precedes s hs
    rw [leaves_of_not_seen hseen]
    refine ⟨hr.front _ _ hfront, s.1, Cell.spiders_of_spots hs, ⟨?_, hseen⟩, by rw [if_neg hseen]⟩
    rwa [hd.coherent.valid.joins_comm]

/-- Different wires are left at different vertices. -/
theorem Takes.leaves_injOn {s s' : Vertex × ℕ} (hs : s ∈ c.spots) (hs' : s' ∈ c.spots)
    (he : d.leaves r before s.1 = d.leaves r before s'.1) : s.1 = s'.1 := by
  obtain ⟨hseen, x, -, hx, hxs⟩ := h.exists_ahead_leaves hd hr hs
  obtain ⟨-, x', -, hx', hxs'⟩ := h.exists_ahead_leaves hd hr hs'
  obtain rfl : x = x' := hr.narrow _ x x' hseen hx (he ▸ hx')
  have hmem {s : Vertex × ℕ} (hs : s ∈ c.spots) : s.1 ∈ c.spots.map Prod.fst :=
    List.mem_map.2 ⟨s, hs, rfl⟩
  split_ifs at hxs hxs' with hold hold' hold'
  · rwa [leaves, leaves, if_pos hold, if_pos hold'] at he
  · exact absurd (hxs' ▸ hmem hs') hxs
  · exact absurd (hxs ▸ hmem hs) hxs'
  · exact hxs.symm.trans hxs'

/-- What is left behind by a cell, and what comes to be live with it. -/
def left (d : Diagram) (r : Reading) (before : Vertex → Vertex) (c : Cell) : Finset Vertex :=
  ((c.spots.map Prod.fst).map (d.leaves r before)).toFinset

/-- The spiders on the threads of a cell that are not seen before. -/
def fresh (d : Diagram) (r : Reading) (c : Cell) : List Vertex :=
  (c.spots.map Prod.fst).filter (¬d.Seen r ·)

omit h hd hr in
theorem mem_left : v ∈ d.left r before c ↔ ∃ s ∈ c.spots, d.leaves r before s.1 = v := by
  rw [left, List.mem_toFinset, List.map_map, List.mem_map]
  rfl

/-- What is live after a cell was live before and is not left behind, or is a new spider of the
    cell. -/
theorem Takes.live_subset :
    d.live r' ⊆ (d.live r \ d.left r before c) ∪ (d.fresh r c).toFinset := by
  intro y hy
  obtain ⟨hseen, x, hx⟩ := (mem_live hd.coherent).1 hy
  rw [Finset.mem_union, Finset.mem_sdiff, List.mem_toFinset]
  by_cases hold : d.Seen r y
  · refine .inl ⟨(mem_live hd.coherent).2 ⟨hold, x, h.ahead hx⟩, fun hmem => ?_⟩
    obtain ⟨s, hs, rfl⟩ := mem_left.1 hmem
    obtain ⟨-, z, hz, hahead, -⟩ := h.exists_ahead_leaves hd hr hs
    exact hx.2 (h.seen_iff.2 (.inl (hr.narrow _ z x hold hahead (h.ahead hx) ▸ hz)))
  · have hmem := (h.seen_iff.1 hseen).resolve_right hold
    refine .inr (List.mem_filter.2 ⟨?_, decide_eq_true hold⟩)
    by_contra hno
    exact h.not_ahead_loose hmem hno hx

/-- As many vertices are left behind as the cell has threads. -/
theorem Takes.card_union_le :
    ((d.live r \ d.left r before c) ∪ (d.fresh r c).toFinset).card + c.spots.length ≤
      (d.live r).card + (d.fresh r c).length := by
  have hcard : (d.left r before c).card = c.spots.length := by
    rw [left, List.toFinset_card_of_nodup, List.length_map, List.length_map]
    refine (Cell.nodup_fst_spots h.found.nodup).map_on fun v hv v' hv' he => ?_
    obtain ⟨s, hs, rfl⟩ := List.mem_map.1 hv
    obtain ⟨s', hs', rfl⟩ := List.mem_map.1 hv'
    exact h.leaves_injOn hd hr hs hs' he
  have hsub : d.left r before c ⊆ d.live r := fun v hv => by
    obtain ⟨s, hs, rfl⟩ := mem_left.1 hv
    obtain ⟨hseen, x, -, hx, -⟩ := h.exists_ahead_leaves hd hr hs
    exact (mem_live hd.coherent).2 ⟨hseen, x, hx⟩
  have hunion := Finset.card_union_le (d.live r \ d.left r before c) (d.fresh r c).toFinset
  have hle := Finset.card_le_card hsub
  have hnew := List.toFinset_card_le (d.fresh r c)
  rw [Finset.card_sdiff_of_subset hsub] at hunion
  omega

omit h hd hr in
theorem length_fresh_le : (d.fresh r c).length ≤ c.spots.length :=
  (List.length_filter_le _ _).trans_eq (List.length_map _)

/-- Taking a cell leaves no more vertices live. -/
theorem Takes.card_live_le : (d.live r').card ≤ (d.live r).card := by
  have hle := Finset.card_le_card (h.live_subset hd hr)
  have hunion := h.card_union_le hd hr
  have hfresh := length_fresh_le (d := d) (r := r) (c := c)
  omega

/-- If it leaves as many, then the spiders of the cell are new, and those on threads are live, as is
    what was live before and is not continued by them. -/
theorem Takes.of_card_live_le (hcard : (d.live r).card ≤ (d.live r').card) :
    (∀ s ∈ c.spots, ¬d.Seen r s.1 ∧ s.1 ∈ d.live r') ∧
      ∀ v ∈ d.live r, (∀ s ∈ c.spots, v ≠ before s.1) → v ∈ d.live r' := by
  have hsub := h.live_subset hd hr
  have hle := Finset.card_le_card hsub
  have hunion := h.card_union_le hd hr
  have hfresh := length_fresh_le (d := d) (r := r) (c := c)
  have hspot {s : Vertex × ℕ} (hs : s ∈ c.spots) : s.1 ∈ c.spots.map Prod.fst :=
    List.mem_map.2 ⟨s, hs, rfl⟩
  have hall : ∀ s ∈ c.spots, ¬d.Seen r s.1 := fun s hs => by
    have hlen : (d.fresh r c).length = (c.spots.map Prod.fst).length := by
      rw [List.length_map]
      omega
    exact of_decide_eq_true (List.length_filter_eq_length_iff.1 hlen s.1 (hspot hs))
  rw [Finset.eq_of_subset_of_card_le hsub (by omega)]
  refine ⟨fun s hs => ⟨hall s hs, ?_⟩, fun v hv hne => ?_⟩
  · refine Finset.mem_union_right _ (List.mem_toFinset.2 (List.mem_filter.2 ⟨hspot hs, ?_⟩))
    exact decide_eq_true (hall s hs)
  · refine Finset.mem_union_left _ (Finset.mem_sdiff.2 ⟨hv, fun hmem => ?_⟩)
    obtain ⟨s, hs, he⟩ := mem_left.1 hmem
    exact hne s hs (he.symm.trans (leaves_of_not_seen (hall s hs)))

end Step

/-! ### Threads -/

/-- Every wire has its tip in the front, and goes on from there. -/
structure Tight (d : Diagram) (n : ℕ) (r : Reading) (tip : ℕ → Vertex) : Prop where
  front : Fronts r.front n 1 tip
  live : ∀ q < n, tip q ∈ d.live r

/-- The tips of threads after the spiders that are given with their threads. -/
def moveOn (tip : ℕ → Vertex) (spots : List (Vertex × ℕ)) : ℕ → Vertex :=
  spots.foldl (fun tip s => update tip s.2 s.1) tip

theorem moveOn_of_notMem {spots : List (Vertex × ℕ)} {t : ℕ} (ht : t ∉ spots.map Prod.snd) :
    moveOn tip spots t = tip t := by
  induction spots generalizing tip with
  | nil => rfl
  | cons s spots ih =>
    rw [List.map_cons, List.mem_cons, not_or] at ht
    rw [moveOn, List.foldl_cons, ← moveOn, ih ht.2, update_of_ne ht.1]

theorem moveOn_of_mem {spots : List (Vertex × ℕ)} {s : Vertex × ℕ} (hs : s ∈ spots)
    (hnd : (spots.map Prod.snd).Nodup) : moveOn tip spots s.2 = s.1 := by
  induction spots generalizing tip with
  | nil => cases hs
  | cons s' spots ih =>
    obtain ⟨hno, hnd⟩ := List.nodup_cons.1 hnd
    rw [moveOn, List.foldl_cons, ← moveOn]
    rcases List.mem_cons.1 hs with rfl | hs
    · rw [moveOn_of_notMem hno, update_self]
    · exact ih hs hnd

/-- The front moves on with the tips. -/
theorem Fronts.advanceAll {spots : List (Vertex × ℕ)} {front : VertexMap ℕ}
    (h : Fronts front n 1 tip) (hfst : (spots.map Prod.fst).Nodup)
    (hsnd : (spots.map Prod.snd).Nodup) (hspots : ∀ s ∈ spots, s.2 < n ∧ before s.1 = tip s.2)
    (hnew : ∀ s ∈ spots, front[s.1]? = none) :
    Fronts (spots.foldl (fun front s => Diagram.advance front s.2 (before s.1) s.1) front) n 1
      (moveOn tip spots) := by
  induction spots generalizing front tip with
  | nil => exact h
  | cons s spots ih =>
    obtain ⟨⟨hs, hbefore⟩, hspots⟩ := List.forall_mem_cons.1 hspots
    obtain ⟨hsnew, hnew⟩ := List.forall_mem_cons.1 hnew
    obtain ⟨hno, hfst⟩ := List.nodup_cons.1 hfst
    obtain ⟨hno', hsnd⟩ := List.nodup_cons.1 hsnd
    rw [List.foldl_cons, moveOn, List.foldl_cons, ← moveOn, hbefore]
    have hstep : Fronts (Diagram.advance front s.2 (tip s.2) s.1) n 1 (update tip s.2 s.1) :=
      h.advance hs hsnew
    refine ih hstep hfst hsnd (fun s' hs' => ⟨(hspots s' hs').1, ?_⟩) fun s' hs' => ?_
    · have hne : s'.2 ≠ s.2 := fun he => hno' (he ▸ List.mem_map.2 ⟨s', hs', rfl⟩)
      rw [(hspots s' hs').2, update_of_ne hne]
    · refine Option.eq_none_iff_forall_ne_some.2 fun q hq => ?_
      have hmem : s'.1 ∈ spots.map Prod.fst := List.mem_map.2 ⟨s', hs', rfl⟩
      rcases eq_or_of_advance hq with he | hq
      · exact hno (he ▸ hmem)
      · cases (hnew s' hs').symm.trans hq

section Tight

variable (hd : d.Ready n) (h : d.Takes r before c r') (hr : d.Sound r) (ht : d.Tight n r tip)
  (hcard : (d.live r).card ≤ (d.live r').card)
include hd h hr ht hcard

/-- A cell that leaves as many vertices live moves different threads on. -/
theorem Takes.threads : c.Apart ∧ ∀ s ∈ c.spots, s.2 < n ∧ before s.1 = tip s.2 := by
  have hspots (s : Vertex × ℕ) (hs : s ∈ c.spots) : s.2 < n ∧ before s.1 = tip s.2 :=
    (ht.front _ _).1 (h.precedes s hs).1
  refine ⟨(List.Nodup.of_map _ (Cell.nodup_fst_spots h.found.nodup)).map_on
    fun s hs s' hs' he => ?_, hspots⟩
  obtain ⟨hnew, -⟩ := h.of_card_live_le hd hr hcard
  have hfst : s.1 = s'.1 := h.leaves_injOn hd hr hs hs' (by
    rw [leaves_of_not_seen (hnew s hs).1, leaves_of_not_seen (hnew s' hs').1, (hspots s hs).2,
      (hspots s' hs').2, he])
  exact Prod.ext hfst he

/-- All wires still go on after it. -/
theorem Takes.tight : d.Tight n r' (moveOn tip c.spots) := by
  obtain ⟨hapart, hspots⟩ := h.threads hd hr ht hcard
  obtain ⟨hnew, hold⟩ := h.of_card_live_le hd hr hcard
  refine ⟨?_, fun q hq => ?_⟩
  · rw [h.front]
    refine ht.front.advanceAll (Cell.nodup_fst_spots h.found.nodup) hapart hspots fun s hs => ?_
    exact Option.eq_none_iff_forall_ne_some.2 fun q hq => (hnew s hs).1 (hr.front _ q hq)
  · by_cases hmem : q ∈ c.spots.map Prod.snd
    · obtain ⟨s, hs, rfl⟩ := List.mem_map.1 hmem
      rw [moveOn_of_mem hs hapart]
      exact (hnew s hs).2
    · rw [moveOn_of_notMem hmem]
      refine hold _ (ht.live q hq) fun s hs he => hmem ?_
      -- the front knows the thread of a tip
      have hget := (ht.front (tip q) q).2 ⟨hq, rfl⟩
      rw [he, (h.precedes s hs).1, Option.some_inj] at hget
      exact List.mem_map.2 ⟨s, hs, hget⟩

end Tight

/-! ### All cells -/

theorem moveOn_append {spots spots' : List (Vertex × ℕ)} :
    moveOn tip (spots ++ spots') = moveOn (moveOn tip spots) spots' := List.foldl_append

/-- Threads run on through spiders of different threads. -/
theorem runs_append {w : Web} {ends : Perm ℕ} {beside : Vertex → List Vertex}
    {spots rest : List (Vertex × ℕ)} (hsnd : (spots.map Prod.snd).Nodup)
    (hspots : ∀ s ∈ spots, ∃ u, w.Later n ends rest s.2 u ∧
      w.WiredTo s.1 (tip s.2 :: u :: beside s.1))
    (hrest : w.Runs n ends beside (moveOn tip spots) rest) :
    w.Runs n ends beside tip (spots ++ rest) := by
  induction spots generalizing tip with
  | nil => exact hrest
  | cons s spots ih =>
    obtain ⟨⟨u, hu, hwired⟩, hspots⟩ := List.forall_mem_cons.1 hspots
    obtain ⟨hno, hsnd⟩ := List.nodup_cons.1 hsnd
    refine ⟨⟨u, hu.imp_left (List.mem_append_right _), hwired⟩,
      ih hsnd (fun s' hs' => ?_) hrest⟩
    have hne : s'.2 ≠ s.2 := fun he => hno (he ▸ List.mem_map.2 ⟨s', hs', rfl⟩)
    rw [update_of_ne hne]
    exact hspots s' hs'

section Course

variable (hd : d.Ready n)
include hd

/-- An output is seen by no reading. -/
theorem Sound.not_seen_output (hr : d.Sound r) {q : ℕ} (hq : q < n) :
    ¬d.Seen r (d.web.output q) := by
  have hmem : d.web.output q ∈ d.web.terminals .back := hd.web.terminal_mem .back hq
  rintro (hdone | hin)
  · exact hr.inner _ hdone (hd.web.isEnd hmem)
  · exact Side.noConfusion (hd.web.side_eq (show _ ∈ d.web.terminals .front from hin) hmem)

variable (h : d.Course r cs r') (hr : d.Sound r)
include h hr

theorem Course.sound : d.Sound r' := by
  induction h with
  | nil => exact hr
  | cons h _ ih => exact ih (h.sound hd hr)

theorem Course.card_live_le : (d.live r').card ≤ (d.live r).card := by
  induction h with
  | nil => exact le_refl _
  | cons h _ ih => exact (ih (h.sound hd hr)).trans (h.card_live_le hd hr)

omit hd hr in
theorem Course.gates : r'.gates = r.gates ++ (cs.flatMap Cell.gates).filter (!·.isIdle) := by
  induction h with
  | nil => simp
  | cons h _ ih => rw [ih, h.gates, List.flatMap_cons, List.filter_append, List.append_assoc]

omit hd hr in
theorem Course.found : ∀ c ∈ cs, c.Found d.web := by
  induction h with
  | nil => exact fun c hc => absurd hc List.not_mem_nil
  | cons h _ ih => exact List.forall_mem_cons.2 ⟨h.found, ih⟩

variable (hcard : (d.live r).card ≤ (d.live r').card)
include hcard

/-- Where no wire comes to a dead end, the spiders of the cells are read for the first time. -/
theorem Course.nodup :
    (cs.flatMap Cell.spiders).Nodup ∧ ∀ x ∈ cs.flatMap Cell.spiders, ¬d.Seen r x := by
  induction h with
  | nil => exact ⟨List.nodup_nil, fun x hx => absurd hx List.not_mem_nil⟩
  | @cons r r₁ r' before c cs h hrest ih =>
    have hr₁ := h.sound hd hr
    have hstep := h.card_live_le hd hr
    obtain ⟨hnodup, hnew⟩ := ih hr₁ (by omega)
    have hcell : ∀ x ∈ c.spiders, ¬d.Seen r x := fun x hx hseen => by
      obtain ⟨s, hs, rfl⟩ := List.mem_map.1 (h.boxed hd hx hseen).1
      have hle := hrest.card_live_le hd hr₁
      exact ((h.of_card_live_le hd hr (hcard.trans hle)).1 s hs).1 hseen
    refine ⟨List.nodup_append'.2 ⟨h.found.nodup, hnodup, fun x hx hx' =>
      hnew x hx' (h.seen_iff.2 (.inl hx))⟩, fun x hx => ?_⟩
    rcases List.mem_append.1 hx with hx | hx
    · exact hcell x hx
    · exact fun hseen => hnew x hx (h.seen_iff.2 (.inr hseen))

variable (ht : d.Tight n r tip)
include ht

/-- All wires go on to the end. -/
theorem Course.tight : d.Tight n r' (moveOn tip (cs.flatMap Cell.spots)) ∧
    ∀ c ∈ cs, c.Apart ∧ ∀ s ∈ c.spots, s.2 < n := by
  induction h generalizing tip with
  | nil => exact ⟨ht, fun c hc => absurd hc List.not_mem_nil⟩
  | cons h hrest ih =>
    have hr₁ := h.sound hd hr
    have hle := hcard.trans (hrest.card_live_le hd hr₁)
    obtain ⟨hapart, hspots⟩ := h.threads hd hr ht hle
    obtain ⟨htight, hcells⟩ := ih hr₁ ((h.card_live_le hd hr).trans hcard) (h.tight hd hr ht hle)
    rw [List.flatMap_cons, moveOn_append]
    exact ⟨htight, List.forall_mem_cons.2 ⟨⟨hapart, fun s hs => (hspots s hs).1⟩, hcells⟩⟩

/-- The threads run through the spiders of the cells, to the outputs that their tips are tied to in
    the end; and what is ahead of a tip comes later on its thread. -/
theorem Course.runs {ends : Perm ℕ} {beside : Vertex → List Vertex} (hends : KeepsPlaces n ends)
    (htied : ∀ q < n, d.web.Tied (d.web.output q) (moveOn tip (cs.flatMap Cell.spots) (ends q)))
    (hbeside : ∀ c ∈ cs, ∀ v ∈ c.spiders, beside v = c.partners v) :
    d.web.Runs n ends beside tip (cs.flatMap Cell.spots) ∧
      ∀ t < n, ∀ x, d.Ahead r (tip t) x → d.web.Later n ends (cs.flatMap Cell.spots) t x := by
  induction h generalizing tip with
  | nil =>
    refine ⟨htied, fun t htn x hx => ?_⟩
    have hq := (hends.symm t).2 htn
    have hend := htied _ hq
    rw [ends.apply_symm_apply] at hend
    -- the output is ahead of the tip, and so is what is there
    have hjoin : 0 < d.web.joins (tip t) (d.web.output (ends.symm t)) := by
      rw [hd.coherent.valid.joins_comm, hend.joins]
      simp [moveOn]
    refine .inr ⟨ends.symm t, hq, ends.apply_symm_apply t, ?_⟩
    exact hr.narrow _ _ _ ((mem_live hd.coherent).1 (ht.live t htn)).1 hx
      ⟨hjoin, hr.not_seen_output hd hq⟩
  | @cons r r₁ r' before c cs h hrest ih =>
    have hr₁ := h.sound hd hr
    have hle := hcard.trans (hrest.card_live_le hd hr₁)
    obtain ⟨hapart, hspots⟩ := h.threads hd hr ht hle
    have ht₁ := h.tight hd hr ht hle
    obtain ⟨hbc, hbeside⟩ := List.forall_mem_cons.1 hbeside
    rw [List.flatMap_cons, moveOn_append] at htied
    obtain ⟨hruns, hlater⟩ := ih hr₁ ((h.card_live_le hd hr).trans hcard) ht₁ htied hbeside
    refine ⟨runs_append hapart (fun s hs => ?_) hruns, fun t htn x hx => ?_⟩
    · have hlive := ht₁.live s.2 (hspots s hs).1
      rw [moveOn_of_mem hs hapart] at hlive
      obtain ⟨x, hx⟩ := ((mem_live hd.coherent).1 hlive).2
      refine ⟨x, hlater s.2 (hspots s hs).1 x (by rwa [moveOn_of_mem hs hapart]), ?_⟩
      rw [hbc s.1 (Cell.spiders_of_spots hs), ← (hspots s hs).2]
      exact h.wiredTo hd hr hs hx
    · have hseen := ((mem_live hd.coherent).1 (ht.live t htn)).1
      by_cases hmem : t ∈ c.spots.map Prod.snd
      · obtain ⟨s, hs, rfl⟩ := List.mem_map.1 hmem
        have hjoin := (h.precedes s hs).2
        rw [hd.coherent.valid.joins_comm, (hspots s hs).2] at hjoin
        have hnew := ((h.of_card_live_le hd hr hle).1 s hs).1
        rw [hr.narrow _ _ _ hseen hx ⟨hjoin, hnew⟩]
        exact .inl (List.mem_append_left _ hs)
      · have hlive := ht₁.live t htn
        rw [moveOn_of_notMem hmem] at hlive
        obtain ⟨-, x', hx'⟩ := (mem_live hd.coherent).1 hlive
        rw [hr.narrow _ _ _ hseen hx (h.ahead hx')]
        exact (hlater t htn x' (by rwa [moveOn_of_notMem hmem])).imp_left (List.mem_append_right _)

end Course

end Diagram

end ZXRewriting
