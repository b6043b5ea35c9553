import ZXRewriting.Proofs.Diagram.Cells

/-!
# Taking spiders off threads

A spider with nothing beside it lies between the vertex before it and a later one on its thread. Once
it is bypassed, the thread runs on without it (`Threaded.exists_bypass`), and the web is woven from the
other cells (`Woven.bypass`), so that the diagram is made of them (`Written.bypass`).
-/

namespace ZXRewriting

open Equiv (Perm)
open Function (update update_self update_of_ne)
open Multigraph (SamePair)

namespace Web

variable {w : Web} {v x a b o n : Vertex} {us : List Vertex}

theorem count_map_rename (hon : o ≠ n) (y : Vertex) : (us.map (update id o n)).count y =
    if y = o then 0 else us.count y + if y = n then us.count o else 0 := by
  induction us with
  | nil => simp
  | cons c us ih =>
    simp only [List.map_cons, List.count_cons, ih, Function.update_apply, id, beq_iff_eq]
    grind

theorem map_rename (h : o ∉ us) : us.map (update id o n) = us := by
  refine (List.map_congr_left fun y hy => update_of_ne (fun he : y = o => h ?_) _ _).trans
    (List.map_id us)
  exact he ▸ hy

/-- The neighbours of a spider that is bypassed have each other in place of it. -/
theorem WiredTo.bypass (hw : w.Valid) (h : w.WiredTo x us) (hv : w.WiredTo v [a, b]) (hab : a ≠ b)
    (hx : x ≠ v) : (w.bypass v a b .plain).WiredTo x
      (us.map (update id v (if x = a then b else a))) := by
  have hself : [a, b].count v = 0 := by rw [← hv.joins, hw.joins_self]
  have hne : a ≠ v ∧ b ≠ v := by
    have hmem := List.count_eq_zero.1 hself
    exact ⟨fun he => hmem (by simp [he]), fun he => hmem (by simp [he])⟩
  have hcount : us.count v = [a, b].count x := h.count_comm hw hv
  have hc : v ≠ if x = a then b else a := by split_ifs <;> simp [hne.1.symm, hne.2.symm]
  intro y k
  have hy := h y k
  rw [Web.bypass, (hw.remove v).count_addEdges_eq, count_map_rename hc, hcount]
  simp only [Web.remove, SamePair, List.count_cons, List.count_nil, beq_iff_eq]
  grind

theorem Valid.bypass_comm (hw : w.Valid) (v a b : Vertex) (k : EdgeKind) :
    w.bypass v a b k = w.bypass v b a k := (hw.remove v).addEdges_comm a b k 1

section Runs

variable {m t : ℕ} {ends : Perm ℕ} {beside : Vertex → List Vertex}
  {spots before after : List (Vertex × ℕ)} {tip : ℕ → Vertex}

theorem mem_append_of_ne {s : Vertex × ℕ} (hs : s ∈ before ++ (v, t) :: after) (hsv : s.1 ≠ v) :
    s ∈ before ++ after := by
  rcases List.mem_append.1 hs with hs | hs
  · exact List.mem_append_left _ hs
  · exact List.mem_append_right _ ((List.mem_cons.1 hs).resolve_left fun he =>
      hsv (congrArg Prod.fst he))

/-- A neighbour of a spider with two wires which is not the one is the other. -/
theorem WiredTo.eq_of_mem (h : w.WiredTo x us) (hw : w.Valid) (hv : w.WiredTo v [a, b])
    (hmem : v ∈ us) (hxb : x ≠ b) : x = a := by
  have hpos : 0 < [a, b].count x := by
    rw [← h.count_comm hw hv]
    exact List.count_pos_iff.2 hmem
  exact (List.mem_pair.1 (List.count_pos_iff.1 hpos)).resolve_right hxb

/-- What comes later on a thread does so where a spider is bypassed, or in its place what comes later
    than that spider. -/
theorem later_bypass {s : ℕ} {u c : Vertex}
    (hnodup : ((before ++ (v, t) :: after).map Prod.fst).Nodup) (houts : ∀ q < m, w.output q ≠ v)
    (hb : w.Later m ends after t b) (hu : w.Later m ends (before ++ (v, t) :: after) s u)
    (hc : u = v → c = b) : w.Later m ends (before ++ after) s (update id v c u) := by
  by_cases huv : u = v
  · have hst : s = t := by
      rcases hu with hmem | ⟨q, hq, -, he⟩
      · have hvmem : (v, t) ∈ before ++ (v, t) :: after := by simp
        exact congrArg Prod.snd (List.inj_on_of_nodup_map hnodup hmem hvmem huv)
      · exact absurd (he.symm.trans huv) (houts q hq)
    rw [huv, update_self, hc huv, hst]
    exact hb.imp_left fun hmem => List.mem_append_right _ hmem
  · rw [update_of_ne huv]
    exact hu.imp_left fun hmem => mem_append_of_ne hmem huv

/-- Threads that have come past a spider run on from the one before it. -/
theorem Runs.bypass (hw : w.Valid) (hv : w.WiredTo v [a, b]) (hab : a ≠ b)
    (hspots : ∀ s ∈ spots, s.1 ≠ v ∧ s.1 ≠ a ∧ v ∉ beside s.1)
    (houts : ∀ q < m, w.output q ≠ v ∧ w.output q ≠ a) (h : w.Runs m ends beside tip spots) :
    (w.bypass v a b .plain).Runs m ends beside (update id v a ∘ tip) spots := by
  induction spots generalizing tip with
  | nil =>
    intro q hq
    have hwired := (tied_iff.1 (h q hq)).bypass hw hv hab (houts q hq).1
    rw [if_neg (houts q hq).2] at hwired
    exact tied_iff.2 hwired
  | cons s rest ih =>
    obtain ⟨⟨u, hu, hwired⟩, hrest⟩ := h
    obtain ⟨⟨hsv, hsa, hbeside⟩, hspots⟩ := List.forall_mem_cons.1 hspots
    have huv : u ≠ v := by
      rcases hu with hmem | ⟨q, hq, -, rfl⟩
      · exact (hspots _ hmem).1
      · exact (houts q hq).1
    have hmap := hwired.bypass hw hv hab hsv
    rw [if_neg hsa, List.map_cons, List.map_cons, map_rename hbeside, update_of_ne huv] at hmap
    refine ⟨⟨u, hu, hmap⟩, ?_⟩
    have hstep := ih hspots hrest
    rwa [Function.comp_update, update_of_ne hsv] at hstep

/-- A spider on a thread with nothing beside it can be bypassed. -/
theorem Runs.exists_bypass (hw : w.Valid) (hends : KeepsPlaces m ends)
    (houts : ∀ q < m, w.IsEnd (w.output q)) (hbv : beside v = [])
    (hspots : ∀ s ∈ before ++ (v, t) :: after, ¬w.IsEnd s.1 ∧ s.2 < m ∧ v ∉ beside s.1)
    (hnodup : ((before ++ (v, t) :: after).map Prod.fst).Nodup)
    (htips : ∀ s < m, (∀ x ∈ before ++ (v, t) :: after, tip s ≠ x.1) ∧
      ∀ q < m, tip s ≠ w.output q)
    (h : w.Runs m ends beside tip (before ++ (v, t) :: after)) :
    ∃ a b, w.WiredTo v [a, b] ∧ a ≠ b ∧ w.Later m ends after t b ∧
      (a = tip t ∨ (a, t) ∈ before) ∧
      (w.bypass v a b .plain).Runs m ends beside tip (before ++ after) := by
  induction before generalizing tip with
  | nil =>
    obtain ⟨⟨b, hb, hwired⟩, hrest⟩ := h
    obtain ⟨⟨hve, ht, hvb⟩, hafter⟩ := List.forall_mem_cons.1 hspots
    obtain ⟨hnotin, -⟩ := List.nodup_cons.1 hnodup
    rw [hbv] at hwired
    have hab : tip t ≠ b := by
      rcases hb with hmem | ⟨q, hq, -, rfl⟩
      · exact (htips t ht).1 _ (List.mem_cons_of_mem _ hmem)
      · exact (htips t ht).2 q hq
    refine ⟨tip t, b, hwired, hab, hb, .inl rfl, ?_⟩
    have hruns := hrest.bypass hw hwired hab (fun s hs => ⟨fun he => hnotin ?_,
      ((htips t ht).1 s (List.mem_cons_of_mem _ hs)).symm, (hafter s hs).2.2⟩)
      fun q hq => ⟨fun he => hve (he ▸ houts q hq), ((htips t ht).2 q hq).symm⟩
    · refine hruns.congr hends (fun s hs => (hafter s hs).2.1) fun s hs => ?_
      rw [Function.comp_apply, Function.update_apply tip]
      split_ifs with hst
      · rw [update_self, hst]
      · exact update_of_ne ((htips s hs).1 _ List.mem_cons_self) _ _
    · exact List.mem_map.2 ⟨s, hs, he⟩
  | cons s before ih =>
    obtain ⟨x, t'⟩ := s
    obtain ⟨⟨u, hu, hwired⟩, hrest⟩ := h
    obtain ⟨⟨hxe, ht', hvx⟩, hspots⟩ := List.forall_mem_cons.1 hspots
    obtain ⟨hnotin, hnodup'⟩ := List.nodup_cons.1 hnodup
    have hxs {y : Vertex × ℕ} (hy : y ∈ before ++ (v, t) :: after) : x ≠ y.1 := fun he =>
      hnotin (List.mem_map.2 ⟨y, hy, he.symm⟩)
    have hxout {q : ℕ} (hq : q < m) : x ≠ w.output q := fun he => hxe (he ▸ houts q hq)
    have hvmem : (v, t) ∈ before ++ (v, t) :: after := by simp
    obtain ⟨a, b, hv, hab, hb, ha, hruns⟩ := ih hspots hnodup' (fun s hs => by
      rw [Function.update_apply]
      split_ifs with hst
      · exact ⟨fun y hy => hxs hy, fun q hq => hxout hq⟩
      · exact ⟨fun y hy => (htips s hs).1 y (List.mem_cons_of_mem _ hy), (htips s hs).2⟩) hrest
    have hxv : x ≠ v := hxs hvmem
    have hxb : x ≠ b := by
      rcases hb with hmem | ⟨q, hq, -, rfl⟩
      · exact hxs (y := (b, t)) (by simp [hmem])
      · exact hxout hq
    refine ⟨a, b, hv, hab, hb, ?_, ?_, hruns⟩
    · rw [Function.update_apply] at ha
      rcases ha with ha | ha
      · split_ifs at ha with htt
        · exact .inr (by rw [ha, htt]; exact List.mem_cons_self)
        · exact .inl ha
      · exact .inr (List.mem_cons_of_mem _ ha)
    have hmap := hwired.bypass hw hv hab hxv
    have htv : tip t' ≠ v := (htips t' ht').1 (v, t) (List.mem_cons_of_mem _ hvmem)
    rw [List.map_cons, List.map_cons, map_rename hvx, update_of_ne htv] at hmap
    have hvout : ∀ q < m, w.output q ≠ v := fun q hq he => (hspots _ hvmem).1 (he ▸ houts q hq)
    -- where the later one is bypassed, the spider comes before it on the same thread
    exact ⟨_, later_bypass hnodup' hvout hb hu fun huv =>
      if_pos (hwired.eq_of_mem hw hv (by simp [huv]) hxb), hmap⟩

/-- A thread runs on without a spider that is bypassed. -/
theorem Threaded.exists_bypass {lines : Diagram.Side → Perm ℕ}
    (h : w.Threaded m lines beside (before ++ (v, t) :: after))
    (hnodup : ((before ++ (v, t) :: after).map Prod.fst).Nodup) (hbv : beside v = [])
    (hbeside : ∀ x, v ∉ beside x) : ∃ a b, w.WiredTo v [a, b] ∧ a ≠ b ∧
      (w.bypass v a b .plain).Threaded m lines beside (before ++ after) := by
  have hval := h.valid
  have hvmem : (v, t) ∈ before ++ (v, t) :: after := by simp
  have hve : ¬w.IsEnd v := (h.spider _ hvmem).2.1
  have hsub {s : Vertex × ℕ} (hs : s ∈ before ++ after) : s ∈ before ++ (v, t) :: after :=
    (List.mem_append.1 hs).elim (List.mem_append_left _) fun hs =>
      List.mem_append_right _ (List.mem_cons_of_mem _ hs)
  have hin {q : ℕ} (hq : q < m) : w.IsEnd (w.input q) := h.isEnd_terminal .front hq
  have hvout : ∀ q < m, w.output q ≠ v := fun q hq he => hve (he ▸ h.isEnd_terminal .back hq)
  obtain ⟨a, b, hv, hab, hb, -, hruns⟩ := h.runs.exists_bypass hval (h.keeps .back)
    (fun q hq => h.isEnd_terminal .back hq) hbv
    (fun s hs => ⟨(h.spider s hs).2.1, (h.spider s hs).2.2, hbeside s.1⟩) hnodup
    fun s hs => by
      have hlt := ((h.keeps .front).symm s).2 hs
      exact ⟨fun x hx he => (h.spider x hx).2.1 (he ▸ hin hlt),
        fun q hq => h.input_ne_output hlt hq⟩
  have hkind {y : Vertex} (hy : y ≠ v) : (w.bypass v a b .plain).kind y = w.kind y :=
    update_of_ne hy _ _
  have hgone : (w.bypass v a b .plain).kind v = none := update_self _ _ _
  have hends {y : Vertex} {κ : SpiderKind} (hκ : κ.isBoundary = true) :
      w.kind y = some κ ↔ (w.bypass v a b .plain).kind y = some κ := by
    by_cases hy : y = v
    · rw [hy, hgone]
      exact iff_of_false (fun hk => hve (by rw [IsEnd, hk]; exact hκ)) fun hk => by cases hk
    · rw [hkind hy]
  have hkept {y : Vertex} (hy : w.Has y) (hyv : y ≠ v) : (w.bypass v a b .plain).Has y := by
    rwa [Has, hkind hyv]
  have hinner {y : Vertex} (hy : ¬w.IsEnd y) : ¬(w.bypass v a b .plain).IsEnd y := by
    by_cases hyv : y = v
    · rw [hyv, IsEnd, hgone]
      intro hk
      cases hk
    · rwa [IsEnd, hkind hyv]
  have hself : v ∉ [a, b] := by rw [← List.count_eq_zero, ← hv.joins, hval.joins_self]
  exact ⟨a, b, hv, hab, {
    valid := by
      refine (hval.remove v).setCount (hkept (hv.has hval (by simp)).2 fun he => hself ?_)
        (hkept (hv.has hval (by simp)).2 fun he => hself ?_) hab _ <;> simp [he]
    length := fun side => by cases side <;> [exact h.length .front; exact h.length .back]
    nodup := fun side => by cases side <;> [exact h.nodup .front; exact h.nodup .back]
    inputs := fun y => (h.inputs y).trans (hends rfl)
    outputs := fun y => (h.outputs y).trans (hends rfl)
    keeps := h.keeps
    spider := fun s hs => by
      obtain ⟨hsh, hse, hst⟩ := h.spider s (hsub hs)
      refine ⟨hkept hsh fun he => ?_, hinner hse, hst⟩
      rw [List.map_append, List.map_cons] at hnodup
      refine List.nodup_middle.1 hnodup |> List.nodup_cons.1 |>.1 <| ?_
      rw [← List.map_append]
      exact List.mem_map.2 ⟨s, hs, he⟩
    beside_spider := fun y x hx => by
      obtain ⟨⟨hy, hye⟩, hxh, hxe⟩ := h.beside_spider y x hx
      have hyv : y ≠ v := fun he => by
        rw [he, hbv] at hx
        exact List.not_mem_nil hx
      exact ⟨⟨hkept hy hyv, hinner hye⟩, hkept hxh fun he => hbeside y (he ▸ hx), hinner hxe⟩
    loose := fun y hy hye hno => by
      have hyv : y ≠ v := fun he => by
        rw [Has, he, hgone] at hy
        cases hy
      rw [Has, hkind hyv] at hy
      rw [IsEnd, hkind hyv] at hye
      have hwired := (h.loose y hy hye fun s hs => hno s (mem_append_of_ne hs hyv)).bypass hval hv
        hab hyv
      rwa [map_rename (hbeside y)] at hwired
    start := fun q hq => by
      obtain ⟨u, hu, htied⟩ := h.start q hq
      have hwired := (tied_iff.1 htied).bypass hval hv hab fun he => hve (he ▸ hin hq)
      have hqb : w.input q ≠ b := fun he => by
        rcases hb with hmem | ⟨r, hr, -, hbr⟩
        · exact (h.spider (b, t) (by simp [hmem])).2.1 (he ▸ hin hq)
        · exact h.input_ne_output hq hr (he.trans hbr)
      -- where the later one is bypassed, the input is the neighbour on the near side
      exact ⟨_, later_bypass hnodup hvout hb hu fun huv =>
        if_pos ((tied_iff.1 htied).eq_of_mem hval hv (by simp [huv]) hqb), tied_iff.2 hwired⟩
    runs := hruns }⟩

end Runs

/-! ### Woven webs -/

/-- A web made of cells, with threads for wires, in whatever columns the cells lie. -/
structure Woven (w : Web) (n : ℕ) (lines : Diagram.Side → Perm ℕ) (beside : Vertex → List Vertex)
    (cells : List Cell) : Prop where
  threaded : w.Threaded n lines beside (cells.flatMap Cell.spots)
  shown : ∀ c ∈ cells, c.Shown w beside
  inside : ∀ v, w.Has v ∧ ¬w.IsEnd v ↔ v ∈ cells.flatMap Cell.spiders
  nodup : (cells.flatMap Cell.spiders).Nodup

namespace Woven

variable {n t : ℕ} {lines : Diagram.Side → Perm ℕ} {beside : Vertex → List Vertex}
  {cells before after : List Cell} {κ : SpiderKind} {p : Phase}

/-- The spiders on threads are those of cells, each once. -/
theorem nodup_spots (h : w.Woven n lines beside cells) :
    ((cells.flatMap Cell.spots).map Prod.fst).Nodup := by
  rw [List.map_flatMap]
  refine (List.Sublist.flatMap_right cells fun c hc => ?_).nodup h.nodup
  cases c with
  | wire | cnot => exact List.Sublist.refl _
  | cz => exact List.sublist_append_left _ _

/-- What is beside a spider is in the same cell. -/
theorem exists_cell_of_beside (h : w.Woven n lines beside cells) (hx : x ∈ beside v) :
    ∃ c ∈ cells, v ∈ c.spiders ∧ x ∈ c.spiders := by
  obtain ⟨hv, -⟩ := h.threaded.beside_spider v x hx
  obtain ⟨c, hc, hvc⟩ := List.mem_flatMap.1 ((h.inside v).1 hv)
  refine ⟨c, hc, hvc, ?_⟩
  have hshown := h.shown c hc
  cases hshown <;> simp_all [Cell.spiders]
  all_goals grind

/-- A spider that is a cell by itself is in no other one. -/
theorem ne_of_mem_spiders (h : w.Woven n lines beside (before ++ .wire κ p v t :: after)) {c : Cell}
    (hc : c ∈ before ++ after) (hx : x ∈ c.spiders) : x ≠ v := by
  rintro rfl
  have hnd := h.nodup
  rw [List.flatMap_append, List.flatMap_cons] at hnd
  have hnd' := (List.perm_append_comm_assoc _ _ _).nodup_iff.1 hnd
  rw [← List.flatMap_append] at hnd'
  exact (List.nodup_cons.1 hnd').1 (List.mem_flatMap.2 ⟨c, hc, hx⟩)

/-- A web without a spider that is bypassed, which was a cell by itself. -/
theorem bypass (h : w.Woven n lines beside (before ++ .wire κ p v t :: after))
    (hv : w.WiredTo v [a, b]) : (w.bypass v a b .plain).Woven n lines beside (before ++ after) := by
  have hmem : Cell.wire κ p v t ∈ before ++ .wire κ p v t :: after :=
    List.mem_append_right _ List.mem_cons_self
  have hsub : (before ++ after).Sublist (before ++ .wire κ p v t :: after) :=
    (List.Sublist.refl before).append (List.sublist_cons_self _ after)
  have hbv : beside v = [] := by
    cases h.shown _ hmem with
    | wire _ _ _ hbeside => exact hbeside
  have hbeside (x : Vertex) : v ∉ beside x := fun hx => by
    obtain ⟨c, hc, hxc, hvc⟩ := h.exists_cell_of_beside hx
    rcases List.mem_append.1 hc with hc | hc
    · exact h.ne_of_mem_spiders (List.mem_append_left _ hc) hvc rfl
    rcases List.mem_cons.1 hc with rfl | hc
    · rw [List.mem_singleton.1 hxc, hbv] at hx
      exact List.not_mem_nil hx
    · exact h.ne_of_mem_spiders (List.mem_append_right _ hc) hvc rfl
  have hspots : (before ++ .wire κ p v t :: after).flatMap Cell.spots =
      before.flatMap Cell.spots ++ (v, t) :: after.flatMap Cell.spots := by
    rw [List.flatMap_append, List.flatMap_cons]
    rfl
  have hthr := h.threaded
  have hnd := h.nodup_spots
  rw [hspots] at hthr hnd
  have hkind {x : Vertex} (hx : x ≠ v) : (w.bypass v a b .plain).kind x = w.kind x :=
    update_of_ne hx _ _
  have hphase {x : Vertex} (hx : x ≠ v) : (w.bypass v a b .plain).phase x = w.phase x :=
    update_of_ne hx _ _
  have hgone : (w.bypass v a b .plain).kind v = none := update_self _ _ _
  exact {
    threaded := by
      rw [List.flatMap_append]
      -- the neighbours along the thread are the given ones, in either order
      obtain ⟨a', b', hv', -, hthr'⟩ := hthr.exists_bypass hnd hbv hbeside
      have hperm : [a', b'].Perm [a, b] :=
        List.perm_iff_count.2 fun y => by rw [← hv'.joins, hv.joins]
      rcases List.perm_pair.1 hperm with he | he
      · obtain ⟨rfl, rfl⟩ : a' = a ∧ b' = b := by simpa using he
        exact hthr'
      · obtain ⟨rfl, rfl⟩ : a' = b ∧ b' = a := by simpa using he
        rwa [h.threaded.valid.bypass_comm]
    shown := fun c hc => (h.shown c (hsub.subset hc)).congr
      (fun x hx => hkind (h.ne_of_mem_spiders hc hx))
      (fun x hx => hphase (h.ne_of_mem_spiders hc hx)) fun _ _ => rfl
    inside := fun x => by
      by_cases hx : x = v
      · rw [hx]
        refine iff_of_false (fun hx => ?_) fun hmem => ?_
        · have hv := hx.1
          rw [Has, hgone] at hv
          cases hv
        · obtain ⟨c, hc, hv⟩ := List.mem_flatMap.1 hmem
          exact h.ne_of_mem_spiders hc hv rfl
      · rw [Has, IsEnd, hkind hx]
        refine (h.inside x).trans ?_
        rw [List.flatMap_append, List.flatMap_cons, List.flatMap_append]
        simp [Cell.spiders, hx]
    nodup := h.nodup.sublist (hsub.flatMap _) }

end Woven

end Web

namespace Diagram

variable {d d' : Diagram} {n : ℕ} {lines : Side → Perm ℕ} {beside : Vertex → List Vertex}
  {cells before after : List (ℤ × Cell)} {first last k : ℤ} {κ : SpiderKind} {p : Phase}
  {v x : Vertex} {t : ℕ}

section

variable (h : d.Written n lines beside cells first last)
include h

theorem Written.woven : d.web.Woven n lines beside (cells.map Prod.snd) where
  threaded := by
    rw [List.flatMap_map]
    exact h.threaded
  shown := List.forall_mem_map.2 h.shown
  inside v := by
    rw [List.flatMap_map]
    exact h.inside v
  nodup := by
    rw [List.flatMap_map]
    exact h.nodup

/-- The spiders on threads are those of cells, each once. -/
theorem Written.nodup_spots : ((cells.flatMap (·.2.spots)).map Prod.fst).Nodup := by
  have hnodup := h.woven.nodup_spots
  rwa [List.flatMap_map] at hnodup

end

/-- A diagram without a spider that is bypassed, which was a cell by itself. -/
theorem Written.bypass
    (h : d.Written n lines beside (before ++ (k, .wire κ p v t) :: after) first last) {a b : Vertex}
    (hv : d.web.WiredTo v [a, b]) (hd' : d'.Coherent) (hw' : d'.web = d.web.bypass v a b .plain)
    (hl' : d'.layout = d.layout.remove v) :
    d'.Written n lines beside (before ++ after) first last := by
  set c : ℤ × Cell := (k, .wire κ p v t) with hc
  have hmem : c ∈ before ++ c :: after := List.mem_append_right _ List.mem_cons_self
  have hsub : (before ++ after).Sublist (before ++ c :: after) :=
    (List.Sublist.refl before).append (List.sublist_cons_self c after)
  have hwoven := h.woven
  rw [List.map_append, List.map_cons] at hwoven
  have hother {c' : ℤ × Cell} (hc' : c' ∈ before ++ after) {x : Vertex} (hx : x ∈ c'.2.spiders) :
      x ≠ v := hwoven.ne_of_mem_spiders (List.map_append ▸ List.mem_map_of_mem hc') hx
  have hwoven' := hwoven.bypass hv
  rw [← hw', ← List.map_append] at hwoven'
  have hcolumn {x : Vertex} (hx : x ≠ v) : d'.column? x = d.column? x := by
    rw [column?, hl', Layout.remove, Layout.column?, Std.ExtTreeMap.getElem?_erase,
      if_neg (by simpa using hx.symm)]
    rfl
  exact {
    coherent := hd'
    wires := hl' ▸ h.wires
    threaded := by
      rw [← List.flatMap_map Prod.snd Cell.spots]
      exact hwoven'.threaded
    shown := fun c' hc' => hwoven'.shown c'.2 (List.mem_map_of_mem hc')
    inside := fun x => by
      rw [← List.flatMap_map Prod.snd Cell.spiders]
      exact hwoven'.inside x
    nodup := h.nodup.sublist (hsub.flatMap _)
    sorted := fun c' hc' => h.sorted c' (hsub.subset hc')
    column := fun c' hc' x hx => by
      rw [hcolumn (hother hc' hx)]
      exact h.column c' (hsub.subset hc') x hx
    column_output := fun x hx => by
      have hout : d'.outputs = d.outputs := congrArg Web.outputs hw'
      rw [hout] at hx
      rw [hcolumn fun he => ?_]
      · exact h.column_output x hx
      · subst he
        have hterminal : x ∈ d.web.terminals .back := hx
        have hend := h.threaded.isEnd_of_mem hterminal
        exact ((h.shown c hmem).has x (List.mem_singleton_self x)).2 hend
    ordered := h.ordered.sublist hsub
    range := fun c' hc' => h.range c' (hsub.subset hc')
    first_eq := hl' ▸ h.first_eq
    last_eq := hl' ▸ h.last_eq
    first_le := h.first_le
    le_last := h.le_last }

end Diagram

end ZXRewriting
