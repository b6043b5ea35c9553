import ZXRewriting.Proofs.BitMatrix.UnitSums
import ZXRewriting.Proofs.Extraction.Wires

/-!
# Adding rows at the frontier

A step of elimination adds the edges of some frontier spiders to those of another one, with a CNOT
gate for each (`State.Reached.rowStep`). The sums that elimination finds are of different rows, and
have a single one (`State.exists_unitSums`); on the diagram the same sum is made by toggling edges
(`Web.addRows`), and writing the new matrix back gives just that diagram (`State.exists_setMatrix`).
-/

namespace ZXRewriting

open Function (update update_self update_of_ne)
open Multigraph (SamePair)

namespace Web

variable {w T : Web} {s t u v n a b : Vertex} {k : EdgeKind} {q : ℕ} {frontier : List (ℕ × Vertex)}
  {N ns : List Vertex}

/-! ### Frontiers -/

/-- A frontier of which the spiders are not joined to each other. -/
structure Separate (w : Web) (frontier : List (ℕ × Vertex)) : Prop extends Lined w frontier where
  apart : ∀ p ∈ frontier, ∀ p' ∈ frontier, p'.2 ∉ w.nearby p.2

/-- A frontier of which the spiders are not joined to each other, and but for their outputs to
    spiders inside only. -/
structure Open (w : Web) (frontier : List (ℕ × Vertex)) : Prop extends Separate w frontier where
  inside : ∀ p ∈ frontier, ∀ n ∈ w.nearby p.2, n ≠ w.output p.1 → w.IsZ n

theorem length_nearby_eq_two (hw : w.Simple) (hu : u ∈ w.nearby v) (ht : t ∈ w.nearby v)
    (hut : u ≠ t) (h : w.degree v ≤ 2) : (w.nearby v).length = 2 := by
  rw [hw.degree_eq] at h
  have hsub : [u, t] ⊆ w.nearby v := fun x hx => by
    rcases List.mem_cons.1 hx with rfl | hx
    · exact hu
    · rw [List.mem_singleton.1 hx]
      exact ht
  have hle := ((List.nodup_cons.2 ⟨by simpa using hut, List.nodup_singleton t⟩).subperm
    hsub).length_le
  exact Nat.le_antisymm h hle

theorem Prepared.isSeparate {m : ℕ} (h : w.Prepared frontier m) (hw : w.InForm) :
    w.Separate frontier where
  toLined := h.lined hw
  apart := h.apart

/-- A prepared frontier is open when none of its spiders acts as a wire. -/
theorem Prepared.isOpen {m : ℕ} (h : w.Prepared frontier m) (hw : w.InForm)
    (hlen : ∀ p ∈ frontier, (w.nearby p.2).length ≠ 2) : w.Open frontier where
  toSeparate := h.isSeparate hw
  inside p hp n hn hne := by
    have hset := h.settled p hp
    refine (hw.simple.colour n (hw.simple.valid.has_of_mem_nearby hn)).resolve_right fun he => ?_
    have hdeg := ((hset.ends n hn he).resolve_left hne).2
    exact hlen p hp (length_nearby_eq_two hw.simple hn
      (hw.simple.valid.mem_nearby_of_link hset.wired) hne hdeg)

/-! ### Toggling the edges of one spider -/

theorem phase_toggleAll (hvN : v ∉ N) : (w.toggleAll v N).phase = w.phase := by
  induction N generalizing w with
  | nil => rfl
  | cons n rest ih =>
    rw [List.mem_cons, not_or] at hvN
    rw [toggleAll_cons, ih hvN.2, toggle, if_neg hvN.1]
    rfl

/-- The Z spiders next to a spider. -/
def reach (w : Web) (v : Vertex) : List Vertex := (w.nearby v).filter fun n => w.IsZ n

/-- Adds the edges of spiders at outputs to those of another spider. -/
def addRows (w : Web) (v : Vertex) (rows : List (ℕ × Vertex)) : Web :=
  rows.foldl (fun w p => w.toggleAll v (w.reach p.2)) w

theorem mem_reach : n ∈ w.reach v ↔ n ∈ w.nearby v ∧ w.IsZ n := by
  rw [reach, List.mem_filter, decide_eq_true_iff]

theorem isZ_reach : ∀ n ∈ w.reach v, w.IsZ n := fun _ hn => (mem_reach.1 hn).2

theorem nodup_reach : (w.reach v).Nodup := nodup_nearby.filter _

/-- The spiders inside are all neighbours of an open frontier but the outputs. -/
theorem Open.reach_eq (hw : w.InForm) (h : w.Open frontier) {p : ℕ × Vertex} (hp : p ∈ frontier) :
    w.reach p.2 = (w.nearby p.2).filter (· ≠ w.output p.1) :=
  List.filter_congr fun n hn => decide_eq_decide.2
    ⟨fun hz he => hz.not_isEnd (he ▸ hw.isEnd_output' (h.atOutput p hp).lt), h.inside p hp n hn⟩

theorem Lined.spider_ne (h : w.Lined frontier) {p p' : ℕ × Vertex} (hp : p ∈ frontier)
    (hp' : p' ∈ frontier) (hne : p ≠ p') : p.2 ≠ p'.2 := fun he =>
  hne (List.inj_on_of_nodup_map h.nodup hp hp' he)

theorem Separate.notMem_reach (h : w.Separate frontier) {p p' : ℕ × Vertex} (hp : p ∈ frontier)
    (hp' : p' ∈ frontier) : p'.2 ∉ w.reach p.2 := fun hm =>
  h.apart p hp p' hp' (mem_reach.1 hm).1

theorem reach_congr {w' : Web} (hn : w'.nearby v = w.nearby v) (hk : w'.kind = w.kind) :
    w'.reach v = w.reach v := by
  rw [reach, reach, hn]
  exact List.filter_congr fun n _ => decide_eq_decide.2 (by simp only [IsZ, hk])

theorem nearby_congr {w' : Web} (hn : w'.next = w.next) (h : ∀ x, w'.joins u x = w.joins u x) :
    w'.nearby u = w.nearby u := by
  rw [nearby, nearby, hn]
  exact List.filter_congr fun x _ => by rw [h]

section

variable (hw : w.InForm) (h : w.Separate frontier) {p p' : ℕ × Vertex} (hp : p ∈ frontier)
  (hp' : p' ∈ frontier)
include hw h hp hp'

theorem Separate.joins_toggleAll (a b : Vertex) : (w.toggleAll p'.2 (w.reach p.2)).joins a b =
    if a = p'.2 ∧ b ∈ w.reach p.2 ∨ b = p'.2 ∧ a ∈ w.reach p.2 then 1 - w.joins a b
    else w.joins a b := by
  rw [hw.simple.joins_toggleAll (h.atOutput p' hp').isZ isZ_reach nodup_reach]
  refine if_congr (and_iff_right_of_imp ?_) rfl rfl
  rintro (⟨ha, hb⟩ | ⟨hb, ha⟩) rfl
  · exact h.notMem_reach hp hp' (ha ▸ hb)
  · exact h.notMem_reach hp hp' (hb ▸ ha)

omit hp in
theorem Separate.inForm_toggleAll : (w.toggleAll p'.2 (w.reach p.2)).InForm :=
  (Within.toggleAll (h.atOutput p' hp').isZ isZ_reach).inForm hw
    (hw.simple.toggleAll (h.atOutput p' hp').isZ isZ_reach)

/-- The edges of the other spiders of a frontier stay. -/
theorem Separate.nearby_toggleAll {x : ℕ × Vertex} (hx : x ∈ frontier) (hxp : x ≠ p') :
    (w.toggleAll p'.2 (w.reach p.2)).nearby x.2 = w.nearby x.2 := by
  have hx' := h.spider_ne hx hp' hxp
  refine nearby_congr next_toggleAll fun n => ?_
  rw [h.joins_toggleAll hw hp hp', if_neg]
  rintro (⟨he, -⟩ | ⟨-, hm⟩)
  · exact hx' he
  · exact h.notMem_reach hp hx hm

theorem Separate.toggleAll : (w.toggleAll p'.2 (w.reach p.2)).Separate frontier := by
  have hwithin := Within.toggleAll (w := w) (h.atOutput p' hp').isZ (isZ_reach (v := p.2))
  have hform := h.inForm_toggleAll hw hp' (p := p)
  have hout (q : ℕ) : (w.toggleAll p'.2 (w.reach p.2)).output q = w.output q := by
    rw [output, hwithin.outputs, output]
  refine ⟨⟨fun x hx => ?_, h.nodup⟩, fun x hx y hy hmem => ?_⟩
  · have hat := h.atOutput x hx
    have hcount (k : EdgeKind) : (w.toggleAll p'.2 (w.reach p.2)).count x.2 (w.output x.1) k =
        w.count x.2 (w.output x.1) k := by
      have hend := hw.isEnd_output' hat.lt
      rw [hw.simple.count_toggleAll (h.atOutput p' hp').isZ isZ_reach nodup_reach, if_neg]
      rintro ⟨-, ⟨-, hm⟩ | ⟨he, -⟩, -⟩
      · exact (isZ_reach _ hm).not_isEnd hend
      · exact (h.atOutput p' hp').isZ.not_isEnd (he ▸ hend)
    refine ⟨hwithin.outputs ▸ hat.lt, hwithin.isZ.2 hat.isZ, ?_, ?_⟩
    · rw [hout, link, hcount, hcount]
      exact hat.wired
    · rw [phase_toggleAll (h.notMem_reach hp hp')]
      exact hat.phase
  · rw [hform.simple.valid.mem_nearby, h.joins_toggleAll hw hp hp'] at hmem
    split at hmem
    · next hc =>
      rcases hc with ⟨-, hm⟩ | ⟨-, hm⟩
      · exact h.notMem_reach hp hy hm
      · exact h.notMem_reach hp hx hm
    · exact h.apart x hx y hy (hw.simple.valid.mem_nearby.2 hmem)

end

/-- An edge as an entry of a matrix. -/
def edge (w : Web) (a b : Vertex) : ZMod 2 := w.joins a b

theorem Simple.edge_eq (hw : w.Simple) (a b : Vertex) :
    w.edge a b = if 0 < w.joins a b then 1 else 0 := by
  have hone := hw.single a b
  rw [edge]
  obtain h | h := Nat.le_one_iff_eq_zero_or_eq_one.1 hone <;> simp [h]

/-- Adding rows of a frontier to another one of its rows. -/
theorem Separate.addRows (hw : w.InForm) (h : w.Separate frontier) {t : ℕ × Vertex} (ht : t ∈ frontier)
    {rows : List (ℕ × Vertex)} (hrows : ∀ p ∈ rows, p ∈ frontier) (hnot : t ∉ rows) :
    (w.addRows t.2 rows).InForm ∧ (w.addRows t.2 rows).Separate frontier ∧
      Within w (w.addRows t.2 rows) ∧ (w.addRows t.2 rows).phase = w.phase ∧
      (∀ a b k, (w.addRows t.2 rows).count a b k ≠ w.count a b k →
        ∃ p ∈ rows, ∃ n ∈ w.reach p.2, SamePair a b t.2 n) ∧
      ∀ n, w.IsZ n → (w.addRows t.2 rows).edge t.2 n =
        w.edge t.2 n + (rows.map fun p => w.edge p.2 n).sum := by
  induction rows generalizing w with
  | nil => exact ⟨hw, h, .refl w, rfl, fun _ _ _ hne => absurd rfl hne, fun n _ => by simp [Web.addRows]⟩
  | cons p rest ih =>
    have hp := hrows p List.mem_cons_self
    rw [List.mem_cons, not_or] at hnot
    have hpt : p ≠ t := Ne.symm hnot.1
    have hform := h.inForm_toggleAll hw ht (p := p)
    have hwithin := Within.toggleAll (w := w) (h.atOutput t ht).isZ (isZ_reach (v := p.2))
    have hrest : ∀ x ∈ rest, x ∈ frontier := fun x hx => hrows x (List.mem_cons_of_mem p hx)
    -- the row that is added to changes alone, so the other rows are still what they were
    have hreach : ∀ x ∈ rest, (w.toggleAll t.2 (w.reach p.2)).reach x.2 = w.reach x.2 :=
      fun x hx => by
        have hxt : x ≠ t := fun he => hnot.2 (he ▸ hx)
        exact reach_congr (h.nearby_toggleAll hw hp ht (hrest x hx) hxt) hwithin.kind
    obtain ⟨h₁, h₂, h₃, h₄, h₅, h₆⟩ := ih hform (h.toggleAll hw hp ht) hrest hnot.2
    refine ⟨h₁, h₂, hwithin.trans h₃, h₄.trans (phase_toggleAll (h.notMem_reach hp ht)),
      fun a b k hne => ?_, fun n hn => ?_⟩
    · by_cases hc : (w.toggleAll t.2 (w.reach p.2)).count a b k = w.count a b k
      · obtain ⟨x, hx, n, hn, hs⟩ := h₅ a b k (by rw [hc]; exact hne)
        exact ⟨x, List.mem_cons_of_mem p hx, n, hreach x hx ▸ hn, hs⟩
      · rw [hw.simple.count_toggleAll (h.atOutput t ht).isZ isZ_reach nodup_reach] at hc
        split at hc
        · next hab =>
          rcases hab.2.1 with ⟨ha, hb⟩ | ⟨hb, ha⟩
          · exact ⟨p, List.mem_cons_self, b, hb, .inl ⟨ha, rfl⟩⟩
          · exact ⟨p, List.mem_cons_self, a, ha, .inr ⟨rfl, hb⟩⟩
        · exact absurd rfl hc
    · have hstep : (w.toggleAll t.2 (w.reach p.2)).edge t.2 n = w.edge t.2 n + w.edge p.2 n := by
        have hnt : ¬(n = t.2 ∧ t.2 ∈ w.reach p.2) := fun hc => h.notMem_reach hp ht hc.2
        have hmem : n ∈ w.reach p.2 ↔ 0 < w.joins p.2 n := by
          rw [mem_reach, hw.simple.valid.mem_nearby]
          exact and_iff_left hn
        have hjoins : (w.toggleAll t.2 (w.reach p.2)).joins t.2 n =
            if 0 < w.joins p.2 n then 1 - w.joins t.2 n else w.joins t.2 n := by
          rw [h.joins_toggleAll hw hp ht]
          exact if_congr (by rw [hmem]; tauto) rfl rfl
        have hone := hw.simple.single t.2 n
        rw [hform.simple.edge_eq, hw.simple.edge_eq, hw.simple.edge_eq, hjoins]
        by_cases hpos : 0 < w.joins p.2 n
        · rw [if_pos hpos, if_pos hpos]
          obtain h0 | h0 := Nat.le_one_iff_eq_zero_or_eq_one.1 hone <;> rw [h0] <;> decide
        · rw [if_neg hpos, if_neg hpos, add_zero]
      have hother : ∀ x ∈ rest, (w.toggleAll t.2 (w.reach p.2)).edge x.2 n = w.edge x.2 n :=
        fun x hx => by
          have hxt := h.spider_ne (hrest x hx) ht fun he => hnot.2 (he ▸ hx)
          rw [edge, h.joins_toggleAll hw hp ht, edge, if_neg]
          rintro (⟨he, -⟩ | ⟨-, hm⟩)
          · exact hxt he
          · exact h.notMem_reach hp (hrest x hx) hm
      have := h₆ n (hwithin.isZ.2 hn)
      rw [hstep, List.map_congr_left hother] at this
      rw [List.map_cons, List.sum_cons, ← add_assoc]
      exact this

/-- The CNOT gates for rows that are added to another one. -/
def rowGates (t : ℕ × Vertex) (rows : List (ℕ × Vertex)) : List Gate :=
  (rows.map fun p => Gate.plain .cnot [t.1, p.1]).reverse

theorem rowGates_cons (t p : ℕ × Vertex) (rest : List (ℕ × Vertex)) :
    rowGates t (p :: rest) = rowGates t rest ++ [.plain .cnot [t.1, p.1]] :=
  List.reverse_cons

/-- Adding rows joins the spiders of the frontier to those next to the frontier only. -/
theorem Separate.nearby_addRows (hw : w.InForm) (h : w.Separate frontier) {t : ℕ × Vertex}
    (ht : t ∈ frontier) {rows : List (ℕ × Vertex)} (hrows : ∀ p ∈ rows, p ∈ frontier)
    (hnot : t ∉ rows) {p : ℕ × Vertex} (hp : p ∈ frontier)
    (hn : n ∈ (w.addRows t.2 rows).nearby p.2) :
    n ∈ w.nearby p.2 ∨ ∃ p' ∈ rows, n ∈ w.reach p'.2 := by
  obtain ⟨hform, -, -, -, hcount, -⟩ := h.addRows hw ht hrows hnot
  rw [hform.simple.valid.mem_nearby, joins_pos_iff] at hn
  obtain ⟨k, hk⟩ := hn
  by_cases hc : (w.addRows t.2 rows).count p.2 n k = w.count p.2 n k
  · exact .inl (hw.simple.valid.mem_nearby.2 (joins_pos_iff.2 ⟨k, hc ▸ hk⟩))
  · obtain ⟨p', hp', n', hn', hpair⟩ := hcount _ _ k hc
    rcases hpair with ⟨-, rfl⟩ | ⟨he, -⟩
    · exact .inr ⟨p', hp', hn'⟩
    · exact absurd (he ▸ hn') (h.notMem_reach (hrows p' hp') hp)

/-- Adding rows leaves a frontier open. -/
theorem Open.addRows (hw : w.InForm) (h : w.Open frontier) {t : ℕ × Vertex} (ht : t ∈ frontier)
    {rows : List (ℕ × Vertex)} (hrows : ∀ p ∈ rows, p ∈ frontier) (hnot : t ∉ rows) :
    (w.addRows t.2 rows).Open frontier := by
  obtain ⟨-, hsep, hwithin, -⟩ := h.toSeparate.addRows hw ht hrows hnot
  refine ⟨hsep, fun p hp n hn hno => hwithin.isZ.2 ?_⟩
  rcases h.toSeparate.nearby_addRows hw ht hrows hnot hp hn with hold | ⟨p', -, hn⟩
  · exact h.inside p hp n hold (by rwa [output, hwithin.outputs] at hno)
  · exact isZ_reach n hn

section

variable (hw : w.InForm) (h : w.Open frontier) {t : ℕ × Vertex} (ht : t ∈ frontier)
  {rows : List (ℕ × Vertex)} (hrows : ∀ p ∈ rows, p ∈ frontier) (hnot : t ∉ rows)
include hw h ht hrows hnot

/-- Adding rows takes off a CNOT gate for each. -/
theorem Open.peels_addRows {gadgets : Prop} {w₀ : Web} {gates : List Gate}
    (hpeels : w₀.Peels gadgets w gates) :
    w₀.Peels gadgets (w.addRows t.2 rows) (rowGates t rows ++ gates) := by
  induction rows generalizing w gates with
  | nil => exact hpeels
  | cons p rest ih =>
    have hp := hrows p List.mem_cons_self
    have hone : ∀ x ∈ [p], x ∈ frontier := fun x hx => List.mem_singleton.1 hx ▸ hp
    rw [List.mem_cons, not_or] at hnot
    have hpt : p ≠ t := Ne.symm hnot.1
    have hat := h.atOutput p hp
    have hat' := h.atOutput t ht
    have hpeel : Peel w (w.toggleAll t.2 (w.reach p.2)) [.plain .cnot [t.1, p.1]] :=
      h.reach_eq hw hp ▸ .add (getElem?_outputs hat.lt) (getElem?_outputs hat'.lt) hat.isZ hat'.isZ
        hat.wired hat'.wired (h.spider_ne hp ht hpt) hat.phase (h.inside p hp)
    have := ih (h.inForm_toggleAll hw ht) (h.addRows hw ht hone (by simpa using hnot.1))
      (fun x hx => hrows x (List.mem_cons_of_mem p hx)) hnot.2 (hpeels.tail hpeel)
    rw [rowGates_cons, List.append_assoc]
    exact this

end

/-! ### The matrix of the frontier -/

/-- The Z spiders next to a frontier, in ascending order. -/
def inward (w : Web) (frontier : List (ℕ × Vertex)) : List Vertex :=
  Multigraph.ascending ((frontier.map fun p => w.nearby p.2).flatten.filter fun n => w.IsZ n)

/-- The edges between a frontier and the given spiders. -/
def edgeMatrix (w : Web) (frontier : List (ℕ × Vertex)) (ns : List Vertex) : BitMatrix :=
  ⟨frontier.map fun p => ns.map fun n => (decide (0 < w.joins p.2 n)).toNat⟩

theorem mem_inward : n ∈ w.inward frontier ↔ (∃ p ∈ frontier, n ∈ w.nearby p.2) ∧ w.IsZ n := by
  rw [inward, Multigraph.mem_ascending, List.mem_filter, List.mem_flatten]
  simp

theorem rect_edgeMatrix : (w.edgeMatrix frontier ns).Rect frontier.length ns.length where
  height := List.length_map ..
  length r hr := by
    obtain ⟨p, -, rfl⟩ := List.mem_map.1 hr
    exact List.length_map ..
  bits r hr x hx := by
    obtain ⟨p, -, rfl⟩ := List.mem_map.1 hr
    obtain ⟨n, -, rfl⟩ := List.mem_map.1 hx
    exact Bool.toNat_le _

theorem Simple.value_edgeMatrix (hw : w.Simple) {i j : ℕ} {p : ℕ × Vertex}
    (hp : frontier[i]? = some p) (hn : ns[j]? = some n) :
    (w.edgeMatrix frontier ns).value i j = w.edge p.2 n := by
  rw [BitMatrix.value, BitMatrix.bitAt, edgeMatrix]
  simp only [List.getElem?_map, hp, hn, Option.map_some, Option.getD_some]
  rw [hw.edge_eq]
  by_cases h : 0 < w.joins p.2 n <;> simp [h]

/-- A row with a single one is that of a spider with a single neighbour inside. -/
theorem Simple.reach_eq_singleton (hw : w.Simple) {c : ℕ} (hc : c < ns.length)
    (hmem : ∀ n ∈ w.reach v, n ∈ ns) (hz : ∀ n ∈ ns, w.IsZ n)
    (hv : ∀ j n, ns[j]? = some n → w.edge v n = if j = c then 1 else 0) :
    w.reach v = [ns[c]] := by
  have hn := List.getElem?_eq_getElem hc
  have hone {j : ℕ} {n : Vertex} (hj : ns[j]? = some n) : n ∈ w.nearby v ↔ j = c := by
    have := hv j n hj
    rw [hw.edge_eq] at this
    rw [hw.valid.mem_nearby]
    by_cases hjc : j = c
    · rw [if_pos hjc] at this
      refine iff_of_true ?_ hjc
      by_contra hpos
      rw [if_neg hpos] at this
      exact zero_ne_one this
    · rw [if_neg hjc] at this
      refine iff_of_false (fun hpos => ?_) hjc
      rw [if_pos hpos] at this
      exact one_ne_zero this
  have hperm : (w.reach v).Perm [ns[c]] := by
    rw [List.perm_ext_iff_of_nodup nodup_reach (List.nodup_singleton _)]
    refine fun x => ⟨fun hx => ?_, fun hx => ?_⟩
    · obtain ⟨j, hj⟩ := List.getElem?_of_mem (hmem x hx)
      have hjc := (hone hj).1 (mem_reach.1 hx).1
      subst hjc
      exact List.mem_singleton.2 (Option.some.inj (hj.symm.trans hn))
    · rw [List.mem_singleton.1 hx]
      exact mem_reach.2 ⟨(hone hn).2 rfl, hz _ (List.getElem_mem hc)⟩
  exact List.perm_singleton.1 hperm

/-- A spider of an open frontier with a single neighbour inside acts as a wire. -/
theorem Open.length_nearby (hw : w.InForm) (h : w.Open frontier) {p : ℕ × Vertex}
    (hp : p ∈ frontier) (hr : w.reach p.2 = [n]) : (w.nearby p.2).length = 2 := by
  have hat := h.atOutput p hp
  have hnz : n ∈ w.nearby p.2 ∧ w.IsZ n := mem_reach.1 (hr ▸ List.mem_singleton_self n)
  have hne : n ≠ w.output p.1 := fun he => hnz.2.not_isEnd (he ▸ hw.isEnd_output' hat.lt)
  have hperm : (w.nearby p.2).Perm [w.output p.1, n] := by
    rw [List.perm_ext_iff_of_nodup nodup_nearby (by simpa using hne.symm)]
    refine fun x => ⟨fun hx => ?_, fun hx => ?_⟩
    · by_cases hxo : x = w.output p.1
      · simp [hxo]
      · have : x ∈ w.reach p.2 := mem_reach.2 ⟨hx, h.inside p hp x hx hxo⟩
        rw [hr, List.mem_singleton] at this
        simp [this]
    · rcases List.mem_cons.1 hx with rfl | hx
      · exact hw.simple.valid.mem_nearby_of_link hat.wired
      · exact List.mem_singleton.1 hx ▸ hnz.1
  exact hperm.length_eq

end Web

/-! ### Writing a matrix back -/

namespace Extraction.State

open Web (Peel Peels)

variable {w T : Web} {s : State} {gadgets : Prop} {g : GraphLike} {v n : Vertex}
  {frontier : List (ℕ × Vertex)} {ns : List Vertex} {pending : List (Vertex × Vertex)}

/-- A web that is another one but for the edges between pairs that are pending. -/
structure Nearing (T w : Web) (pending : List (Vertex × Vertex)) : Prop where
  form : w.InForm
  next : w.next = T.next
  kind : w.kind = T.kind
  phase : w.phase = T.phase
  inputs : w.inputs = T.inputs
  outputs : w.outputs = T.outputs
  carrier : w.carrier = T.carrier
  count : ∀ a b k, w.count a b k ≠ T.count a b k → ∃ c ∈ pending, SamePair a b c.1 c.2

theorem Nearing.eq (h : Nearing T w []) : w = T :=
  Web.ext h.next h.kind h.phase (funext fun a => funext fun b => funext fun k => by
    by_contra hne
    obtain ⟨c, hc, -⟩ := h.count a b k hne
    exact absurd hc List.not_mem_nil) h.inputs h.outputs h.carrier

/-- Giving two spiders the edge that they have in `T`. -/
theorem Nearing.setEntry (hg : g.Coherent) (hT : T.Simple) (hv : T.IsZ v) (hn : T.IsZ n)
    (hvn : v ≠ n) (h : Nearing T g.web ((v, n) :: pending)) :
    ∃ g', State.setEntry v g (n, (decide (0 < T.joins v n)).toNat) = .ok g' ∧ g'.Coherent ∧
      Nearing T g'.web pending := by
  have hval := h.form.simple.valid
  have hv' : g.web.IsZ v := by rwa [Web.IsZ, h.kind]
  have hn' : g.web.IsZ n := by rwa [Web.IsZ, h.kind]
  have hread : g.connected v n = .ok (decide (0 < g.web.joins v n)) :=
    Diagram.connected_eq hg hv'.has
  -- whatever is edited, the other pairs stay and this one is as it should be
  have hdone {x : Web} (hx : x.InForm) (hnext : x.next = g.web.next) (hkind : x.kind = g.web.kind)
      (hphase : x.phase = g.web.phase) (hin : x.inputs = g.web.inputs)
      (hout : x.outputs = g.web.outputs) (hcar : x.carrier = g.web.carrier)
      (hjoins : x.joins v n = T.joins v n)
      (hoff : ∀ a b k, ¬SamePair a b v n → x.count a b k = g.web.count a b k) :
      Nearing T x pending := by
    refine ⟨hx, hnext.trans h.next, hkind.trans h.kind, hphase.trans h.phase, hin.trans h.inputs,
      hout.trans h.outputs, hcar.trans h.carrier, fun a b k hne => ?_⟩
    have hxv : x.IsZ v := by rwa [Web.IsZ, hkind]
    have hxn : x.IsZ n := by rwa [Web.IsZ, hkind]
    have hsame (k : EdgeKind) : x.count v n k = T.count v n k := by
      cases k with
      | plain => rw [hx.simple.plain v n hxv hxn, hT.plain v n hv hn]
      | hadamard => rw [hx.simple.hadamard_eq hxv hxn, hT.hadamard_eq hv hn, hjoins]
    by_cases hab : SamePair a b v n
    · refine absurd ?_ hne
      rcases hab with ⟨rfl, rfl⟩ | ⟨rfl, rfl⟩
      · exact hsame k
      · rw [hx.simple.valid.symm, hT.valid.symm, hsame]
    · obtain ⟨c, hc, hs⟩ := h.count a b k (hoff a b k hab ▸ hne)
      rcases List.mem_cons.1 hc with rfl | hc
      · exact absurd hs hab
      · exact ⟨c, hc, hs⟩
  have hself : SamePair v n v n := .inl ⟨rfl, rfl⟩
  have hone := hT.single v n
  have hone' := h.form.simple.single v n
  by_cases ht : 0 < T.joins v n
  · by_cases hj : 0 < g.web.joins v n
    · refine ⟨g, by simp [State.setEntry, hread, ht, hj]; rfl, hg, hdone h.form rfl rfl rfl rfl rfl rfl
        (by omega) fun _ _ _ _ => rfl⟩
    · have hzero : g.web.joins v n = 0 := by omega
      obtain ⟨g', hok, hco, hweb, -⟩ := GraphLike.Gives.addEdge hg hv'.has hn'.has hvn .hadamard
      refine ⟨g', by simp [State.setEntry, hread, ht, hj, hok]; rfl, hco, ?_⟩
      rw [hweb]
      refine hdone (h.form.addEdge hv' hn' hvn hzero) rfl rfl rfl rfl rfl rfl ?_ fun a b k hab => ?_
      · rw [Web.joins] at hzero
        rw [Web.joins, Web.count_addEdges, Web.count_addEdges, if_pos hself, if_pos hself]
        simp
        omega
      · rw [Web.count_addEdges, if_neg hab]
  · by_cases hj : 0 < g.web.joins v n
    · obtain ⟨g', hok, hco, hweb, -⟩ := GraphLike.Gives.removeEdge hg hv'.has n
      refine ⟨g', by simp [State.setEntry, hread, ht, hj, hok]; rfl, hco, ?_⟩
      rw [hweb]
      refine hdone (h.form.setCount hv' hn' hvn rfl (Nat.zero_le 1)) rfl rfl rfl rfl rfl rfl ?_
        fun a b k hab => ?_
      · rw [Web.joins, Web.count_cut, Web.count_cut, if_pos hself, if_pos hself]
        omega
      · rw [Web.count_cut, if_neg hab]
    · refine ⟨g, by simp [State.setEntry, hread, ht, hj]; rfl, hg, hdone h.form rfl rfl rfl rfl rfl rfl
        (by omega) fun _ _ _ _ => rfl⟩

/-- Writing back one row. -/
theorem Nearing.setRow (hg : g.Coherent) (hT : T.Simple) (hv : T.IsZ v) {ns : List Vertex}
    (hns : ∀ n ∈ ns, T.IsZ n ∧ v ≠ n) (h : Nearing T g.web (ns.map (fun n => (v, n)) ++ pending)) :
    ∃ g', (ns.zip (ns.map fun n => (decide (0 < T.joins v n)).toNat)).foldlM (State.setEntry v) g =
      .ok g' ∧ g'.Coherent ∧ Nearing T g'.web pending := by
  induction ns generalizing g with
  | nil => exact ⟨g, rfl, hg, h⟩
  | cons n rest ih =>
    obtain ⟨hn, hvn⟩ := hns n List.mem_cons_self
    obtain ⟨g₁, hok₁, hg₁, h₁⟩ := Nearing.setEntry hg hT hv hn hvn h
    obtain ⟨g₂, hok₂, hg₂, h₂⟩ := ih hg₁ (fun m hm => hns m (List.mem_cons_of_mem n hm)) h₁
    refine ⟨g₂, ?_, hg₂, h₂⟩
    rw [List.map_cons, List.zip_cons_cons, List.foldlM_cons, hok₁]
    exact hok₂

/-- Writing the matrix of a web back gives that web, if it is another one but for edges between the
    frontier and the given spiders. -/
theorem exists_setMatrix (T : Web) (ns : List Vertex) (hg : s.graph.Coherent) (hT : T.Simple)
    (hfrontier : ∀ p ∈ s.frontier, T.IsZ p.2 ∧ ∀ n ∈ ns, T.IsZ n ∧ p.2 ≠ n)
    (h : Nearing T s.web (s.frontier.flatMap fun p => ns.map fun n => (p.2, n))) :
    ∃ g, s.setMatrix ns (T.edgeMatrix s.frontier ns) = .ok { s with graph := g } ∧ g.Coherent ∧
      g.web = T := by
  suffices hloop : ∀ (l : List (ℕ × Vertex)) (g : GraphLike), g.Coherent →
      (∀ p ∈ l, T.IsZ p.2 ∧ ∀ n ∈ ns, T.IsZ n ∧ p.2 ≠ n) →
      Nearing T g.web (l.flatMap fun p => ns.map fun n => (p.2, n)) →
      ∃ g', (l.zip (T.edgeMatrix l ns).rows).foldlM
        (fun g x => (ns.zip x.2).foldlM (State.setEntry x.1.2) g) g = .ok g' ∧
          g'.Coherent ∧ Nearing T g'.web [] by
    obtain ⟨g, hok, hco, hnear⟩ := hloop s.frontier s.graph hg hfrontier h
    refine ⟨g, ?_, hco, hnear.eq⟩
    rw [State.setMatrix]
    exact congrArg (· >>= fun graph => .ok { s with graph }) hok
  intro l
  induction l with
  | nil => exact fun g hg _ h => ⟨g, rfl, hg, h⟩
  | cons p rest ih =>
    intro g hg hl h
    obtain ⟨hv, hns⟩ := hl p List.mem_cons_self
    rw [List.flatMap_cons] at h
    obtain ⟨g₁, hok₁, hg₁, h₁⟩ := Nearing.setRow hg hT hv hns h
    obtain ⟨g₂, hok₂, hg₂, h₂⟩ := ih g₁ hg₁ (fun x hx => hl x (List.mem_cons_of_mem p hx)) h₁
    refine ⟨g₂, ?_, hg₂, h₂⟩
    rw [Web.edgeMatrix, List.map_cons, List.zip_cons_cons, List.foldlM_cons]
    change ((ns.zip (ns.map fun n => (decide (0 < T.joins p.2 n)).toNat)).foldlM
      (State.setEntry p.2) g >>= _) = _
    rw [hok₁]
    exact hok₂

/-! ### The sum that is made -/

/-- A sum of different rows of a matrix that has a single one. -/
structure UnitSum.Sums (m : BitMatrix) (h w : ℕ) (u : UnitSum) : Prop where
  ascending : u.rows.Pairwise (· < ·)
  lt : ∀ i ∈ u.rows, i < h
  unit : ∃ c < w, ∀ j, (u.rows.map fun i => m.value i j).sum = if j = c then 1 else 0

/-- Elimination finds sums of rows with a single one, and some if there is any. -/
theorem exists_unitSums {m : BitMatrix} {k : ℕ} (hm : m.Rect s.frontier.length k) :
    ∃ sums, s.unitSums m = .ok sums ∧
      (∀ u ∈ sums, u.Sums m s.frontier.length k) ∧
      ∀ c, (fun j => if j = c then (1 : ZMod 2) else 0) ∈ m.rowSpan s.frontier.length →
        sums ≠ [] := by
  obtain ⟨e, hok, he⟩ := Elimination.exists_run hm
  have hall : ∀ a ∈ e.additions, a.source < s.frontier.length ∧ a.target < s.frontier.length :=
    fun a ha => ⟨(he.within a ha).1, (he.within a ha).2.1⟩
  obtain ⟨made, hmade, hrect, -⟩ :=
    RowAddition.exists_applyAll (BitMatrix.rect_identity s.frontier.length) hall
  have hrun : s.unitSums m = .ok (((s.frontier.zip (e.matrix.rows.zip made.rows)).filter
      fun x => x.2.1.countP (· != 0) == 1).map fun x => ⟨BitMatrix.ones x.2.2, x.1.2⟩) := by
    rw [State.unitSums, hok]
    change (RowAddition.applyAll e.additions (.identity m.rows.length) >>= _) = _
    rw [hm.height, hmade]
    rfl
  refine ⟨_, hrun, fun u hu => ?_, fun c hc => ?_⟩
  · obtain ⟨x, hx, rfl⟩ := List.mem_map.1 hu
    obtain ⟨hmem, hcount⟩ := List.mem_filter.1 hx
    obtain ⟨i, hi, rfl⟩ := List.mem_iff_getElem.1 hmem
    simp only [List.length_zip, he.rect.height, hrect.height, min_self] at hi
    have hi₁ : i < e.matrix.rows.length := by rwa [he.rect.height]
    have hi₂ : i < made.rows.length := by rwa [hrect.height]
    simp only [List.getElem_zip] at hcount ⊢
    have hlen := hrect.length _ (List.getElem_mem hi₂)
    refine ⟨BitMatrix.pairwise_ones, fun j hj => hlen ▸ BitMatrix.lt_of_mem_ones hj, ?_⟩
    obtain ⟨c, hc, hv⟩ := (BitMatrix.countP_eq_one_iff
      (he.rect.bits _ (List.getElem_mem hi₁))).1 (by simpa using hcount)
    rw [he.rect.length _ (List.getElem_mem hi₁)] at hc
    refine ⟨c, hc, fun j => ?_⟩
    rw [he.sum_ones hm hrect hmade (List.getElem?_eq_getElem hi₂), BitMatrix.value,
      List.getElem?_eq_getElem hi₁, Option.getD_some, hv]
  · obtain ⟨i, hi, hv⟩ := he.exists_unit_row hm hc
    have hi₁ : i < e.matrix.rows.length := by rwa [he.rect.height]
    have hi₂ : i < made.rows.length := by rwa [hrect.height]
    have hcw : c < k := by
      by_contra hcw
      have := hv c
      rw [he.rect.value_eq_zero (by omega), if_pos rfl] at this
      exact zero_ne_one this
    refine List.ne_nil_of_mem (List.mem_map_of_mem (List.mem_filter.2
      ⟨List.mem_iff_getElem.2 ⟨i, ?_, List.getElem_zip ..⟩, ?_⟩))
    · simp only [List.length_zip, he.rect.height, hrect.height, min_self]
      exact hi
    · simp only [List.getElem_zip, beq_iff_eq]
      refine (BitMatrix.countP_eq_one_iff (he.rect.bits _ (List.getElem_mem hi₁))).2
        ⟨c, by rw [he.rect.length _ (List.getElem_mem hi₁)]; exact hcw, fun j => ?_⟩
      rw [← hv j, BitMatrix.value, List.getElem?_eq_getElem hi₁, Option.getD_some]

theorem mem_of_bestSum? {sums : List UnitSum} {u : UnitSum} (h : bestSum? sums = some u) :
    u ∈ sums := by
  cases sums with
  | nil => simp [bestSum?] at h
  | cons a rest =>
    obtain rfl := Option.some.inj h
    suffices hfold : ∀ (l : List UnitSum) (a : UnitSum),
        l.foldl (fun best b => if b.better best then b else best) a ∈ a :: l from hfold rest a
    intro l
    induction l with
    | nil => simp
    | cons b l ih =>
      intro a
      rw [List.foldl_cons]
      have := ih (if b.better a then b else a)
      rcases List.mem_cons.1 this with h | h
      · rw [h]
        split <;> simp
      · exact List.mem_cons_of_mem _ (List.mem_cons_of_mem _ h)

/-! ### A step of elimination -/

theorem foldl_emit (gates : List Gate) (s : State) : gates.foldl emit s =
    { s with circuit := { s.circuit with gates := gates.reverse ++ s.circuit.gates } } := by
  induction gates generalizing s with
  | nil => rfl
  | cons g rest ih =>
    rw [List.foldl_cons, ih, List.reverse_cons, List.append_assoc]
    rfl

/-- Adding several rows to another one. -/
theorem foldl_addTo {f : ℕ → ℕ → ZMod 2} {target : ℕ} {sources : List ℕ} (hnot : target ∉ sources)
    (i j : ℕ) : (sources.map fun source => (⟨source, target⟩ : RowAddition)).foldl
      RowAddition.addTo f i j =
        if i = target then f target j + (sources.map fun k => f k j).sum else f i j := by
  induction sources generalizing f with
  | nil => by_cases h : i = target <;> simp [h]
  | cons k rest ih =>
    rw [List.mem_cons, not_or] at hnot
    have hrest : rest.map (fun l => RowAddition.addTo f ⟨k, target⟩ l j) =
        rest.map fun l => f l j := List.map_congr_left fun l hl => by
      have : l ≠ target := fun he => hnot.2 (he ▸ hl)
      simp [RowAddition.addTo, this]
    rw [List.map_cons, List.foldl_cons, ih hnot.2, hrest]
    by_cases h : i = target
    · simp [h, RowAddition.addTo, add_assoc]
    · simp [h, RowAddition.addTo]

/-- A spider of the frontier by its row. -/
def rowSpider (s : State) (i : ℕ) : ℕ × Vertex := (s.frontier[i]?).getD (0, 0)

theorem getElem?_frontier {i : ℕ} (hi : i < s.frontier.length) :
    s.frontier[i]? = some (s.rowSpider i) := by
  rw [rowSpider, List.getElem?_eq_getElem hi]
  rfl

theorem rowSpider_mem {i : ℕ} (hi : i < s.frontier.length) : s.rowSpider i ∈ s.frontier :=
  List.mem_of_getElem? (getElem?_frontier hi)

theorem frontierNeighbors_eq (hg : s.graph.Coherent) (hl : s.web.Lined s.frontier) :
    s.frontierNeighbors = .ok (s.web.inward s.frontier) := by
  have hnear : s.frontier.mapM (fun (p : ℕ × Vertex) => s.graph.neighborSet p.2) =
      .ok (s.frontier.map fun p => s.web.nearby p.2) :=
    mapM_eq fun p hp => GraphLike.neighborSet_eq hg (hl.atOutput p hp).isZ.has
  have hfilter : (s.frontier.map fun p => s.web.nearby p.2).flatten.filterM s.graph.isZ =
      .ok ((s.frontier.map fun p => s.web.nearby p.2).flatten.filter fun n => s.web.IsZ n) :=
    filterM_eq fun n hn => by
      obtain ⟨l, hl, hn⟩ := List.mem_flatten.1 hn
      obtain ⟨p, -, rfl⟩ := List.mem_map.1 hl
      exact GraphLike.isZ_eq (hg.valid.has_of_mem_nearby hn)
  rw [State.frontierNeighbors]
  change (s.frontier.mapM (fun (p : ℕ × Vertex) => s.graph.neighborSet p.2) >>= _) = _
  rw [hnear]
  change (Multigraph.ascending <$> ((s.frontier.map fun p => s.web.nearby p.2).flatten.filterM
    s.graph.isZ : Except Fault (List Vertex))) = _
  rw [hfilter]
  rfl

theorem frontierMatrix_eq (hg : s.graph.Coherent) (hl : s.web.Lined s.frontier)
    (ns : List Vertex) : s.frontierMatrix ns = .ok (s.web.edgeMatrix s.frontier ns) := by
  have hrows : s.frontier.mapM (fun (p : ℕ × Vertex) => ns.mapM fun n =>
      (do return (← s.graph.connected p.2 n).toNat : Except Fault ℕ)) =
      .ok (s.frontier.map fun p => ns.map fun n => (decide (0 < s.web.joins p.2 n)).toNat) :=
    mapM_eq fun p hp => mapM_eq fun n _ => by
      rw [show s.graph.toDiagram.connected p.2 n = _ from
        Diagram.connected_eq hg (hl.atOutput p hp).isZ.has]
      rfl
  rw [State.frontierMatrix]
  change (s.frontier.mapM (fun (p : ℕ × Vertex) => ns.mapM fun n =>
      (do return (← s.graph.connected p.2 n).toNat : Except Fault ℕ)) >>= _) = _
  rw [hrows]
  rfl

/-- What adding rows of the frontier to another one of its rows makes of an extraction. -/
structure Added (s s' : State) (t : ℕ × Vertex) (rows : List (ℕ × Vertex)) : Prop where
  coherent : s'.graph.Coherent
  web : s'.web = s.web.addRows t.2 rows
  circuit : s'.circuit = { s.circuit with gates := Web.rowGates t rows ++ s.circuit.gates }
  frontier : s'.frontier = s.frontier

section

variable (hg : s.graph.Coherent) (hw : s.web.InForm) (h : s.web.Separate s.frontier)
include hg hw h

omit hg hw h in
theorem mem_of_mem_rows {sources : List ℕ} (hsources : ∀ i ∈ sources, i < s.frontier.length) :
    ∀ p ∈ sources.map s.rowSpider, p ∈ s.frontier := fun p hp => by
  obtain ⟨i, hi, rfl⟩ := List.mem_map.1 hp
  exact rowSpider_mem (hsources i hi)

omit hg hw in
theorem rowSpider_inj {i j : ℕ} (hi : i < s.frontier.length) (hj : j < s.frontier.length)
    (he : s.rowSpider i = s.rowSpider j) : i = j :=
  (List.getElem?_inj hi (List.Nodup.of_map _ h.nodup)).1 (by
    rw [getElem?_frontier hi, getElem?_frontier hj, he])

omit hg hw in
/-- Different rows are those of different spiders. -/
theorem rowSpider_notMem {target : ℕ} {sources : List ℕ} (ht : target < s.frontier.length)
    (hsources : ∀ i ∈ sources, i < s.frontier.length) (hnot : target ∉ sources) :
    s.rowSpider target ∉ sources.map s.rowSpider := fun hm => by
  obtain ⟨i, hi, he⟩ := List.mem_map.1 hm
  exact hnot (rowSpider_inj h (hsources i hi) ht he ▸ hi)

omit hg in
/-- The matrix of the diagram with the sum of the edges is that with the sum of the rows. -/
theorem value_edgeMatrix_addRows {target i j : ℕ} {sources : List ℕ}
    (ht : target < s.frontier.length) (hsources : ∀ i ∈ sources, i < s.frontier.length)
    (hnot : target ∉ sources) (hi : i < s.frontier.length)
    (hj : j < (s.web.inward s.frontier).length) :
    ((s.web.addRows (s.rowSpider target).2 (sources.map s.rowSpider)).edgeMatrix s.frontier
      (s.web.inward s.frontier)).value i j =
      if i = target then
        (s.web.edgeMatrix s.frontier (s.web.inward s.frontier)).value target j +
          (sources.map fun k =>
            (s.web.edgeMatrix s.frontier (s.web.inward s.frontier)).value k j).sum
      else (s.web.edgeMatrix s.frontier (s.web.inward s.frontier)).value i j := by
  set ns := s.web.inward s.frontier
  set T := s.web.addRows (s.rowSpider target).2 (sources.map s.rowSpider)
  have htmem : s.rowSpider target ∈ s.frontier := rowSpider_mem ht
  have hrows := mem_of_mem_rows hsources
  obtain ⟨hform, -, -, -, hcount, hedge⟩ :=
    h.addRows hw htmem hrows (rowSpider_notMem h ht hsources hnot)
  have hn := List.getElem?_eq_getElem hj
  have hvalue {i : ℕ} (hi : i < s.frontier.length) :
      (s.web.edgeMatrix s.frontier ns).value i j = s.web.edge (s.rowSpider i).2 ns[j] :=
    hw.simple.value_edgeMatrix (getElem?_frontier hi) hn
  rw [hform.simple.value_edgeMatrix (getElem?_frontier hi) hn]
  split
  · next hit =>
    rw [hit, hedge _ (Web.mem_inward.1 (List.getElem_mem hj)).2, hvalue ht,
      List.map_congr_left fun k hk => hvalue (hsources k hk), List.map_map]
    rfl
  · next hit =>
    have hne : s.rowSpider i ≠ s.rowSpider target := fun he =>
      hit (rowSpider_inj h hi ht he)
    have hsame (k : EdgeKind) : T.count (s.rowSpider i).2 ns[j] k =
        s.web.count (s.rowSpider i).2 ns[j] k := by
      by_contra hc
      obtain ⟨p, hp, n, hn, hpair⟩ := hcount _ _ k hc
      rcases hpair with ⟨he, -⟩ | ⟨he, -⟩
      · exact h.spider_ne (rowSpider_mem hi) htmem hne he
      · exact h.notMem_reach (hrows p hp) (rowSpider_mem hi) (he ▸ hn)
    rw [hvalue hi, Web.edge, Web.edge, Web.joins, Web.joins, hsame, hsame]

/-- Adding rows of the frontier to another one of its rows. -/
theorem exists_addFrontierRows {target : ℕ} {sources : List ℕ} (ht : target < s.frontier.length)
    (hsources : ∀ i ∈ sources, i < s.frontier.length) (hnot : target ∉ sources) :
    ∃ s', s.addFrontierRows (s.web.inward s.frontier)
        (s.web.edgeMatrix s.frontier (s.web.inward s.frontier)) target sources = .ok s' ∧
      s.Added s' (s.rowSpider target) (sources.map s.rowSpider) := by
  set ns := s.web.inward s.frontier with hns
  set t := s.rowSpider target
  set rows := sources.map s.rowSpider
  have htmem : t ∈ s.frontier := rowSpider_mem ht
  have hrows : ∀ p ∈ rows, p ∈ s.frontier := mem_of_mem_rows hsources
  obtain ⟨hform, -, hwithin, hphase, hcount, -⟩ :=
    h.addRows hw htmem hrows (rowSpider_notMem h ht hsources hnot)
  set T := s.web.addRows t.2 rows
  have hnsz : ∀ n ∈ ns, s.web.IsZ n := fun n hn => (Web.mem_inward.1 hn).2
  have hsep : ∀ p ∈ s.frontier, ∀ n ∈ ns, p.2 ≠ n := fun p hp n hn he => by
    obtain ⟨⟨x, hx, hnx⟩, -⟩ := Web.mem_inward.1 hn
    exact h.apart x hx p hp (he ▸ hnx)
  have hrect : (s.web.edgeMatrix s.frontier ns).Rect s.frontier.length ns.length :=
    Web.rect_edgeMatrix
  obtain ⟨sum, hsum, hsumrect, hsumv⟩ := RowAddition.exists_applyAll hrect
    (l := sources.map fun source => (⟨source, target⟩ : RowAddition)) fun a ha => by
      obtain ⟨i, hi, rfl⟩ := List.mem_map.1 ha
      exact ⟨hsources i hi, ht⟩
  -- the sum of the rows is the matrix of the diagram with the sum of the edges
  have hmatrix : sum = T.edgeMatrix s.frontier ns :=
    hsumrect.ext Web.rect_edgeMatrix fun i hi j hj => by
      rw [hsumv, foldl_addTo hnot, value_edgeMatrix_addRows hw h ht hsources hnot hi hj]
  have hgate : ∀ a ∈ sources.map fun source => (⟨source, target⟩ : RowAddition),
      s.frontier[a.target]? = some (s.rowSpider a.target) ∧
        s.frontier[a.source]? = some (s.rowSpider a.source) := by
    intro a ha
    obtain ⟨i, hi, rfl⟩ := List.mem_map.1 ha
    exact ⟨getElem?_frontier ht, getElem?_frontier (hsources i hi)⟩
  set gates := rows.map fun p => Gate.plain .cnot [t.1, p.1]
  obtain ⟨g, hok, hco, hweb⟩ := exists_setMatrix
    (s := { s with circuit := { s.circuit with gates := gates.reverse ++ s.circuit.gates } })
    T ns hg hform.simple
    (fun p hp => ⟨hwithin.isZ.2 (h.atOutput p hp).isZ, fun n hn =>
      ⟨hwithin.isZ.2 (hnsz n hn), hsep p hp n hn⟩⟩)
    ⟨hw, hwithin.next.symm, hwithin.kind.symm, hphase.symm, hwithin.inputs.symm,
      hwithin.outputs.symm, hwithin.carrier.symm, fun a b k hne => by
        obtain ⟨p, hp, n, hn, hpair⟩ := hcount a b k (Ne.symm hne)
        refine ⟨(t.2, n), List.mem_flatMap.2 ⟨t, htmem, List.mem_map.2 ⟨n, ?_, rfl⟩⟩, hpair⟩
        exact Web.mem_inward.2 ⟨⟨p, hrows p hp, (Web.mem_reach.1 hn).1⟩, Web.isZ_reach n hn⟩⟩
  refine ⟨{ s with
      graph := g, circuit := { s.circuit with gates := gates.reverse ++ s.circuit.gates } },
    ?_, hco, hweb, rfl, rfl⟩
  rw [State.addFrontierRows, hsum]
  refine Eq.trans (b := (gates.foldl emit s).setMatrix ns sum) ?_ ?_
  · have hmap : (sources.map fun source => (⟨source, target⟩ : RowAddition)).map (fun a =>
        Gate.plain .cnot [(s.rowSpider a.target).1, (s.rowSpider a.source).1]) = gates := by
      simp only [gates, rows, List.map_map]
      rfl
    rw [← hmap]
    refine congrArg (· >>= fun (gates : List Gate) => (gates.foldl emit s).setMatrix ns sum)
      (mapM_eq fun a ha => ?_)
    rw [(hgate a ha).1, (hgate a ha).2]
    rfl
  · rw [foldl_emit, hmatrix]
    exact hok

omit hg in
/-- A row that has a single one after adding rows to it is that of a spider with a single
    neighbour inside. -/
theorem Added.reach_eq {target c : ℕ} {sources : List ℕ} (ht : target < s.frontier.length)
    (hsources : ∀ i ∈ sources, i < s.frontier.length) (hnot : target ∉ sources)
    (hadded : s.Added s' (s.rowSpider target) (sources.map s.rowSpider))
    (hc : c < (s.web.inward s.frontier).length)
    (hunit : ∀ j, ((target :: sources).map fun i =>
      (s.web.edgeMatrix s.frontier (s.web.inward s.frontier)).value i j).sum =
        if j = c then 1 else 0) :
    s'.web.reach (s.rowSpider target).2 = [(s.web.inward s.frontier)[c]] := by
  set ns := s.web.inward s.frontier
  have htmem := rowSpider_mem ht
  have htrows := rowSpider_notMem h ht hsources hnot
  have hrows := mem_of_mem_rows hsources
  have hnsz : ∀ n ∈ ns, s.web.IsZ n := fun n hn => (Web.mem_inward.1 hn).2
  have hentry {i j : ℕ} {n : Vertex} (hi : i < s.frontier.length) (hn : ns[j]? = some n) :
      (s.web.edgeMatrix s.frontier ns).value i j = s.web.edge (s.rowSpider i).2 n :=
    hw.simple.value_edgeMatrix (getElem?_frontier hi) hn
  obtain ⟨hform, -, hwithin, -, -, hedge⟩ := h.addRows hw htmem hrows htrows
  rw [hadded.web]
  refine hform.simple.reach_eq_singleton hc (fun n hn => ?_)
    (fun n hn => hwithin.isZ.2 (hnsz n hn)) fun j n hn => ?_
  · obtain ⟨hn, hz⟩ := Web.mem_reach.1 hn
    rcases h.nearby_addRows hw htmem hrows htrows htmem hn with hold | ⟨p, hp, hn⟩
    · exact Web.mem_inward.2 ⟨⟨_, htmem, hold⟩, hwithin.isZ.1 hz⟩
    · exact Web.mem_inward.2 ⟨⟨p, hrows p hp, (Web.mem_reach.1 hn).1⟩, Web.isZ_reach n hn⟩
  · rw [hedge n (hnsz n (List.mem_of_getElem? hn)), ← hunit j, List.map_cons, List.sum_cons,
      hentry ht hn, List.map_map]
    congr 2
    exact List.map_congr_left fun i hi => (hentry (hsources i hi) hn).symm

/-- A step of elimination leaves everything as it is if no sum of rows has a single one. Otherwise
    it adds rows to a row, which has a single one then. -/
theorem exists_rowStep : ∃ s', s.rowStep = .ok s' ∧
    ((s' = s ∧ ∀ c, (fun j => if j = c then (1 : ZMod 2) else 0) ∉
        (s.web.edgeMatrix s.frontier (s.web.inward s.frontier)).rowSpan s.frontier.length) ∨
      (∃ c, (fun j => if j = c then (1 : ZMod 2) else 0) ∈
        (s.web.edgeMatrix s.frontier (s.web.inward s.frontier)).rowSpan s.frontier.length) ∧
      ∃ t ∈ s.frontier, ∃ rows, (∀ p ∈ rows, p ∈ s.frontier) ∧ t ∉ rows ∧ s.Added s' t rows ∧
        ∃ n, s'.web.reach t.2 = [n]) := by
  set ns := s.web.inward s.frontier with hns
  set m := s.web.edgeMatrix s.frontier ns with hm
  obtain ⟨sums, hsums, hgood, hfound⟩ :=
    exists_unitSums (s := s) (m := m) Web.rect_edgeMatrix
  rw [State.rowStep, frontierNeighbors_eq hg h.toLined]
  dsimp only [bind, Except.bind]
  rw [frontierMatrix_eq hg h.toLined]
  dsimp only
  rw [hsums]
  dsimp only [Except.mapError]
  cases hbest : bestSum? sums with
  | none =>
    refine ⟨s, rfl, .inl ⟨rfl, fun c hc => hfound c hc ?_⟩⟩
    cases sums with
    | nil => rfl
    | cons => simp [bestSum?] at hbest
  | some u =>
    obtain ⟨hasc, hlt, c, hc, hunit⟩ := hgood u (mem_of_bestSum? hbest)
    obtain ⟨rows, spider⟩ := u
    rcases rows with _ | ⟨target, sources⟩
    · -- no rows sum up to nothing
      have := hunit c
      simp at this
    have ht := hlt target List.mem_cons_self
    have hsources : ∀ i ∈ sources, i < s.frontier.length :=
      fun i hi => hlt i (List.mem_cons_of_mem target hi)
    have hnot : target ∉ sources := fun hmem =>
      Nat.lt_irrefl _ ((List.pairwise_cons.1 hasc).1 target hmem)
    have htrows := rowSpider_notMem h ht hsources hnot
    have hrows := mem_of_mem_rows hsources
    have hspan : ∃ c, (fun j => if j = c then (1 : ZMod 2) else 0) ∈ m.rowSpan s.frontier.length :=
      ⟨c, by rw [← funext hunit]; exact BitMatrix.sum_mem_rowSpan hlt⟩
    cases sources with
    | nil =>
      -- a sum of a single row is there already
      have hadded : s.Added s (s.rowSpider target) [] := ⟨hg, rfl, rfl, rfl⟩
      exact ⟨s, rfl, .inr ⟨hspan, _, rowSpider_mem ht, [], hrows, htrows,
        hadded, ns[c], hadded.reach_eq hw h ht hsources hnot hc hunit⟩⟩
    | cons =>
      obtain ⟨s', hok, hadded⟩ := exists_addFrontierRows hg hw h ht hsources hnot
      exact ⟨s', hok, .inr ⟨hspan, _, rowSpider_mem ht, _, hrows, htrows, hadded, ns[c],
        hadded.reach_eq hw h ht hsources hnot hc hunit⟩⟩

end

/-- A step of elimination takes off gates and changes edges of the frontier only. A spider of the
    frontier acts as a wire afterwards, unless no sum of rows has a single one. -/
theorem Reached.rowStep (hw : w.InForm) (h : s.Reached gadgets w) (ho : s.web.Open s.frontier)
    (hne : s.frontier ≠ []) : ∃ s', s.rowStep = .ok s' ∧ s'.Reached gadgets w ∧
      s'.frontier = s.frontier ∧ (∃ t ∈ s.frontier, ∃ rows, (∀ p ∈ rows, p ∈ s.frontier) ∧
        t ∉ rows ∧ s'.web = s.web.addRows t.2 rows) ∧
      ((∃ p ∈ s.frontier, (s'.web.nearby p.2).length = 2) ∨ s' = s ∧
        ∀ c, (fun j => if j = c then (1 : ZMod 2) else 0) ∉
          (s.web.edgeMatrix s.frontier (s.web.inward s.frontier)).rowSpan s.frontier.length) := by
  have hform := (h.keeps hw).form
  obtain ⟨s', hok, ⟨rfl, hnone⟩ | ⟨-, t, ht, rows, hrows, hnot, hadded, n, hn⟩⟩ :=
    exists_rowStep h.coherent hform ho.toSeparate
  · obtain ⟨t, ht⟩ := List.exists_mem_of_ne_nil _ hne
    exact ⟨s', hok, h, rfl,
      ⟨t, ht, [], fun _ hp => absurd hp List.not_mem_nil, List.not_mem_nil, rfl⟩,
      .inr ⟨rfl, hnone⟩⟩
  · obtain ⟨hform', -⟩ := ho.toSeparate.addRows hform ht hrows hnot
    have hopen' := ho.addRows hform ht hrows hnot
    refine ⟨s', hok, ⟨hadded.coherent, ?_, ?_⟩, hadded.frontier,
      ⟨t, ht, rows, hrows, hnot, hadded.web⟩, .inl ⟨t, ht, ?_⟩⟩
    · rw [hadded.web, hadded.circuit]
      exact ho.peels_addRows hform ht hrows hnot h.peels
    · rw [hadded.circuit]
      exact h.qubits
    · rw [hadded.web] at hn ⊢
      exact hopen'.length_nearby hform' ht hn

end Extraction.State

end ZXRewriting
