import ZXRewriting.Diagram.ReadBack
import ZXRewriting.Proofs.Diagram.Stream

/-!
# Reading the diagram of a stream back

The spiders of a diagram with cells are visited cell by cell (`Written.visits`), and of the spiders of a
cell the first is read, with the gate of the whole cell. The front holds the tip of every thread,
from which the thread runs on through the cells to come (`Reads`).
-/

namespace ZXRewriting

open Equiv (Perm)
open Function (update update_self update_of_ne)
open Floating (Double)
open Floating.Number (ofInteger)

/-- The one element that is not left out. -/
theorem filterMap_eq_singleton {α β : Type} {l : List α} {f : α → Option β} {x : α} {y : β}
    (hnd : l.Nodup) (hx : x ∈ l) (hy : f x = some y) (hne : ∀ z ∈ l, z ≠ x → f z = none) :
    l.filterMap f = [y] := by
  obtain ⟨l₁, l₂, rfl⟩ := List.append_of_mem hx
  obtain ⟨-, hnd₂, hdis⟩ := List.nodup_append.1 hnd
  have h₁ : l₁.filterMap f = [] := List.filterMap_eq_nil_iff.2 fun z hz =>
    hne z (List.mem_append_left _ hz) (hdis z hz x List.mem_cons_self)
  have h₂ : l₂.filterMap f = [] := List.filterMap_eq_nil_iff.2 fun z hz =>
    hne z (List.mem_append_right _ (List.mem_cons_of_mem _ hz)) fun he =>
      (List.nodup_cons.1 hnd₂).1 (he ▸ hz)
  rw [List.filterMap_append, h₁, List.filterMap_cons_some hy, h₂]
  rfl

namespace Diagram

variable {d : Diagram} {n : ℕ} {lines : Side → Perm ℕ} {beside : Vertex → List Vertex}
  {cells : List (ℤ × Cell)} {first last : ℤ} {front : VertexMap ℕ} {tip : ℕ → Vertex}
  {start : Perm ℕ} {q : ℕ} {u v : Vertex} {us : List Vertex}

/-! ### The order of visits -/

theorem columnOrder_iff {a b : Double × Vertex} : columnOrder a b = true ↔
    a.1.totalKey < b.1.totalKey ∨ a.1.totalKey = b.1.totalKey ∧ a.2 ≤ b.2 := by
  simp [columnOrder]

/-- A cell as it is visited. -/
def visits (c : ℤ × Cell) : List (Double × Vertex) := c.2.spiders.map (ofInteger c.1, ·)

/-- A spider as it is visited. -/
def visit (d : Diagram) (v : Vertex) : Double × Vertex := ((d.column? v).getD 0, v)

theorem Written.visit_eq (h : d.Written n lines beside cells first last) {c : ℤ × Cell}
    (hc : c ∈ cells) (hv : v ∈ c.2.spiders) : d.visit v = (ofInteger c.1, v) := by
  rw [visit, h.column c hc v hv]
  rfl

/-- The spiders are visited cell by cell. -/
theorem Written.exists_interior (h : d.Written n lines beside cells first last)
    (hsize : last - first < 2 ^ 53) :
    ∃ is, d.interior = .ok is ∧ is.mergeSort columnOrder = cells.flatMap visits := by
  have hspiders {v : Vertex} : v ∈ d.spiders ↔ d.web.Has v :=
    Multigraph.mem_vertices.trans (h.coherent.has v).symm
  set inside := d.spiders.filter fun v => !decide (d.web.IsEnd v) with hinside
  have hmem {v : Vertex} : v ∈ inside ↔ v ∈ cells.flatMap (·.2.spiders) := by
    rw [← h.inside, hinside, List.mem_filter, hspiders]
    simp
  refine ⟨inside.map d.visit, ?_, ?_⟩
  · rw [interior, filterM_eq (p := fun v => !decide (d.web.IsEnd v)) fun v hv => by
      rw [isBoundary_eq (hspiders.1 hv)]; rfl]
    change inside.mapM _ = _
    refine mapM_eq fun v hv => ?_
    obtain ⟨c, hc, hv⟩ := List.mem_flatMap.1 (hmem.1 hv)
    rw [h.column c hc v hv, h.visit_eq hc hv]
    rfl
  · have hvisits : cells.flatMap visits = (cells.flatMap (·.2.spiders)).map d.visit := by
      rw [List.map_flatMap]
      exact List.flatMap_congr fun c hc => List.map_congr_left fun v hv => (h.visit_eq hc hv).symm
    have hperm : inside.Perm (cells.flatMap (·.2.spiders)) :=
      (List.perm_ext_iff_of_nodup (Multigraph.nodup_vertices.filter _)
        h.nodup).2 fun v => hmem
    have hsorted : (cells.flatMap visits).Pairwise (columnOrder · ·) := by
      have hbound {c : ℤ × Cell} (hc : c ∈ cells) : c.1.natAbs < 2 ^ 53 := by
        have hrange := h.range c hc
        have hfirst := h.first_le
        have hlast := h.le_last
        omega
      refine List.pairwise_flatMap.2 ⟨fun c hc => ?_, ?_⟩
      · refine List.pairwise_map.2 ((h.sorted c hc).imp fun hlt => ?_)
        exact columnOrder_iff.2 (.inr ⟨rfl, Nat.le_of_lt hlt⟩)
      · refine h.ordered.imp_of_mem fun {c c'} hc hc' hlt x hx y hy => ?_
        obtain ⟨v, -, rfl⟩ := List.mem_map.1 hx
        obtain ⟨v', -, rfl⟩ := List.mem_map.1 hy
        exact columnOrder_iff.2 (.inl (Floating.Number.totalKey_lt
          Floating.Format.double_hasIntegers (hbound hc) (hbound hc') hlt))
    refine List.Perm.eq_of_pairwise (fun x y hx hy h₁ h₂ => ?_)
      (List.pairwise_mergeSort (fun a b c h₁ h₂ => ?_) (fun a b => ?_) _) hsorted ?_
    · obtain ⟨v, -, rfl⟩ := List.mem_map.1 (List.mem_mergeSort.1 hx)
      rw [hvisits] at hy
      obtain ⟨v', -, rfl⟩ := List.mem_map.1 hy
      rw [columnOrder_iff] at h₁ h₂
      obtain rfl : v = v' := by grind [visit]
      rfl
    · rw [columnOrder_iff] at h₁ h₂ ⊢
      grind
    · rw [Bool.or_eq_true, columnOrder_iff, columnOrder_iff]
      grind
    · rw [hvisits]
      exact (List.mergeSort_perm _ _).trans (hperm.map _)

/-! ### The front -/

/-- The front has the tip of every thread, with the wire it is followed from. -/
def Fronts (front : VertexMap ℕ) (n : ℕ) (start : Perm ℕ) (tip : ℕ → Vertex) : Prop :=
  ∀ v q, front[v]? = some q ↔ q < n ∧ v = tip (start q)

namespace Fronts

theorem eq_none (h : Fronts front n start tip) (hv : ∀ q < n, tip (start q) ≠ v) :
    front[v]? = none :=
  Option.eq_none_iff_forall_ne_some.2 fun q hq =>
    let ⟨hlt, he⟩ := (h v q).1 hq
    hv q hlt he.symm

theorem ne (h : Fronts front n start tip) (hv : front[v]? = none) (hq : q < n) :
    v ≠ tip (start q) := fun he => by
  rw [(h v q).2 ⟨hq, he⟩] at hv
  cases hv

/-- The front of a wire moves on to a new tip. -/
theorem advance (h : Fronts front n start tip) (hq : q < n) (hv : front[v]? = none) :
    Fronts (Diagram.advance front q (tip (start q)) v) n start (update tip (start q) v) := by
  intro x r
  rw [Diagram.advance, Std.ExtTreeMap.getElem?_insert, Std.ExtTreeMap.getElem?_erase,
    Function.update_apply]
  simp only [Nat.compare_eq_eq, start.injective.eq_iff]
  have hrq : front[tip (start q)]? = some q := (h _ q).2 ⟨hq, rfl⟩
  by_cases hxv : v = x
  · subst hxv
    rw [if_pos rfl, Option.some_inj]
    have hne := h.ne hv (q := r)
    grind
  · rw [if_neg hxv]
    have := h x r
    have := h x q
    grind

end Fronts

/-- To begin with, the front has the inputs. -/
theorem fronts_inputs {l : List Vertex} (hnd : l.Nodup) (v : Vertex) (q : ℕ) :
    (l.zipIdx.foldl (fun front (i, q) => front.insert i q) (∅ : VertexMap ℕ))[v]? = some q ↔
      l[q]? = some v := by
  induction l using List.reverseRecOn generalizing q with
  | nil => simp
  | append_singleton l a ih =>
    obtain ⟨hl, -, hdis⟩ := List.nodup_append.1 hnd
    rw [List.zipIdx_append, List.foldl_append]
    simp only [List.zipIdx_singleton, List.foldl_cons, List.foldl_nil,
      Std.ExtTreeMap.getElem?_insert, Nat.compare_eq_eq]
    by_cases hav : a = v
    · subst hav
      rw [if_pos rfl, Option.some_inj]
      grind
    · rw [if_neg hav, ih hl]
      grind

/-- The wire that a spider continues is that of the only tip among its neighbours. -/
theorem predecessor_eq (hd : d.Coherent) (hfront : Fronts front n start tip) (hq : q < n)
    (hw : d.web.WiredTo v (tip (start q) :: us)) (hus : ∀ u ∈ us, front[u]? = none) :
    d.predecessor front v = .ok (q, tip (start q)) := by
  have hv : d.web.Has v := (hw.has hd.valid List.mem_cons_self).1
  have htip : front[tip (start q)]? = some q := (hfront _ q).2 ⟨hq, rfl⟩
  rw [predecessor, neighborSet, neighborSet_eq hd hv]
  change theOnly v ((d.web.nearby v).filterMap fun u => (front[u]?).map fun q => (q, u)) = _
  rw [filterMap_eq_singleton Web.nodup_nearby
    ((hw.mem_nearby hd.valid).2 List.mem_cons_self) (by rw [htip]; rfl) fun z hz hne => ?_]
  · rfl
  · rcases List.mem_cons.1 ((hw.mem_nearby hd.valid).1 hz) with rfl | hmem
    · exact absurd rfl hne
    · rw [hus z hmem]
      rfl

/-! ### Reading a spider -/

section Spider

variable {r : Reading} {column : Double} {a b m x : Vertex} {s t : ℕ} {kind : GateKind}
  {gs gs' : List Gate}

theorem degree_wiredTo (hd : d.Coherent) (hw : d.web.WiredTo v (u :: us)) :
    d.degree v = .ok (us.length + 1) := by
  rw [Diagram.degree, degree_eq hd (hw.has hd.valid List.mem_cons_self).1, hw.degree hd.valid]
  rfl

/-- A spider that is read already is passed over. -/
theorem readSpider_done (hv : v ∈ r.done) : d.readSpider r column v = .ok r := by
  rw [readSpider, if_pos hv]
  rfl

/-- A spider on one wire. -/
theorem readSpider_wire (hd : d.Coherent) (hfront : Fronts r.front n start tip) (hv : v ∉ r.done)
    (hq : q < n) (hw : d.web.WiredTo v [tip (start q), u]) (hu : r.front[u]? = none)
    (hgate : d.wireGate v q = .ok gs) : d.readSpider r column v =
      .ok ⟨r.gates ++ gs, advance r.front q (tip (start q)) v, v :: r.done⟩ := by
  rw [readSpider, if_neg hv,
    predecessor_eq hd hfront hq hw (List.forall_mem_singleton.2 hu)]
  change (liftM (d.degree v) >>= fun k => _ : Attempt Refusal Reading) = _
  rw [degree_wiredTo hd hw]
  change (liftM (d.wireGate v q) >>= fun gates => _ : Attempt Refusal Reading) = _
  rw [hgate]
  rfl

/-- The first of the spiders of a gate on two wires. -/
theorem readSpider_pair (hd : d.Coherent) (hfront : Fronts r.front n start tip) (ha : a ∉ r.done)
    (hm : m ∉ r.done) (hs : s < n) (ht : t < n)
    (hwa : d.web.WiredTo a [tip (start s), u, m]) (hwb : d.web.WiredTo b [tip (start t), v, x])
    (hu : r.front[u]? = none) (hfm : r.front[m]? = none) (hv : r.front[v]? = none)
    (hx : r.front[x]? = none) (hcolumn : d.column? m = some column) (heq : column.equal column)
    (hcolumn' : ∀ c, d.column? u = some c → c.equal column = false)
    (hgate : d.twoWireGate a m = .ok (kind, a, b)) (hpa : d.phaseGate a s = .ok gs)
    (hpb : d.phaseGate b t = .ok gs') : d.readSpider r column a =
      .ok ⟨r.gates ++ (.plain kind [s, t] :: gs ++ gs'),
        advance (advance r.front s (tip (start s)) a) t (tip (start t)) b,
        m :: b :: a :: r.done⟩ := by
  have hone := predecessor_eq hd hfront hs hwa (List.forall_mem_cons.2 ⟨hu,
    List.forall_mem_singleton.2 hfm⟩)
  have htwo := predecessor_eq hd hfront ht hwb (List.forall_mem_cons.2 ⟨hv,
    List.forall_mem_singleton.2 hx⟩)
  -- of the spiders beside, only the partner lies in the column
  have hbeside {p : Vertex → Bool} (hp : ∀ z, p z = (decide (z ≠ tip (start s)) &&
      (d.column? z).any (Floating.Number.equal · column) && decide (z ∉ r.done))) :
      (d.web.nearby a).filter p = [m] := by
    rw [← List.filterMap_eq_filter]
    refine filterMap_eq_singleton (x := m) Web.nodup_nearby
      ((hwa.mem_nearby hd.valid).2 (by simp)) ?_ fun z hz hne => ?_
    · simp [Option.guard, hp, hcolumn, heq, hm, hfront.ne hfm hs]
    · rcases List.mem_cons.1 ((hwa.mem_nearby hd.valid).1 hz) with rfl | hz
      · simp [Option.guard, hp]
      · rcases List.mem_pair.1 hz with rfl | rfl
        · cases hc : d.column? z with
          | none => simp [Option.guard, hp, hc]
          | some c => simp [Option.guard, hp, hc, hcolumn' c hc]
        · exact absurd rfl hne
  rw [readSpider, if_neg ha, hone]
  change (liftM (d.degree a) >>= fun k => _ : Attempt Refusal Reading) = _
  rw [degree_wiredTo hd hwa]
  change (liftM (d.neighborSet a) >>= fun ns => _ : Attempt Refusal Reading) = _
  rw [neighborSet, neighborSet_eq hd (hwa.has hd.valid List.mem_cons_self).1]
  rw [liftM_ok_bind, hbeside fun z => by cases h : d.column? z <;> rfl]
  change (d.twoWireGate a m >>= fun g => _) = _
  rw [hgate]
  change (d.predecessor r.front a >>= fun p => _) = _
  rw [hone]
  change (d.predecessor r.front b >>= fun p => _) = _
  rw [htwo]
  change (liftM (d.phaseGate a s) >>= fun p => _ : Attempt Refusal Reading) = _
  rw [hpa]
  change (liftM (d.phaseGate b t) >>= fun p => _ : Attempt Refusal Reading) = _
  rw [hpb]
  rfl

/-- The rotation for the phase of a coloured spider, unless it is idle. -/
theorem phaseGate_eq {κ : SpiderKind} {p : Phase} (hκ : κ.isPhased = true)
    (hkind : d.web.kind v = some κ) (hp : d.web.phase v = p) (q : ℕ) :
    d.phaseGate v q = .ok ([(Cell.wire κ p v q).gate].filter (!·.isIdle)) := by
  rw [phaseGate, show d.phase v = p from hp, kind_eq hkind]
  cases κ with
  | z | x => by_cases hzero : p.isZero <;>
      simp [hzero, Cell.gate, Gate.isIdle, GateKind.hasPhase] <;> rfl
  | box | input | output => cases hκ

/-- The gate of a spider on one wire, unless it is idle. -/
theorem wireGate_eq {κ : SpiderKind} {p : Phase} (h : (Cell.wire κ p v (start q)).Shown d.web beside) :
    d.wireGate v q =
      .ok ([(Cell.wire κ p v (start q)).gate.relabel start.symm].filter (!·.isIdle)) := by
  cases h with
  | wire hκ hkind hphase hbeside =>
    cases κ with
    | z | x =>
      rw [wireGate, kind_eq hkind]
      change d.phaseGate v q = _
      rw [phaseGate_eq rfl hkind (hphase rfl)]
      simp [Cell.gate, Gate.relabel]
    | box =>
      rw [wireGate, kind_eq hkind, show (Cell.wire .box p v (start q)).gate.relabel start.symm =
        .plain .hadamard [start.symm (start q)] from rfl, Equiv.symm_apply_apply]
      rfl
    | input | output => cases hκ

theorem twoWireGate_cz (hd : d.Coherent) (ha : d.web.kind a = some .z) (hb : d.web.kind b = some .z)
    (hm : d.web.kind m = some .box) (hab : a ≠ b) (hwm : d.web.WiredTo m [a, b])
    (hdeg : d.degree b = .ok 3) : d.twoWireGate a m = .ok (.cz, a, b) := by
  obtain ⟨ns, hns, hcount⟩ := exists_neighbors hd (Web.has_of_kind hm)
  have hperm : ns.Perm [a, b] := List.perm_iff_count.2 fun y => by rw [hcount, hwm.joins]
  have hfind : ns.find? (· ≠ a) = some b := by
    rcases List.perm_pair.1 hperm with rfl | rfl <;> simp [hab.symm]
  rw [twoWireGate, kind_eq ha, kind_eq hm]
  change (liftM (d.degree m) >>= fun k => _ : Attempt Refusal _) = _
  rw [degree_wiredTo hd hwm]
  change (liftM (d.neighbors m) >>= fun ns => _ : Attempt Refusal _) = _
  rw [hns, liftM_ok_bind, hfind]
  change (liftM (d.kind b) >>= fun k => _ : Attempt Refusal _) = _
  rw [kind_eq hb]
  change (liftM (d.degree b) >>= fun k => _ : Attempt Refusal _) = _
  rw [hdeg]
  rfl

end Spider

/-! ### Reading a cell -/

/-- How far a diagram is read that has come past the cells `past`, with the cells `rest` to come. -/
structure Reads (d : Diagram) (n : ℕ) (lines : Side → Perm ℕ) (beside : Vertex → List Vertex)
    (past rest : List (ℤ × Cell)) (tip : ℕ → Vertex) (r : Reading) : Prop where
  gates : r.gates =
    ((past.flatMap (·.2.gates)).map (Gate.relabel (lines .front).symm)).filter (!·.isIdle)
  front : Fronts r.front n (lines .front) tip
  done : ∀ v, v ∈ r.done ↔ v ∈ past.flatMap (·.2.spiders)
  tips : ∀ t < n, tip t ∈ d.inputs ∨ tip t ∈ past.flatMap (·.2.spiders)
  runs : d.web.Runs n (lines .back) beside tip (rest.flatMap (·.2.spots))

section Reads

variable {past rest : List (ℤ × Cell)} {c : ℤ × Cell} {r : Reading}
  (h : d.Written n lines beside cells first last) (hcells : cells = past ++ rest)
  (hr : d.Reads n lines beside past rest tip r)
include h hcells hr

/-- What is still to come is not in the front. -/
theorem Reads.front_eq_none (hv : v ∈ rest.flatMap (·.2.spiders) ∨ v ∈ d.outputs) :
    r.front[v]? = none := by
  have hthr := h.threaded
  have hflat : cells.flatMap (·.2.spiders) =
      past.flatMap (·.2.spiders) ++ rest.flatMap (·.2.spiders) := by rw [hcells, List.flatMap_append]
  have hspider {x : Vertex} (hx : x ∈ past.flatMap (·.2.spiders) ∨ x ∈ rest.flatMap (·.2.spiders)) :
      ¬d.web.IsEnd x := ((h.inside x).2 (hflat ▸ List.mem_append.2 hx)).2
  refine hr.front.eq_none fun q hq he => ?_
  rcases hr.tips _ ((hthr.keeps .front q).2 hq) with hin | hin <;> rw [he] at hin
  · rcases hv with hv | hv
    · exact hspider (.inr hv) (Web.isEnd_of_input ((hthr.inputs v).1 hin))
    · cases ((hthr.inputs v).1 hin).symm.trans ((hthr.outputs v).1 hv)
  · rcases hv with hv | hv
    · exact (List.nodup_append.1 (hflat ▸ h.nodup)).2.2 v hin v hv rfl
    · exact hspider (.inl hin) (Web.isEnd_of_output ((hthr.outputs v).1 hv))

end Reads

section Step

variable {past rest : List (ℤ × Cell)} {c : ℤ × Cell} {r : Reading} {t t' : ℕ} {a b m x : Vertex}
  {kind : GateKind} {spots : List (Vertex × ℕ)} {κ κ' : SpiderKind} {p p' : Phase}

theorem later_of_cons (hne : t ≠ t') (hu : d.web.Later n start ((v, t') :: spots) t u) :
    d.web.Later n start spots t u :=
  hu.imp_left fun hmem => (List.mem_cons.1 hmem).resolve_left fun he =>
    hne (congrArg Prod.snd he)

variable (h : d.Written n lines beside cells first last) (hcells : cells = past ++ c :: rest)
  (hr : d.Reads n lines beside past (c :: rest) tip r)
include h hcells

/-- What comes later on a thread does not lie in the column of the cell. -/
theorem Written.column_of_later (hu : d.web.Later n (lines .back) (rest.flatMap (·.2.spots)) t u)
    (k : Double) (hk : d.column? u = some k) : k.equal (ofInteger c.1) = false := by
  rcases hu with hmem | ⟨q, hq, -, rfl⟩
  · obtain ⟨c', hc', hspot⟩ := List.mem_flatMap.1 hmem
    have hlt : c.1 < c'.1 :=
      (List.pairwise_cons.1 (List.pairwise_append.1 (hcells ▸ h.ordered)).2.1).1 c' hc'
    have hcol := h.column c' (hcells ▸ List.mem_append_right _ (List.mem_cons_of_mem _ hc')) u
      (Cell.spiders_of_spots hspot)
    rw [hcol, Option.some_inj] at hk
    rw [← hk, Floating.Number.equal_ofInteger]
    exact decide_eq_false (ne_of_gt hlt)
  · cases (h.column_output _ (h.threaded.terminal_mem .back hq)).symm.trans hk

include hr

/-- What comes later on a thread is not in the front. -/
theorem Reads.front_of_later (hu : d.web.Later n (lines .back) (rest.flatMap (·.2.spots)) t u) :
    r.front[u]? = none := by
  refine hr.front_eq_none h hcells (hu.imp (fun hmem => ?_) fun hend => ?_)
  · obtain ⟨c', hc', hspot⟩ := List.mem_flatMap.1 hmem
    exact List.mem_flatMap.2 ⟨c', List.mem_cons_of_mem _ hc', Cell.spiders_of_spots hspot⟩
  · obtain ⟨q, hq, -, rfl⟩ := hend
    exact h.threaded.terminal_mem .back hq

theorem Reads.front_of_spider (hv : v ∈ c.2.spiders) : r.front[v]? = none :=
  hr.front_eq_none h hcells (.inl (List.mem_flatMap.2 ⟨c, List.mem_cons_self, hv⟩))

theorem Reads.not_done (hv : v ∈ c.2.spiders) : v ∉ r.done := fun hdone => by
  have hnd := h.nodup
  rw [hcells, List.flatMap_append] at hnd
  exact (List.nodup_append.1 hnd).2.2 v ((hr.done v).1 hdone) v
    (List.mem_flatMap.2 ⟨c, List.mem_cons_self, hv⟩) rfl

omit h hcells

/-- What a reading comes to with one more cell. -/
theorem Reads.next {gs : List Gate} {front' : VertexMap ℕ} {done' : List Vertex} {tip' : ℕ → Vertex}
    (hgs : gs = (c.2.gates.map (Gate.relabel (lines .front).symm)).filter (!·.isIdle))
    (hfront : Fronts front' n (lines .front) tip')
    (hdone : ∀ v, v ∈ done' ↔ v ∈ c.2.spiders ∨ v ∈ r.done)
    (htip : ∀ t, tip' t ∈ c.2.spiders ∨ tip' t = tip t)
    (hruns : d.web.Runs n (lines .back) beside tip' (rest.flatMap (·.2.spots))) :
    d.Reads n lines beside (past ++ [c]) rest tip' ⟨r.gates ++ gs, front', done'⟩ where
  gates := by
    rw [hr.gates, hgs, List.flatMap_append, List.flatMap_singleton, List.map_append,
      List.filter_append]
  front := hfront
  done v := by
    rw [hdone, hr.done, List.flatMap_append, List.mem_append, or_comm]
    simp
  tips t ht := by
    rw [List.flatMap_append, List.mem_append]
    rcases htip t with hmem | he
    · exact .inr (.inr (by simpa using hmem))
    · rw [he]
      exact (hr.tips t ht).imp_right .inl
  runs := hruns

include h hcells

/-- A cell of a gate on two wires is read with its first spider. -/
theorem Reads.exists_pair (hspots : c.2.spots = [(a, t), (b, t')])
    (hspiders : ∀ v, v ∈ c.2.spiders ↔ v ∈ [m, b, a])
    (hgates : ∀ σ, c.2.gates.map (Gate.relabel σ) =
      [.plain kind [σ t, σ t'], (Cell.wire κ p a (σ t)).gate, (Cell.wire κ' p' b (σ t')).gate])
    (hidle : kind.hasPhase = false)
    (hab : a ≠ b) (hne : t ≠ t') (hba : beside a = [m]) (hbb : beside b = [x]) (hx : x ∈ c.2.spiders)
    (hgate : d.degree b = .ok 3 → d.twoWireGate a m = .ok (kind, a, b))
    (hκ : κ.isPhased = true) (ha : d.web.kind a = some κ) (hpa : d.web.phase a = p)
    (hκ' : κ'.isPhased = true) (hb : d.web.kind b = some κ') (hpb : d.web.phase b = p') :
    ∃ r' tip', d.readSpider r (ofInteger c.1) a = .ok r' ∧
      d.Reads n lines beside (past ++ [c]) rest tip' r' := by
  have hmem : c ∈ cells := hcells ▸ List.mem_append_right _ List.mem_cons_self
  have hspot {s : Vertex × ℕ} (hs : s ∈ c.2.spots) : s ∈ cells.flatMap (·.2.spots) :=
    List.mem_flatMap.2 ⟨c, hmem, hs⟩
  have hcoh := h.coherent
  have hruns := hr.runs
  rw [List.flatMap_cons, hspots, List.cons_append, List.singleton_append] at hruns
  obtain ⟨⟨u, hlater, hwa⟩, ⟨u', hu', hwb⟩, hrest⟩ := hruns
  rw [hba] at hwa
  rw [hbb, update_of_ne hne.symm] at hwb
  -- the second spider is on another thread, so what comes after the first one comes after both
  have hu := later_of_cons hne hlater
  clear hlater
  have hat := (h.threaded.spider _ (hspot (hspots ▸ List.mem_cons_self))).2.2
  have hbt := (h.threaded.spider _
    (hspot (hspots ▸ List.mem_cons_of_mem _ List.mem_cons_self))).2.2
  have hma : a ∈ c.2.spiders := (hspiders a).2 (by simp)
  have hmb : b ∈ c.2.spiders := (hspiders b).2 (by simp)
  have hmm : m ∈ c.2.spiders := (hspiders m).2 (by simp)
  obtain ⟨s, rfl⟩ := (lines .front).surjective t
  obtain ⟨s', rfl⟩ := (lines .front).surjective t'
  have hs : s < n := (h.threaded.keeps .front s).1 hat
  have hs' : s' < n := (h.threaded.keeps .front s').1 hbt
  refine ⟨_, _, readSpider_pair hcoh hr.front (hr.not_done h hcells hma) (hr.not_done h hcells hmm)
    hs hs' hwa hwb (hr.front_of_later h hcells hu) (hr.front_of_spider h hcells hmm)
    (hr.front_of_later h hcells hu') (hr.front_of_spider h hcells hx) (h.column c hmem m hmm)
    (by rw [Floating.Number.equal_ofInteger]; simp) (h.column_of_later hcells hu)
    (hgate (degree_wiredTo hcoh hwb)) (phaseGate_eq hκ ha hpa s) (phaseGate_eq hκ' hb hpb s'),
    hr.next ?_ ?_ (fun v => ?_) (fun t => ?_) hrest⟩
  · have hplain : (Gate.plain kind [s, s']).isIdle = false := by
      rw [Gate.isIdle, Gate.plain, hidle, Bool.false_and]
    rw [hgates, Equiv.symm_apply_apply, Equiv.symm_apply_apply, List.cons_append,
      ← List.filter_append]
    exact (List.filter_cons_of_pos (by rw [hplain]; rfl)).symm
  · have hfront := hr.front.advance hs (hr.front_of_spider h hcells hma)
    have hss : lines .front s' ≠ lines .front s := hne.symm
    have hnew := hfront.advance hs' (v := b) ?_
    · rwa [update_of_ne hss] at hnew
    · refine hfront.eq_none fun q hq => ?_
      rw [Function.update_apply]
      split_ifs
      · exact hab
      · exact (hr.front.ne (hr.front_of_spider h hcells hmb) hq).symm
  · rw [hspiders]
    simp [or_assoc]
  · rw [Function.update_apply, Function.update_apply]
    split_ifs
    · exact .inl hmb
    · exact .inl hma
    · exact .inr rfl

/-- The first spider of a cell is read with the cell. -/
theorem Reads.exists_first : ∃ v vs r' tip', c.2.spiders = v :: vs ∧
    d.readSpider r (ofInteger c.1) v = .ok r' ∧ d.Reads n lines beside (past ++ [c]) rest tip' r' := by
  have hmem : c ∈ cells := hcells ▸ List.mem_append_right _ List.mem_cons_self
  have hshown := h.shown c hmem
  obtain ⟨k, c⟩ := c
  cases c with
  | wire κ p v t =>
    obtain ⟨⟨u, hu, hwired⟩, hrest⟩ := hr.runs
    have hv : v ∈ (Cell.wire κ p v t).spiders := List.mem_singleton_self v
    have ht := (h.threaded.spider (v, t) (List.mem_flatMap.2 ⟨_, hmem, List.mem_singleton_self _⟩)).2.2
    obtain ⟨q, rfl⟩ := (lines .front).surjective t
    have hq : q < n := (h.threaded.keeps .front q).1 ht
    cases hshown with
    | wire hκ hkind hphase hbeside =>
      rw [hbeside] at hwired
      refine ⟨v, [], _, _, rfl, readSpider_wire h.coherent hr.front (hr.not_done h hcells hv) hq
        hwired (hr.front_of_later h hcells hu)
        (wireGate_eq (Cell.Shown.wire hκ hkind hphase hbeside)), hr.next rfl
        (hr.front.advance hq (hr.front_of_spider h hcells hv)) (fun x => ?_) (fun t => ?_) hrest⟩
      · rw [List.mem_cons, Cell.spiders, List.mem_singleton]
      · rw [Function.update_apply]
        split_ifs
        · exact .inl hv
        · exact .inr rfl
  | cnot p p' a b t t' =>
    cases hshown with
    | cnot hab hst ha hb hpa hpb hba hbb =>
      have hgate : d.twoWireGate a b = .ok (.cnot, a, b) := by
        rw [twoWireGate, kind_eq ha, kind_eq hb]
        rfl
      obtain ⟨r', tip', hok, hr'⟩ := hr.exists_pair h hcells rfl (by simp [Cell.spiders, or_comm])
        (fun σ => rfl) rfl hab hst hba hbb List.mem_cons_self (fun _ => hgate)
        rfl ha hpa rfl hb hpb
      exact ⟨a, [b], r', tip', rfl, hok, hr'⟩
  | cz p p' a b m t t' =>
    cases hshown with
    | cz hab hst ha hb hm hpa hpb hba hbb hbox =>
      have hloose := h.wiredTo_box hmem
      obtain ⟨r', tip', hok, hr'⟩ := hr.exists_pair h hcells rfl
        (by simp [Cell.spiders]; tauto) (fun σ => rfl) rfl hab hst hba hbb
        (by simp [Cell.spiders]) (fun hdeg => twoWireGate_cz h.coherent ha hb hm hab
          hloose hdeg) rfl ha hpa rfl hb hpb
      exact ⟨a, [b, m], r', tip', rfl, hok, hr'⟩

end Step

/-- A cell is read. -/
theorem Reads.exists_cell {past rest : List (ℤ × Cell)} {c : ℤ × Cell} {r : Reading}
    (h : d.Written n lines beside cells first last) (hcells : cells = past ++ c :: rest)
    (hr : d.Reads n lines beside past (c :: rest) tip r) : ∃ r' tip',
      (visits c).foldlM (fun r x => d.readSpider r x.1 x.2) r = .ok r' ∧
        d.Reads n lines beside (past ++ [c]) rest tip' r' := by
  obtain ⟨v, vs, r', tip', hspiders, hok, hr'⟩ := hr.exists_first h hcells
  -- the other spiders are read with the first
  have hrest (l : List Vertex) (hl : ∀ x ∈ l, x ∈ r'.done) :
      (l.map ((ofInteger c.1 : Double), ·)).foldlM
        (fun r x => d.readSpider r x.1 x.2) r' = .ok r' := by
    induction l with
    | nil => rfl
    | cons x l ih =>
      rw [List.map_cons, List.foldlM_cons, readSpider_done (hl x List.mem_cons_self)]
      exact ih fun y hy => hl y (List.mem_cons_of_mem _ hy)
  refine ⟨r', tip', ?_, hr'⟩
  rw [visits, hspiders, List.map_cons, List.foldlM_cons, hok]
  refine hrest vs fun x hx => (hr'.done x).2 ?_
  rw [List.flatMap_append, List.mem_append]
  exact .inr (by simp [hspiders, hx])

/-- All the cells are read. -/
theorem Reads.exists_all {past rest : List (ℤ × Cell)} {r : Reading}
    (h : d.Written n lines beside cells first last) (hcells : cells = past ++ rest)
    (hr : d.Reads n lines beside past rest tip r) : ∃ r' tip',
      (rest.flatMap visits).foldlM (fun r x => d.readSpider r x.1 x.2) r = .ok r' ∧
        d.Reads n lines beside cells [] tip' r' := by
  induction rest generalizing past tip r with
  | nil =>
    rw [List.append_nil] at hcells
    exact ⟨r, tip, rfl, hcells ▸ hr⟩
  | cons c rest ih =>
    obtain ⟨r₁, tip₁, hok₁, hr₁⟩ := hr.exists_cell h hcells
    obtain ⟨r', tip', hok, hr'⟩ := ih (by rw [hcells]; simp) hr₁
    refine ⟨r', tip', ?_, hr'⟩
    rw [List.flatMap_cons, List.foldlM_append, hok₁]
    exact hok

/-- The reading at the start. -/
theorem Written.reads (h : d.Written n lines beside cells first last) :
    d.Reads n lines beside [] cells (fun t => d.web.input ((lines .front).symm t))
      ⟨[], d.inputs.zipIdx.foldl (fun front (i, q) => front.insert i q) ∅, []⟩ where
  gates := rfl
  front v q := by
    refine (fronts_inputs (h.threaded.nodup .front) v q).trans ?_
    simp only [Equiv.symm_apply_apply]
    constructor
    · intro hq
      have hlt : q < n := h.threaded.length .front ▸ (List.getElem?_eq_some_iff.1 hq).1
      have hget := h.threaded.getElem?_terminals .front hlt
      exact ⟨hlt, Option.some_inj.1 (hq.symm.trans hget)⟩
    · rintro ⟨hq, rfl⟩
      exact h.threaded.getElem?_terminals .front hq
  done v := Iff.rfl
  tips t ht := .inl (h.threaded.terminal_mem .front (((h.threaded.keeps .front).symm t).2 ht))
  runs := h.threaded.runs

end Diagram

end ZXRewriting
