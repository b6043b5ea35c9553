import ZXRewriting.Proofs.Diagram.Circuits
import ZXRewriting.Proofs.Diagram.Threads
import ZXRewriting.Proofs.Floating.Integers

/-!
# Gates drawn in columns

A diagram that gates were put onto at either side is made of *cells*, one for every gate other than
a swap: the spiders of the gate, which lie in a column of their own (`Diagram.Written`). A gate put onto
the wires at a side adds a cell there, in a new column, or lets two wires cross there
(`Written.exists_attach`).
-/

namespace ZXRewriting

open Equiv (Perm)
open Function (update update_self update_of_ne)
open Floating (Double)
open Floating.Number (ofInteger)

/-- Lists without a common element come from different places. -/
theorem eq_of_mem_flatMap {α β : Type} {l : List α} {f : α → List β} (h : (l.flatMap f).Nodup)
    {a a' : α} {b : β} (ha : a ∈ l) (ha' : a' ∈ l) (hb : b ∈ f a) (hb' : b ∈ f a') : a = a' := by
  by_contra hne
  have : Std.Symm (Function.onFun List.Disjoint f) := ⟨fun _ _ h => h.symm⟩
  exact (List.nodup_flatMap.1 h).2.forall ha ha' hne hb hb'

/-- The spiders that a gate is drawn with, and their phases, on the threads it lies on. -/
inductive Cell
  /-- A single spider. -/
  | wire (κ : SpiderKind) (p : Phase) (v : Vertex) (t : ℕ)
  /-- A Z spider joined to an X spider. -/
  | cnot (p p' : Phase) (a b : Vertex) (s t : ℕ)
  /-- Two Z spiders, and a box between them. -/
  | cz (p p' : Phase) (a b h : Vertex) (s t : ℕ)

namespace Cell

/-- The gate of a cell, on threads. -/
def gate : Cell → Gate
  | wire .z p _ t => ⟨.zPhase, [t], p⟩
  | wire .x p _ t => ⟨.xPhase, [t], p⟩
  | wire _ _ _ t => .plain .hadamard [t]
  | cnot _ _ _ _ s t => .plain .cnot [s, t]
  | cz _ _ _ _ _ s t => .plain .cz [s, t]

/-- The rotations after the gate, for the phases of spiders of a gate on two wires. -/
def rotations : Cell → List Gate
  | wire _ _ _ _ => []
  | cnot p p' _ _ s t => [⟨.zPhase, [s], p⟩, ⟨.xPhase, [t], p'⟩]
  | cz p p' _ _ _ s t => [⟨.zPhase, [s], p⟩, ⟨.zPhase, [t], p'⟩]

/-- The gates that a cell is read as, on threads. -/
def gates (c : Cell) : List Gate := c.gate :: c.rotations

/-- Whether the spiders of a gate on two wires have no phases. -/
def Still (c : Cell) : Prop := ∀ g ∈ c.rotations, g.isIdle

theorem still_wire {κ : SpiderKind} {p : Phase} {v : Vertex} {t : ℕ} : (wire κ p v t).Still :=
  fun _ hg => absurd hg List.not_mem_nil

theorem still_cnot {a b : Vertex} {s t : ℕ} : (cnot .zero .zero a b s t).Still :=
  List.forall_mem_cons.2 ⟨rfl, List.forall_mem_singleton.2 rfl⟩

theorem still_cz {a b h : Vertex} {s t : ℕ} : (cz .zero .zero a b h s t).Still :=
  List.forall_mem_cons.2 ⟨rfl, List.forall_mem_singleton.2 rfl⟩

/-- The spiders on threads, each with its thread. -/
def spots : Cell → List (Vertex × ℕ)
  | wire _ _ v t => [(v, t)]
  | cnot _ _ a b s t | cz _ _ a b _ s t => [(a, s), (b, t)]

/-- The spiders of a cell. -/
def spiders : Cell → List Vertex
  | wire _ _ v _ => [v]
  | cnot _ _ a b _ _ => [a, b]
  | cz _ _ a b h _ _ => [a, b, h]

/-- Whether a web shows the spiders of a cell, with nothing beside them but each other. -/
inductive Shown (w : Web) (beside : Vertex → List Vertex) : Cell → Prop
  | wire {κ : SpiderKind} {p : Phase} {v : Vertex} {t : ℕ} (hκ : κ.isBoundary = false)
    (hkind : w.kind v = some κ) (hphase : κ.isPhased = true → w.phase v = p)
    (hbeside : beside v = []) : Shown w beside (wire κ p v t)
  | cnot {p p' : Phase} {a b : Vertex} {s t : ℕ} (hab : a ≠ b) (hst : s ≠ t)
    (ha : w.kind a = some .z) (hb : w.kind b = some .x) (hpa : w.phase a = p) (hpb : w.phase b = p')
    (hbeside : beside a = [b]) (hbeside' : beside b = [a]) : Shown w beside (cnot p p' a b s t)
  | cz {p p' : Phase} {a b h : Vertex} {s t : ℕ} (hab : a ≠ b) (hst : s ≠ t)
    (ha : w.kind a = some .z) (hb : w.kind b = some .z) (hh : w.kind h = some .box)
    (hpa : w.phase a = p) (hpb : w.phase b = p') (hbeside : beside a = [h])
    (hbeside' : beside b = [h]) (hbox : beside h = [a, b]) : Shown w beside (cz p p' a b h s t)

theorem spiders_of_spots {c : Cell} {v : Vertex} {t : ℕ} (h : (v, t) ∈ c.spots) :
    v ∈ c.spiders := by
  cases c <;> simp_all [spots, spiders]
  all_goals grind

/-- The box between two Z spiders is on no thread. -/
theorem notMem_spots_box {p p' : Phase} {a b m : Vertex} {s t : ℕ} (ha : m ≠ a) (hb : m ≠ b)
    (t' : ℕ) : (m, t') ∉ (cz p p' a b m s t).spots := fun hmem => by
  rcases List.mem_pair.1 hmem with he | he
  · exact ha (congrArg Prod.fst he)
  · exact hb (congrArg Prod.fst he)

/-- Spiders of different kinds are different. -/
theorem ne_of_kind {w : Web} {v u : Vertex} {κ κ' : SpiderKind} (hv : w.kind v = some κ)
    (hu : w.kind u = some κ') (hne : κ ≠ κ') : v ≠ u := fun he =>
  hne (Option.some.inj (hv.symm.trans (he ▸ hu)))

namespace Shown

variable {w w' : Web} {beside beside' : Vertex → List Vertex} {c : Cell}

theorem has (h : c.Shown w beside) : ∀ v ∈ c.spiders, w.Has v ∧ ¬w.IsEnd v := by
  have key {v : Vertex} {κ : SpiderKind} (hk : w.kind v = some κ) (hκ : κ.isBoundary = false) :
      w.Has v ∧ ¬w.IsEnd v := ⟨Web.has_of_kind hk, Web.not_isEnd_of_kind hk hκ⟩
  cases h with
  | wire hκ hkind => exact List.forall_mem_singleton.2 (key hkind hκ)
  | cnot _ _ ha hb =>
    exact List.forall_mem_cons.2 ⟨key ha rfl, List.forall_mem_singleton.2 (key hb rfl)⟩
  | cz _ _ ha hb hh =>
    exact List.forall_mem_cons.2 ⟨key ha rfl, List.forall_mem_cons.2 ⟨key hb rfl,
      List.forall_mem_singleton.2 (key hh rfl)⟩⟩

/-- A cell is shown by what shows its spiders. -/
theorem congr (h : c.Shown w beside) (hkind : ∀ v ∈ c.spiders, w'.kind v = w.kind v)
    (hphase : ∀ v ∈ c.spiders, w'.phase v = w.phase v)
    (hbeside : ∀ v ∈ c.spiders, beside' v = beside v) : c.Shown w' beside' := by
  cases h with
  | @wire κ p v t hκ hk hp hb =>
    have hv : v ∈ (Cell.wire κ p v t).spiders := List.mem_singleton_self v
    exact .wire hκ ((hkind v hv).trans hk) (fun hcol => (hphase v hv).trans (hp hcol))
      ((hbeside v hv).trans hb)
  | @cnot p p' a b s t hab hst ha hb hpa hpb hba hbb =>
    have hma : a ∈ (Cell.cnot p p' a b s t).spiders := List.mem_cons_self
    have hmb : b ∈ (Cell.cnot p p' a b s t).spiders := List.mem_cons_of_mem _ List.mem_cons_self
    exact .cnot hab hst ((hkind a hma).trans ha) ((hkind b hmb).trans hb)
      ((hphase a hma).trans hpa) ((hphase b hmb).trans hpb) ((hbeside a hma).trans hba)
      ((hbeside b hmb).trans hbb)
  | @cz p p' a b h s t hab hst ha hb hh hpa hpb hba hbb hbh' =>
    have hma : a ∈ (Cell.cz p p' a b h s t).spiders := List.mem_cons_self
    have hmb : b ∈ (Cell.cz p p' a b h s t).spiders := List.mem_cons_of_mem _ List.mem_cons_self
    have hmh : h ∈ (Cell.cz p p' a b h s t).spiders :=
      List.mem_cons_of_mem _ (List.mem_cons_of_mem _ List.mem_cons_self)
    exact .cz hab hst ((hkind a hma).trans ha) ((hkind b hmb).trans hb)
      ((hkind h hmh).trans hh) ((hphase a hma).trans hpa) ((hphase b hmb).trans hpb)
      ((hbeside a hma).trans hba) ((hbeside b hmb).trans hbb) ((hbeside h hmh).trans hbh')

end Shown

end Cell

@[simp] theorem Layout.first_place (l : Layout) (v : Vertex) (qubit : Option ℕ) (c : Double) :
    (l.place v qubit (some c)).first = l.first.least c := by
  cases qubit <;> rfl

@[simp] theorem Layout.last_place (l : Layout) (v : Vertex) (qubit : Option ℕ) (c : Double) :
    (l.place v qubit (some c)).last = l.last.greatest c := by
  cases qubit <;> rfl

namespace Diagram

/-- A diagram made of cells in columns, between `first` and `last`, with threads for wires. -/
structure Written (d : Diagram) (n : ℕ) (lines : Side → Perm ℕ) (beside : Vertex → List Vertex)
    (cells : List (ℤ × Cell)) (first last : ℤ) : Prop where
  coherent : d.Coherent
  wires : d.layout.wires = n
  threaded : d.web.Threaded n lines beside (cells.flatMap (·.2.spots))
  shown : ∀ c ∈ cells, c.2.Shown d.web beside
  inside : ∀ v, d.web.Has v ∧ ¬d.web.IsEnd v ↔ v ∈ cells.flatMap (·.2.spiders)
  nodup : (cells.flatMap (·.2.spiders)).Nodup
  sorted : ∀ c ∈ cells, c.2.spiders.Pairwise (· < ·)
  column : ∀ c ∈ cells, ∀ v ∈ c.2.spiders, d.column? v = some (ofInteger c.1)
  column_output : ∀ v ∈ d.outputs, d.column? v = none
  ordered : cells.Pairwise fun c c' => c.1 < c'.1
  range : ∀ c ∈ cells, first ≤ c.1 ∧ c.1 ≤ last
  first_eq : d.layout.first = ofInteger first
  last_eq : d.layout.last = ofInteger last
  first_le : first ≤ 0
  le_last : 0 ≤ last

variable {d d' : Diagram} {n : ℕ} {lines : Side → Perm ℕ} {beside beside' : Vertex → List Vertex}
  {cells : List (ℤ × Cell)} {first last : ℤ} (side : Side) {spots : List (Vertex × ℕ)} {q r : ℕ}
  {κ : SpiderKind}

/-- The next column at a side, as a whole number. -/
def Side.column (first last : ℤ) : Side → ℤ
  | .front => first - 1
  | .back => last + 1

section

variable (h : d.Written n lines beside cells first last)
include h

/-- There is room for a column, when there are not too many. -/
theorem Written.freshColumn (hsize : last - first + 1 < 2 ^ 53) :
    d.freshColumn side = ofInteger (side.column first last) := by
  have hf := Floating.Format.double_hasIntegers
  have hfirst := h.first_le
  have hlast := h.le_last
  have hone : (1 : Double) = ofInteger 1 := Floating.Number.ofNat_eq hf (by decide)
  cases side with
  | front =>
    rw [Diagram.freshColumn, Layout.prevColumn, h.first_eq, hone]
    refine Floating.Number.ofInteger_sub_one hf ?_
    change (first - 1).natAbs < 2 ^ 53
    omega
  | back =>
    rw [Diagram.freshColumn, Layout.nextColumn, h.last_eq, hone]
    refine Floating.Number.ofInteger_add hf ?_
    change (last + 1).natAbs < 2 ^ 53
    omega

/-- One more cell at a side, made of new spiders. -/
theorem Written.extend {c : Cell} (hd' : d'.Coherent)
    (hthreaded : d'.web.Threaded n lines beside' (side.join c.spots (cells.flatMap (·.2.spots))))
    (hshown : c.Shown d'.web beside')
    (hspiders : c.spiders = List.range' d.web.next c.spiders.length)
    (hkind : ∀ v, v ∉ c.spiders → d'.web.kind v = d.web.kind v)
    (hphase : ∀ v, v ∉ c.spiders → d'.web.phase v = d.web.phase v)
    (hbeside : ∀ v, v ∉ c.spiders → beside' v = beside v) (houtputs : d'.outputs = d.outputs)
    (hwires : d'.layout.wires = d.layout.wires)
    (hcolumn : ∀ v, d'.column? v = if v ∈ c.spiders then
      some (ofInteger (side.column first last)) else d.column? v)
    (hfirst : d'.layout.first =
      (ofInteger first : Double).least (ofInteger (side.column first last)))
    (hlast : d'.layout.last =
      (ofInteger last : Double).greatest (ofInteger (side.column first last))) :
    d'.Written n lines beside' (side.join [(side.column first last, c)] cells)
      (min first (side.column first last)) (max last (side.column first last)) := by
  -- the new spiders are the next ones, so the old cells have none of them
  have hfresh : ∀ v ∈ c.spiders, ¬d.web.Has v := fun v hv hh => by
    rw [hspiders, List.mem_range'_1] at hv
    exact Nat.not_lt.2 hv.1 (h.coherent.valid.lt v hh)
  have hold {v : Vertex} (hv : d.web.Has v) : v ∉ c.spiders := fun hm => hfresh v hm hv
  have hsorted : c.spiders.Pairwise (· < ·) := hspiders ▸ List.pairwise_lt_range'
  have hhas (v : Vertex) : d'.web.Has v ↔ v ∈ c.spiders ∨ d.web.Has v := by
    by_cases hv : v ∈ c.spiders
    · exact iff_of_true (hshown.has v hv).1 (.inl hv)
    · rw [Web.Has, hkind v hv, or_iff_right hv, Web.Has]
  have hothers {c' : ℤ × Cell} (hc : c' ∈ cells) {v : Vertex} (hv : v ∈ c'.2.spiders) :
      v ∉ c.spiders := hold ((h.inside v).2 (List.mem_flatMap.2 ⟨c', hc, hv⟩)).1
  have hflat {β : Type} (f : ℤ × Cell → List β) (x : ℤ × Cell) :
      (side.join [x] cells).flatMap f = side.join (f x) (cells.flatMap f) := by
    cases side <;> simp [Side.join]
  have hmem {P : ℤ × Cell → Prop} (hnew : P (side.column first last, c))
      (hrest : ∀ c' ∈ cells, P c') : ∀ c' ∈ side.join [(side.column first last, c)] cells, P c' := by
    intro c' hc
    rcases Side.mem_join.1 hc with hc | hc
    · rwa [List.mem_singleton.1 hc]
    · exact hrest c' hc
  have hend {v : Vertex} (hv : d.web.Has v) : d'.web.IsEnd v ↔ d.web.IsEnd v := by
    rw [Web.IsEnd, hkind v (hold hv), Web.IsEnd]
  have hfirst_le := h.first_le
  have hle_last := h.le_last
  exact {
    coherent := hd'
    wires := hwires.trans h.wires
    threaded := by
      rw [hflat]
      exact hthreaded
    shown := hmem hshown fun c' hc => (h.shown c' hc).congr (fun v hv => hkind v (hothers hc hv))
      (fun v hv => hphase v (hothers hc hv)) fun v hv => hbeside v (hothers hc hv)
    inside := fun v => by
      rw [hflat, Side.mem_join, ← h.inside, hhas]
      constructor
      · rintro ⟨hv | hv, hve⟩
        · exact .inl hv
        · exact .inr ⟨hv, fun he => hve ((hend hv).2 he)⟩
      · rintro (hv | ⟨hv, hve⟩)
        · exact ⟨.inl hv, (hshown.has v hv).2⟩
        · exact ⟨.inr hv, fun he => hve ((hend hv).1 he)⟩
    nodup := by
      rw [hflat]
      have hnodup : c.spiders.Nodup := hsorted.imp Nat.ne_of_lt
      have hdisj : ∀ v ∈ c.spiders, v ∉ cells.flatMap (·.2.spiders) := fun v hv hmem =>
        hfresh v hv ((h.inside v).2 hmem).1
      cases side with
      | front => exact List.nodup_append'.2 ⟨hnodup, h.nodup, hdisj⟩
      | back => exact List.nodup_append'.2 ⟨h.nodup, hnodup, fun v hv hv' => hdisj v hv' hv⟩
    sorted := hmem hsorted h.sorted
    column := hmem (fun v hv => by rw [hcolumn, if_pos hv]) fun c' hc v hv => by
      rw [hcolumn, if_neg (hothers hc hv)]
      exact h.column c' hc v hv
    column_output := fun v hv => by
      rw [houtputs] at hv
      have hvh : d.web.Has v := Web.has_of_kind ((h.threaded.outputs v).1 hv)
      rw [hcolumn, if_neg (hold hvh)]
      exact h.column_output v hv
    ordered := by
      cases side with
      | front =>
        refine List.pairwise_cons.2 ⟨fun c' hc => ?_, h.ordered⟩
        have := (h.range c' hc).1
        simp only [Side.column]
        omega
      | back =>
        refine List.pairwise_append.2 ⟨h.ordered, List.pairwise_singleton _ _, fun c' hc x hx => ?_⟩
        have := (h.range c' hc).2
        rw [List.mem_singleton.1 hx]
        simp only [Side.column]
        omega
    range := by
      refine hmem ⟨min_le_right _ _, le_max_right _ _⟩ fun c' hc => ?_
      obtain ⟨hlow, hhigh⟩ := h.range c' hc
      exact ⟨(min_le_left _ _).trans hlow, hhigh.trans (le_max_left _ _)⟩
    first_eq := hfirst.trans Floating.Number.least_ofInteger
    last_eq := hlast.trans Floating.Number.greatest_ofInteger
    first_le := (min_le_left _ _).trans hfirst_le
    le_last := hle_last.trans (le_max_left _ _) }

end

/-! ### Putting a gate onto the wires -/

omit side in
theorem boundary_terminal {side : Side} (hq : q < (d.web.terminals side).length) :
    d.boundary side q = .ok (d.web.terminal side q) := by
  cases side
  · exact boundary_front (Web.getElem?_terminals hq)
  · exact boundary_back (Web.getElem?_terminals hq)

theorem boundary_eq (h : d.web.Threaded n lines beside spots) (hq : q < n) :
    d.boundary side q = .ok (d.web.terminal side q) :=
  boundary_terminal (h.length side ▸ hq)

/-- A spider put onto a thread. -/
theorem exists_thread (hd : d.Coherent) (h : d.web.Threaded n lines beside spots) (hq : q < n)
    (hκ : κ.isBoundary = false) (p : Phase) (column : Double) : ∃ d' u,
      d.splice side q κ p column = .ok (d.web.next, d') ∧ d'.Coherent ∧
      d'.web = d.web.splice (d.web.terminal side q) u κ p ∧
      d'.web.Threaded n lines beside (side.join [(d.web.next, lines side q)] spots) ∧
      d'.layout = d.layout.place d.web.next (some q) (some column) := by
  obtain ⟨u, ht, -⟩ := h.exists_tied side hq
  obtain ⟨d', hok, hd', hw', hl'⟩ := exists_splice (κ := κ) (p := p) hd (boundary_eq side h hq) ht column
  exact ⟨d', u, hok, hd', hw', hw' ▸ h.splice hq ht hκ, hl'⟩

section

variable (h : d.Written n lines beside cells first last)
include h

theorem Written.beside_next {v : Vertex} (hv : ¬d.web.Has v) : beside v = [] :=
  List.eq_nil_iff_forall_not_mem.2 fun x hx => hv (h.threaded.beside_spider v x hx).1.1

/-- A gate on one wire. -/
theorem Written.exists_wire (hsize : last - first + 1 < 2 ^ 53) (hq : q < n)
    (hκ : κ.isBoundary = false) (p : Phase) : ∃ d',
      (do return (← d.splice side q κ p (d.freshColumn side)).2) = .ok d' ∧
      d'.Written n lines beside
        (side.join [(side.column first last, .wire κ p d.web.next (lines side q))] cells)
        (min first (side.column first last)) (max last (side.column first last)) := by
  obtain ⟨d', u, hok, hd', hw', hthreaded, hl'⟩ := exists_thread side h.coherent h.threaded
    hq hκ p (d.freshColumn side)
  have hnew := h.coherent.valid.not_has_next
  rw [h.freshColumn side hsize] at hok hl'
  refine ⟨d', ?_, h.extend side hd' hthreaded (.wire hκ ?_ ?_ (h.beside_next hnew)) rfl
    (fun v hv => ?_) (fun v hv => ?_) (fun _ _ => rfl) ?_ ?_ (fun v => ?_) ?_ ?_⟩
  · rw [h.freshColumn side hsize, hok]
    rfl
  · rw [hw', Web.kind_splice, update_self]
  · intro hcol
    rw [hw']
    exact (update_self _ _ _).trans (if_pos hcol)
  · rw [hw', Web.kind_splice, update_of_ne (List.mem_singleton.not.1 hv)]
  · rw [hw']
    exact update_of_ne (List.mem_singleton.not.1 hv) _ _
  · exact congrArg Web.outputs hw'
  · rw [hl', Layout.wires_place]
  · rw [column?, hl', Layout.column?_place, Cell.spiders]
    simp only [List.mem_singleton, eq_comm]
    rfl
  · rw [hl', Layout.first_place, h.first_eq]
  · rw [hl', Layout.last_place, h.last_eq]

/-- The spiders of a gate on two wires, before they are joined. -/
theorem Written.exists_pair (column : Double) (hq : q < n) (hr : r < n) (hqr : q ≠ r)
    (hκ : κ.isPhased = true) :
    ∃ d₁ d₂, d.splice side q .z .zero column = .ok (d.web.next, d₁) ∧
      d₁.splice side r κ .zero column = .ok (d.web.next + 1, d₂) ∧ d₂.Coherent ∧
      d₂.web.next = d.web.next + 2 ∧ d₂.outputs = d.outputs ∧
      (∀ v, d₂.web.kind v = if v = d.web.next + 1 then some κ else
        if v = d.web.next then some .z else d.web.kind v) ∧
      (∀ v, d₂.web.phase v = if v = d.web.next + 1 then .zero else
        if v = d.web.next then .zero else d.web.phase v) ∧
      d₂.web.Threaded n lines beside (side.join
        [(d.web.next, lines side q), (d.web.next + 1, lines side r)] (cells.flatMap (·.2.spots))) ∧
      d₂.layout = (d.layout.place d.web.next (some q) (some column)).place (d.web.next + 1) (some r)
        (some column) := by
  obtain ⟨d₁, u, hok₁, hd₁, hw₁, hthreaded₁, hl₁⟩ := exists_thread side h.coherent
    h.threaded hq (κ := .z) rfl .zero column
  obtain ⟨d₂, u', hok₂, hd₂, hw₂, hthreaded₂, hl₂⟩ := exists_thread side hd₁ hthreaded₁ hr
    (SpiderKind.isBoundary_of_isPhased hκ) .zero column
  have hnext : d₁.web.next = d.web.next + 1 := by rw [hw₁]; rfl
  rw [hnext] at hok₂ hthreaded₂ hl₂
  refine ⟨d₁, d₂, hok₁, hok₂, hd₂, ?_, ?_, fun v => ?_, fun v => ?_, ?_, by rw [hl₂, hl₁]⟩
  · rw [hw₂, Web.next_splice, hnext]
  · exact (congrArg Web.outputs hw₂).trans (congrArg Web.outputs hw₁)
  · rw [hw₂, Web.kind_splice, hnext, hw₁, Web.kind_splice, Function.update_apply,
      Function.update_apply]
  · rw [hw₂]
    change update d₁.web.phase d₁.web.next (if κ.isPhased then .zero else .zero) v = _
    rw [hnext, hw₁, ite_self, Function.update_apply]
    refine if_congr Iff.rfl rfl ?_
    change update d.web.phase d.web.next .zero v = _
    rw [Function.update_apply]
  · exact hthreaded₂.pair fun he => hqr ((lines side).injective he)

omit h in
theorem mem_join_pair (x y : Vertex × ℕ) (l : List (Vertex × ℕ)) :
    x ∈ side.join [x, y] l ∧ y ∈ side.join [x, y] l :=
  ⟨Side.mem_join.2 (.inl List.mem_cons_self),
    Side.mem_join.2 (.inl (List.mem_cons_of_mem _ List.mem_cons_self))⟩

/-- A controlled NOT. -/
theorem Written.exists_cnot (hsize : last - first + 1 < 2 ^ 53) (hq : q < n) (hr : r < n)
    (hqr : q ≠ r) : ∃ d' beside',
      d.attachUnchecked side .cnot [q, r] .zero = .ok d' ∧ d'.Written n lines beside'
        (side.join [(side.column first last,
          .cnot .zero .zero d.web.next (d.web.next + 1) (lines side q) (lines side r))] cells)
        (min first (side.column first last)) (max last (side.column first last)) := by
  obtain ⟨d₁, d₂, hok₁, hok₂, hd₂, hn₂, hout₂, hkind, hphase, hthreaded₂, hl₂⟩ :=
    h.exists_pair side (κ := .x) (d.freshColumn side) hq hr hqr rfl
  set a := d.web.next with ha
  have hval := h.coherent.valid
  have hnew : ¬d.web.Has a := hval.not_has_next
  have hnew' : ¬d.web.Has (a + 1) := fun hv => Nat.not_succ_lt_self (hval.lt _ hv)
  have hold {v : Vertex} (hv : v ∉ [a, a + 1]) : v ≠ a ∧ v ≠ a + 1 :=
    not_or.1 (List.mem_pair.not.1 hv)
  have hne : a ≠ a + 1 := Nat.ne_of_lt (Nat.lt_succ_self a)
  obtain ⟨hmem, hmem'⟩ := mem_join_pair side (a, lines side q) (a + 1, lines side r)
    (cells.flatMap (·.2.spots))
  obtain ⟨d₃, hok₃, hd₃, hw₃, hl₃⟩ := Gives.addWire hd₂ (s := a) (t := a + 1)
    (hthreaded₂.spider _ hmem).1 (hthreaded₂.spider _ hmem').1 hne
  have hthreaded₃ := hthreaded₂.addEdges hmem hmem' hne
  rw [← hw₃] at hthreaded₃
  have hkind₃ (v : Vertex) : d₃.web.kind v = _ := (congrArg (·.kind v) hw₃).trans (hkind v)
  have hphase₃ (v : Vertex) : d₃.web.phase v = _ := (congrArg (·.phase v) hw₃).trans (hphase v)
  rw [h.freshColumn side hsize] at hl₂
  rw [hl₂] at hl₃
  refine ⟨d₃, _, ?_, h.extend side hd₃ hthreaded₃ (.cnot hne
    (fun he => hqr ((lines side).injective he)) ?_ ?_ ?_ ?_ ?_ ?_) rfl
    (fun v hv => ?_) (fun v hv => ?_) (fun v hv => ?_) ?_ ?_ (fun v => ?_) ?_ ?_⟩
  · change (d.splice side q .z .zero _ >>= fun c => c.2.splice side r .x .zero _ >>= fun t =>
      t.2.addWire c.1 t.1) = _
    rw [hok₁]
    change (d₁.splice side r .x .zero _ >>= fun t => t.2.addWire a t.1) = _
    rw [hok₂]
    exact hok₃
  · rw [hkind₃, if_neg hne, if_pos rfl]
  · rw [hkind₃, if_pos rfl]
  · rw [hphase₃, if_neg hne, if_pos rfl]
  · rw [hphase₃, if_pos rfl]
  · rw [h.beside_next hnew, if_pos rfl]
    rfl
  · rw [h.beside_next hnew', if_neg hne.symm, if_pos rfl]
    rfl
  · rw [hkind₃, if_neg (hold hv).2, if_neg (hold hv).1]
  · rw [hphase₃, if_neg (hold hv).2, if_neg (hold hv).1]
  · rw [if_neg (hold hv).1, if_neg (hold hv).2, List.append_nil]
  · exact (congrArg Web.outputs hw₃).trans hout₂
  · rw [hl₃, Layout.wires_place, Layout.wires_place]
  · rw [column?, hl₃, Layout.column?_place, Layout.column?_place]
    simp only [Cell.spiders, List.mem_cons, List.not_mem_nil, or_false, eq_comm (a := v)]
    by_cases h₁ : a + 1 = v <;> by_cases h₂ : a = v <;> simp [h₁, h₂, column?]
  · rw [hl₃, Layout.first_place, Layout.first_place, h.first_eq,
      Floating.Number.least_ofInteger, Floating.Number.least_ofInteger, min_assoc, min_self]
  · rw [hl₃, Layout.last_place, Layout.last_place, h.last_eq,
      Floating.Number.greatest_ofInteger, Floating.Number.greatest_ofInteger, max_assoc, max_self]

/-- A controlled Z. -/
theorem Written.exists_cz (hsize : last - first + 1 < 2 ^ 53) (hq : q < n) (hr : r < n)
    (hqr : q ≠ r) : ∃ d' beside',
      d.attachUnchecked side .cz [q, r] .zero = .ok d' ∧ d'.Written n lines beside'
        (side.join [(side.column first last, .cz .zero .zero d.web.next (d.web.next + 1)
          (d.web.next + 2) (lines side q) (lines side r))] cells)
        (min first (side.column first last)) (max last (side.column first last)) := by
  obtain ⟨d₁, d₂, hok₁, hok₂, hd₂, hn₂, hout₂, hkind, hphase, hthreaded₂, hl₂⟩ :=
    h.exists_pair side (κ := .z) (d.freshColumn side) hq hr hqr rfl
  set a := d.web.next with ha
  have hval := h.coherent.valid
  have hnew : ¬d.web.Has a := hval.not_has_next
  have hnew' : ¬d.web.Has (a + 1) := fun hv => Nat.not_succ_lt_self (hval.lt _ hv)
  have hold {v : Vertex} (hv : v ∉ [a, a + 1, a + 2]) : v ≠ a ∧ v ≠ a + 1 ∧ v ≠ a + 2 := by
    simpa using hv
  have hne : a ≠ a + 1 := Nat.ne_of_lt (Nat.lt_succ_self a)
  have hne' : a ≠ a + 2 := Nat.ne_of_lt (Nat.lt_succ_of_lt (Nat.lt_succ_self a))
  have hne'' : a + 1 ≠ a + 2 := Nat.ne_of_lt (Nat.lt_succ_self (a + 1))
  obtain ⟨hmem, hmem'⟩ := mem_join_pair side (a, lines side q) (a + 1, lines side r)
    (cells.flatMap (·.2.spots))
  have hah := (hthreaded₂.spider _ hmem).1
  have hbh := (hthreaded₂.spider _ hmem').1
  -- the box between the two spiders, which is on no thread
  obtain ⟨d₃, hok₃, hd₃, hw₃, hl₃⟩ := Gives.addSpider hd₂ .box .zero (l := [a, a + 1])
    fun x hx => by rcases List.mem_pair.1 hx with rfl | rfl <;> assumption
  have hthreaded₃ := hthreaded₂.addBetween (κ := .box) (p := .zero) hmem hmem' hne rfl
  change d₃.web = d₂.web.addBetween a (a + 1) .box .zero at hw₃
  rw [hn₂] at hok₃
  rw [← hw₃, hn₂] at hthreaded₃
  have hkind₃ (v : Vertex) : d₃.web.kind v = if v = a + 2 then some .box else
      if v = a + 1 then some .z else if v = a then some .z else d.web.kind v := by
    rw [hw₃, Web.kind_addBetween, hn₂, Function.update_apply, hkind]
  have hphase₃ (v : Vertex) : d₃.web.phase v = if v = a + 2 then .zero else
      if v = a + 1 then .zero else if v = a then .zero else d.web.phase v := by
    rw [hw₃]
    change update d₂.web.phase d₂.web.next .zero v = _
    rw [hn₂, Function.update_apply, hphase]
  rw [h.freshColumn side hsize] at hl₂
  rw [hl₂] at hl₃
  set col : Double := ofInteger (side.column first last) with hcol
  refine ⟨d₃.place (a + 2) none (some col), _, ?_, h.extend side (hd₃.place _ _ _) hthreaded₃
    (.cz hne
    (fun he => hqr ((lines side).injective he)) ?_ ?_ ?_ ?_ ?_ ?_ ?_ ?_) rfl
    (fun v hv => ?_) (fun v hv => ?_) (fun v hv => ?_) ?_ ?_ (fun v => ?_) ?_ ?_⟩
  · change (d.splice side q .z .zero _ >>= fun a => a.2.splice side r .z .zero _ >>= fun b =>
      b.2.addSpider .box .zero [a.1, b.1] >>= fun h => .ok (h.2.place h.1 none _)) = _
    rw [hok₁]
    change (d₁.splice side r .z .zero _ >>= fun b =>
      b.2.addSpider .box .zero [a, b.1] >>= fun h => .ok (h.2.place h.1 none _)) = _
    rw [hok₂]
    change (d₂.addSpider .box .zero [a, a + 1] >>= fun h => .ok (h.2.place h.1 none _)) = _
    rw [hok₃, hcol, ← h.freshColumn side hsize]
    rfl
  · rw [web_place, hkind₃, if_neg hne', if_neg hne, if_pos rfl]
  · rw [web_place, hkind₃, if_neg hne'', if_pos rfl]
  · rw [web_place, hkind₃, if_pos rfl]
  · rw [web_place, hphase₃, if_neg hne', if_neg hne, if_pos rfl]
  · rw [web_place, hphase₃, if_neg hne'', if_pos rfl]
  · rw [h.beside_next hnew, if_neg hne', if_pos (.inl rfl)]
    rfl
  · rw [h.beside_next hnew', if_neg hne'', if_pos (.inr rfl)]
    rfl
  · rw [if_pos rfl]
  · rw [web_place, hkind₃, if_neg (hold hv).2.2, if_neg (hold hv).2.1, if_neg (hold hv).1]
  · rw [web_place, hphase₃, if_neg (hold hv).2.2, if_neg (hold hv).2.1, if_neg (hold hv).1]
  · rw [if_neg (hold hv).2.2, if_neg (not_or.2 ⟨(hold hv).1, (hold hv).2.1⟩), List.append_nil]
  · exact (congrArg Web.outputs hw₃).trans hout₂
  · rw [Diagram.place, Layout.wires_place, hl₃, Layout.wires_place, Layout.wires_place]
  · rw [column?, Diagram.place, Layout.column?_place, hl₃, Layout.column?_place,
      Layout.column?_place]
    simp only [Cell.spiders, List.mem_cons, List.not_mem_nil, or_false, eq_comm (a := v)]
    by_cases h₁ : a + 1 = v <;> by_cases h₂ : a = v <;> by_cases h₃ : a + 2 = v <;>
      simp [h₁, h₂, h₃, column?, hcol]
  · rw [Diagram.place, Layout.first_place, hl₃, Layout.first_place, Layout.first_place, h.first_eq,
      hcol]
    simp only [Floating.Number.least_ofInteger, min_assoc, min_self]
  · rw [Diagram.place, Layout.last_place, hl₃, Layout.last_place, Layout.last_place, h.last_eq,
      hcol]
    simp only [Floating.Number.greatest_ofInteger, max_assoc, max_self]

/-- Two wires that cross at a side. -/
theorem Written.exists_swap (hq : q < n) (hr : r < n) (hqr : q ≠ r) : ∃ d',
    d.attachUnchecked side .swap [q, r] .zero = .ok d' ∧
      d'.Written n (update lines side (lines side * Equiv.swap q r)) beside cells first last := by
  obtain ⟨u, ht, hu⟩ := h.threaded.exists_tied side hq
  obtain ⟨u', ht', hu'⟩ := h.threaded.exists_tied side hr
  have hne : d.web.terminal side q ≠ d.web.terminal side r := fun he =>
    hqr ((h.threaded.terminal_inj side hq hr).1 he)
  obtain ⟨d', hok, hd', hw', hl'⟩ := exists_crossWires h.coherent (boundary_eq side h.threaded hq)
    (boundary_eq side h.threaded hr) hne ht (fun he => hu (he ▸ h.threaded.terminal_mem side hr)) ht'
    fun he => hu' (he ▸ h.threaded.terminal_mem side hq)
  have hthreaded := h.threaded.cross hq hr hqr ht ht' hu hu'
  rw [← hw'] at hthreaded
  have hkind (v : Vertex) : d'.web.kind v = d.web.kind v := by rw [hw']; rfl
  have hphase (v : Vertex) : d'.web.phase v = d.web.phase v := by rw [hw']; rfl
  have houtputs : d'.outputs = d.outputs := congrArg Web.outputs hw'
  refine ⟨d', hok, {
    coherent := hd'
    wires := hl' ▸ h.wires
    threaded := hthreaded
    shown := fun c hc => (h.shown c hc).congr (fun v _ => hkind v) (fun v _ => hphase v)
      fun _ _ => rfl
    inside := fun v => by
      rw [Web.Has, Web.IsEnd, hkind]
      exact h.inside v
    nodup := h.nodup
    sorted := h.sorted
    column := fun c hc v hv => by
      rw [column?, hl']
      exact h.column c hc v hv
    column_output := fun v hv => by
      rw [column?, hl']
      exact h.column_output v (houtputs ▸ hv)
    ordered := h.ordered
    range := h.range
    first_eq := hl' ▸ h.first_eq
    last_eq := hl' ▸ h.last_eq
    first_le := h.first_le
    le_last := h.le_last }⟩

/-- No spider is in two cells. -/
theorem Written.eq_of_mem_spiders {c c' : ℤ × Cell} {v : Vertex} (hc : c ∈ cells) (hc' : c' ∈ cells)
    (hv : v ∈ c.2.spiders) (hv' : v ∈ c'.2.spiders) : c = c' :=
  eq_of_mem_flatMap h.nodup hc hc' hv hv'

/-- The box of a controlled Z is next to its two Z spiders. -/
theorem Written.wiredTo_box {k : ℤ} {p p' : Phase} {a b m : Vertex} {s t : ℕ}
    (hc : (k, .cz p p' a b m s t) ∈ cells) : d.web.WiredTo m [a, b] := by
  have hshown := h.shown _ hc
  cases hshown with
  | cz _ _ ha hb hm _ _ _ _ hbox =>
    rw [← hbox]
    refine h.threaded.loose m (Web.has_of_kind hm) (Web.not_isEnd_of_kind hm rfl) fun t' hspot => ?_
    obtain ⟨c', hc', hspot⟩ := List.mem_flatMap.1 hspot
    obtain rfl := h.eq_of_mem_spiders hc hc' (v := m) (by simp [Cell.spiders])
      (Cell.spiders_of_spots hspot)
    exact Cell.notMem_spots_box (Cell.ne_of_kind hm ha (by decide))
      (Cell.ne_of_kind hm hb (by decide)) t' hspot

/-- Putting a gate onto the wires adds a cell, or lets wires cross. -/
theorem Written.exists_attach (hsize : last - first + 1 < 2 ^ 53) {g : Gate} (hg : g.Valid n)
    (hp : g.kind.hasPhase = false → g.phase = .zero) : ∃ d' beside' cells' first' last',
      d.attachUnchecked side g.kind g.qubits g.phase = .ok d' ∧
      d'.Written n (update lines side (lines side * g.crossing)) beside' cells' first' last' ∧
      last' - first' ≤ last - first + 1 ∧ (cells'.map (·.2.gate) =
        side.join (if g.kind = .swap then [] else [g.relabel (lines side)])
          (cells.map (·.2.gate))) ∧ ∀ c ∈ cells', c ∈ cells ∨ c.2.Still := by
  have one := hg.exists_one
  have two := hg.exists_two
  have hwidth : max last (side.column first last) - min first (side.column first last) ≤
      last - first + 1 := by
    have := h.first_le
    have := h.le_last
    cases side <;> simp only [Side.column] <;> omega
  have hmap (c : Cell) (hc : c.Still) :
      ((side.join [(side.column first last, c)] cells).map (·.2.gate) =
        side.join [c.gate] (cells.map (·.2.gate))) ∧
      ∀ c' ∈ side.join [(side.column first last, c)] cells, c' ∈ cells ∨ c'.2.Still := by
    refine ⟨by cases side <;> simp [Side.join], fun c' hc' => ?_⟩
    rcases Side.mem_join.1 hc' with hc' | hc'
    · exact .inr (List.mem_singleton.1 hc' ▸ hc)
    · exact .inl hc'
  -- no gate but a swap lets wires cross
  have keep {d' : Diagram} {beside' : Vertex → List Vertex} {cells' : List (ℤ × Cell)} {x y : ℤ}
      (hd' : d'.Written n lines beside' cells' x y) :
      d'.Written n (update lines side (lines side * 1)) beside' cells' x y := by
    rwa [mul_one, Function.update_eq_self]
  obtain ⟨kind, qubits, p⟩ := g
  cases kind with
  | zPhase =>
    obtain ⟨q, rfl, hq⟩ := one rfl
    obtain ⟨d', hok, hd'⟩ := h.exists_wire side hsize hq (κ := .z) rfl p
    exact ⟨d', beside, _, _, _, hok, keep hd', hwidth, hmap _ Cell.still_wire⟩
  | xPhase =>
    obtain ⟨q, rfl, hq⟩ := one rfl
    obtain ⟨d', hok, hd'⟩ := h.exists_wire side hsize hq (κ := .x) rfl p
    exact ⟨d', beside, _, _, _, hok, keep hd', hwidth, hmap _ Cell.still_wire⟩
  | hadamard =>
    obtain ⟨q, rfl, hq⟩ := one rfl
    obtain rfl : p = .zero := hp rfl
    obtain ⟨d', hok, hd'⟩ := h.exists_wire side hsize hq (κ := .box) rfl .zero
    exact ⟨d', beside, _, _, _, hok, keep hd', hwidth, hmap _ Cell.still_wire⟩
  | cnot =>
    obtain ⟨q, r, rfl, hq, hr, hqr⟩ := two rfl
    obtain rfl : p = .zero := hp rfl
    obtain ⟨d', beside', hok, hd'⟩ := h.exists_cnot side hsize hq hr hqr
    exact ⟨d', beside', _, _, _, hok, keep hd', hwidth, hmap _ Cell.still_cnot⟩
  | cz =>
    obtain ⟨q, r, rfl, hq, hr, hqr⟩ := two rfl
    obtain rfl : p = .zero := hp rfl
    obtain ⟨d', beside', hok, hd'⟩ := h.exists_cz side hsize hq hr hqr
    exact ⟨d', beside', _, _, _, hok, keep hd', hwidth, hmap _ Cell.still_cz⟩
  | swap =>
    obtain ⟨q, r, rfl, hq, hr, hqr⟩ := two rfl
    obtain rfl : p = .zero := hp rfl
    obtain ⟨d', hok, hd'⟩ := h.exists_swap side hq hr hqr
    refine ⟨d', beside, cells, first, last, hok, hd', by omega, ?_, fun c hc => .inl hc⟩
    cases side <;> simp [Side.join]

end

end Diagram

end ZXRewriting
