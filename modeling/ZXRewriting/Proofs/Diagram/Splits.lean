import ZXRewriting.Proofs.Semantics.Spiders

/-!
# Spiders on wires

Splitting wires with new spiders, as a function on webs (`Web.insertSpider`), what the program gives
(`Yields.insertSpider`), and what it does to the weights: a new spider on a wire is, once its bit is
summed over, the factor between the two ends (`sumOver_insertAround`).
-/

namespace ZXRewriting

open Function (update update_self update_of_ne)
open Multigraph (SamePair)

namespace Web

variable {w w' : Web} {s t u v : Vertex} {kind : SpiderKind} {p : Phase} {m : ℕ} {us : List Vertex}
  {τ : Vertex → ℂ} {b : Bits}

/-- Adds a spider with a wire to each of two others. -/
def addBetween (w : Web) (s t : Vertex) (kind : SpiderKind) (p : Phase) : Web :=
  ((w.addNode kind p).addEdges w.next s .plain 1).addEdges w.next t .plain 1

/-- Adds spiders with a wire to each of two others. -/
def addSplits (w : Web) (s t : Vertex) (kind : SpiderKind) (p : Phase) : ℕ → Web
  | 0 => w
  | m + 1 => (w.addBetween s t kind p).addSplits s t kind p m

/-- Splits every wire between two spiders with a new spider. -/
def insertSpider (w : Web) (s t : Vertex) (kind : SpiderKind) (p : Phase) : Web :=
  (w.cut s t).addSplits s t kind p (w.count s t .plain)

/-- Splits every wire from a spider to some others. -/
def insertAround (w : Web) (v : Vertex) (us : List Vertex) (kind : SpiderKind) (p : Phase) : Web :=
  us.foldl (fun w u => w.insertSpider v u kind p) w

/-- Removes the edges from a vertex to some others. -/
def cutAround (w : Web) (v : Vertex) (us : List Vertex) : Web := us.foldl (fun w u => w.cut v u) w

/-! ### What there is -/

@[simp] theorem next_addBetween : (w.addBetween s t kind p).next = w.next + 1 := rfl

@[simp] theorem kind_addBetween :
    (w.addBetween s t kind p).kind = update w.kind w.next (some kind) := rfl

theorem next_addSplits : (w.addSplits s t kind p m).next = w.next + m := by
  induction m generalizing w with
  | zero => rfl
  | succ m ih => rw [addSplits, ih, next_addBetween, Nat.add_right_comm, Nat.add_assoc]

theorem kind_addSplits (hu : u < w.next) : (w.addSplits s t kind p m).kind u = w.kind u := by
  induction m generalizing w with
  | zero => rfl
  | succ m ih =>
    rw [addSplits, ih (Nat.lt_succ_of_lt hu), kind_addBetween, update_of_ne (Nat.ne_of_lt hu)]

theorem kind_new_addSplits {n : ℕ} (hu : w.next ≤ n) (hlt : n < w.next + m) :
    (w.addSplits s t kind p m).kind n = some kind := by
  induction m generalizing w with
  | zero => omega
  | succ m ih =>
    rw [addSplits]
    rcases Nat.eq_or_lt_of_le hu with rfl | hu
    · rw [kind_addSplits (Nat.lt_succ_self _), kind_addBetween, update_self]
    · exact ih hu (by rw [next_addBetween]; omega)

/-- The ends of a new spider are where they were. -/
theorem Valid.addBetween (hw : w.Valid) (hs : w.Has s) (ht : w.Has t) :
    (w.addBetween s t kind p).Valid := by
  have hn : (w.addNode kind p).Has w.next := has_addNode_next
  have h₁ := (hw.addNode kind p).setCount hn (hw.has_addNode hs) (hw.ne_next hs).symm
    fun k' => (w.addNode kind p).count w.next s k' + if .plain = k' then 1 else 0
  exact h₁.setCount hn (hw.has_addNode (p := p) ht) (hw.ne_next ht).symm _

theorem Valid.has_addBetween (hw : w.Valid) (hu : w.Has u) : (w.addBetween s t kind p).Has u :=
  hw.has_addNode (p := p) hu

theorem Valid.addSplits (hw : w.Valid) (hs : w.Has s) (ht : w.Has t) :
    (w.addSplits s t kind p m).Valid := by
  induction m generalizing w with
  | zero => exact hw
  | succ m ih => exact ih (hw.addBetween hs ht) (hw.has_addBetween hs) (hw.has_addBetween ht)

/-! ### Edits next to each other -/

/-- The number of edges, with a new spider on a wire. -/
theorem Valid.count_addBetween (hw : w.Valid) (hs : w.Has s) (ht : w.Has t) (hst : s ≠ t)
    (a b : Vertex) (k : EdgeKind) : (w.addBetween s t kind p).count a b k =
      if SamePair a b w.next s ∨ SamePair a b w.next t then if k = .plain then 1 else 0
      else w.count a b k := by
  have hs' := hw.ne_next hs
  have ht' := hw.ne_next ht
  have hnone := hw.count_next
  have hnone' (x : Vertex) (k : EdgeKind) : w.count x w.next k = 0 :=
    (hw.symm _ _ _).trans (hnone x k)
  simp only [Web.addBetween, addEdges, Web.setCount, count_addNode, SamePair]
  split
  · next h => grind
  · next h => grind

theorem Valid.cut_addBetween (hw : w.Valid) (hs : w.Has s) (ht : w.Has t) (hst : s ≠ t)
    (hu : w.Has u) (hv : w.Has v) (huv : u ≠ v) :
    (w.addBetween s t kind p).cut u v = (w.cut u v).addBetween s t kind p := by
  have hu' := hw.ne_next hu
  have hv' := hw.ne_next hv
  have hcut : (w.cut u v).Valid := hw.setCount hu hv huv _
  refine Web.ext rfl rfl rfl (funext fun a => funext fun b => funext fun k => ?_) rfl rfl rfl
  rw [hcut.count_addBetween hs ht hst]
  change (if SamePair a b u v then 0 else (w.addBetween s t kind p).count a b k) =
    if _ then _ else if SamePair a b u v then 0 else w.count a b k
  rw [hw.count_addBetween hs ht hst]
  simp only [SamePair, next_setCount, Web.cut] at *
  grind

theorem Valid.cut (hw : w.Valid) (hu : w.Has u) (hv : w.Has v) (huv : u ≠ v) : (w.cut u v).Valid :=
  hw.setCount hu hv huv _

theorem Valid.cut_addSplits (hw : w.Valid) (hs : w.Has s) (ht : w.Has t) (hst : s ≠ t)
    (hu : w.Has u) (hv : w.Has v) (huv : u ≠ v) :
    (w.addSplits s t kind p m).cut u v = (w.cut u v).addSplits s t kind p m := by
  induction m generalizing w with
  | zero => rfl
  | succ m ih =>
    rw [Web.addSplits, Web.addSplits, ih (hw.addBetween hs ht) (hw.has_addBetween hs)
      (hw.has_addBetween ht) (hw.has_addBetween hu) (hw.has_addBetween hv),
      hw.cut_addBetween hs ht hst hu hv huv]

theorem Valid.remove_addBetween (hw : w.Valid) (hs : w.Has s) (ht : w.Has t) (hst : s ≠ t)
    (hv : w.Has v) (hsv : s ≠ v) (htv : t ≠ v) :
    (w.addBetween s t kind p).remove v = (w.remove v).addBetween s t kind p := by
  have hvn := hw.ne_next hv
  have hold {u : Vertex} (hu : w.Has u) (h : u ≠ v) : (w.remove v).Has u := by
    rw [Has, kind_remove, update_of_ne h]
    exact hu
  refine Web.ext rfl (funext fun u => ?_) (funext fun u => ?_)
    (funext fun a => funext fun b => funext fun k => ?_) rfl rfl (funext fun u => ?_)
  · change update (update w.kind w.next _) v none u = update (update w.kind v none) w.next _ u
    rw [Function.update_comm hvn]
  · change update (update w.phase w.next _) v .zero u = update (update w.phase v .zero) w.next _ u
    rw [Function.update_comm hvn]
  · rw [(hw.remove v).count_addBetween (hold hs hsv) (hold ht htv) hst]
    change (if a = v ∨ b = v then 0 else (w.addBetween s t kind p).count a b k) =
      if SamePair a b w.next s ∨ SamePair a b w.next t then _
      else if a = v ∨ b = v then 0 else w.count a b k
    rw [hw.count_addBetween hs ht hst]
    simp only [SamePair]
    grind
  · change update (if kind.isPhased then update w.carrier w.next (some ⟨w.next, 1⟩) else w.carrier) v
      none u = (if kind.isPhased then update (update w.carrier v none) w.next (some ⟨w.next, 1⟩)
        else update w.carrier v none) u
    split
    · rw [Function.update_comm hvn]
    · rfl

/-- Changes the kind of a spider, and nothing else. -/
def paint (w : Web) (v : Vertex) (kind : SpiderKind) : Web :=
  { w with kind := update w.kind v (some kind) }

theorem has_paint (hv : w.Has v) {kind : SpiderKind} : (w.paint v kind).Has u ↔ w.Has u := by
  rw [Has, show (w.paint v kind).kind = update w.kind v (some kind) from rfl,
    Function.update_apply]
  split
  · next h => simp [h, hv]
  · rfl

theorem Valid.paint (hw : w.Valid) (hv : w.Has v) (kind : SpiderKind) : (w.paint v kind).Valid :=
  ⟨fun u hu => hw.lt u ((has_paint hv).1 hu), hw.symm, hw.self,
    fun s t k h => (has_paint hv).2 (hw.has s t k h)⟩

theorem Valid.paint_addBetween (hw : w.Valid) (hv : w.Has v) (kind' : SpiderKind) :
    (w.addBetween s t kind p).paint v kind' = (w.paint v kind').addBetween s t kind p := by
  refine Web.ext rfl (funext fun u => ?_) rfl rfl rfl rfl rfl
  change update (update w.kind w.next _) v _ u = update (update w.kind v _) w.next _ u
  rw [Function.update_comm (hw.ne_next hv)]

/-! ### Weights -/

theorem tensors_update_next (b : Bits) (x : Bool) :
    (w.tensors τ).weight (update b w.next x) = (w.tensors τ).weight b :=
  Network.weight_congr (fun _ hv => update_of_ne (Nat.ne_of_lt (mem_tensors_inner.1 hv).1.1) _ _)
    fun _ hv => update_of_ne (Nat.ne_of_lt hv) _ _

/-- A new spider between two others. -/
theorem Valid.sum_addBetween (hw : w.Valid) (hs : w.Has s) (ht : w.Has t)
    (hkind : kind.isBoundary = false) (b : Bits) :
    ((w.addBetween s t kind p).tensors τ).weight (update b w.next false) +
        ((w.addBetween s t kind p).tensors τ).weight (update b w.next true) =
      (w.tensors τ).weight b *
        kind.bridge (kind.factor (if kind.isPhased then p else .zero) * τ w.next) .plain .plain
          (w.leg s (b s)) (w.leg t (b t)) := by
  have hn : (w.addNode kind p).Has w.next := has_addNode_next
  have hs' : (w.addNode kind p).Has s := hw.has_addNode hs
  have ht' : (w.addNode kind p).Has t := hw.has_addNode ht
  have hsn := hw.ne_next hs
  have htn := hw.ne_next ht
  have h₁ : ((w.addNode kind p).addEdges w.next s .plain 1).Valid :=
    (hw.addNode kind p).setCount hn hs' hsn.symm _
  have hold {u : Vertex} (hu : w.Has u) : (w.addNode kind p).leg u = w.leg u := by
    rw [leg, leg, kindAt, kindAt, kind_addNode, update_of_ne (hw.ne_next hu)]
  have hnew : (w.addNode kind p).leg w.next = kind.leg := by
    rw [leg, kindAt, kind_addNode, update_self]
    rfl
  have hweight (b : Bits) (x : Bool) :
      ((w.addBetween s t kind p).tensors τ).weight (update b w.next x) =
        (w.tensors τ).weight b *
          (if x then kind.factor (if kind.isPhased then p else .zero) * τ w.next else 1) *
          EdgeKind.plain.joint (kind.leg x) (w.leg s (b s)) *
          EdgeKind.plain.joint (kind.leg x) (w.leg t (b t)) := by
    rw [Web.addBetween, h₁.tensors_addEdges hn ht' htn.symm,
      (hw.addNode kind p).tensors_addEdges hn hs' hsn.symm, hw.tensors_addNode hkind,
      tensors_update_next, update_self, update_of_ne hsn, update_of_ne htn, pow_one, pow_one]
    change _ * EdgeKind.plain.joint ((w.addNode kind p).leg w.next x) _ *
      EdgeKind.plain.joint ((w.addNode kind p).leg w.next x) ((w.addNode kind p).leg t (b t)) = _
    rw [hnew, hold hs, hold ht]
  rw [hweight, hweight, SpiderKind.bridge]
  simp only [if_true, Bool.false_eq_true, if_false]
  ring

/-- The factor of the spiders on the wires between two others. -/
noncomputable def spliced (w : Web) (kind : SpiderKind) (p : Phase) (s t : Vertex) (b : Bits) : ℂ :=
  kind.bridge (kind.factor (if kind.isPhased then p else .zero)) .plain .plain (w.leg s (b s))
    (w.leg t (b t))

theorem Valid.sum_addSplits (hw : w.Valid) (hs : w.Has s) (ht : w.Has t)
    (hkind : kind.isBoundary = false) (hτ : ∀ u, w.next ≤ u → τ u = 1) (m : ℕ) (b : Bits) :
    sumOver (Finset.Ico w.next (w.next + m)) ((w.addSplits s t kind p m).tensors τ).weight b =
      (w.tensors τ).weight b * w.spliced kind p s t b ^ m := by
  induction m generalizing w b with
  | zero => simp [Web.addSplits]
  | succ m ih =>
    have hleg {u : Vertex} (hu : w.Has u) : (w.addBetween s t kind p).leg u = w.leg u := by
      rw [leg, leg, kindAt, kindAt, kind_addBetween, update_of_ne (hw.ne_next hu)]
    -- the bit of the first new spider is summed over last
    have hsplit : Finset.Ico w.next (w.next + (m + 1)) =
        Finset.Ico (w.next + 1) (w.next + 1 + m) ∪ {w.next} := by
      ext x
      simp only [Finset.mem_Ico, Finset.mem_union, Finset.mem_singleton]
      omega
    have hdisj : Disjoint (Finset.Ico (w.next + 1) (w.next + 1 + m)) {w.next} := by
      rw [Finset.disjoint_singleton_right, Finset.mem_Ico]
      omega
    have hrest (b : Bits) : sumOver (Finset.Ico (w.next + 1) (w.next + 1 + m))
        ((w.addSplits s t kind p (m + 1)).tensors τ).weight b =
          ((w.addBetween s t kind p).tensors τ).weight b * w.spliced kind p s t b ^ m := by
      have hnext : ∀ u, (w.addBetween s t kind p).next ≤ u → τ u = 1 :=
        fun u hu => hτ u (Nat.le_of_succ_le hu)
      have := ih (hw.addBetween hs ht) (hw.has_addBetween hs) (hw.has_addBetween ht) hnext b
      rw [spliced, hleg hs, hleg ht] at this
      exact this
    have hfree (x : Bool) : w.spliced kind p s t (update b w.next x) = w.spliced kind p s t b := by
      rw [spliced, spliced, update_of_ne (hw.ne_next hs), update_of_ne (hw.ne_next ht)]
    rw [hsplit, sumOver_union hdisj, sumOver_congr fun b' _ => hrest b', sumOver_singleton, hfree,
      hfree, ← add_mul, hw.sum_addBetween hs ht hkind, hτ _ (Nat.le_refl _), mul_one, pow_succ',
      mul_assoc, spliced]

/-! ### Around a spider -/

theorem next_insertSpider :
    (w.insertSpider s t kind p).next = w.next + w.count s t .plain := next_addSplits

theorem Valid.has_addSplits (hw : w.Valid) (hu : w.Has u) : (w.addSplits s t kind p m).Has u := by
  rw [Has, kind_addSplits (hw.lt u hu)]
  exact hu

theorem Valid.has_insertSpider (hw : w.Valid) (hs : w.Has s) (ht : w.Has t) (hst : s ≠ t)
    (hu : w.Has u) : (w.insertSpider s t kind p).Has u :=
  (hw.cut hs ht hst).has_addSplits hu

theorem Valid.insertSpider (hw : w.Valid) (hs : w.Has s) (ht : w.Has t) (hst : s ≠ t) :
    (w.insertSpider s t kind p).Valid :=
  (hw.cut hs ht hst).addSplits hs ht

/-- Old spiders keep the edges that are not cut. -/
theorem Valid.count_addSplits {a b : Vertex} {k : EdgeKind} (hw : w.Valid) (hs : w.Has s)
    (ht : w.Has t) (hst : s ≠ t) (ha : w.Has a) (hb : w.Has b) :
    (w.addSplits s t kind p m).count a b k = w.count a b k := by
  induction m generalizing w with
  | zero => rfl
  | succ m ih =>
    have ha' := hw.ne_next ha
    have hb' := hw.ne_next hb
    rw [Web.addSplits, ih (hw.addBetween hs ht) (hw.has_addBetween hs) (hw.has_addBetween ht)
      (hw.has_addBetween ha) (hw.has_addBetween hb), hw.count_addBetween hs ht hst, if_neg]
    simp only [SamePair]
    tauto

theorem Valid.count_insertSpider {a b : Vertex} {k : EdgeKind} (hw : w.Valid) (hs : w.Has s)
    (ht : w.Has t) (hst : s ≠ t) (ha : w.Has a) (hb : w.Has b) :
    (w.insertSpider s t kind p).count a b k = if SamePair a b s t then 0 else w.count a b k :=
  (hw.cut hs ht hst).count_addSplits hs ht hst ha hb

/-- The spiders that a spider and its neighbours are. -/
structure Around (w : Web) (v : Vertex) (us : List Vertex) : Prop where
  has : w.Has v
  hasAll : ∀ u ∈ us, w.Has u
  notMem : v ∉ us
  nodup : us.Nodup

theorem Around.tail (h : w.Around v (u :: us)) : w.Around v us where
  has := h.has
  hasAll x hx := h.hasAll x (List.mem_cons_of_mem u hx)
  notMem hx := h.notMem (List.mem_cons_of_mem u hx)
  nodup := h.nodup.of_cons

theorem Around.ne (h : w.Around v us) (hu : u ∈ us) : v ≠ u := fun e => h.notMem (e ▸ hu)

theorem Around.head (h : w.Around v (u :: us)) : w.Has u ∧ v ≠ u :=
  ⟨h.hasAll u List.mem_cons_self, h.ne List.mem_cons_self⟩

theorem Around.cut (h : w.Around v us) (s t : Vertex) : (w.cut s t).Around v us :=
  ⟨h.has, h.hasAll, h.notMem, h.nodup⟩

theorem Around.insertSpider (h : w.Around v (u :: us)) (hw : w.Valid) :
    (w.insertSpider v u kind p).Around v us := by
  obtain ⟨hu, hne⟩ := h.head
  have hold {x : Vertex} (hx : w.Has x) : (w.insertSpider v u kind p).Has x :=
    hw.has_insertSpider h.has hu hne hx
  exact ⟨hold h.has, fun x hx => hold (h.tail.hasAll x hx), h.tail.notMem, h.tail.nodup⟩

theorem Valid.cutAround_addSplits (hw : w.Valid) (hs : w.Has s) (ht : w.Has t) (hst : s ≠ t)
    (h : w.Around v us) :
    (w.addSplits s t kind p m).cutAround v us = (w.cutAround v us).addSplits s t kind p m := by
  induction us generalizing w with
  | nil => rfl
  | cons u rest ih =>
    obtain ⟨hu, hne⟩ := h.head
    rw [cutAround, List.foldl_cons, hw.cut_addSplits hs ht hst h.has hu hne]
    exact ih (hw.cut h.has hu hne) hs ht (h.tail.cut v u)

theorem Valid.cutAround (hw : w.Valid) (h : w.Around v us) : (w.cutAround v us).Valid := by
  induction us generalizing w with
  | nil => exact hw
  | cons u rest ih =>
    obtain ⟨hu, hne⟩ := h.head
    exact ih (hw.cut h.has hu hne) (h.tail.cut v u)

theorem cutAround_fields (w : Web) (v : Vertex) (us : List Vertex) : (w.cutAround v us).next = w.next ∧ (w.cutAround v us).kind = w.kind ∧
    (w.cutAround v us).phase = w.phase := by
  induction us generalizing w with
  | nil => exact ⟨rfl, rfl, rfl⟩
  | cons u rest ih => exact ih (w.cut v u)

/-- The factor of the edges from a spider to some others. -/
theorem Valid.tensors_cutAround (hw : w.Valid) (h : w.Around v us) (b : Bits) :
    (w.tensors τ).weight b = ((w.cutAround v us).tensors τ).weight b *
      (us.map fun u => (w.tensors τ).bond b v u).prod := by
  induction us generalizing w with
  | nil => simp [Web.cutAround]
  | cons u rest ih =>
    obtain ⟨hu, hne⟩ := h.head
    have hbond : rest.map (fun x => ((w.cut v u).tensors τ).bond b v x) =
        rest.map fun x => (w.tensors τ).bond b v x := List.map_congr_left fun x hx => by
      refine Network.bond_congr (edge_tensors_congr rfl rfl (funext fun k => if_neg ?_)) rfl rfl
      rintro (⟨-, rfl⟩ | ⟨rfl, -⟩)
      · exact (List.nodup_cons.1 h.nodup).1 hx
      · exact hne rfl
    rw [hw.tensors_cut h.has hu hne, ih (hw.cut h.has hu hne) (h.tail.cut v u), hbond,
      List.map_cons, List.prod_cons]
    change ((w.cut v u).cutAround v rest |>.tensors τ).weight b * _ * _ = _
    rw [show w.cutAround v (u :: rest) = (w.cut v u).cutAround v rest from rfl]
    ring

theorem Valid.leg_insertSpider (hw : w.Valid) (hu : w.Has u) :
    (w.insertSpider s t kind p).leg u = w.leg u := by
  have hk : (w.insertSpider s t kind p).kind u = w.kind u :=
    kind_addSplits (w := w.cut s t) (hw.lt u hu)
  rw [leg, leg, kindAt, kindAt, hk]

theorem next_le_insertAround (w : Web) (v : Vertex) (us : List Vertex) (kind : SpiderKind)
    (p : Phase) :
    w.next ≤ (w.insertAround v us kind p).next := by
  induction us generalizing w with
  | nil => exact Nat.le_refl _
  | cons u rest ih =>
    have hle : w.next ≤ (w.insertSpider v u kind p).next := by
      rw [next_insertSpider]
      exact Nat.le_add_right _ _
    exact hle.trans (ih (w.insertSpider v u kind p))

/-- The factor of the spiders on the wires from `v` to some others. -/
noncomputable def splicedAround (w : Web) (kind : SpiderKind) (p : Phase) (v : Vertex)
    (us : List Vertex) (b : Bits) : ℂ :=
  (us.map fun u => w.spliced kind p v u b ^ w.count v u .plain).prod

/-- Splitting the wires to one neighbour does not change the factor of the others. -/
theorem Valid.splicedAround_insertSpider (hw : w.Valid) (h : w.Around v (u :: us)) (b : Bits) :
    (w.insertSpider v u kind p).splicedAround kind p v us b = w.splicedAround kind p v us b := by
  obtain ⟨hu, hne⟩ := h.head
  refine congrArg List.prod (List.map_congr_left fun x hx => ?_)
  have hxh := h.tail.hasAll x hx
  have hpair : ¬SamePair v x v u := by
    rintro (⟨-, rfl⟩ | ⟨hv, -⟩)
    · exact (List.nodup_cons.1 h.nodup).1 hx
    · exact hne hv
  rw [spliced, spliced, hw.leg_insertSpider h.has, hw.leg_insertSpider hxh,
    hw.count_insertSpider h.has hu hne h.has hxh, if_neg hpair]

theorem Around.splicedAround_congr (h : w.Around v us) {b b' : Bits}
    (hb : ∀ x, w.Has x → b x = b' x) :
    w.splicedAround kind p v us b = w.splicedAround kind p v us b' := by
  refine congrArg List.prod (List.map_congr_left fun x hx => ?_)
  rw [spliced, spliced, hb v h.has, hb x (h.hasAll x hx)]

/-- Splitting the wires around a spider, once the bits of the new spiders are summed over. -/
theorem Valid.sum_insertAround (hw : w.Valid) (h : w.Around v us)
    (hkind : kind.isBoundary = false) (hτ : ∀ u, w.next ≤ u → τ u = 1) (b : Bits) :
    sumOver (Finset.Ico w.next (w.insertAround v us kind p).next)
        ((w.insertAround v us kind p).tensors τ).weight b =
      ((w.cutAround v us).tensors τ).weight b * w.splicedAround kind p v us b := by
  induction us generalizing w b with
  | nil => simp [Web.insertAround, Web.cutAround, splicedAround]
  | cons u rest ih =>
    obtain ⟨hu, hne⟩ := h.head
    set w₁ := w.insertSpider v u kind p with hw₁
    have hnext : w₁.next = w.next + w.count v u .plain := next_insertSpider
    have hle : w.next ≤ w₁.next := by
      rw [hnext]
      exact Nat.le_add_right _ _
    -- the wires to the other neighbours first, the factor of which the new bits do not change
    have hrest (b : Bits) : sumOver (Finset.Ico w₁.next (w.insertAround v (u :: rest) kind p).next)
        ((w.insertAround v (u :: rest) kind p).tensors τ).weight b =
          ((w₁.cutAround v rest).tensors τ).weight b * w.splicedAround kind p v rest b := by
      have := ih (hw.insertSpider h.has hu hne) (h.insertSpider hw) (fun x hx => hτ x (hle.trans hx)) b
      rwa [hw.splicedAround_insertSpider h] at this
    have hcutAround : w₁.cutAround v rest =
        (w.cutAround v (u :: rest)).addSplits v u kind p (w.count v u .plain) :=
      (hw.cut h.has hu hne).cutAround_addSplits h.has hu hne (h.tail.cut v u)
    have hsum : sumOver (Finset.Ico w.next w₁.next) ((w₁.cutAround v rest).tensors τ).weight b =
        ((w.cutAround v (u :: rest)).tensors τ).weight b *
          w.spliced kind p v u b ^ w.count v u .plain := by
      obtain ⟨hn, hk, -⟩ := cutAround_fields w v (u :: rest)
      have hhas {x : Vertex} (hx : w.Has x) : (w.cutAround v (u :: rest)).Has x := by
        rw [Has, hk]
        exact hx
      have := (hw.cutAround h).sum_addSplits (τ := τ) (p := p) (hhas h.has) (hhas hu) hkind
        (fun x hx => hτ x (hn ▸ hx)) (w.count v u .plain) b
      rw [hcutAround, hnext]
      rw [hn] at this
      rw [this, spliced, spliced, leg, leg, leg, leg, kindAt, kindAt, kindAt, kindAt, hk]
    have hle' : w₁.next ≤ (w.insertAround v (u :: rest) kind p).next :=
      next_le_insertAround w₁ v rest kind p
    rw [← Finset.Ico_union_Ico_eq_Ico hle hle', Finset.union_comm, sumOver_union (Finset.Ico_disjoint_Ico_consecutive _ _ _).symm,
      sumOver_congr fun b' _ => hrest b']
    rw [splicedAround, List.map_cons, List.prod_cons, ← mul_assoc, ← hsum, mul_comm,
      ← sumOver_mul_left]
    refine sumOver_congr fun b' hb' => ?_
    rw [mul_comm, h.tail.splicedAround_congr fun x hx => hb' x ?_]
    · rfl
    · rw [Finset.mem_Ico, not_and_or, not_le]
      exact .inl (hw.lt x hx)

/-! ### What splitting wires keeps -/

theorem Valid.insertAround (hw : w.Valid) (h : w.Around v us) :
    (w.insertAround v us kind p).Valid := by
  induction us generalizing w with
  | nil => exact hw
  | cons u rest ih =>
    obtain ⟨hu, hne⟩ := h.head
    exact ih (hw.insertSpider h.has hu hne) (h.insertSpider hw)

theorem kind_insertAround (hu : u < w.next) : (w.insertAround v us kind p).kind u = w.kind u := by
  induction us generalizing w with
  | nil => rfl
  | cons x rest ih =>
    have hlt : u < (w.insertSpider v x kind p).next := by
      rw [next_insertSpider]
      exact Nat.lt_add_right _ hu
    exact (ih hlt).trans (kind_addSplits (w := w.cut v x) hu)

theorem kind_new_insertAround {n : ℕ} (hn : w.next ≤ n)
    (hlt : n < (w.insertAround v us kind p).next) :
    (w.insertAround v us kind p).kind n = some kind := by
  induction us generalizing w with
  | nil => exact absurd hlt (Nat.not_lt_of_le hn)
  | cons x rest ih =>
    rcases Nat.lt_or_ge n (w.insertSpider v x kind p).next with h | h
    · refine (kind_insertAround (w := w.insertSpider v x kind p) h).trans ?_
      rw [next_insertSpider] at h
      exact kind_new_addSplits (w := w.cut v x) hn h
    · exact ih h hlt

theorem ends_insertAround (w : Web) (v : Vertex) (us : List Vertex) (kind : SpiderKind) (p : Phase) :
    (w.insertAround v us kind p).inputs = w.inputs ∧
      (w.insertAround v us kind p).outputs = w.outputs := by
  have hsplits (w : Web) (s t : Vertex) (m : ℕ) : (w.addSplits s t kind p m).inputs = w.inputs ∧
      (w.addSplits s t kind p m).outputs = w.outputs := by
    induction m generalizing w with
    | zero => exact ⟨rfl, rfl⟩
    | succ m ih => exact ih (w.addBetween s t kind p)
  induction us generalizing w with
  | nil => exact ⟨rfl, rfl⟩
  | cons x rest ih =>
    obtain ⟨hin, hout⟩ := ih (w.insertSpider v x kind p)
    obtain ⟨hin', hout'⟩ := hsplits (w.cut v x) v x (w.count v x .plain)
    exact ⟨hin.trans hin', hout.trans hout'⟩

/-- The new spiders have bits to sum over, besides those that were there. -/
theorem inner_insertAround (hkind : kind.isBoundary = false) :
    ((w.insertAround v us kind p).tensors τ).inner =
      (w.tensors τ).inner ∪ Finset.Ico w.next (w.insertAround v us kind p).next := by
  have hle := next_le_insertAround w v us kind p
  ext x
  rw [Finset.mem_union, mem_tensors_inner, mem_tensors_inner, Finset.mem_Ico]
  rcases Nat.lt_or_ge x w.next with h | h
  · rw [Has, Has, IsEnd, IsEnd, kind_insertAround h]
    have hlt := Nat.lt_of_lt_of_le h hle
    have hnot : ¬w.next ≤ x := Nat.not_le_of_lt h
    tauto
  · have hold : ¬x < w.next := Nat.not_lt_of_le h
    constructor
    · exact fun hx => .inr ⟨h, hx.1.1⟩
    · rintro (hx | hx)
      · exact absurd hx.1.1 hold
      · rw [Has, IsEnd, kind_new_insertAround h hx.2]
        simp [hx.2, hkind]

/-- The bits of the spiders on split wires are summed over first, whatever else depends on the bits
    of the others. -/
theorem Valid.sumOver_insertAround (hw : w.Valid) (h : w.Around v us)
    (hkind : kind.isBoundary = false) (hτ : ∀ u, w.next ≤ u → τ u = 1) {g : Bits → ℂ}
    (hg : ∀ b b' : Bits, (∀ x, w.Has x → b x = b' x) → g b = g b') (b : Bits) :
    sumOver ((w.insertAround v us kind p).tensors τ).inner
        (fun b => g b * ((w.insertAround v us kind p).tensors τ).weight b) b =
      sumOver (w.tensors τ).inner (fun b => g b *
        (((w.cutAround v us).tensors τ).weight b * w.splicedAround kind p v us b)) b := by
  have hdisj : Disjoint (Finset.Ico w.next (w.insertAround v us kind p).next)
      (w.tensors τ).inner := by
    refine Finset.disjoint_left.2 fun x hx hx' => ?_
    exact Nat.not_lt_of_le (Finset.mem_Ico.1 hx).1 (mem_tensors_inner.1 hx').1.1
  rw [inner_insertAround hkind, Finset.union_comm, sumOver_union hdisj]
  refine sumOver_congr fun b' _ => ?_
  rw [sumOver_mul_of_agree fun b₁ b₂ hb => hg b₁ b₂ fun x hx => hb x fun hm => ?_,
    hw.sum_insertAround h hkind hτ]
  exact Nat.not_lt_of_le (Finset.mem_Ico.1 hm).1 (hw.lt x hx)

/-- Splitting wires is a sum over the bits of the new spiders. -/
theorem Valid.amplitude_insertAround (hw : w.Valid) (h : w.Around v us)
    (hkind : kind.isBoundary = false) (hτ : ∀ u, w.next ≤ u → τ u = 1) (b : Bits) :
    ((w.insertAround v us kind p).tensors τ).amplitude b = sumOver (w.tensors τ).inner
      (fun b => ((w.cutAround v us).tensors τ).weight b * w.splicedAround kind p v us b) b := by
  have := hw.sumOver_insertAround (p := p) h hkind hτ (g := fun _ => 1) (fun _ _ _ => rfl) b
  simp only [one_mul] at this
  exact this

theorem count_cutAround (a b : Vertex) (k : EdgeKind) : (w.cutAround v us).count a b k =
    if a = v ∧ b ∈ us ∨ b = v ∧ a ∈ us then 0 else w.count a b k := by
  induction us generalizing w with
  | nil => simp [Web.cutAround]
  | cons u rest ih =>
    rw [Web.cutAround, List.foldl_cons, ← Web.cutAround, ih]
    simp only [Web.cut, setCount, SamePair, List.mem_cons]
    grind

theorem Around.remove (h : w.Around v us) {x : Vertex} (hx : x ≠ v) (hmem : x ∉ us) :
    (w.remove x).Around v us := by
  have hold {y : Vertex} (hy : w.Has y) (hne : y ≠ x) : (w.remove x).Has y := by
    rw [Has, kind_remove, update_of_ne hne]
    exact hy
  exact ⟨hold h.has hx.symm, fun y hy => hold (h.hasAll y hy) fun e => hmem (e ▸ hy), h.notMem,
    h.nodup⟩

theorem Valid.remove_addSplits (hw : w.Valid) (hs : w.Has s) (ht : w.Has t) (hst : s ≠ t)
    (hv : w.Has v) (hsv : s ≠ v) (htv : t ≠ v) :
    (w.addSplits s t kind p m).remove v = (w.remove v).addSplits s t kind p m := by
  induction m generalizing w with
  | zero => rfl
  | succ m ih =>
    rw [Web.addSplits, Web.addSplits, ih (hw.addBetween hs ht) (hw.has_addBetween hs)
      (hw.has_addBetween ht) (hw.has_addBetween hv), hw.remove_addBetween hs ht hst hv hsv htv]

/-- A spider can be removed before the wires at others are split. -/
theorem Valid.remove_insertAround (hw : w.Valid) (h : w.Around v us) {x : Vertex} (hx : w.Has x)
    (hxv : x ≠ v) (hmem : x ∉ us) :
    (w.insertAround v us kind p).remove x = (w.remove x).insertAround v us kind p := by
  induction us generalizing w with
  | nil => rfl
  | cons u rest ih =>
    obtain ⟨hu, hne⟩ := h.head
    have hxu : x ≠ u := fun e => hmem (e ▸ List.mem_cons_self)
    have hcut : (w.cut v u).remove x = (w.remove x).cut v u := by
      refine Web.ext rfl rfl rfl (funext fun a => funext fun b => funext fun k => ?_) rfl rfl rfl
      simp only [Web.remove, Web.cut, Web.setCount]
      split
      · simp only [ite_self]
      · rfl
    have hcount : (w.remove x).count v u .plain = w.count v u .plain :=
      if_neg (not_or.2 ⟨hxv.symm, hxu.symm⟩)
    have hstep : (w.insertSpider v u kind p).remove x = (w.remove x).insertSpider v u kind p := by
      rw [Web.insertSpider, (hw.cut h.has hu hne).remove_addSplits h.has hu hne hx hxv.symm
        hxu.symm, hcut, Web.insertSpider, hcount]
    refine (ih (hw.insertSpider h.has hu hne) (h.insertSpider hw)
      (hw.has_insertSpider h.has hu hne hx) fun hm => hmem (List.mem_cons_of_mem u hm)).trans ?_
    rw [hstep]
    rfl

/-- The colour of the spider in the middle does not matter to what is inserted. -/
theorem Valid.paint_insertAround (hw : w.Valid) (h : w.Around v us) (kind' : SpiderKind) :
    (w.insertAround v us kind p).paint v kind' = (w.paint v kind').insertAround v us kind p := by
  have hsplits {w : Web} (hw : w.Valid) {s t : Vertex} (hs : w.Has s) (ht : w.Has t)
      (hv : w.Has v) (m : ℕ) : (w.addSplits s t kind p m).paint v kind' =
        (w.paint v kind').addSplits s t kind p m := by
    induction m generalizing w with
    | zero => rfl
    | succ m ih =>
      rw [Web.addSplits, Web.addSplits, ih (hw.addBetween hs ht) (hw.has_addBetween hs)
        (hw.has_addBetween ht) (hw.has_addBetween hv), hw.paint_addBetween hv]
  induction us generalizing w with
  | nil => rfl
  | cons u rest ih =>
    obtain ⟨hu, hne⟩ := h.head
    have hstep : (w.insertSpider v u kind p).paint v kind' =
        (w.paint v kind').insertSpider v u kind p :=
      hsplits (hw.cut h.has hu hne) h.has hu h.has _
    refine (ih (hw.insertSpider h.has hu hne) (h.insertSpider hw)).trans ?_
    rw [hstep]
    rfl

end Web

namespace Diagram

variable {d : Diagram} {w w' : Web} {s t u v : Vertex} {kind : SpiderKind} {p : Phase}
  {us : List Vertex}

/-- A program ends with a coherent diagram that has the given web. -/
def Yields (x : Except Fault Diagram) (w : Web) : Prop := ∃ d, x = .ok d ∧ d.Coherent ∧ d.web = w

theorem Gives.yields {x : Except Fault Diagram} {l : Layout} (h : Gives x w l) : Yields x w := by
  obtain ⟨d, hx, hd, hw, -⟩ := h
  exact ⟨d, hx, hd, hw⟩

namespace Yields

theorem ok (h : d.Coherent) : Yields (.ok d) d.web := ⟨d, rfl, h, rfl⟩

theorem bind {x : Except Fault Diagram} {f : Diagram → Except Fault Diagram} (h : Yields x w)
    (hf : ∀ d, d.Coherent → d.web = w → Yields (f d) w') : Yields (x >>= f) w' := by
  obtain ⟨d, rfl, hd, hw⟩ := h
  exact hf d hd hw

/-- A loop, each round of which edits the web in its way. -/
theorem foldlM {α : Type} {f : Diagram → α → Except Fault Diagram} {g : Web → α → Web}
    (I : List α → Web → Prop) (l : List α)
    (hf : ∀ d a rest, d.Coherent → I (a :: rest) d.web →
      Yields (f d a) (g d.web a) ∧ I rest (g d.web a)) :
    ∀ d, d.Coherent → I l d.web → Yields (l.foldlM f d) (l.foldl g d.web) := by
  induction l with
  | nil => exact fun d hd _ => .ok hd
  | cons a rest ih =>
    intro d hd hI
    obtain ⟨⟨d', hok, hd', hw'⟩, hI'⟩ := hf d a rest hd hI
    rw [List.foldlM_cons, hok, List.foldl_cons, ← hw']
    exact ih d' hd' (hw' ▸ hI')

end Yields

theorem exists_addSplits (hd : d.Coherent) (hs : d.web.Has s) (ht : d.web.Has t)
    (kind : SpiderKind) (p : Phase) (m : ℕ) : ∃ vs d', d.addSplits s t kind p m = .ok (vs, d') ∧ d'.Coherent ∧
      d'.web = d.web.addSplits s t kind p m := by
  induction m generalizing d with
  | zero => exact ⟨[], d, rfl, hd, rfl⟩
  | succ m ih =>
    have hwired : ∀ u ∈ [s, t], d.web.Has u := fun u hu => by
      rcases List.mem_pair.1 hu with rfl | rfl
      · exact hs
      · exact ht
    obtain ⟨d', hok, hd', hw', -⟩ := Gives.addSpider hd kind p hwired
    have hhas {u : Vertex} (hu : d.web.Has u) : d'.web.Has u := by
      rw [hw']
      exact hd.valid.has_addBetween hu
    obtain ⟨vs, d'', hok', hd'', hw''⟩ :=
      ih (hd'.place d.web.next (d.qubit? s <|> d.qubit? t) (d.columnBetween s t)) (hhas hs) (hhas ht)
    refine ⟨d.web.next :: vs, d'', ?_, hd'', ?_⟩
    · rw [Diagram.addSplits, hok]
      change (Diagram.addSplits _ s t kind p m >>= _) = _
      rw [hok']
      rfl
    · rw [hw'', web_place, hw']
      rfl

/-- Cutting the wires between two spiders with no other edges. -/
theorem exists_removeKind (hd : d.Coherent) (hs : d.web.Has s)
    (hplain : d.web.count s t .hadamard = 0) :
    ∃ graph, d.graph.removeKind s t .plain = .ok (d.graph.count s t .plain, graph) ∧
      Gives (.ok { d with graph }) (d.web.cut s t) d.layout := by
  obtain ⟨graph, hok, h⟩ := Multigraph.removeKind_spec hd.wf ((hd.has s).1 hs) t .plain
  obtain ⟨d₁, hd₁, hco, hw₁, hl₁⟩ := Gives.rewired hd h
  refine ⟨graph, hok, d₁, hd₁, hco, hw₁.trans (Web.withCount_eq (fun k => ?_) (fun k => ?_)
    fun a b k hab => ?_), hl₁⟩
  · cases k
    · simp [SamePair]
    · simp only [SamePair, reduceCtorEq, and_false, if_false]
      exact hplain
  · cases k
    · simp [SamePair]
    · simp only [SamePair, reduceCtorEq, and_false, if_false]
      exact (hd.wf.symm _ _ _).trans hplain
  · simp [hab, Diagram.web]

/-- Splitting the wires between two spiders. -/
theorem yields_insertSpider (hd : d.Coherent) (hs : d.web.Has s) (ht : d.web.Has t)
    (hplain : d.web.count s t .hadamard = 0) :
    Yields (Prod.snd <$> d.insertSpider s t kind p) (d.web.insertSpider s t kind p) := by
  obtain ⟨graph, hok, d₁, hd₁, hco, hcut, -⟩ := exists_removeKind hd hs hplain
  have hhas {u : Vertex} (hu : d.web.Has u) : d₁.web.Has u := by
    rw [hcut]
    exact hu
  obtain ⟨vs, d₂, hok₂, hd₂, hw₂⟩ :=
    exists_addSplits hco (hhas hs) (hhas ht) kind p (d.graph.count s t .plain)
  refine ⟨d₂, ?_, hd₂, ?_⟩
  · rw [Diagram.insertSpider, hok]
    change Prod.snd <$> (Diagram.addSplits _ s t kind p _) = _
    rw [Except.ok.inj hd₁, hok₂]
    rfl
  · rw [hw₂, hcut]
    rfl

/-- Splitting all wires from a spider to some others. -/
theorem yields_insertAround (hd : d.Coherent) (hplain : ∀ a b, d.web.count a b .hadamard = 0)
    (h : d.web.Around v us) (kind : SpiderKind) (p : Phase) :
    Yields (us.foldlM (fun d u => return (← d.insertSpider v u kind p).2) d)
      (d.web.insertAround v us kind p) := by
  refine Yields.foldlM (fun us w => w.Around v us ∧ ∀ u ∈ us, w.count v u .hadamard = 0) us
    (fun d u rest hd hI => ?_) d hd ⟨h, fun u _ => hplain v u⟩
  obtain ⟨h, hplain⟩ := hI
  obtain ⟨hu, hne⟩ := h.head
  refine ⟨yields_insertSpider hd h.has hu (hplain u List.mem_cons_self), h.insertSpider hd.valid,
    fun x hx => ?_⟩
  rw [hd.valid.count_insertSpider h.has hu hne h.has (h.tail.hasAll x hx)]
  split
  · rfl
  · exact hplain x (List.mem_cons_of_mem u hx)

end Diagram

end ZXRewriting
