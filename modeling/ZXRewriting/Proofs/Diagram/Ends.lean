import ZXRewriting.Proofs.Diagram.Sites
import ZXRewriting.Proofs.GraphLike.Unboxing

/-!
# The ends of the wires

A rule works at spiders that are no ends of wires. Where it takes a wire to a neighbour away, another
one comes in its place: splitting wires leaves all degrees as they are (`degree_insertAround`), and
when a spider between two others goes, these are joined. So an end with a single edge has a single
edge after each rewrite (`Diagram.exists_moored`).
-/

namespace ZXRewriting

open Function (update update_self update_of_ne)
open Multigraph (SamePair)

namespace Web

variable {w w' : Web} {a b c f h s t u v : Vertex} {k : EdgeKind} {kind : SpiderKind} {p : Phase}
  {m : ℕ} {us : List Vertex}

/-! ### Degrees -/

/-- Vertices that are not there have no edges. -/
theorem Valid.degree_eq_of_le (hw : w.Valid) {n : ℕ} (hn : w.next ≤ n) (v : Vertex) :
    w.degree v = ∑ u ∈ Finset.range n, w.joins v u := by
  refine Finset.sum_subset (Finset.range_mono hn) fun u _ hu => ?_
  by_contra hne
  exact hu (Finset.mem_range.2 (hw.lt u (hw.has_of_joins (Nat.pos_of_ne_zero hne)).2))

theorem Valid.degree_addEdges (hw : w.Valid) (hs : w.Has s) (ht : w.Has t) (hst : s ≠ t)
    (c : Vertex) : (w.addEdges s t k m).degree c =
      w.degree c + ((if c = s then m else 0) + if c = t then m else 0) := by
  have hjoins (x : Vertex) : (w.addEdges s t k m).joins c x =
      w.joins c x + ((if x = t then if c = s then m else 0 else 0) +
        if x = s then if c = t then m else 0 else 0) := by
    rw [joins, joins, hw.count_addEdges_eq, hw.count_addEdges_eq]
    simp only [SamePair]
    cases k <;> grind
  have hmem {x : Vertex} (hx : w.Has x) : x ∈ Finset.range w.next := Finset.mem_range.2 (hw.lt x hx)
  change ∑ x ∈ Finset.range w.next, (w.addEdges s t k m).joins c x = _
  rw [Finset.sum_congr rfl fun x _ => hjoins x, Finset.sum_add_distrib, Finset.sum_add_distrib,
    Finset.sum_ite_eq' _ t, Finset.sum_ite_eq' _ s, if_pos (hmem ht), if_pos (hmem hs)]
  rfl

theorem Valid.degree_remove (hw : w.Valid) (hcv : c ≠ v) :
    (w.remove v).degree c + w.joins c v = w.degree c := by
  have hjoins (x : Vertex) :
      (w.remove v).joins c x + (if x = v then w.joins c v else 0) = w.joins c x := by
    rw [joins_remove]
    by_cases hx : x = v
    · simp [hx]
    · simp [hx, hcv]
  have hsum : ∑ x ∈ Finset.range w.next, (if x = v then w.joins c v else 0) = w.joins c v := by
    rw [Finset.sum_ite_eq']
    split
    · rfl
    · next hv =>
      by_contra hne
      have hpos := Nat.pos_of_ne_zero (Ne.symm hne)
      exact hv (Finset.mem_range.2 (hw.lt v (hw.has_of_joins hpos).2))
  change ∑ x ∈ Finset.range w.next, (w.remove v).joins c x + _ = _
  rw [← hsum, ← Finset.sum_add_distrib]
  exact Finset.sum_congr rfl fun x _ => hjoins x

theorem Valid.degree_addBetween (hw : w.Valid) (hs : w.Has s) (ht : w.Has t) (hc : w.Has c) :
    (w.addBetween s t kind p).degree c = w.degree c + ((if c = s then 1 else 0) + if c = t then 1 else 0) := by
  have hn := hw.ne_next hc
  have hnone : (w.addNode kind p).degree c = w.degree c :=
    (hw.degree_eq_of_le (Nat.le_succ _) c).symm
  have hval := hw.addNode kind p
  have hns : (w.addNode kind p).Has w.next := has_addNode_next
  have hval' := hval.addEdges (k := .plain) hns (hw.has_addNode (p := p) hs) (hw.ne_next hs).symm 1
  rw [Web.addBetween, hval'.degree_addEdges hns (hw.has_addNode (p := p) ht) (hw.ne_next ht).symm,
    hval.degree_addEdges hns (hw.has_addNode (p := p) hs) (hw.ne_next hs).symm, hnone, if_neg hn]
  omega

theorem Valid.degree_addSplits (hw : w.Valid) (hs : w.Has s) (ht : w.Has t) (hc : w.Has c) :
    (w.addSplits s t kind p m).degree c = w.degree c + ((if c = s then m else 0) + if c = t then m else 0) := by
  induction m generalizing w with
  | zero => simp [Web.addSplits]
  | succ m ih =>
    rw [Web.addSplits, ih (hw.addBetween hs ht) (hw.has_addBetween hs) (hw.has_addBetween ht)
      (hw.has_addBetween hc), hw.degree_addBetween hs ht hc]
    split <;> split <;> omega

/-- Spiders on all wires between two others leave the degrees as they are. -/
theorem Valid.degree_insertSpider (hw : w.Valid) (hplain : w.Plain) (hs : w.Has s) (ht : w.Has t)
    (hst : s ≠ t) (hc : w.Has c) : (w.insertSpider s t kind p).degree c = w.degree c := by
  have hcut := hw.cut hs ht hst
  have hback := hcut.degree_addEdges (k := .plain) (m := w.count s t .plain) hs ht hst c
  rw [hplain.addEdges_cut hw hs ht hst] at hback
  rw [Web.insertSpider, hcut.degree_addSplits hs ht hc, hback]

theorem Valid.degree_insertAround (hw : w.Valid) (hplain : w.Plain) (h : w.Around v us)
    (hc : w.Has c) : (w.insertAround v us kind p).degree c = w.degree c := by
  induction us generalizing w with
  | nil => rfl
  | cons u rest ih =>
    obtain ⟨hu, hne⟩ := h.head
    refine (ih (hw.insertSpider h.has hu hne) hplain.cut.addSplits (h.insertSpider hw)
      (hw.has_insertSpider h.has hu hne hc)).trans ?_
    exact hw.degree_insertSpider hplain h.has hu hne hc

theorem Valid.degree_wireTo (hw : w.Valid) (hv : w.Has v) (hus : ∀ u ∈ us, w.Has u ∧ v ≠ u)
    (hcv : c ≠ v) : (w.wireTo v us).degree c = w.degree c + us.count c := by
  induction us generalizing w with
  | nil => rfl
  | cons u rest ih =>
    obtain ⟨hu, hne⟩ := hus u List.mem_cons_self
    refine (ih (hw.addEdges hv hu hne 1) hv fun x hx => hus x (List.mem_cons_of_mem u hx)).trans ?_
    rw [hw.degree_addEdges hv hu hne, if_neg hcv, List.count_cons]
    simp only [beq_iff_eq, eq_comm (a := u)]
    omega

/-! ### Absorbing boxes -/

/-- A box has `v` for a neighbour, and at most one other edge. -/
structure Hooked (w : Web) (v h : Vertex) : Prop where
  joins : 0 < w.joins v h
  degree : w.degree h ≤ 2

theorem Valid.joins_le_degree (hw : w.Valid) (s t : Vertex) : w.joins s t ≤ w.degree s := by
  rcases Nat.eq_zero_or_pos (w.joins s t) with hzero | hpos
  · rw [hzero]
    exact Nat.zero_le _
  · exact Finset.single_le_sum (f := fun u => w.joins s u) (fun _ _ => Nat.zero_le _)
      (Finset.mem_range.2 (hw.lt t (hw.has_of_joins hpos).2))

/-- Two neighbours share the edges. -/
theorem Valid.joins_add_joins_le (hw : w.Valid) (hs : s ≠ t) (hts : t ≠ u) :
    w.joins s t + w.joins s u ≤ w.degree s := by
  have hle := (hw.remove t).joins_le_degree s u
  rw [joins_remove, if_neg (not_or.2 ⟨hs, hts.symm⟩)] at hle
  rw [← hw.degree_remove hs]
  omega

theorem Hooked.ne (hh : w.Hooked v h) (hw : w.Valid) : h ≠ v := by
  rintro rfl
  exact Nat.lt_irrefl 0 (hw.joins_self h ▸ hh.joins)

/-- What is behind a box has a single edge to it. -/
theorem Hooked.joins_eq (hh : w.Hooked v h) (hw : w.Valid) (hcv : c ≠ v) :
    w.joins c h = if (w.nearby h).find? (· ≠ v) = some c then 1 else 0 := by
  have hhv := hh.ne hw
  have hpos := hh.joins
  rw [hw.joins_comm] at hpos ⊢
  have hdeg := hh.degree
  split
  · next hfind =>
    have hmem := hw.mem_nearby.1 (List.mem_of_find?_eq_some hfind)
    have hle := hw.joins_add_joins_le hhv hcv.symm
    omega
  · next hfind =>
    by_contra hne
    have hc : c ∈ w.nearby h := hw.mem_nearby.2 (Nat.pos_of_ne_zero hne)
    obtain ⟨x, hx⟩ : ∃ x, (w.nearby h).find? (· ≠ v) = some x :=
      Option.isSome_iff_exists.1 (List.find?_isSome.2 ⟨c, hc, by simpa using hcv⟩)
    have hxc : x ≠ c := fun e => hfind (e ▸ hx)
    have hxv : x ≠ v := by simpa using List.find?_some hx
    have hxpos := hw.mem_nearby.1 (List.mem_of_find?_eq_some hx)
    -- a third neighbour would take a third edge
    have hle := (hw.remove v).joins_add_joins_le (s := h) (t := x) (u := c)
      (fun e => hw.notMem_nearby_self (e ▸ List.mem_of_find?_eq_some hx)) hxc
    have hrest := hw.degree_remove hhv
    rw [joins_remove, joins_remove, if_neg (not_or.2 ⟨hhv, hxv⟩), if_neg (not_or.2 ⟨hhv, hcv⟩)]
      at hle
    omega

/-- Absorbing a box takes it away, and may put another edge to `v` in its place. -/
theorem Hooked.absorbBox_cases (hh : w.Hooked v h) (hw : w.Valid) :
    (w.nearby h).find? (· ≠ v) = none ∧ absorbBox .plain v w h = w.remove h ∨
      ∃ u, (w.nearby h).find? (· ≠ v) = some u ∧ u ≠ v ∧ (w.remove h).Has u ∧
        (w.remove h).Has v ∧ absorbBox .plain v w h = (w.remove h).addEdges v u .plain 1 := by
  rw [absorbBox]
  cases hfind : (w.nearby h).find? (· ≠ v) with
  | none => exact .inl ⟨rfl, rfl⟩
  | some u =>
    have hmem := List.mem_of_find?_eq_some hfind
    exact .inr ⟨u, rfl, by simpa using List.find?_some hfind,
      has_remove.2 ⟨(hw.ne_of_mem_nearby hmem).symm, hw.has_of_mem_nearby hmem⟩,
      has_remove.2 ⟨(hh.ne hw).symm, (hw.has_of_joins hh.joins).1⟩, rfl⟩

theorem Hooked.valid_absorbBox (hh : w.Hooked v h) (hw : w.Valid) :
    (absorbBox .plain v w h).Valid := by
  obtain ⟨-, he⟩ | ⟨u, -, huv, hu, hv, he⟩ := hh.absorbBox_cases hw <;> rw [he]
  · exact hw.remove h
  · exact (hw.remove h).addEdges hv hu huv.symm 1

theorem Hooked.plain_absorbBox (hh : w.Hooked v h) (hw : w.Valid) (hplain : w.Plain) :
    (absorbBox .plain v w h).Plain := by
  obtain ⟨-, he⟩ | ⟨u, -, -, -, -, he⟩ := hh.absorbBox_cases hw <;> rw [he]
  · exact hplain.remove
  · exact hplain.remove.addEdges

/-- Absorbing a box leaves the other degrees as they are. -/
theorem Hooked.degree_absorbBox (hh : w.Hooked v h) (hw : w.Valid) (hcv : c ≠ v) (hch : c ≠ h) :
    (absorbBox .plain v w h).degree c = w.degree c := by
  have hrest := hw.degree_remove hch
  rw [hh.joins_eq hw hcv] at hrest
  obtain ⟨hfind, he⟩ | ⟨u, hfind, huv, hu, hv, he⟩ := hh.absorbBox_cases hw
  · rw [hfind, if_neg nofun] at hrest
    rw [he]
    exact hrest
  · rw [hfind] at hrest
    simp only [Option.some.injEq, eq_comm (a := u)] at hrest
    rw [he, (hw.remove h).degree_addEdges hv hu huv.symm, if_neg hcv]
    omega

/-- The other boxes around `v` are so still. -/
theorem Hooked.absorbBox (hh : w.Hooked v h) (hw : w.Valid) {g : Vertex} (hg : w.Hooked v g)
    (hgh : g ≠ h) : (absorbBox .plain v w h).Hooked v g where
  joins := by
    have hpos : 0 < (w.remove h).joins v g := by
      rw [joins_remove, if_neg (not_or.2 ⟨(hh.ne hw).symm, hgh⟩)]
      exact hg.joins
    obtain ⟨-, he⟩ | ⟨u, -, -, -, -, he⟩ := hh.absorbBox_cases hw <;> rw [he]
    · exact hpos
    · refine hpos.trans_le ?_
      rw [Web.joins, Web.joins, (hw.remove h).count_addEdges_eq, (hw.remove h).count_addEdges_eq]
      omega
  degree := (hh.degree_absorbBox hw (hg.ne hw) hgh).trans_le hg.degree

/-- Absorbing all boxes around a spider leaves alone what is no box, nor the spider. -/
theorem exists_absorbed {hs : List Vertex} (hw : w.Valid) (hplain : w.Plain) (hnodup : hs.Nodup)
    (hhs : ∀ h ∈ hs, w.Hooked v h) :
    (hs.foldl (absorbBox .plain v) w).Valid ∧ (hs.foldl (absorbBox .plain v) w).Plain ∧
      (hs.foldl (absorbBox .plain v) w).inputs = w.inputs ∧
      (hs.foldl (absorbBox .plain v) w).outputs = w.outputs ∧
      ∀ c, c ≠ v → c ∉ hs → (hs.foldl (absorbBox .plain v) w).kind c = w.kind c ∧
        (hs.foldl (absorbBox .plain v) w).degree c = w.degree c := by
  induction hs generalizing w with
  | nil => exact ⟨hw, hplain, rfl, rfl, fun _ _ _ => ⟨rfl, rfl⟩⟩
  | cons h rest ih =>
    obtain ⟨hnotin, hnodup⟩ := List.nodup_cons.1 hnodup
    have hh := hhs h List.mem_cons_self
    obtain ⟨hval, hpl, hin, hout, hrest⟩ := ih (hh.valid_absorbBox hw) (hh.plain_absorbBox hw hplain)
      hnodup fun g hg => hh.absorbBox hw (hhs g (List.mem_cons_of_mem h hg)) fun e => hnotin (e ▸ hg)
    have hends : (absorbBox .plain v w h).inputs = w.inputs ∧
        (absorbBox .plain v w h).outputs = w.outputs := by
      obtain ⟨-, he⟩ | ⟨u, -, -, -, -, he⟩ := hh.absorbBox_cases hw <;> rw [he] <;> exact ⟨rfl, rfl⟩
    refine ⟨hval, hpl, hin.trans hends.1, hout.trans hends.2, fun c hcv hc => ?_⟩
    obtain ⟨hch, hc⟩ := not_or.1 fun hm => hc (List.mem_cons.2 hm)
    obtain ⟨hkind, hdeg⟩ := hrest c hcv hc
    exact ⟨hkind.trans (Diagram.kind_absorbBox hch), hdeg.trans (hh.degree_absorbBox hw hcv hch)⟩

/-! ### Rules -/

/-- A web made from another one, with the same ends: one with a single edge has a single edge still. -/
structure Moored (w w' : Web) : Prop where
  plain : w'.Plain
  inputs : w'.inputs = w.inputs
  outputs : w'.outputs = w.outputs
  kind : ∀ t, w.IsEnd t → w'.kind t = w.kind t
  degree : ∀ t, w.IsEnd t → w.degree t = 1 → w'.degree t = 1

theorem IsEnd.ne (ht : w.IsEnd t) (hv : w.kind v = some kind) (hkind : kind.isBoundary = false) :
    t ≠ v := by
  rintro rfl
  rw [IsEnd, hv] at ht
  simp [hkind] at ht

/-- The wires of a spider that is fused move to another one. -/
theorem Moored.fuseWires (hw : w.Valid) (hplain : w.Plain) (hv : w.kind v = some kind)
    (hu : w.kind u = some kind) (hkind : kind.isPhased = true) (hne : v ≠ u) {ns : List Vertex}
    (hns : ∀ x, ns.count x = w.joins u x) : w.Moored (w.fuseWires v u ns) := by
  have hbound := SpiderKind.isBoundary_of_isPhased hkind
  have hhas {x : Vertex} (hx : x ∈ ns) : (w.remove u).Has x := by
    rw [← List.count_pos_iff, hns] at hx
    exact has_remove.2 ⟨(hw.ne_of_mem_nearby (hw.mem_nearby.2 hx)).symm, (hw.has_of_joins hx).2⟩
  have hus : ∀ x ∈ ns.filter (· ≠ v), (w.remove u).Has x ∧ v ≠ x := fun x hx => by
    obtain ⟨hx, hxv⟩ := List.mem_filter.1 hx
    exact ⟨hhas hx, Ne.symm (of_decide_eq_true hxv)⟩
  -- the same edits with the spider removed first
  have hweb : w.fuseWires v u ns =
      ((w.remove u).wireTo v (ns.filter (· ≠ v))).addToPhase v (w.phase u) := by
    rw [Web.fuseWires, remove_addToPhase hne, remove_wireTo hne]
    exact fun h => (has_remove.1 (hus u h).1).1 rfl
  obtain ⟨-, hk, -, hin, hout⟩ := wireTo_fields (w.remove u) v (ns.filter (· ≠ v))
  rw [hweb]
  refine ⟨hplain.remove.wireTo, hin, hout, fun t ht => ?_, fun t ht hdeg => ?_⟩
  · change ((w.remove u).wireTo v (ns.filter (· ≠ v))).kind t = _
    rw [hk, kind_remove, update_of_ne (ht.ne hu hbound)]
  · change ((w.remove u).wireTo v (ns.filter (· ≠ v))).degree t = 1
    have htv := ht.ne hv hbound
    have hrest := hw.degree_remove (ht.ne hu hbound)
    rw [(hw.remove u).degree_wireTo (has_remove.2 ⟨hne, has_of_kind hv⟩) hus htv,
      List.count_filter (by simpa using htv), hns, hw.joins_comm]
    omega

/-- The two neighbours of a spider that goes are joined. -/
theorem Moored.bypass (hw : w.Valid) (hplain : w.Plain) (hv : w.kind v = some kind)
    (hkind : kind.isPhased = true) (hab : a ≠ b)
    (hends : w.EndsAre v [(a, .plain), (b, .plain)]) : w.Moored (w.bypass v a b .plain) := by
  have hbound := SpiderKind.isBoundary_of_isPhased hkind
  have ha := hw.has_of_endsAre hends (x := a) List.mem_cons_self
  have hb := hw.has_of_endsAre hends (x := b) (List.mem_cons_of_mem _ List.mem_cons_self)
  refine ⟨hplain.remove.addEdges, rfl, rfl, fun t ht => ?_, fun t ht hdeg => ?_⟩
  · exact update_of_ne (ht.ne hv hbound) _ _
  · have hrest := hw.degree_remove (ht.ne hv hbound)
    rw [hw.joins_comm, joins_of_endsAre hends] at hrest
    rw [Web.bypass, (hw.remove v).degree_addEdges (has_remove.2 ha.symm) (has_remove.2 hb.symm) hab]
    omega

/-- Of two boxes next to each other, an end with a single edge is not behind both. -/
theorem Moored.cancelBoxes (hw : w.Valid) (hplain : w.Plain) (hv : w.kind v = some .box)
    (hu : w.kind u = some .box) (hvu : v ≠ u)
    (hends : w.EndsAre v [(u, .plain), (a, .plain)])
    (hends' : w.EndsAre u [(v, .plain), (b, .plain)]) (hau : a ≠ u) (hbv : b ≠ v) :
    w.Moored (if a = b then (w.remove v).remove u
      else ((w.remove v).remove u).addEdges a b .plain 1) := by
  have ha := hw.has_of_endsAre hends (x := a) (List.mem_cons_of_mem _ List.mem_cons_self)
  have hb := hw.has_of_endsAre hends' (x := b) (List.mem_cons_of_mem _ List.mem_cons_self)
  have hval := (hw.remove v).remove u
  -- what is left of the edges at an end
  have hrest {t : Vertex} (ht : w.IsEnd t) : ((w.remove v).remove u).degree t +
      ((if t = a then 1 else 0) + if t = b then 1 else 0) = w.degree t := by
    have htv := ht.ne hv rfl
    have htu := ht.ne hu rfl
    have h₁ := hw.degree_remove htv
    have h₂ := (hw.remove v).degree_remove htu
    rw [hw.joins_comm, joins_of_endsAre hends, if_neg htu] at h₁
    rw [joins_remove, if_neg (not_or.2 ⟨htv, hvu.symm⟩), hw.joins_comm, joins_of_endsAre hends',
      if_neg htv] at h₂
    omega
  have hkind {t : Vertex} (ht : w.IsEnd t) : ((w.remove v).remove u).kind t = w.kind t := by
    rw [kind_remove, kind_remove, update_of_ne (ht.ne hu rfl), update_of_ne (ht.ne hv rfl)]
  split
  · next hab =>
    refine ⟨hplain.remove.remove, rfl, rfl, fun t ht => hkind ht, fun t ht hdeg => ?_⟩
    have := hrest ht
    rw [hab] at this
    split at this <;> omega
  · next hab =>
    refine ⟨hplain.remove.remove.addEdges, rfl, rfl, fun t ht => hkind ht, fun t ht hdeg => ?_⟩
    rw [hval.degree_addEdges (has_remove.2 ⟨hau, has_remove.2 ha.symm⟩)
      (has_remove.2 ⟨hb.2, has_remove.2 ⟨hbv, hb.1⟩⟩) hab, hrest ht, hdeg]

/-- Edges between two spiders that are no ends. -/
theorem Moored.takeEdges (hplain : w.Plain) (hv : w.kind v = some kind)
    (hkind : kind.isBoundary = false) {kind' : SpiderKind} (hu : w.kind u = some kind')
    (hkind' : kind'.isBoundary = false) (m : ℕ) : w.Moored (w.takeEdges v u .plain m) := by
  refine ⟨hplain.setCount (by simp [hplain v u]), rfl, rfl, fun _ _ => rfl, fun t ht hdeg => ?_⟩
  have htv := ht.ne hv hkind
  have htu := ht.ne hu hkind'
  rw [← hdeg]
  refine Finset.sum_congr rfl fun x _ => ?_
  have hoff : ¬SamePair t x v u := by
    rintro (⟨he, -⟩ | ⟨he, -⟩) <;> [exact htv he; exact htu he]
  rw [joins, joins, Web.takeEdges, Web.setCount]
  dsimp only
  rw [if_neg hoff, if_neg hoff]

/-- Spiders come onto wires, and the neighbours of one that goes are joined. -/
theorem Moored.copyThrough (hw : w.Valid) (hplain : w.Plain) (hv : w.kind v = some kind)
    (hkind : kind.isPhased = true) (hfc : f ≠ c)
    (hends : w.EndsAre v [(c, .plain), (f, .plain)]) : w.Moored (w.copyThrough v c f kind) := by
  have hbound := SpiderKind.isBoundary_of_isPhased hkind
  have hchas := hw.has_of_endsAre hends (x := c) List.mem_cons_self
  have hfhas := hw.has_of_endsAre hends (x := f) (List.mem_cons_of_mem _ List.mem_cons_self)
  have haround : w.Around c ((w.nearby c).filter (· ≠ v)) :=
    ⟨hchas.1, fun x hx => hw.has_of_mem_nearby (List.mem_filter.1 hx).1,
      fun hx => hw.notMem_nearby_self (List.mem_filter.1 hx).1, nodup_nearby.filter _⟩
  have hnotin : v ∉ (w.nearby c).filter (· ≠ v) := by simp
  have haround' := haround.remove hchas.2.symm hnotin
  -- the same edits with the spider removed first
  have hweb : w.copyThrough v c f kind = ((w.remove v).insertAround c
      ((w.nearby c).filter (· ≠ v)) kind .pi).addEdges f c .plain 1 := by
    rw [Web.copyThrough, hw.remove_insertAround haround (has_of_kind hv) hchas.2.symm hnotin]
  have hhas {x : Vertex} (hx : w.Has x ∧ x ≠ v) : ((w.remove v).insertAround c
      ((w.nearby c).filter (· ≠ v)) kind .pi).Has x := by
    rw [Has, kind_insertAround (w := w.remove v) (hw.lt x hx.1)]
    exact has_remove.2 hx.symm
  obtain ⟨hin, hout⟩ := ends_insertAround (w.remove v) c ((w.nearby c).filter (· ≠ v)) kind .pi
  rw [hweb]
  refine ⟨hplain.remove.insertAround.addEdges, hin, hout, fun t ht => ?_, fun t ht hdeg => ?_⟩
  · change ((w.remove v).insertAround c _ kind .pi).kind t = _
    rw [kind_insertAround (w := w.remove v) (hw.lt t ht.has), kind_remove,
      update_of_ne (ht.ne hv hbound)]
  · have htv := ht.ne hv hbound
    have hrest := hw.degree_remove htv
    rw [hw.joins_comm, joins_of_endsAre hends] at hrest
    rw [((hw.remove v).insertAround haround').degree_addEdges (hhas hfhas) (hhas hchas) hfc,
      (hw.remove v).degree_insertAround hplain.remove haround' (has_remove.2 ⟨htv, ht.has⟩)]
    omega

/-- A spider that is no end comes to be of another kind. -/
theorem Moored.paint (h : w.Moored w') (hv : w.kind v = some kind)
    (hkind : kind.isBoundary = false) (kind' : SpiderKind)
    (carrier : Vertex → Option Carrier) :
    w.Moored { w'.paint v kind' with carrier := carrier } where
  plain := h.plain
  inputs := h.inputs
  outputs := h.outputs
  kind t ht := (update_of_ne (ht.ne hv hkind) _ _).trans (h.kind t ht)
  degree := h.degree

end Web

namespace Diagram

open Web

variable {d : Diagram} {rule : DiagramRule} {m : Match} {u v : Vertex}

theorem Yields.moored {x : Except Fault Diagram} {w : Web} (h : Yields x w)
    (hw : d.web.Moored w) : ∃ d', x = .ok d' ∧ d'.Coherent ∧ d.web.Moored d'.web := by
  obtain ⟨d', hok, hd', rfl⟩ := h
  exact ⟨d', hok, hd', hw⟩

section

variable (hd : d.Coherent) (hplain : d.web.Plain)
include hd hplain

theorem moored_hadamard (hv : d.web.kind v = some .x) :
    ∃ d', d.hadamard v = .ok d' ∧ d'.Coherent ∧ d.web.Moored d'.web := by
  have hw := hd.valid
  have haround : d.web.Around v (d.web.nearby v) :=
    ⟨has_of_kind hv, fun u hu => hw.has_of_mem_nearby hu, hw.notMem_nearby_self, nodup_nearby⟩
  obtain ⟨carrier, hyields⟩ := exists_hadamard hd hplain (has_of_kind hv)
  obtain ⟨hin, hout⟩ := ends_insertAround d.web v (d.web.nearby v) .box .zero
  refine hyields.moored (Moored.paint ?_ hv rfl .z carrier)
  exact {
    plain := hplain.insertAround
    inputs := hin
    outputs := hout
    kind := fun t ht => kind_insertAround (hw.lt t ht.has)
    degree := fun t ht hdeg => (hw.degree_insertAround hplain haround ht.has).trans hdeg }

theorem moored_removeIdentity (hv : d.web.Has v) (h : d.checkIdentity v = .ok true) :
    ∃ d', d.removeIdentity v = .ok d' ∧ d'.Coherent ∧ d.web.Moored d'.web := by
  simp only [checkIdentity, and_eq_true_iff] at h
  obtain ⟨hphased, -, hdeg, hlen⟩ := h
  obtain ⟨k, hk, hphased⟩ := isPhased_of_check hphased
  rw [Diagram.degree, degree_eq hd hv] at hdeg
  rw [Diagram.neighborSet, neighborSet_eq hd hv] at hlen
  obtain ⟨a, b, hab, hnear, hends⟩ := ends_of_degree_two hd.valid hplain
    (eq_of_beq (Except.ok.inj hdeg)) (eq_of_beq (Except.ok.inj hlen))
  exact (yields_removeIdentity hd hv hnear).moored (.bypass hd.valid hplain hk hphased hab hends)

theorem moored_cancel (hv : d.web.Has v) (hu : d.web.Has u) (h : d.checkCancel v u = .ok true) :
    ∃ d', d.cancel v u = .ok d' ∧ d'.Coherent ∧ d.web.Moored d'.web := by
  have hw := hd.valid
  obtain ⟨hvu, ⟨k, hk, hk', hphased, -⟩ | ⟨hbox, hbox', hone⟩⟩ := (checkCancel_iff hd hv hu).1 h
  · have hphased' : k.opposite.isPhased = true := (SpiderKind.isPhased_opposite k).trans hphased
    exact (yields_cancelWires hd hk (by rintro rfl; cases hphased)).moored
      (.takeEdges hplain hk (SpiderKind.isBoundary_of_isPhased hphased) hk'
        (SpiderKind.isBoundary_of_isPhased hphased') _)
  · obtain ⟨hk, hdeg, hlen⟩ := of_isWireBox hd hv hbox
    obtain ⟨hk', hdeg', hlen'⟩ := of_isWireBox hd hu hbox'
    have hnear : u ∈ d.web.nearby v := hw.mem_nearby.2 (by rw [hplain.joins, hone]; exact Nat.one_pos)
    obtain ⟨a, hau, hends⟩ := exists_farEnd hw hplain hdeg hlen hnear
    obtain ⟨b, hbv, hends'⟩ := exists_farEnd hw hplain hdeg' hlen' (hw.mem_nearby_comm.1 hnear)
    have hgives := gives_cancel hd hk hu hvu (hw.find_nearby hau hends) (hw.find_nearby hbv hends')
    exact hgives.yields.moored (.cancelBoxes hw hplain hk hk' hvu hends hends' hau hbv)

theorem moored_changeColour (hv : d.web.Has v) (h : d.checkColourChange v = .ok true) :
    ∃ d', d.changeColour v = .ok d' ∧ d'.Coherent ∧ d.web.Moored d'.web := by
  have hw := hd.valid
  obtain ⟨k, carrier, hboxed, hyields⟩ := exists_changeColour hd hplain hv h
  have hbound := SpiderKind.isBoundary_of_isPhased hboxed.phased
  have hhooked : ∀ h ∈ d.web.nearby v, d.web.Hooked v h := fun h hh => by
    refine ⟨hw.mem_nearby.1 hh, ?_⟩
    rcases (hboxed.box h hh).2 with ⟨u, -, hends⟩ | hends <;> exact (hends.degree_eq hw).le
  obtain ⟨-, hpl, hin, hout, hrest⟩ := exists_absorbed hw hplain nodup_nearby hhooked
  have hnotin {t : Vertex} (ht : d.web.IsEnd t) : t ∉ d.web.nearby v := fun hm =>
    ht.ne (hboxed.box t hm).1 rfl rfl
  refine hyields.moored (Moored.paint ?_ hboxed.coloured hbound k.opposite carrier)
  exact {
    plain := hpl
    inputs := hin
    outputs := hout
    kind := fun t ht => (hrest t (ht.ne hboxed.coloured hbound) (hnotin ht)).1
    degree := fun t ht hdeg =>
      (hrest t (ht.ne hboxed.coloured hbound) (hnotin ht)).2.trans hdeg }

/-- Rewriting at a match that is accepted leaves the ends as they are. -/
theorem exists_moored (h : rule.check d m = .ok true) :
    ∃ d', rule.apply d m = .ok d' ∧ d'.Coherent ∧ d.web.Moored d'.web := by
  obtain ⟨hhas, hcheck⟩ := (check_iff hd).1 h
  rw [DiagramRule.checkPresent.eq_def] at hcheck
  split at hcheck
  · next v u =>
    obtain ⟨k, ns, hk, hk', hphased, hne, hcount, -, hyields⟩ :=
      exists_fuse hd (hhas v (by simp)) (hhas u (by simp)) hcheck
    exact hyields.moored (.fuseWires hd.valid hplain hk hk' hphased hne hcount)
  · next v =>
    obtain ⟨k, hk, hx⟩ := of_bind_eq_ok hcheck
    obtain rfl : k = .x := eq_of_beq (Except.ok.inj hx)
    exact moored_hadamard hd hplain (kind_of_eq_ok hk)
  · next v => exact moored_removeIdentity hd hplain (hhas v (by simp)) hcheck
  · next v u => exact moored_cancel hd hplain (hhas v (by simp)) (hhas u (by simp)) hcheck
  · next v u =>
    obtain ⟨k, f, hk, hphased, -, -, -, hfu, hends, hyields⟩ :=
      exists_piCopy hd hplain (hhas v (by simp)) (hhas u (by simp)) hcheck
    exact hyields.moored (.copyThrough hd.valid hplain hk hphased hfu hends)
  · next v boxes =>
    exact moored_changeColour hd hplain (hhas v (by simp)) (and_eq_true_iff.1 hcheck).1
  · cases hcheck

end

end Diagram

end ZXRewriting
