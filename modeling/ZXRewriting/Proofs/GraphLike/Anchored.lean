import ZXRewriting.Proofs.GraphLike.Pruned
import ZXRewriting.Proofs.GraphLike.Tracing

/-!
# Where spiders without names are

A spider that a rule adds has no name, and the one that a phase is moved off loses its own. Those that
stay are held by a spider that hangs off them by its only edge, an end of a wire or a leaf; and none
with only the ends and further spiders beside it is next to an inner one (`Web.Anchored`). So a spider
that is pivoted because of its phase has a name, and the leaf that takes its phase over has it then.

The second half of it is kept by pivots at the boundary because of the order of the rules in a pass:
when they are tried, no inner spider with a phase of 0 or pi is next to another inner one.
-/

namespace ZXRewriting

open Function (update update_self update_of_ne)
open Multigraph (SamePair)

namespace Web

variable {w w' w₁ : Web} {A : Vertex → Prop} {c d l m s t u v x y keep gone : Vertex} {k : EdgeKind}
  {vs : List Vertex} {p : Phase}

/-- Beside a spider are ends of wires and spiders with further edges. -/
def IsOpen (w : Web) (v : Vertex) : Prop := ∀ u ∈ w.nearby v, w.IsEnd u ∨ w.IsHub u

/-- Of the spiders that are in `A`, those without a name have a spider hanging off them, and if that is
    an end, then there is no inner spider beside them. -/
structure Anchored (A : Vertex → Prop) (w : Web) : Prop where
  held : ∀ v, w.IsZ v → A v → w.carrier v = none → ∃ l, w.nearby l = [v]
  apart : ∀ v, w.IsZ v → A v → w.carrier v = none → w.IsOpen v →
    ∀ u ∈ w.nearby v, A u → ¬w.IsInner u

/-- So it is if all spiders have names. -/
theorem Anchored.of_named (h : ∀ v, w.IsZ v → w.carrier v ≠ none) : w.Anchored A :=
  ⟨fun v hv _ hc => absurd hc (h v hv), fun v hv _ hc => absurd hc (h v hv)⟩

theorem Anchored.mono {B : Vertex → Prop} (h : w.Anchored A) (hB : ∀ v, B v → A v) :
    w.Anchored B :=
  ⟨fun v hv hb => h.held v hv (hB v hb), fun v hv hb hc ho u hu hbu =>
    h.apart v hv (hB v hb) hc ho u hu (hB u hbu)⟩

/-- What hangs off a spider has no further edges. -/
theorem Simple.not_isHub_of_nearby (hw : w.Simple) (h : w.nearby l = [v]) : ¬w.IsHub l := fun hub => by
  have hlt := hub.2
  rw [hw.degree_eq, h] at hlt
  exact Nat.lt_irrefl _ hlt

/-- An open spider has no leaf. -/
theorem IsOpen.isEnd (hw : w.Simple) (h : w.IsOpen v) (hl : w.nearby l = [v]) : w.IsEnd l := by
  have hlv : l ∈ w.nearby v := hw.valid.mem_nearby_comm.1 (by simp [hl])
  exact (h l hlv).resolve_right (hw.not_isHub_of_nearby hl)

/-- Next to an inner spider, an open one has a name. -/
theorem Anchored.named_of_isOpen (h : w.Anchored A) (hu : w.IsZ u) (hau : A u) (ho : w.IsOpen u)
    (hv : w.IsInner v) (hav : A v) (hj : v ∈ w.nearby u) : w.carrier u ≠ none := fun hc =>
  h.apart u hu hau hc ho v hj hav hv

theorem IsInner.isOpen (h : w.IsInner v) : w.IsOpen v := fun u hu => .inr (h.2 u hu)

/-- A leaf has a name, unless it and the spider beside it are by themselves. -/
theorem Anchored.named_leaf (h : w.Anchored A) (hw : w.Simple) (hl : w.IsZ l) (hal : A l)
    (hc : w.nearby l = [c]) (hx : x ∈ w.nearby c) (hne : x ≠ l) : w.carrier l ≠ none := fun hnone => by
  obtain ⟨y, hy⟩ := h.held l hl hal hnone
  have hmem : y ∈ w.nearby l := hw.valid.mem_nearby_comm.1 (by simp [hy])
  rw [hc, List.mem_singleton] at hmem
  rw [← hmem, hy, List.mem_singleton] at hx
  exact hne hx

/-- A spider with a single neighbour. -/
theorem nearby_eq_singleton (hv : v ∈ w.nearby l) (honly : ∀ x ∈ w.nearby l, x = v) :
    w.nearby l = [v] :=
  List.perm_singleton.1 ((List.perm_ext_iff_of_nodup nodup_nearby (List.nodup_singleton v)).2
    fun x => ⟨fun hx => List.mem_singleton.2 (honly x hx), fun hx => List.mem_singleton.1 hx ▸ hv⟩)

/-! ### Thinning out -/

namespace Thins

variable (h : Thins w w') (hw : w.Simple) (hw' : w'.Simple)
include h hw hw'

omit hw' in
/-- What hangs off a spider that stays goes on hanging off it. -/
theorem nearby_eq (hw' : w'.Valid) (hl : w.nearby l = [v]) (hv : w'.Has v) :
    w'.nearby l = [v] := by
  have hnot := hw.not_isHub_of_nearby hl
  have hjoined (x : Vertex) : 0 < w.joins l x ↔ x = v := by
    rw [← hw.valid.mem_nearby, hl, List.mem_singleton]
  have hhas : w'.Has l := by
    refine h.stays v l hv hnot ?_
    rw [hw.valid.joins_comm]
    exact (hjoined v).2 rfl
  rw [← hl, nearby, nearby, h.next]
  refine List.filter_congr fun x _ => ?_
  rw [decide_eq_decide, hjoined]
  by_cases hx : w'.Has x
  · rw [hw'.joins_comm, h.joins x l hx hhas hnot, hw.valid.joins_comm, hjoined]
  · rw [hw'.joins_comm, hw'.joins_eq_zero hx]
    exact iff_of_false (Nat.lt_irrefl 0) fun he => hx (he ▸ hv)

/-- Spiders have further edges, or are inner, only if they had or were. -/
theorem isHub (hx : w'.IsHub x) : w.IsHub x := by
  by_contra hnot
  refine hnot ⟨(h.kind x hx.1.has).symm.trans hx.1, ?_⟩
  exact Nat.lt_of_lt_of_le hx.2 (h.degree_le hw'.valid hnot hx.1.has hw.valid)

/-- A leaf is not lost. -/
theorem isOpen (hv : w'.Has v) (ho : w'.IsOpen v) : w.IsOpen v := fun u hu => by
  by_contra hnot
  rw [not_or] at hnot
  have hpos := hw.valid.mem_nearby.1 hu
  have hhas := h.stays v u hv hnot.2 hpos
  have hmem : u ∈ w'.nearby v := by
    rwa [hw'.valid.mem_nearby, h.joins v u hv hhas hnot.2]
  rcases ho u hmem with hend | hub
  · refine hnot.1 ?_
    rwa [IsEnd, ← h.kind u hhas]
  · exact hnot.2 (h.isHub hw hw' hub)

/-- Thinning out keeps the spiders without names anchored, if those that are open get no inner spider
    beside them. -/
theorem anchored (ha : w.Anchored A) (hA : ∀ x, w'.Has x → A x)
    (hc : ∀ x, w'.Has x → w'.carrier x = none → w.carrier x = none)
    (hnew : ∀ x y, w'.Has x → w.IsZ x → w.carrier x = none → w.IsOpen x → y ∈ w'.nearby x →
      w'.IsInner y → y ∈ w.nearby x) : w'.Anchored fun _ => True := by
  have hz {x : Vertex} (hx : w'.IsZ x) : w.IsZ x := (h.kind x hx.has).symm.trans hx
  refine ⟨fun x hx _ hcx => ?_, fun x hx _ hcx ho y hy _ hinner => ?_⟩
  · obtain ⟨l, hl⟩ := ha.held x (hz hx) (hA x hx.has) (hc x hx.has hcx)
    exact ⟨l, h.nearby_eq hw hw'.valid hl hx.has⟩
  · have hopen := h.isOpen hw hw' hx.has ho
    have hnone := hc x hx.has hcx
    exact ha.apart x (hz hx) (hA x hx.has) hnone hopen y
      (hnew x y hx.has (hz hx) hnone hopen hy hinner) (hA y hinner.1.1.has)
      (h.isInner hw'.valid hw.valid hinner)

end Thins

/-! ### Local complementation and pivoting -/

theorem carrier_addToPhases : (w.addToPhases vs p).carrier = w.carrier := by
  induction vs generalizing w with
  | nil => rfl
  | cons t rest ih => exact ih

theorem carrier_complement : (complement p vs w).carrier = w.carrier := by
  induction vs generalizing w with
  | nil => rfl
  | cons n rest ih => exact ih.trans carrier_toggleAll

theorem carrier_joinAll {others : Vertex → List Vertex} :
    (joinAll p others w vs).carrier = w.carrier := by
  rw [joinAll]
  induction vs generalizing w with
  | nil => rfl
  | cons n rest ih => exact ih.trans carrier_toggleAll

theorem carrier_remove : (w.remove v).carrier = update w.carrier v none := rfl

theorem carrier_localComplement : (w.localComplement v).carrier = update w.carrier v none := by
  rw [localComplement, carrier_remove, carrier_complement]

theorem carrier_pivot :
    (w.pivot v u).carrier = update (update w.carrier v none) u none := by
  rw [pivot, carrier_remove, carrier_remove, carrier_addToPhases, carrier_joinAll]

/-- An inner spider is next to no open one without a name, and so complementing around it joins none
    to others. -/
theorem Anchored.localComplement (ha : w.Anchored fun _ => True) (hw : w.InForm) (hv : w.IsInner v) :
    (w.localComplement v).Anchored fun _ => True := by
  have hval := hw.simple.valid
  have hw' := (hw.keeps_localComplement hv.1.1 fun u hu => (hv.2 u hu).1).form.simple
  refine (thins_localComplement hw.simple hv).anchored hw.simple hw' ha (fun _ _ => trivial)
    (fun x hx hc => ?_) fun x y hx hz hc ho hy _ => ?_
  · rwa [carrier_localComplement, update_of_ne (has_localComplement.1 hx).1] at hc
  · have hxv : x ∉ w.nearby v := fun hxv =>
      ha.named_of_isOpen hz trivial ho hv trivial (hval.mem_nearby_comm.1 hxv) hc
    have hne := has_localComplement.1 hx
    have hne' := has_localComplement.1 (hw'.valid.has_of_mem_nearby hy)
    rw [hw'.valid.mem_nearby, hw'.valid.joins_comm, Web.localComplement, joins_remove,
      if_neg (by tauto), joins_complement_of_notMem hxv, hval.joins_comm] at hy
    exact hval.mem_nearby.2 hy

/-- Where `u` has been readied for pivoting with `v`, all others without a name being anchored, they are
    so after it: unless inner spiders are next to `v`, or open spiders without a name next to `u`. -/
theorem Anchored.pivot (ha : w.Anchored (· ≠ u)) (hw : w.Simple) (hw' : (w.pivot v u).Simple)
    (hv : w.IsInner v) (hu : w.IsInner u) (hj : u ∈ w.nearby v)
    (hside : (∀ x ∈ w.nearby u, x ≠ u → w.carrier x = none → ¬w.IsOpen x) ∨
      ∀ y ∈ w.nearby v, y ≠ u → ¬w.IsInner y) : (w.pivot v u).Anchored fun _ => True := by
  have hthins := thins_pivot hw hv hu
  have hvu : v ≠ u := hw.valid.ne_of_mem_nearby hj
  refine hthins.anchored hw hw' ha (fun x hx => (has_pivot.1 hx).1) (fun x hx hc => ?_)
    fun x y hx hz hc ho hy hinner => ?_
  · obtain ⟨hxu, hxv, -⟩ := has_pivot.1 hx
    rwa [carrier_pivot, update_of_ne hxu, update_of_ne hxv] at hc
  · obtain ⟨hxu, hxv, -⟩ := has_pivot.1 hx
    have hyhas := hw'.valid.has_of_mem_nearby hy
    have hnear : x ∉ w.nearby v := fun hmem =>
      ha.named_of_isOpen hz hxu ho hv hvu (hw.valid.mem_nearby_comm.1 hmem) hc
    have hinner' := hthins.isInner hw'.valid hw.valid hinner
    -- what is joined anew are neighbours of the one and of the other
    by_contra hnot
    have hyv : y ∈ w.nearby v := by
      by_contra hyv
      rw [hw'.valid.mem_nearby, joins_pivot_of_notMem hx hyhas hnear hyv, ← hw.valid.mem_nearby] at hy
      exact hnot hy
    have hxn : x ∈ w.nearby u := by
      by_contra hxn
      rw [hw'.valid.mem_nearby, hw'.valid.joins_comm, joins_pivot_of_apart hyhas hx hnear hxn,
        hw.valid.joins_comm, ← hw.valid.mem_nearby] at hy
      exact hnot hy
    rcases hside with hside | hside
    · exact hside x hxn hxu hc ho
    · exact hside y hyv (has_pivot.1 hyhas).1 hinner'

/-! ### Moving off what is in the way -/

/-- Other spiders are open only if they were. -/
theorem Widens.isOpen (h : Widens u w w₁) (hw : w.Simple) (hw₁ : w₁.Simple) (hx : w.IsZ x)
    (hxu : x ≠ u) (ho : w₁.IsOpen x) : w.IsOpen x := fun t ht => by
  have hhas := hw.valid.has_of_mem_nearby ht
  rw [← h.frame.nearby x hx hxu] at ht
  refine (ho t ht).imp (fun hend => ?_) fun hub => ?_
  · rwa [IsEnd, ← h.frame.kind t hhas]
  · exact (h.isHub_iff hw hw₁ ((h.frame.kind t hhas).symm.trans hub.1)).1 hub

/-- Adding spiders beside `u` keeps the others anchored, if the new ones are. -/
theorem Anchored.widens (ha : w.Anchored A) (h : Widens u w w₁) (hw : w.Simple) (hw₁ : w₁.Formed)
    (hA : ∀ x, x ≠ u → A x) (hc : ∀ x, w.Has x → x ≠ u → w₁.carrier x = w.carrier x)
    (hnew : ∀ x, w₁.IsZ x → ¬w.Has x → w₁.carrier x = none → (∃ l, w₁.nearby l = [x]) ∧
      (w₁.IsOpen x → ∀ y ∈ w₁.nearby x, y ≠ u → ¬w₁.IsInner y)) : w₁.Anchored (· ≠ u) := by
  have hz {x : Vertex} (hx : w₁.IsZ x) (hhas : w.Has x) : w.IsZ x :=
    (h.frame.kind x hhas).symm.trans hx
  refine ⟨fun x hx hxu hcx => ?_, fun x hx hxu hcx ho y hy hyu hinner => ?_⟩
  · by_cases hhas : w.Has x
    swap
    · exact (hnew x hx hhas hcx).1
    have hnear := h.frame.nearby x (hz hx hhas) hxu
    obtain ⟨l, hl⟩ := ha.held x (hz hx hhas) (hA x hxu) (hc x hhas hxu ▸ hcx)
    have hlx : l ∈ w.nearby x := hw.valid.mem_nearby_comm.1 (by simp [hl])
    have hlhas := hw.valid.has_of_mem_nearby hlx
    have hxl : x ∈ w₁.nearby l := hw₁.simple.valid.mem_nearby_comm.1 (hnear ▸ hlx)
    -- the spider that hangs off has a single edge still
    have hlen : (w₁.nearby l).length = 1 := by
      by_cases hlz : w.IsZ l
      · have hlu : l ≠ u := fun he => hw.not_isHub_of_nearby (he ▸ hl) h.hub
        rw [h.frame.nearby l hlz hlu, hl]
        rfl
      · have hend : w₁.IsEnd l := h.frame.isEnd ((hw.colour l hlhas).resolve_left hlz)
        rw [← hw₁.simple.degree_eq, hw₁.degree_end l hend]
    obtain ⟨a, ha'⟩ := List.length_eq_one_iff.1 hlen
    rw [ha', List.mem_singleton] at hxl
    exact ⟨l, hxl ▸ ha'⟩
  · by_cases hhas : w.Has x
    swap
    · exact (hnew x hx hhas hcx).2 ho y hy hyu hinner
    have hxz := hz hx hhas
    rw [h.frame.nearby x hxz hxu] at hy
    have hyhas := hw.valid.has_of_mem_nearby hy
    exact ha.apart x hxz (hA x hxu) (hc x hhas hxu ▸ hcx) (h.isOpen hw hw₁.simple hxz hxu ho) y hy
      (hA y hyu) ((h.isInner_iff hw hw₁.simple (hz hinner.1.1 hyhas) hyu).1 hinner)

/-- The leaf that takes the phase of a spider over takes over its name, and holds the spider between
    the two. -/
theorem InForm.exists_leaf (hw : w.InForm) (hu : w.IsZ u) (hc : w.carrier u ≠ none)
    (hp : ¬(w.phase u).isPauli) : (w.shiftPhase u).nearby (w.next + 1) = [w.next] ∧
      (w.shiftPhase u).IsZ (w.next + 1) ∧ (∀ x, (w.shiftPhase u).IsZ x → ¬w.Has x →
        (w.shiftPhase u).carrier x = none → x = w.next) ∧
          ∀ x, w.Has x → x ≠ u → (w.shiftPhase u).carrier x = w.carrier x := by
  obtain ⟨-, hleaf, honly⟩ := hw.nearby_shiftPhase hu hp
  obtain ⟨hform, -, -⟩ := hw.shiftPhase hu
  obtain ⟨c, hcu⟩ := Option.ne_none_iff_exists'.1 hc
  have hcarrier : (w.shiftPhase u).carrier =
      update (update w.carrier u none) (w.next + 1) (some c) := by
    rw [Web.shiftPhase, if_neg hp, Web.moveCarrier]
    split
    · next hnone => exact absurd (hcu.symm.trans hnone) (by simp)
    · next c' hsome =>
      obtain rfl := Option.some.inj (hcu.symm.trans hsome)
      rfl
  have hkind : (w.shiftPhase u).kind =
      update (update w.kind w.next (some .z)) (w.next + 1) (some .z) := by
    rw [Web.shiftPhase, if_neg hp]
    exact (moveCarrier_fields _ u (w.next + 1)).2.1.trans rfl
  refine ⟨nearby_eq_singleton (hform.simple.valid.mem_nearby_comm.1 hleaf) honly, ?_,
    fun x hx hnot hcx => ?_, fun x hx hxu => ?_⟩
  · rw [IsZ, hkind, update_self]
  · rw [IsZ, hkind, Function.update_apply, Function.update_apply] at hx
    split_ifs at hx with hl hn
    · rw [hl, hcarrier, update_self] at hcx
      cases hcx
    · exact hn
    · exact absurd (has_of_kind hx) hnot
  · rw [hcarrier, update_of_ne (hw.simple.valid.ne_next_succ hx), update_of_ne hxu]

/-- Moving the phase of an inner spider with a name onto a leaf keeps the others anchored. Open spiders
    without names come to be next to it only if they were. -/
theorem Anchored.shiftPhase (ha : w.Anchored A) (hw : w.InForm) (hu : w.IsInner u)
    (hA : ∀ x, x ≠ u → A x) (hc : w.carrier u ≠ none) : (w.shiftPhase u).Anchored (· ≠ u) ∧
      ∀ x ∈ (w.shiftPhase u).nearby u, x ≠ u → (w.shiftPhase u).carrier x = none →
        (w.shiftPhase u).IsOpen x → x ∈ w.nearby u ∧ w.carrier x = none ∧ w.IsOpen x := by
  by_cases hp : (w.phase u).isPauli
  · rw [Web.shiftPhase, if_pos hp]
    exact ⟨ha.mono hA, fun x hx _ hcx ho => ⟨hx, hcx, ho⟩⟩
  obtain ⟨hwidens, -, -⟩ := hw.widens_shiftPhase hu
  obtain ⟨hform, hframe, -⟩ := hw.shiftPhase hu.1.1
  obtain ⟨hnear, -, -⟩ := hw.nearby_shiftPhase hu.1.1 hp
  obtain ⟨hleaf, hz, hnew, hold⟩ := hw.exists_leaf hu.1.1 hc hp
  have hshut : ¬(w.shiftPhase u).IsOpen w.next := fun ho =>
    hz.not_isEnd (ho.isEnd hform.simple hleaf)
  refine ⟨ha.widens hwidens hw.simple hform.formed hA hold fun x hx hnot hcx => ?_,
    fun x hx hxu hcx ho => ?_⟩
  · obtain rfl := hnew x hx hnot hcx
    exact ⟨⟨_, hleaf⟩, fun ho => absurd ho hshut⟩
  · rcases (hnear x).1 hx with hx | rfl
    · have hhas := hw.simple.valid.has_of_mem_nearby hx
      exact ⟨hx, hold x hhas hxu ▸ hcx,
        hwidens.isOpen hw.simple hform.simple (hu.2 x hx).1 hxu ho⟩
    · exact absurd ho hshut

/-- The spider that the boundary is moved behind is held by it, and beside it is no other spider. -/
theorem Anchored.shiftBoundaries (ha : w.Anchored A) (hw : w.InForm) (hu : w.AtBoundary u)
    (hv : w.IsZ v) (hj : u ∈ w.nearby v) (hA : ∀ x, x ≠ u → A x) :
    (w.shiftBoundaries u).Anchored (· ≠ u) ∧ ∀ x, w.Has x →
      (w.shiftBoundaries u).carrier x = w.carrier x := by
  obtain ⟨hwidens, -, -⟩ := hw.widens_shiftBoundaries hu hv hj
  obtain ⟨hform, -⟩ := hw.shiftBoundaries hu.1
  have hval := hw.simple.valid
  obtain ⟨t, ht⟩ := List.length_eq_one_iff.1 hu.2.1
  have hmem : t ∈ w.nearby u ∧ w.IsEnd t := by
    have : t ∈ w.ends u := by simp [ht]
    simpa [ends] using this
  have hne : u ≠ t := fun h => hu.1.not_isEnd (h ▸ hmem.2)
  obtain ⟨k, hk⟩ := Option.isSome_iff_exists.1 (link_isSome_iff.2 (hval.mem_nearby.1 hmem.1))
  have hsplit : w.shiftBoundaries u = w.split u t k := by
    rw [Web.shiftBoundaries, ht, List.foldl_cons, List.foldl_nil, Web.shiftBoundary, hk]
  rw [hsplit] at hwidens hform ⊢
  have hcarrier : ∀ x, w.Has x → (w.split u t k).carrier x = w.carrier x := fun _ _ => rfl
  refine ⟨ha.widens hwidens hw.simple hform.formed hA (fun x hx _ => hcarrier x hx)
    fun x hx hnot _ => ?_, hcarrier⟩
  obtain rfl : x = w.next := (isZ_split.1 hx).resolve_left fun hz => hnot hz.has
  have hnear (y : Vertex) : y ∈ (w.split u t k).nearby w.next ↔ y = u ∨ y = t := by
    have hun := hval.ne_next hu.1.has
    have htn := hval.ne_next hmem.2.has
    have hcount (k' : EdgeKind) : (w.split u t k).count w.next y k' =
        if y = u then if k' = .hadamard then 1 else 0
        else if y = t then if k' = k.opposite then 1 else 0 else 0 := by
      rw [hval.count_split hu.1.has hmem.2.has hne, hval.count_next]
      simp [SamePair, hun.symm, htn.symm]
    rw [hform.simple.valid.mem_nearby, joins_pos_iff]
    simp only [hcount]
    by_cases hyu : y = u
    · exact iff_of_true ⟨.hadamard, by simp [hyu]⟩ (.inl hyu)
    · by_cases hyt : y = t
      · exact iff_of_true ⟨k.opposite, by simp [hyt, hne.symm]⟩ (.inr hyt)
      · simp [hyu, hyt]
  have hend : (w.split u t k).IsEnd t := hval.isEnd_split.2 hmem.2
  obtain ⟨a, ha'⟩ := hform.exists_nearby_eq hend
  have hat : w.next ∈ (w.split u t k).nearby t :=
    hform.simple.valid.mem_nearby_comm.1 ((hnear t).2 (.inr rfl))
  refine ⟨⟨t, ?_⟩, fun _ y hy hyu hinner => ?_⟩
  · rw [ha', List.mem_singleton] at hat
    rw [ha', hat]
  · exact (((hnear y).1 hy).resolve_left hyu ▸ hinner.1.1 : (w.split u t k).IsZ t).not_isEnd hend

section

variable (ha : w.Anchored fun _ => True) (hw : w.InForm) (hv : w.IsInner v) (hj : u ∈ w.nearby v)
include ha hw hv hj

/-- A pivot inside. -/
theorem Anchored.pivotInner (hu : w.IsInner u) (hp : (w.phase u).isPauli) :
    (w.pivot v u).Anchored fun _ => True := by
  have hne := hw.simple.valid.ne_of_mem_nearby hj
  have hw' := (hw.keeps_pivot ((hw.readied hu hp).pivotable hv hj hne)).form.simple
  refine (ha.mono fun _ _ => trivial).pivot hw.simple hw' hv hu hj (.inl fun x hx _ hc ho => ?_)
  exact ha.named_of_isOpen (hu.2 x hx).1 trivial ho hu trivial
    (hw.simple.valid.mem_nearby_comm.1 hx) hc

/-- A pivot inside with a phase in the way. -/
theorem Anchored.pivotGadget (hu : w.IsInner u) :
    ((w.shiftPhase u).pivot v u).Anchored fun _ => True := by
  have hval := hw.simple.valid
  have hne := hval.ne_of_mem_nearby hj
  obtain ⟨hwidens, hu₁, -⟩ := hw.widens_shiftPhase hu
  have hready := hw.readied_shiftPhase hu
  have hsimple := hready.form.simple
  have hj₁ : u ∈ (w.shiftPhase u).nearby v := by rwa [hready.frame.nearby v hv.1.1 hne]
  have hv₁ := (hwidens.isInner_iff hw.simple hsimple hv.1.1 hne).2 hv
  have hc := ha.named_of_isOpen hu.1.1 trivial hu.isOpen hv trivial (hval.mem_nearby_comm.1 hj)
  obtain ⟨ha₁, hbefore⟩ := ha.shiftPhase hw hu (fun _ _ => trivial) hc
  refine ha₁.pivot hsimple ?_ hv₁ hu₁ hj₁ (.inl fun x hx hxu hcx ho => ?_)
  · exact (hready.form.keeps_pivot (hready.pivotable hv hj hne)).form.simple
  · obtain ⟨hx, hcx, ho⟩ := hbefore x hx hxu hcx ho
    exact ha.named_of_isOpen (hu.2 x hx).1 trivial ho hu trivial (hval.mem_nearby_comm.1 hx) hcx

/-- A pivot at the boundary with a phase in the way, if no inner spider is next to the first one. -/
theorem Anchored.pivotBoundaryGadget (hu : w.AtBoundary u)
    (hlone : ∀ y ∈ w.nearby v, ¬w.IsInner y) :
    (((w.shiftBoundaries u).shiftPhase u).pivot v u).Anchored fun _ => True := by
  have hval := hw.simple.valid
  have hne := hval.ne_of_mem_nearby hj
  obtain ⟨hwidens, hu₁, -⟩ := hw.widens_shiftBoundaries hu hv.1.1 hj
  obtain ⟨hform, hframe, -⟩ := hw.shiftBoundaries hu.1
  obtain ⟨hwidens', hu₂, -⟩ := hform.widens_shiftPhase hu₁
  have hready := hw.readied_shiftPhase_shiftBoundaries hu.1
  have hsimple := hready.form.simple
  have hj₁ : u ∈ ((w.shiftBoundaries u).shiftPhase u).nearby v := by
    rwa [hready.frame.nearby v hv.1.1 hne]
  have hv₁ := (hwidens.isInner_iff hw.simple hform.simple hv.1.1 hne).2 hv
  have hv₂ := (hwidens'.isInner_iff hform.simple hsimple hv₁.1.1 hne).2 hv₁
  obtain ⟨ha₁, hold⟩ := ha.shiftBoundaries hw hu hv.1.1 hj fun _ _ => trivial
  have hc : (w.shiftBoundaries u).carrier u ≠ none := by
    rw [hold u hu.1.has]
    exact ha.named_of_isOpen hu.1 trivial hu.2.2 hv trivial (hval.mem_nearby_comm.1 hj)
  obtain ⟨ha₂, -⟩ := ha₁.shiftPhase hform hu₁ (fun _ h => h) hc
  refine ha₂.pivot hsimple ?_ hv₂ hu₂ hj₁ (.inr fun y hy hyu hinner => ?_)
  · exact (hready.form.keeps_pivot (hready.pivotable hv hj hne)).form.simple
  · rw [hready.frame.nearby v hv.1.1 hne] at hy
    have hz := (hv.2 y hy).1
    have hinner₁ := (hwidens'.isInner_iff hform.simple hsimple (hframe.isZ hz) hyu).1 hinner
    exact hlone y hy ((hwidens.isInner_iff hw.simple hform.simple hz hyu).1 hinner₁)

end

/-! ### Fusing -/

/-- The one that stays is without a name only if both were. -/
theorem carrier_mergeCarriers_eq_none (hne : keep ≠ gone)
    (h : (w.mergeCarriers keep gone).carrier keep = none) :
    w.carrier keep = none ∧ w.carrier gone = none := by
  rw [mergeCarriers] at h
  cases hc : w.carrier gone with
  | none => exact ⟨by simpa [hc] using h, rfl⟩
  | some c =>
    rw [hc] at h
    dsimp only at h
    rw [update_of_ne hne] at h
    cases hk : w.carrier keep with
    | none => simp [hk] at h
    | some c' => simp [hk, update_of_ne hne] at h

theorem carrier_mergeCarriers_of_ne (hk : x ≠ keep) (hg : x ≠ gone) :
    (w.mergeCarriers keep gone).carrier x = w.carrier x := by
  rw [mergeCarriers]
  cases w.carrier gone with
  | none => rfl
  | some c =>
    dsimp only
    cases hc : update w.carrier gone none keep with
    | none => exact (update_of_ne hk _ _).trans (update_of_ne hg _ _)
    | some k => exact update_of_ne hg _ _

/-- Turning a phase around gives and takes no names. -/
theorem carrier_negatePhase : (w.negatePhase v).carrier x = none ↔ w.carrier x = none := by
  by_cases hx : x = v
  · subst hx
    simp [negatePhase]
  · simp [negatePhase, update_of_ne hx]

theorem carrier_handOver : ((w.pushThrough v gone).handOver v keep gone).carrier x = none ↔
    w.carrier x = none := by
  rw [handOver, carrier_toggleAll]
  change (w.pushThrough v gone).carrier x = none ↔ _
  rw [pushThrough]
  split
  · rw [carrier_addToPhases, carrier_negatePhase]
  · rfl

namespace Fusable

variable (h : w.Fusable v keep gone) (hw : w.Simple)
include h hw

omit hw in
/-- Others are without a name only if they were, and the one that stays if both were. -/
theorem carrier_fuse (hv : x ≠ v) (hg : x ≠ gone)
    (hc : (w.fuse v keep gone).carrier x = none) :
    w.carrier x = none ∧ (x = keep → w.carrier gone = none) := by
  rw [fuse, carrier_remove, update_of_ne hg, carrier_remove, update_of_ne hv] at hc
  by_cases hk : x = keep
  · subst hk
    obtain ⟨hkeep, hgone⟩ := carrier_mergeCarriers_eq_none h.ne hc
    exact ⟨carrier_handOver.1 hkeep, fun _ => carrier_handOver.1 hgone⟩
  · rw [carrier_mergeCarriers_of_ne hk hg, carrier_handOver] at hc
    exact ⟨hc, fun he => absurd he hk⟩

/-- What hangs off one of the neighbours or another spider. -/
theorem ne_of_leaf (hl : w.nearby l = [x]) (hx : x ≠ v) : l ≠ v ∧ l ≠ keep ∧ l ≠ gone := by
  have hnot {y : Vertex} (hy : v ∈ w.nearby y) : l ≠ y := fun he => by
    rw [← he, hl, List.mem_singleton] at hy
    exact hx hy.symm
  refine ⟨fun he => ?_, hnot (hw.valid.mem_nearby_comm.1 (h.mem_nearby.2 (.inl rfl))),
    hnot (hw.valid.mem_nearby_comm.1 (h.mem_nearby.2 (.inr rfl)))⟩
  have hk := h.mem_nearby.2 (.inl rfl : keep = keep ∨ _)
  have hg := h.mem_nearby.2 (.inr rfl : _ ∨ gone = gone)
  rw [← he, hl, List.mem_singleton] at hk hg
  exact h.ne (hk.trans hg.symm)

variable (hw' : (w.fuse v keep gone).Simple)
include hw'

/-- Edges change between `keep` and the neighbours of `gone` only. -/
theorem mem_nearby_fuse (hx : x ≠ v ∧ x ≠ gone) (hy : y ≠ v ∧ y ≠ gone)
    (hxy : ¬(x = keep ∧ y ∈ w.nearby gone ∨ y = keep ∧ x ∈ w.nearby gone)) :
    y ∈ (w.fuse v keep gone).nearby x ↔ y ∈ w.nearby x := by
  rw [hw'.valid.mem_nearby, hw.valid.mem_nearby, h.joins_fuse hw hx hy, if_neg fun hc => hxy hc.2]

/-- What hangs off a spider that stays goes on hanging off it. -/
theorem nearby_fuse_leaf (hl : w.nearby l = [x]) (hx : x ≠ v ∧ x ≠ gone) :
    (w.fuse v keep gone).nearby l = [x] := by
  obtain ⟨hlv, hlk, hlg⟩ := h.ne_of_leaf hw hl hx.1
  have hfar : l ∉ w.nearby gone := fun hmem => by
    rw [hw.valid.mem_nearby_comm, hl, List.mem_singleton] at hmem
    exact hx.2 hmem.symm
  refine nearby_eq_singleton ?_ fun y hy => ?_
  · rw [h.mem_nearby_fuse hw hw' ⟨hlv, hlg⟩ hx (by tauto), hl]
    exact List.mem_singleton.2 rfl
  · have hhas := has_fuse.1 (hw'.valid.has_of_mem_nearby hy)
    rw [h.mem_nearby_fuse hw hw' ⟨hlv, hlg⟩ ⟨hhas.2.1, hhas.1⟩ (by tauto), hl] at hy
    exact List.mem_singleton.1 hy

/-- A neighbour of the one that goes comes to be beside the one that stays. -/
theorem mem_nearby_keep (hx : x ∈ w.nearby gone) (hv : x ≠ v) (hk : x ∉ w.nearby keep)
    (hne : x ≠ keep) : x ∈ (w.fuse v keep gone).nearby keep := by
  have hxg : x ≠ gone := fun he => hw.valid.notMem_nearby_self (he ▸ hx)
  have hzero : w.joins keep x = 0 := by
    by_contra hpos
    exact hk (hw.valid.mem_nearby.2 (Nat.pos_of_ne_zero hpos))
  rw [hw'.valid.mem_nearby, h.joins_fuse hw ⟨h.keep_ne hw, h.ne⟩ ⟨hv, hxg⟩,
    if_pos ⟨hne.symm, .inl ⟨rfl, hx⟩⟩, hzero]
  exact Nat.one_pos

/-- What hangs off the one that goes comes to hang off the one that stays. -/
theorem nearby_fuse_leaf_gone (hl : w.nearby l = [gone]) :
    (w.fuse v keep gone).nearby l = [keep] := by
  obtain ⟨hlv, hlk, hlg⟩ := h.ne_of_leaf hw hl (h.gone_ne hw)
  have hmem : l ∈ w.nearby gone := hw.valid.mem_nearby_comm.1 (by simp [hl])
  have hfar : l ∉ w.nearby keep := fun hk => by
    rw [hw.valid.mem_nearby_comm, hl, List.mem_singleton] at hk
    exact h.ne hk
  refine nearby_eq_singleton ?_ fun y hy => ?_
  · exact hw'.valid.mem_nearby_comm.1 (h.mem_nearby_keep hw hw' hmem hlv hfar hlk)
  · have hhas := has_fuse.1 (hw'.valid.has_of_mem_nearby hy)
    by_contra hyk
    rw [h.mem_nearby_fuse hw hw' ⟨hlv, hlg⟩ ⟨hhas.2.1, hhas.1⟩ (by tauto), hl,
      List.mem_singleton] at hy
    exact hhas.1 hy

/-- Spiders other than the one that stays are open only if they were. -/
theorem isOpen (hx : (w.fuse v keep gone).Has x) (hxk : x ≠ keep)
    (ho : (w.fuse v keep gone).IsOpen x) : w.IsOpen x := fun y hy => by
  have hhas := has_fuse.1 hx
  by_cases hyv : y = v
  · exact .inr (hyv ▸ h.isHub_middle hw)
  by_cases hyk : y = keep ∨ y = gone
  · exact .inr (h.isHub_of_mem_nearby hw hhas.2.1 hyk hy)
  rw [not_or] at hyk
  have hy' := (h.mem_nearby_fuse hw hw' ⟨hhas.2.1, hhas.1⟩ ⟨hyv, hyk.2⟩ (by tauto)).2 hy
  refine (ho y hy').imp (fun hend => ?_) fun hub => h.isHub hw hw' hub hyk.1
  rwa [IsEnd, ← kind_of_has_fuse (hw'.valid.has_of_mem_nearby hy')]

/-- The one that stays is inner beside an open spider only if one of the two beside it was. -/
theorem isInner_of_mem_nearby (hk : (w.fuse v keep gone).IsInner keep) (hxv : x ≠ v)
    (hx : keep ∈ w.nearby x ∨ gone ∈ w.nearby x) :
    keep ∈ w.nearby x ∧ w.IsInner keep ∨ gone ∈ w.nearby x ∧ w.IsInner gone := by
  by_cases hkeep : w.IsInner keep
  swap
  · have honly := h.only_middle hw hw' hk hkeep
    have hfar : keep ∉ w.nearby x := fun hmem => hxv (honly x (hw.valid.mem_nearby_comm.1 hmem))
    exact .inr ⟨hx.resolve_left hfar, h.isInner_gone hw hw' hk hkeep⟩
  rcases hx with hx | hx
  · exact .inl ⟨hx, hkeep⟩
  refine .inr ⟨hx, h.isHub_of_mem_nearby hw hxv (.inr rfl) hx, fun z hz => ?_⟩
  by_cases hzv : z = v
  · exact hzv ▸ h.isHub_middle hw
  by_cases hzk : z = keep
  · exact hzk ▸ hkeep.1
  by_cases hzn : z ∈ w.nearby keep
  · exact hkeep.2 z hzn
  · exact h.isHub hw hw' (hk.2 z (h.mem_nearby_keep hw hw' hz hzv hzn hzk)) hzk

end Fusable

/-- Fusing the neighbours of a spider keeps the spiders without names anchored: the one that stays is
    without a name only if both were, and then has the leaf of the other one. -/
theorem Anchored.fuse (ha : w.Anchored fun _ => True) (hw : w.InForm) (h : w.Fusable v keep gone) :
    (w.fuse v keep gone).Anchored fun _ => True := by
  have hw' := (h.keeps hw).form.simple
  have hz {x : Vertex} (hx : (w.fuse v keep gone).IsZ x) : w.IsZ x :=
    (kind_of_has_fuse hx.has).symm.trans hx
  refine ⟨fun x hx _ hc => ?_, fun x hx _ hc ho y hy _ hinner => ?_⟩
  · have hhas := has_fuse.1 hx.has
    obtain ⟨l, hl⟩ := ha.held x (hz hx) trivial (h.carrier_fuse hhas.2.1 hhas.1 hc).1
    exact ⟨l, h.nearby_fuse_leaf hw.simple hw' hl ⟨hhas.2.1, hhas.1⟩⟩
  · have hhas := has_fuse.1 hx.has
    obtain ⟨hcx, hcgone⟩ := h.carrier_fuse hhas.2.1 hhas.1 hc
    by_cases hxk : x = keep
    · -- the leaf of the one that goes is no end, and comes to hang off the one that stays
      obtain ⟨l, hl⟩ := ha.held gone h.gone_isZ trivial (hcgone hxk)
      have hlz := h.gone_nearby l (hw.simple.valid.mem_nearby_comm.1 (by simp [hl]))
      have hl' := h.nearby_fuse_leaf_gone hw.simple hw' hl
      have hend := ho.isEnd hw' (hl'.trans (congrArg (fun y => [y]) hxk.symm))
      refine hlz.not_isEnd ?_
      rwa [IsEnd, ← kind_of_has_fuse hend.has]
    have hopen := h.isOpen hw.simple hw' hx.has hxk ho
    have hapart := ha.apart x (hz hx) trivial hcx hopen
    have hyhas := has_fuse.1 (hw'.valid.has_of_mem_nearby hy)
    by_cases hyk : y = keep
    · subst hyk
      have hbefore : y ∈ w.nearby x ∨ gone ∈ w.nearby x := by
        by_contra hnot
        rw [not_or] at hnot
        have hfar : x ∉ w.nearby gone := fun hmem => hnot.2 (hw.simple.valid.mem_nearby_comm.1 hmem)
        exact hnot.1 ((h.mem_nearby_fuse hw.simple hw' ⟨hhas.2.1, hhas.1⟩ ⟨hyhas.2.1, hyhas.1⟩
          (by tauto)).1 hy)
      rcases h.isInner_of_mem_nearby hw.simple hw' hinner hhas.2.1 hbefore with ⟨hmem, hin⟩ | ⟨hmem, hin⟩
      · exact hapart y hmem trivial hin
      · exact hapart gone hmem trivial hin
    · refine hapart y ((h.mem_nearby_fuse hw.simple hw' ⟨hhas.2.1, hhas.1⟩ ⟨hyhas.2.1, hyhas.1⟩
        (by tauto)).1 hy) trivial (h.isInner hw.simple hw' hinner hyk)

/-! ### Fusing gadgets -/

theorem carrier_clearCentre : (w.clearCentre c l).carrier x = none ↔ w.carrier x = none := by
  rw [clearCentre]
  split
  · exact carrier_negatePhase
  · rfl

/-- Fusing gadgets keeps the spiders without names anchored. -/
theorem Anchored.fuseGadgets (ha : w.Anchored fun _ => True) (hw : w.InForm)
    (h : w.SameSupport c d l m) : (w.fuseGadgets c d l m).Anchored fun _ => True := by
  have hw' := (h.keeps hw).form.simple
  refine (thins_fuseGadgets hw.simple h).anchored hw.simple hw' ha (fun _ _ => trivial)
    (fun x hx hc => ?_) fun x y hx _ _ _ hy _ => ?_
  · obtain ⟨hd, hm, -⟩ := has_fuseGadgets.1 hx
    rw [Web.fuseGadgets, absorb, carrier_remove, update_of_ne hd, carrier_remove,
      update_of_ne hm] at hc
    have hbefore : ((w.clearCentre c l).clearCentre d m).carrier x = none := by
      by_cases hxl : x = l
      · subst hxl
        exact (carrier_mergeCarriers_eq_none h.leaf_ne_leaf hc).1
      · rwa [carrier_mergeCarriers_of_ne hxl hm] at hc
    rwa [carrier_clearCentre, carrier_clearCentre] at hbefore
  · have hyhas := hw'.valid.has_of_mem_nearby hy
    rw [hw'.valid.mem_nearby, joins_fuseGadgets hx hyhas] at hy
    exact hw.simple.valid.mem_nearby.2 hy

end Web

end ZXRewriting
