import ZXRewriting.Proofs.GraphLike.Steps

/-!
# Where a pivot happens

Two webs are the same at a spider (`Web.SameAt`) when it is of one kind there, with one phase, one
carrier and the same edges. An edit is *confined* to a set of spiders (`Web.Confined`) when the web stays the
same at all others. A pivot is confined to the two spiders that go and their neighbours, whatever was moved
off before, apart from spiders that are new (`Web.confined_pivot`, `Web.confined_pivot_of_confined`).

The other way round, what a pivot makes of these spiders depends on nothing else: on two webs that are
the same at all of them, it gives webs that are (`Web.pivot_congr`). And so do the conditions of the
rules that pivot (`Web.isInner_congr`, `Web.atBoundary_congr`).
-/

namespace ZXRewriting

open Function (update update_self update_of_ne)
open Multigraph (SamePair)

namespace Web

variable {w w' w'' : Web} {S T : Set Vertex} {s t u v x y : Vertex} {ts vs : List Vertex}
  {p q : Phase} {k : EdgeKind}

/-- A spider is the same in two webs, with its edges. -/
structure SameAt (w w' : Web) (x : Vertex) : Prop where
  kind : w'.kind x = w.kind x
  phase : w'.phase x = w.phase x
  carrier : w'.carrier x = w.carrier x
  count : ∀ y k, w'.count x y k = w.count x y k

/-- All spiders but those of a set are the same in two webs. -/
def Confined (S : Set Vertex) (w w' : Web) : Prop := ∀ x ∉ S, SameAt w w' x

namespace SameAt

theorem refl (w : Web) (x : Vertex) : SameAt w w x := ⟨rfl, rfl, rfl, fun _ _ => rfl⟩

theorem symm (h : SameAt w w' x) : SameAt w' w x :=
  ⟨h.kind.symm, h.phase.symm, h.carrier.symm, fun y k => (h.count y k).symm⟩

theorem trans (h : SameAt w w' x) (h' : SameAt w' w'' x) : SameAt w w'' x :=
  ⟨h'.kind.trans h.kind, h'.phase.trans h.phase, h'.carrier.trans h.carrier,
    fun y k => (h'.count y k).trans (h.count y k)⟩

theorem joins (h : SameAt w w' x) (y : Vertex) : w'.joins x y = w.joins x y := by
  rw [Web.joins, h.count, h.count, ← Web.joins]

theorem link (h : SameAt w w' x) (y : Vertex) : w'.link x y = w.link x y := by
  rw [Web.link, h.count, h.count, ← Web.link]

theorem isZ (h : SameAt w w' x) : w'.IsZ x ↔ w.IsZ x := by rw [IsZ, h.kind, IsZ]

theorem isEnd (h : SameAt w w' x) : w'.IsEnd x ↔ w.IsEnd x := by rw [IsEnd, h.kind, IsEnd]

theorem has (h : SameAt w w' x) : w'.Has x ↔ w.Has x := by rw [Has, h.kind, Has]

theorem nearby (h : SameAt w w' x) (hw : w.Valid) (hw' : w'.Valid) : w'.nearby x = w.nearby x := by
  refine List.Perm.eq_of_pairwise (fun _ _ _ _ h₁ h₂ => absurd h₂ (Nat.lt_asymm h₁)) pairwise_nearby
    pairwise_nearby ((List.perm_ext_iff_of_nodup nodup_nearby nodup_nearby).2 fun y => ?_)
  rw [hw'.mem_nearby, hw.mem_nearby, h.joins]

end SameAt

/-! ### Edits within a set -/

namespace Confined

theorem refl (S : Set Vertex) (w : Web) : Confined S w w := fun x _ => .refl w x

theorem trans (h : Confined S w w') (h' : Confined S w' w'') : Confined S w w'' :=
  fun x hx => (h x hx).trans (h' x hx)

theorem mono (h : Confined S w w') (hST : S ⊆ T) : Confined T w w' := fun x hx => h x fun hS => hx (hST hS)

end Confined

theorem confined_setPhase (ht : t ∈ S) (w : Web) (p : Phase) : Confined S w (w.setPhase t p) :=
  fun _ hx => ⟨rfl, update_of_ne (ne_of_mem_of_not_mem ht hx).symm _ _, rfl, fun _ _ => rfl⟩

theorem confined_setCount (hs : s ∈ S) (ht : t ∈ S) (w : Web) (n : EdgeKind → ℕ) :
    Confined S w (w.setCount s t n) := fun x hx => ⟨rfl, rfl, rfl, fun y k => if_neg (by
  rintro (⟨rfl, -⟩ | ⟨rfl, -⟩)
  · exact hx hs
  · exact hx ht)⟩

theorem confined_toggle (hs : s ∈ S) (ht : t ∈ S) (w : Web) : Confined S w (w.toggle s t) := by
  rw [toggle]
  split
  · exact confined_setPhase hs w _
  · exact confined_setCount hs ht w _

theorem confined_toggleAll (hs : s ∈ S) (hts : ∀ t ∈ ts, t ∈ S) (w : Web) :
    Confined S w (w.toggleAll s ts) := by
  induction ts generalizing w with
  | nil => exact .refl S w
  | cons t rest ih =>
    obtain ⟨ht, hrest⟩ := List.forall_mem_cons.1 hts
    exact (confined_toggle hs ht w).trans (ih hrest (w.toggle s t))

theorem confined_joinAll {others : Vertex → List Vertex} (hvs : ∀ n ∈ vs, n ∈ S)
    (hothers : ∀ n ∈ vs, ∀ m ∈ others n, m ∈ S) (w : Web) (q : Phase) :
    Confined S w (joinAll q others w vs) := by
  induction vs generalizing w with
  | nil => exact .refl S w
  | cons n rest ih =>
    obtain ⟨hn, hrest⟩ := List.forall_mem_cons.1 hvs
    obtain ⟨ho, horest⟩ := List.forall_mem_cons.1 hothers
    rw [joinAll_cons]
    exact ((confined_setPhase hn w _).trans (confined_toggleAll hn ho _)).trans (ih hrest horest _)

theorem confined_addToPhases (hvs : ∀ n ∈ vs, n ∈ S) (w : Web) (p : Phase) :
    Confined S w (w.addToPhases vs p) := by
  induction vs generalizing w with
  | nil => exact .refl S w
  | cons n rest ih =>
    obtain ⟨hn, hrest⟩ := List.forall_mem_cons.1 hvs
    exact (confined_setPhase hn w _).trans (ih hrest (w.addToPhase n p))

/-- A spider whose edges all lead into the set is removed. -/
theorem confined_remove (hv : v ∈ S) (h : ∀ x ∉ S, ∀ k, w.count x v k = 0) : Confined S w (w.remove v) :=
  fun x hx => by
    have hne := (ne_of_mem_of_not_mem hv hx).symm
    refine ⟨update_of_ne hne _ _, update_of_ne hne _ _, update_of_ne hne _ _, fun y k => ?_⟩
    simp only [remove, hne, false_or]
    split
    · next hy => rw [hy, h x hx k]
    · rfl

theorem Valid.count_eq_zero (hw : w.Valid) (h : x ∉ w.nearby v) (k : EdgeKind) : w.count x v k = 0 := by
  rw [hw.mem_nearby, hw.joins_comm, joins] at h
  cases k <;> omega

/-- A pivot is confined to the two spiders and their neighbours. -/
theorem confined_pivot (hw : w.Valid) (hv : v ∈ S) (hu : u ∈ S) (hns : ∀ n ∈ w.nearby v, n ∈ S)
    (hms : ∀ m ∈ w.nearby u, m ∈ S) : Confined S w (w.pivot v u) := by
  have hpartners : ∀ n ∈ w.nearby v, ∀ m ∈ w.pivotPartners v u n, m ∈ S := fun n _ m hm => by
    rw [pivotPartners] at hm
    split at hm
    · simp at hm
    · exact hms m (List.mem_of_mem_filter hm)
  have hjoined := (confined_joinAll hns hpartners w (w.phase u)).trans
    (confined_addToPhases hms _ (w.phase v))
  have hremoved := hjoined.trans (confined_remove hv fun x hx k =>
    ((hjoined x hx).count v k).trans (hw.count_eq_zero (fun h => hx (hns x h)) k))
  exact hremoved.trans (confined_remove hu fun x hx k =>
    ((hremoved x hx).count u k).trans (hw.count_eq_zero (fun h => hx (hms x h)) k))

/-- An edit within a set brings no edges from elsewhere to a spider. -/
theorem Confined.nearby_subset (h : Confined S w w') (hw : w.Valid) (hw' : w'.Valid)
    (hns : ∀ n ∈ w.nearby v, n ∈ S) : ∀ n ∈ w'.nearby v, n ∈ S := fun n hn => by
  by_contra hnot
  rw [hw'.mem_nearby_comm, hw'.mem_nearby, (h n hnot).joins, ← hw.mem_nearby,
    hw.mem_nearby_comm] at hn
  exact hnot (hns n hn)

/-- Pivoting after another edit within the two spiders and their neighbours. -/
theorem confined_pivot_of_confined (h : Confined S w w') (hw : w.Valid) (hw' : w'.Valid) (hv : v ∈ S)
    (hu : u ∈ S) (hns : ∀ n ∈ w.nearby v, n ∈ S) (hms : ∀ m ∈ w.nearby u, m ∈ S) :
    Confined S w (w'.pivot v u) :=
  h.trans (confined_pivot hw' hv hu (h.nearby_subset hw hw' hns) (h.nearby_subset hw hw' hms))

/-! Moving off what is in the way brings spiders that are new. -/

theorem confined_addSpider (hn : w.next ∈ S) (p : Phase) : Confined S w (w.addSpider p) := fun x hx => by
  have hne := (ne_of_mem_of_not_mem hn hx).symm
  exact ⟨update_of_ne hne _ _, update_of_ne hne _ _, rfl, fun _ _ => rfl⟩

theorem confined_split (hs : s ∈ S) (ht : t ∈ S) (hn : w.next ∈ S) : Confined S w (w.split s t k) :=
  (((confined_setCount hs ht w _).trans (confined_addSpider (w := w.cut s t) hn .zero)).trans
    (confined_setCount hs hn _ _)).trans (confined_setCount hn ht _ _)

theorem confined_moveCarrier (hs : s ∈ S) (ht : t ∈ S) (w : Web) : Confined S w (w.moveCarrier s t) := by
  rw [moveCarrier]
  split
  · exact .refl S w
  · refine fun x hx => ⟨rfl, rfl, ?_, fun _ _ => rfl⟩
    exact (update_of_ne (ne_of_mem_of_not_mem ht hx).symm _ _).trans
      (update_of_ne (ne_of_mem_of_not_mem hs hx).symm _ _)

theorem confined_shiftPhase (hv : v ∈ S) (hn : ∀ n, w.next ≤ n → n ∈ S) :
    Confined S w (w.shiftPhase v) := by
  have hnext := hn w.next le_rfl
  have hleaf := hn (w.next + 1) (Nat.le_succ _)
  rw [shiftPhase]
  split
  · exact .refl S w
  · exact (((((confined_addSpider hnext .zero).trans (confined_addSpider hleaf _)).trans
      (confined_setPhase hv _ _)).trans (confined_setCount hv hnext _ _)).trans
        (confined_setCount hnext hleaf _ _)).trans (confined_moveCarrier hv hleaf _)

theorem next_shiftBoundary : w.next ≤ (shiftBoundary v w t).next := by
  rw [shiftBoundary]
  split
  · exact le_rfl
  · exact Nat.le_succ _

theorem confined_shiftBoundaries (hv : v ∈ S) (hns : ∀ n ∈ w.nearby v, n ∈ S)
    (hn : ∀ n, w.next ≤ n → n ∈ S) : Confined S w (w.shiftBoundaries v) := by
  have hts : ∀ t ∈ w.ends v, t ∈ S := fun t ht => hns t (List.mem_of_mem_filter ht)
  rw [shiftBoundaries]
  generalize w.ends v = ts at hts
  clear hns
  induction ts generalizing w with
  | nil => exact .refl S w
  | cons t rest ih =>
    obtain ⟨ht, hrest⟩ := List.forall_mem_cons.1 hts
    suffices hfirst : Confined S w (shiftBoundary v w t) from
      hfirst.trans (ih (fun n h => hn n (next_shiftBoundary.trans h)) hrest)
    rw [shiftBoundary]
    split
    · exact .refl S w
    · exact confined_split hv ht (hn _ le_rfl)

/-! ### What a pivot depends on -/

theorem SameAt.setPhase (h : SameAt w w' x) (t : Vertex) (p : Phase) :
    SameAt (w.setPhase t p) (w'.setPhase t p) x where
  kind := h.kind
  phase := by
    rw [phase_setPhase, phase_setPhase, Function.update_apply, Function.update_apply, h.phase]
  carrier := h.carrier
  count := h.count

theorem SameAt.addToPhase (h : SameAt w w' x) (ht : SameAt w w' t) (p : Phase) :
    SameAt (w.addToPhase t p) (w'.addToPhase t p) x := by
  rw [Web.addToPhase, Web.addToPhase, ht.phase]
  exact h.setPhase t _

theorem SameAt.remove (h : SameAt w w' x) (v : Vertex) : SameAt (w.remove v) (w'.remove v) x where
  kind := by rw [kind_remove, kind_remove, Function.update_apply, Function.update_apply, h.kind]
  phase := by rw [phase_remove, phase_remove, Function.update_apply, Function.update_apply, h.phase]
  carrier := by
    simp only [Web.remove, Function.update_apply, h.carrier]
  count y k := by simp only [Web.remove, h.count]

theorem SameAt.toggle (h : SameAt w w' x) (hs : SameAt w w' s) (t : Vertex) :
    SameAt (w.toggle s t) (w'.toggle s t) x := by
  rw [Web.toggle, Web.toggle]
  split
  · exact h.addToPhase hs .pi
  · exact ⟨h.kind, h.phase, h.carrier, fun y k => by simp only [setCount, h.count, hs.count]⟩

/-- Where two webs are the same, they stay so when edges between such spiders are toggled. -/
theorem toggleAll_congr (h : ∀ x ∈ S, SameAt w w' x) (hs : s ∈ S) (ts : List Vertex) :
    ∀ x ∈ S, SameAt (w.toggleAll s ts) (w'.toggleAll s ts) x := by
  induction ts generalizing w w' with
  | nil => exact h
  | cons t rest ih => exact ih fun x hx => (h x hx).toggle (h s hs) t

theorem joinAll_congr (h : ∀ x ∈ S, SameAt w w' x) (hvs : ∀ n ∈ vs, n ∈ S) (q : Phase)
    (others : Vertex → List Vertex) :
    ∀ x ∈ S, SameAt (joinAll q others w vs) (joinAll q others w' vs) x := by
  induction vs generalizing w w' with
  | nil => exact h
  | cons n rest ih =>
    obtain ⟨hn, hrest⟩ := List.forall_mem_cons.1 hvs
    exact ih (toggleAll_congr (fun x hx => (h x hx).addToPhase (h n hn) q) hn (others n)) hrest

theorem addToPhases_congr (h : ∀ x ∈ S, SameAt w w' x) (hvs : ∀ n ∈ vs, n ∈ S) (p : Phase) :
    ∀ x ∈ S, SameAt (w.addToPhases vs p) (w'.addToPhases vs p) x := by
  induction vs generalizing w w' with
  | nil => exact h
  | cons n rest ih =>
    obtain ⟨hn, hrest⟩ := List.forall_mem_cons.1 hvs
    exact ih (fun x hx => (h x hx).addToPhase (h n hn) p) hrest

section

variable (hw : w.Valid) (hw' : w'.Valid)
include hw hw'

/-- On webs that are the same at two spiders and their neighbours, pivoting does the same to them. -/
theorem pivot_congr (h : ∀ x ∈ S, SameAt w w' x) (hv : v ∈ S) (hu : u ∈ S)
    (hns : ∀ n ∈ w.nearby v, n ∈ S) (hms : ∀ m ∈ w.nearby u, m ∈ S) :
    ∀ x ∈ S, SameAt (w.pivot v u) (w'.pivot v u) x := by
  have hpartners : w'.pivotPartners v u = w.pivotPartners v u := by
    funext n
    rw [pivotPartners, (h u hu).nearby hw hw', pivotPartners]
  rw [pivot, pivot, hpartners, (h v hv).nearby hw hw', (h u hu).nearby hw hw', (h v hv).phase,
    (h u hu).phase]
  have hjoined := addToPhases_congr (joinAll_congr h hns (w.phase u) (w.pivotPartners v u)) hms
    (w.phase v)
  exact fun x hx => ((hjoined x hx).remove v).remove u

end

/-! ### What the conditions depend on -/

section

variable (hw : w.Simple) (hw' : w'.Simple)
include hw hw'

theorem isHub_congr (h : SameAt w w' x) : w'.IsHub x ↔ w.IsHub x := by
  rw [IsHub, h.isZ, hw'.degree_eq, h.nearby hw.valid hw'.valid, ← hw.degree_eq, IsHub]

theorem isInner_congr (h : SameAt w w' x) (hnear : ∀ y ∈ w.nearby x, SameAt w w' y) :
    w'.IsInner x ↔ w.IsInner x := by
  rw [IsInner, isHub_congr hw hw' h, h.nearby hw.valid hw'.valid, IsInner]
  exact and_congr_right fun _ => forall₂_congr fun y hy => isHub_congr hw hw' (hnear y hy)

theorem ends_congr (h : SameAt w w' x) (hnear : ∀ y ∈ w.nearby x, SameAt w w' y) :
    w'.ends x = w.ends x := by
  rw [ends, h.nearby hw.valid hw'.valid, ends]
  exact List.filter_congr fun y hy => decide_eq_decide.2 (hnear y hy).isEnd

theorem atBoundary_congr (h : SameAt w w' x) (hnear : ∀ y ∈ w.nearby x, SameAt w w' y) :
    w'.AtBoundary x ↔ w.AtBoundary x := by
  rw [AtBoundary, h.isZ, ends_congr hw hw' h hnear, h.nearby hw.valid hw'.valid, AtBoundary]
  exact and_congr_right fun _ => and_congr_right fun _ => forall₂_congr fun y hy =>
    or_congr (hnear y hy).isEnd (isHub_congr hw hw' (hnear y hy))

end

end Web

end ZXRewriting
