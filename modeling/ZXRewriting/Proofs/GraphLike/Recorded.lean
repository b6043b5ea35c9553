import ZXRewriting.Proofs.GraphLike.Conversion
import ZXRewriting.Proofs.GraphLike.Stable
import ZXRewriting.Proofs.GraphLike.Steps

/-!
# Which spiders have a phase recorded

A diagram keeps the kinds and the phases of its spiders in two maps. A phase may be set at any
vertex, whereas a kind comes and goes with the spider, so that the two maps are about the same
spiders (`GraphLike.Recorded`) only as long as no phase is set at a spider that is gone. The rules
and the conversion of a diagram see to that: until the last step they take no spider away
(`GraphLike.Kept`), and all they set phases at was there at the start.
-/

namespace ZXRewriting

namespace GraphLike

variable {g g' g₀ : GraphLike} {s t u v keep gone c d : Vertex} {k : EdgeKind} {p : Phase}
  {ns vs : List Vertex}

/-- The spiders that have a phase recorded are those that have a kind. -/
def Recorded (g : GraphLike) : Prop := ∀ v, (g.phases[v]?).isSome ↔ g.web.Has v

/-- A diagram with all the spiders of another one, and the phases of its own recorded. -/
structure Kept (g₀ g : GraphLike) : Prop where
  recorded : g.Recorded
  has : ∀ v, g₀.web.Has v → g.web.Has v

/-- A computation that gives no fault ends with such a diagram. -/
abbrev Keeping (g₀ : GraphLike) (x : Except Fault GraphLike) : Prop := Leaves x (Kept g₀)

/-- A computation that gives no fault ends with the phases of the spiders recorded. -/
abbrev Recording (x : Except Fault GraphLike) : Prop := Leaves x Recorded

theorem isSome_insert {α : Type} (m : VertexMap α) (v u : Vertex) (a : α) :
    ((m.insert v a)[u]?).isSome ↔ v = u ∨ (m[u]?).isSome := by
  rw [Std.ExtTreeMap.getElem?_insert]
  simp only [Nat.compare_eq_eq]
  split
  · next h => simp [h]
  · next h => simp [h]

theorem Recorded.kept (h : g.Recorded) : Kept g g := ⟨h, fun _ hv => hv⟩

namespace Kept

/-! ### Edits -/

section

variable (h : Kept g₀ g)
include h

theorem trans (h' : Kept g g') : Kept g₀ g' := ⟨h'.recorded, fun v hv => h'.has v (h.has v hv)⟩

theorem setPhase (hv : g₀.web.Has v) : Kept g₀ (g.setPhase v p) := by
  refine ⟨fun u => ?_, h.has⟩
  change ((g.phases.insert v p)[u]?).isSome ↔ g.web.Has u
  rw [isSome_insert, h.recorded u, or_iff_right_of_imp]
  rintro rfl
  exact h.has v hv

theorem addToPhase (hv : g₀.web.Has v) : Kept g₀ (g.addToPhase v p) := h.setPhase hv

theorem negatePhase (hv : g₀.web.Has v) : Kept g₀ (g.negatePhase v) := by
  have hset := h.setPhase (p := -g.phase v) hv
  rw [GraphLike.negatePhase]
  split
  · exact hset
  · exact ⟨hset.recorded, hset.has⟩

theorem mergeCarriers : Kept g₀ (g.mergeCarriers keep gone) := by
  rw [GraphLike.mergeCarriers]
  split
  · exact h
  · dsimp only
    split
    · exact ⟨h.recorded, h.has⟩
    · split <;> exact ⟨h.recorded, h.has⟩

theorem moveCarrier : Kept g₀ (g.moveCarrier s t) := by
  rw [GraphLike.moveCarrier]
  split <;> exact ⟨h.recorded, h.has⟩

theorem clearCentre (hc : g₀.web.Has c) (hl : g₀.web.Has t) : Kept g₀ (g.clearCentre c t) := by
  rw [GraphLike.clearCentre]
  split
  · exact (h.setPhase hc).negatePhase hl
  · exact h

/-- A new spider is added with its phase. -/
theorem addSpider {qubit : Option ℕ} {column : Option Floating.Double} :
    Kept g₀ (g.addSpider p qubit column).2 := by
  have hkinds (u : Vertex) : (g.addSpider p qubit column).2.web.Has u ↔
      g.graph.nextVertex = u ∨ g.web.Has u := isSome_insert g.kinds g.graph.nextVertex u .z
  refine ⟨fun u => ?_, fun u hu => (hkinds u).2 (.inr (h.has u hu))⟩
  rw [hkinds, ← h.recorded u]
  exact isSome_insert g.phases g.graph.nextVertex u p

end

/-- Phases may be added to at the spiders that were there at the start. -/
theorem stable : Stable (fun v _ => g₀.web.Has v) (Kept g₀) where
  rewire _ _ _ h := ⟨h.recorded, h.has⟩
  addToPhase _ _ _ hv h := h.addToPhase hv
  addSpider _ _ _ h := h.addSpider

end Kept

theorem Recorded.removeSpider (h : g.Recorded) : Recording (g.removeSpider v) := by
  rw [GraphLike.removeSpider, Diagram.removeSpider]
  cases g.graph.removeVertex v with
  | error e => exact trivial
  | ok graph =>
    intro u
    change ((g.phases.erase v)[u]?).isSome ↔ ((g.kinds.erase v)[u]?).isSome
    rw [Std.ExtTreeMap.getElem?_erase, Std.ExtTreeMap.getElem?_erase]
    split
    · exact .rfl
    · exact h u

/-! ### Rules -/

theorem Kept.shiftPhase (h : Kept g₀ g) (hv : g₀.web.Has v) : Keeping g₀ (g.shiftPhase v) := by
  rw [GraphLike.shiftPhase]
  split
  · exact h
  · exact (stable.leaves_addEdge (h.addSpider.addSpider.setPhase hv)).bind fun g₁ h₁ =>
      (stable.leaves_addEdge h₁).bind fun g₂ h₂ => h₂.moveCarrier

theorem Kept.clear (h : Kept g₀ g) (hv : g₀.web.Has v) : Keeping g₀ (g.clear v) :=
  (h.shiftPhase hv).bind fun _ h₁ => stable.leaves_shiftBoundaries h₁

theorem has_of_neighborSet (hg : g.Coherent) (hv : g.web.Has v) (hns : g.neighborSet v = .ok ns)
    (hu : u ∈ ns) : g.web.Has u := by
  rw [show g.neighborSet v = _ from neighborSet_eq hg hv] at hns
  exact hg.valid.has_of_mem_nearby (Except.ok.inj hns ▸ hu)

section

variable (hg : g.Coherent) (hr : g.Recorded)
include hg hr

theorem recording_localComplement (hv : g.web.Has v) : Recording (g.localComplement v) := by
  refine Kept.stable.leaves_localComplement hr.kept (fun _ _ h => h.recorded.removeSpider)
    fun ns hns n hn => ?_
  have hhas := has_of_neighborSet hg hv hns hn
  exact ⟨hhas, hhas⟩

theorem recording_pivot (hv : g.web.Has v) (hu : g.web.Has u) : Recording (g.pivot v u) := by
  refine Kept.stable.leaves_pivot hr.kept (fun _ _ h => h.recorded.removeSpider)
    (fun _ _ h => Recorded.removeSpider h) (fun ns hns n hn => ?_) fun ms hms m hm => ?_
  · have hhas := has_of_neighborSet hg hv hns hn
    exact ⟨hhas, hhas⟩
  · exact has_of_neighborSet hg hu hms hm

omit hg hr in
/-- A pivot after moving off what is in the way. -/
theorem Gives.recording_pivot {x : Except Fault GraphLike} {w : Web} {m : Diagram}
    (hgives : Gives x w m) (hx : Keeping g x) (hv : g.web.Has v) (hu : g.web.Has u) :
    Recording (x >>= fun g => g.pivot v u) := by
  obtain ⟨g₁, rfl, hg₁, -⟩ := hgives
  exact GraphLike.recording_pivot hg₁ hx.recorded (hx.has v hv) (hx.has u hu)

theorem recording_fuseNeighbors {keep gone : Vertex} (h : g.web.Fusable v keep gone)
    (hends : g.web.identityEnds v = some (keep, gone)) : Recording (g.fuseNeighbors v) := by
  rw [fuseNeighbors_eq hg h.isZ.has hends]
  have hkeep := h.keep_isZ.has
  have hgone := h.gone_isZ.has
  have hpush : Keeping g (if (g.phase v).isPi then g.pushThrough v gone else .ok g) := by
    split
    · have hneg := hr.kept.negatePhase hgone
      have hgone' : (g.negatePhase gone).web.Has gone := hneg.has gone hgone
      have hg' := Coherent.negatePhase hg gone
      rw [pushThrough, neighborSet_eq hg' hgone']
      refine Kept.stable.addToPhases hneg fun n hn => ?_
      have hn := hg'.valid.has_of_mem_nearby (List.mem_of_mem_filter hn)
      rwa [web_negatePhase] at hn
    · exact hr.kept
  exact hpush.bind fun g₁ h₁ => Leaves.after fun edges _ =>
    (Leaves.foldlM (h₁.addToPhase hkeep) fun e _ g₂ h₂ =>
      Kept.stable.leaves_addEdgeReduced h₂ hkeep).bind fun g₂ h₂ =>
      h₂.mergeCarriers.recorded.removeSpider.bind fun g₃ h₃ => Recorded.removeSpider h₃

omit hg in
theorem recording_fuseGadgets {l m : Vertex} (h : g.web.SameSupport c d l m)
    (hl : g.gadgetLeaf? c = .ok (some l)) (hm : g.gadgetLeaf? d = .ok (some m)) :
    Recording (g.fuseGadgets c d) := by
  rw [fuseGadgets, hl, hm]
  have hcleared := (hr.kept.clearCentre h.left.centre.has h.left.leaf.has).clearCentre
    h.right.centre.has h.right.leaf.has
  refine ((hcleared.addToPhase h.left.leaf.has).mergeCarriers.recorded.removeSpider).bind
    fun g₁ h₁ => Recorded.removeSpider h₁

/-- The rewrites leave the phases of the spiders recorded. -/
theorem Accepted.recording (hw : g.web.InForm) {rule : GraphRule} {x : Except Fault GraphLike}
    (h : Accepted g rule x) : Recording x := by
  cases h with
  | localComplement hv _ => exact recording_localComplement hg hr hv.1.1.has
  | pivot hv hu _ _ _ => exact recording_pivot hg hr hv.1.1.has hu.1.1.has
  | pivotBoundary hv hu _ _ _ =>
    exact (Gives.shiftBoundaries hg hw hu.1).recording_pivot (Kept.stable.leaves_shiftBoundaries hr.kept) hv.1.1.has
      hu.1.has
  | pivotGadget hv hu _ _ =>
    exact (Gives.shiftPhase hg hu.1.1).recording_pivot (hr.kept.shiftPhase hu.1.1.has) hv.1.1.has
      hu.1.1.has
  | @pivotBoundaryGadget v u hv hu _ _ =>
    have hkept := Kept.stable.leaves_shiftBoundaries (v := u) hr.kept
    obtain ⟨hform, hframe, -⟩ := hw.shiftBoundaries hu.1
    obtain ⟨g₁, hok, hg₁, hw₁, -⟩ := Gives.shiftBoundaries hg hw hu.1
    rw [hok] at hkept
    change Recording (g.shiftBoundaries u >>= fun g => g.shiftPhase u >>= fun g => g.pivot v u)
    rw [hok]
    exact (Gives.shiftPhase hg₁ (hw₁ ▸ hframe.isZ hu.1)).recording_pivot
      (hkept.recorded.kept.shiftPhase (hkept.has u hu.1.has)) (hkept.has v hv.1.1.has)
      (hkept.has u hu.1.has)
  | fuseNeighbors h hends => exact recording_fuseNeighbors hg hr h hends
  | fuseGadgets h hl hm _ _ => exact recording_fuseGadgets hr h hl hm

/-- At a match that its check accepts, a rule leaves the phases of the spiders recorded. -/
theorem recording_apply (hw : g.web.InForm) {rule : GraphRule} {s : Match}
    (h : rule.check g s = .ok true) : Recording (rule.apply g s) :=
  (accepted_of_check hg hw h).recording hg hr hw

/-- So does a pivot at the frontier. -/
theorem recording_frontierPivot (hw : g.web.InForm) (h : g.checkFrontierPivot v u = .ok true) :
    Recording (g.frontierPivot v u) := by
  obtain ⟨hv, hu, hj⟩ := of_checkFrontierPivot hg hw h
  obtain ⟨-, hform₁, hu₁, -⟩ := hw.keeps_frontierPivot hv hu hj
  obtain ⟨g₁, hok₁, hg₁, hw₁, -⟩ := Gives.clear hg hw hv
  have h₁ := hr.kept.clear hv.has
  rw [hok₁] at h₁
  rw [frontierPivot, hok₁]
  exact (Gives.clear hg₁ (hw₁ ▸ hform₁) (hw₁ ▸ hu₁)).recording_pivot
    (h₁.recorded.kept.clear (h₁.has u hu.has)) (h₁.has v hv.has) (h₁.has u hu.has)

end

end GraphLike

end ZXRewriting
