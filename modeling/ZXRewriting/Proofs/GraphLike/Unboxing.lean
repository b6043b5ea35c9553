import ZXRewriting.Proofs.GraphLike.Boxes

/-!
# Boxes with at most two wires

Taking out a box with at most two wires makes no new spider: what is left is nothing, a Z spider or an
edge (`Web.Unboxed`), and the boxes that are left have at most two wires too. What such a removal
keeps, and recolouring, fusing and cancelling edges too (`GraphLike.Converting`), is kept by the
whole conversion of a diagram without larger boxes (`GraphLike.Converting.of_ofDiagram`).
-/

namespace ZXRewriting

open Function (update update_self update_of_ne)
open Multigraph (SamePair)

namespace Web

variable {w w' : Web} {a b c h v : Vertex} {k k₁ k₂ : EdgeKind}
  {ends : List (Vertex × EdgeKind)}

/-- Each edge counts once. -/
theorem EndsAre.degree_eq (hends : w.EndsAre v ends) (hw : w.Valid) : w.degree v = ends.length := by
  have hmem : ∀ e ∈ (ends : Multiset (Vertex × EdgeKind)),
      e ∈ Finset.range w.next ×ˢ {EdgeKind.plain, EdgeKind.hadamard} := fun e he => by
    have hhas := (hw.has_of_endsAre hends (Multiset.mem_coe.1 he)).1
    rw [Finset.mem_product, Finset.mem_range]
    refine ⟨hw.lt _ hhas, ?_⟩
    cases e.2 <;> simp
  rw [← Multiset.coe_card, ← Multiset.sum_count_eq_card hmem, Finset.sum_product, degree]
  refine Finset.sum_congr rfl fun u _ => ?_
  rw [Finset.sum_pair (by simp), Multiset.coe_count, Multiset.coe_count, joins, hends, hends]
  congr!

/-- Boxes have at most two wires. -/
def ShortBoxes (w : Web) : Prop := ∀ v, w.kind v = some .box → w.degree v ≤ 2

/-- What is left of a web when a box with at most two wires is taken out. -/
inductive Unboxed (w : Web) (h : Vertex) : Web → Prop
  | alone : Unboxed w h (w.remove h)
  | leaf : Unboxed w h { w.setPhase h .pi with kind := update w.kind h (some .z) }
  | wire {a b : Vertex} {k₁ k₂ k : EdgeKind} (hends : w.EndsAre h [(a, k₁), (b, k₂)]) :
    Unboxed w h (w.unbox h a b k)

theorem degree_remove_le : (w.remove h).degree c ≤ w.degree c := by
  refine Finset.sum_le_sum fun d _ => ?_
  simp only [joins, remove]
  split <;> omega

/-- An edge in place of a box takes the place of an edge to it. -/
theorem Valid.degree_unbox_le (hw : w.Valid) (hh : w.Has h)
    (hends : w.EndsAre h [(a, k₁), (b, k₂)]) (hc : c ≠ h) :
    (w.unbox h a b k).degree c ≤ w.degree c := by
  have hjoins (d : Vertex) : (w.unbox h a b k).joins c d =
      (if d = h then 0 else w.joins c d) + if a ≠ b ∧ SamePair c d a b then 1 else 0 := by
    rw [joins, hw.count_unbox, hw.count_unbox, joins]
    simp only [hc, false_or]
    cases k <;> split <;> split <;> simp_all <;> omega
  by_cases hpair : a ≠ b ∧ (c = a ∨ c = b)
  · -- the edge to the other end comes for the one to the box
    obtain ⟨hab, hpair⟩ := hpair
    set o := if c = a then b else a with ho
    have hother (d : Vertex) : SamePair c d a b ↔ d = o := by
      rw [SamePair, ho]
      grind
    have hpos : 1 ≤ w.joins c h := by
      rw [hw.joins_comm, joins, hends, hends]
      rcases hpair with rfl | rfl <;> cases k₁ <;> cases k₂ <;> simp [List.count_cons]
    have hnext : o < w.next := by
      have ha := hw.has_of_endsAre hends List.mem_cons_self
      have hb := hw.has_of_endsAre hends (List.mem_cons_of_mem _ List.mem_cons_self)
      rw [ho]
      split
      · exact hw.lt _ hb.1
      · exact hw.lt _ ha.1
    have hle : ∀ d ∈ Finset.range w.next, (w.unbox h a b k).joins c d + (if d = h then 1 else 0) ≤
        w.joins c d + if d = o then 1 else 0 := fun d _ => by
      rw [hjoins]
      simp only [hother]
      by_cases hd : d = h
      · subst hd
        simp only [if_true]
        split <;> simp_all
      · simp [hd, hab]
    have hsum := Finset.sum_le_sum hle
    rw [Finset.sum_add_distrib, Finset.sum_add_distrib, Finset.sum_ite_eq', Finset.sum_ite_eq',
      if_pos (Finset.mem_range.2 (hw.lt h hh)), if_pos (Finset.mem_range.2 hnext)] at hsum
    rw [degree, degree, next_unbox]
    omega
  · have hle : ∀ d ∈ Finset.range w.next, (w.unbox h a b k).joins c d ≤ w.joins c d := fun d _ => ?_
    · rw [degree, degree, next_unbox]
      exact Finset.sum_le_sum hle
    have hnot : ¬(a ≠ b ∧ SamePair c d a b) := fun hs => hpair ⟨hs.1, hs.2.imp And.left And.left⟩
    rw [hjoins, if_neg hnot]
    split <;> omega

theorem Unboxed.box_iff (hu : Unboxed w h w') (v : Vertex) :
    w'.kind v = some .box ↔ w.kind v = some .box ∧ v ≠ h := by
  cases hu with
  | alone => rw [kind_remove, Function.update_apply]; split <;> simp_all
  | leaf =>
    dsimp only
    rw [Function.update_apply]
    split <;> simp_all
  | wire _ => rw [kind_unbox, Function.update_apply]; split <;> simp_all

theorem Unboxed.shortBoxes (hu : Unboxed w h w') (hw : w.Valid) (hh : w.Has h)
    (hs : w.ShortBoxes) : w'.ShortBoxes := fun v hv => by
  obtain ⟨hv, hne⟩ := (hu.box_iff v).1 hv
  refine Nat.le_trans ?_ (hs v hv)
  cases hu with
  | alone => exact degree_remove_le
  | leaf => exact Nat.le_refl _
  | wire hends => exact hw.degree_unbox_le hh hends hne

end Web

namespace GraphLike

variable {g g' : GraphLike} {d : Diagram} {h v : Vertex} {P : GraphLike → Prop}

/-- A box with one wire becomes a Z spider. -/
theorem Gives.leaf (hg : g.Coherent) (hh : g.web.Has h) :
    Gives (.ok { g.setPhase h .pi with kinds := g.kinds.insert h .z })
      { g.web.setPhase h .pi with kind := update g.web.kind h (some .z) } g.master := by
  have hphase : (g.setPhase h .pi).web.phase = (g.web.setPhase h .pi).phase := by rw [web_setPhase]
  have hk : ({ g.setPhase h .pi with kinds := g.kinds.insert h .z } : GraphLike).web =
      { g.web.setPhase h .pi with kind := update g.web.kind h (some .z) } :=
    Web.ext rfl (VertexMap.insert_eq g.kinds h .z) hphase rfl rfl rfl rfl
  refine ⟨_, rfl, ⟨hg.wf, fun v => ?_⟩, hk, rfl⟩
  change _ ↔ g.graph.contains v
  rw [hk, ← hg.has, Web.Has]
  dsimp only
  rw [Function.update_apply]
  split
  · next hv => simp [hv, hh]
  · rfl

/-- Taking out a box with at most two wires. -/
theorem exists_unboxed (hg : g.Coherent) (hbox : g.web.kind h = some .box)
    (hdeg : g.web.degree h ≤ 2) :
    ∃ w, Gives (g.removeBox h) w g.master ∧ Web.Unboxed g.web h w := by
  have hh := Web.has_of_kind hbox
  obtain ⟨links, hok, hlinks⟩ := exists_links hg hh
  have hlength := hlinks.endsAre.degree_eq hg.valid
  have hprogram := removeBox_eq hok
  rcases hl : links.flatMap fun l => List.replicate l.count (l.node, l.kind) with
    - | ⟨⟨a, first⟩, - | ⟨⟨b, second⟩, - | ⟨e, rest⟩⟩⟩
  · rw [hl] at hprogram
    exact ⟨_, hprogram ▸ Gives.removeSpider hg hh, .alone⟩
  · rw [hl] at hprogram
    exact ⟨_, hprogram ▸ Gives.leaf hg hh, .leaf⟩
  · exact ⟨_, Gives.removeBox hg hh hok hlinks hl, .wire (hl ▸ hlinks.endsAre)⟩
  · rw [hl] at hlength
    simp only [List.length_cons] at hlength
    omega

/-- What each step of the conversion keeps, if no box has more than two wires. -/
structure Converting (P : GraphLike → Prop) : Prop extends Lasting P where
  unbox : ∀ g g' h, P g → g.web.kind h = some .box → Web.Unboxed g.web h g'.web → g'.Coherent →
    g'.master = g.master → P g'
  reduce : ∀ g g', P g → g'.Coherent → g'.web = g.web.reduced → g'.master = g.master → P g'

/-- What each step keeps holds of the graph-like form. -/
theorem Converting.of_ofDiagram (hP : Converting P) (hd : d.Coherent) (hs : d.web.ShortBoxes)
    (hstart : ∀ g, start d = .ok g → P g) (hok : ofDiagram d = .ok g) : P g := by
  obtain ⟨g₁, hok₁, hg₁, -, hk₁, hc₁, -, -, hn₁, -⟩ := exists_start hd
  have hs₁ : g₁.web.ShortBoxes := fun v hv => by
    rw [Web.degree, hn₁]
    simp only [Web.joins, hc₁]
    exact hs v (hk₁ ▸ hv)
  obtain ⟨g₂, hok₂, ⟨h₂, -⟩, hbox⟩ := exists_removeBoxes
    (P := fun g => P g ∧ g.web.ShortBoxes) (fun g hg => hP.coherent g hg.1)
    (fun g h hg hbox _ => by
      obtain ⟨w, ⟨g', hok, hg', rfl, hm⟩, hunboxed⟩ := exists_unboxed (hP.coherent g hg.1) hbox
        (hg.2 h hbox)
      exact ⟨g', hok, ⟨hP.unbox g g' h hg.1 hbox hunboxed hg' hm,
        hunboxed.shortBoxes (hP.coherent g hg.1).valid (Web.has_of_kind hbox) hg.2⟩,
        hunboxed.box_iff⟩) ⟨hstart g₁ hok₁, hs₁⟩
  obtain ⟨g₃, g', hok', h₃, -, -, hg', hw', -, hm'⟩ :=
    hP.toLasting.exists_reduced hok₁ hok₂ h₂ hbox
  obtain rfl : g' = g := Except.ok.inj (hok'.symm.trans hok)
  exact hP.reduce g₃ g' h₃ hg' hw' hm'

end GraphLike

end ZXRewriting
