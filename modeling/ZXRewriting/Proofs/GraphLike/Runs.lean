import ZXRewriting.Proofs.Diagram.Rules
import ZXRewriting.Proofs.GraphLike.Boxes
import ZXRewriting.Proofs.GraphLike.Decide
import ZXRewriting.Proofs.GraphLike.Relist
import ZXRewriting.Proofs.GraphLike.Weight

/-!
# The graph-like form along a run

A diagram each end of which has a single edge has a graph-like form, and rewriting that in any order,
at matches that are accepted and at the frontier, keeps the form and the ends, and never comes to a
fault (`GraphLike.graphLike_run`).

What was proved of a rule is about diagrams with their ends listed. As the lists play no part, one may
list the ends first (`GraphLike.exists_listed`), rewrite, and put the lists back.
-/

namespace ZXRewriting

open Function (update update_self update_of_ne)

namespace Web

variable {w w' : Web} {t v : Vertex}

/-- The only edge of a vertex. -/
theorem Valid.exists_endsAre (hw : w.Valid) (ht : w.degree t = 1) :
    ∃ u k, w.EndsAre t [(u, k)] := by
  rw [Diagram.degree_eq_sum hw] at ht
  have hpos : ∀ u ∈ w.nearby t, 0 < w.joins t u := fun u hu => hw.mem_nearby.1 hu
  rcases hn : w.nearby t with - | ⟨u, - | ⟨u', rest⟩⟩
  · simp [hn] at ht
  · rw [hn] at ht
    have hone : w.joins t u = 1 := by simpa using ht
    have hzero {x : Vertex} (hx : x ≠ u) : w.joins t x = 0 := by
      by_contra hne
      have := hw.mem_nearby.2 (Nat.pos_of_ne_zero hne)
      rw [hn, List.mem_singleton] at this
      exact hx this
    refine ⟨u, if w.count t u .plain = 1 then .plain else .hadamard, endsAre_single.2 fun x k => ?_⟩
    by_cases hx : x = u
    · subst hx
      rw [joins] at hone
      cases k <;> split <;> simp <;> omega
    · have := hzero hx
      rw [joins] at this
      rw [if_neg fun h => hx h.1]
      cases k <;> omega
  · have h₁ := hpos u (by simp [hn])
    have h₂ := hpos u' (by simp [hn])
    simp [hn] at ht
    omega

theorem Valid.hung (hw : w.Valid) (h : ∀ t, w.IsEnd t → w.degree t = 1) : w.Hung :=
  ⟨hw, fun t ht => hw.exists_endsAre (h t ht)⟩

/-- What is done between the same lists of ends keeps the ends. -/
theorem Keeps.sameEnds (h : Keeps w w') (hw : w.InForm) : SameEnds w w' := fun v => by
  have hin : w'.kind v = some .input ↔ w.kind v = some .input := by
    rw [← h.form.mem_inputs, h.inputs, hw.mem_inputs]
  have hout : w'.kind v = some .output ↔ w.kind v = some .output := by
    rw [← h.form.mem_outputs, h.outputs, hw.mem_outputs]
  by_cases hend : w.IsEnd v
  · left
    obtain ⟨k, hk⟩ := Option.isSome_iff_exists.1 hend.has
    rw [IsEnd, hk] at hend
    rw [hk]
    cases k with
    | input => exact hin.2 hk
    | output => exact hout.2 hk
    | z | x | box => cases hend
  · refine .inr ⟨hend, fun hend' => hend ?_⟩
    obtain ⟨k, hk⟩ := Option.isSome_iff_exists.1 hend'.has
    rw [IsEnd, hk] at hend'
    cases k with
    | input => exact isEnd_of_input (hin.1 hk)
    | output => exact isEnd_of_output (hout.1 hk)
    | z | x | box => cases hend'

end Web

namespace GraphLike

variable {g g' : GraphLike} {i o : List Vertex} {u v : Vertex} {d : Diagram}

/-! ### Listing the ends -/

theorem coherent_relist : (g.relist i o).Coherent ↔ g.Coherent :=
  ⟨fun h => ⟨h.wf, h.has⟩, fun h => ⟨h.wf, h.has⟩⟩

theorem formed_relist (h : (g.relist i o).web.Formed) : g.web.Formed where
  simple := ⟨⟨h.simple.valid.lt, h.simple.valid.symm, h.simple.valid.self, h.simple.valid.has⟩,
    h.simple.colour, h.simple.plain, h.simple.single⟩
  degree_end := h.degree_end

/-- The ends can be listed. -/
theorem exists_listed (hw : g.web.Formed) : ∃ i o, (g.relist i o).web.InForm := by
  set ends : SpiderKind → List Vertex := fun κ =>
    (List.range g.web.next).filter fun v => g.web.kind v = some κ
  have hmem (κ : SpiderKind) (v : Vertex) : v ∈ ends κ ↔ g.web.kind v = some κ := by
    rw [List.mem_filter, List.mem_range, decide_eq_true_iff, and_iff_right_iff_imp]
    exact fun h => hw.simple.valid.lt v (Web.has_of_kind h)
  have hval := hw.simple.valid
  exact ⟨ends .input, ends .output, ⟨⟨hval.lt, hval.symm, hval.self, hval.has⟩, hw.simple.colour, hw.simple.plain,
    hw.simple.single⟩, hw.degree_end, List.nodup_range.filter _, List.nodup_range.filter _,
    hmem .input, hmem .output⟩

/-- What is given with the ends listed is given without the lists. -/
theorem of_relisted {f : GraphLike → Except Fault GraphLike} {w : Web} {m : Diagram}
    (hf : Relisted i o (f (g.relist i o)) (f g)) (hgives : Gives (f (g.relist i o)) w m)
    (hok : f g = .ok g') : g'.Coherent ∧ (g'.relist i o).web = w ∧ g'.master = m := by
  obtain ⟨g₁, hok₁, hg₁, rfl, rfl⟩ := hgives
  rw [hf, hok] at hok₁
  obtain rfl : g'.relist i o = g₁ := Except.ok.inj hok₁
  exact ⟨coherent_relist.1 hg₁, rfl, rfl⟩

/-- A computation that does the same with the ends listed, and then leads from form to form, does
    so without the lists. -/
theorem exists_of_relisted {f : GraphLike → Except Fault GraphLike} {w : Web} {m : Diagram}
    (hf : Relisted i o (f (g.relist i o)) (f g)) (hgives : Gives (f (g.relist i o)) w m)
    (hin : (g.relist i o).web.InForm) (hkeeps : Web.Keeps (g.relist i o).web w) :
    ∃ g', f g = .ok g' ∧ g'.Coherent ∧ g'.web.Formed ∧ Web.SameEnds g.web g'.web ∧
      (g'.relist i o).web = w := by
  have hok : ∃ g', f g = .ok g' := by
    obtain ⟨g₁, hok, -⟩ := hgives
    rw [hf] at hok
    cases hx : f g with
    | error e =>
      rw [hx] at hok
      cases hok
    | ok g' => exact ⟨g', rfl⟩
  obtain ⟨g', hok⟩ := hok
  obtain ⟨hg', rfl, -⟩ := of_relisted hf hgives hok
  exact ⟨g', hok, hg', formed_relist hkeeps.form.formed, hkeeps.sameEnds hin, rfl⟩

section

variable (hg : g.Coherent) (hw : g.web.Formed)
include hg hw

/-- An accepted match is rewritten without a fault, and leaves less to do. -/
theorem exists_apply {rule : GraphRule} {s : Match} (h : rule.check g s = .ok true) :
    ∃ g', rule.apply g s = .ok g' ∧ g'.Coherent ∧ g'.web.Formed ∧ Web.SameEnds g.web g'.web ∧
      g'.web.weight < g.web.weight := by
  obtain ⟨i, o, hin⟩ := exists_listed hw
  obtain ⟨w, m, hgives, hstep⟩ := gives_of_check (coherent_relist.2 hg) hin
    ((rule.check_relist g s i o).trans h)
  obtain ⟨g', hok, hg', hw', hends, hweb⟩ := exists_of_relisted
    (f := fun g => rule.apply g s) (rule.apply_relist g s i o) hgives hin (hstep.keeps hin)
  exact ⟨g', hok, hg', hw', hends, (congrArg Web.weight hweb).trans_lt (hstep.weight_lt hin)⟩

/-- So is a pivot at the frontier, which may leave more. -/
theorem exists_frontierPivot (h : g.checkFrontierPivot v u = .ok true) :
    ∃ g', g.frontierPivot v u = .ok g' ∧ g'.Coherent ∧ g'.web.Formed ∧
      Web.SameEnds g.web g'.web := by
  obtain ⟨i, o, hin⟩ := exists_listed hw
  have hg' := coherent_relist (i := i) (o := o).2 hg
  obtain ⟨hv, hu, hj⟩ := of_checkFrontierPivot hg' hin h
  obtain ⟨g', hok, hg', hw', hends, -⟩ := exists_of_relisted (f := fun g => g.frontierPivot v u)
    (relist_frontierPivot g v u) (Gives.frontierPivot hg' hin hv hu hj) hin
      (hin.keeps_frontierPivot hv hu hj).1
  exact ⟨g', hok, hg', hw', hends⟩

/-- Asking whether two spiders can be pivoted is no fault. -/
theorem exists_checkFrontierPivot (hv : g.web.Has v) (hu : g.web.Has u) :
    ∃ b, g.checkFrontierPivot v u = .ok b := by
  obtain ⟨i, o, hin⟩ := exists_listed hw
  exact ⟨_, checkFrontierPivot_eq (g := g.relist i o) (coherent_relist.2 hg) hin hv hu⟩

end

/-! ### Runs -/

/-- The diagrams that are reached by rewriting at matches that are accepted, in any order. -/
inductive Run (g : GraphLike) : GraphLike → Prop
  | start : Run g g
  | rule {g' g'' : GraphLike} (rule : GraphRule) (s : Match) (h : Run g g')
    (hcheck : rule.check g' s = .ok true) (hok : rule.apply g' s = .ok g'') : Run g g''
  | frontierPivot {g' g'' : GraphLike} (v u : Vertex) (h : Run g g')
    (hcheck : g'.checkFrontierPivot v u = .ok true) (hok : g'.frontierPivot v u = .ok g'') :
    Run g g''

/-- A diagram in graph-like form: the spiders have a kind and a phase recorded, and nothing else
    has; they are Z spiders, joined by at most one edge, a Hadamard edge, and the ends of wires,
    with one edge each; and the ends are those of `w`. -/
structure Regular (w : Web) (g : GraphLike) : Prop where
  coherent : g.Coherent
  recorded : g.Recorded
  formed : g.web.Formed
  ends : ∀ v, w.IsEnd v ∨ g.web.IsEnd v → g.web.kind v = w.kind v

/-- Nothing that is asked of a diagram, or done to it at a match that is accepted, is a fault. -/
structure Safe (g : GraphLike) : Prop where
  sites : ∀ rule : GraphRule, ∃ ms, rule.sites g = .ok ms
  check : ∀ (rule : GraphRule) (s : Match), ∃ b, rule.check g s = .ok b
  apply : ∀ (rule : GraphRule) (s : Match), rule.check g s = .ok true →
    ∃ g', rule.apply g s = .ok g'
  checkFrontierPivot : ∀ v u, g.contains v → g.contains u → ∃ b, g.checkFrontierPivot v u = .ok b
  frontierPivot : ∀ v u, g.checkFrontierPivot v u = .ok true → ∃ g', g.frontierPivot v u = .ok g'

theorem Regular.sameEnds {w : Web} (h : Regular w g) (hsame : Web.SameEnds g.web g'.web) (v : Vertex)
    (hv : w.IsEnd v ∨ g'.web.IsEnd v) : g'.web.kind v = w.kind v := by
  have hends : w.IsEnd v ∨ g.web.IsEnd v := hv.imp_right hsame.isEnd.1
  have hkind := h.ends v hends
  have hend : g.web.IsEnd v := hends.elim (fun hv => by rwa [Web.IsEnd, hkind]) id
  exact ((hsame v).resolve_right fun hc => hc.1 hend).trans hkind

/-- What one rewrite keeps. -/
theorem Regular.apply {w : Web} (h : Regular w g) {rule : GraphRule} {s : Match}
    (hcheck : rule.check g s = .ok true) (hok : rule.apply g s = .ok g') : Regular w g' := by
  obtain ⟨g₁, hok₁, hg₁, hw₁, hsame, -⟩ := exists_apply h.coherent h.formed hcheck
  obtain rfl : g₁ = g' := Except.ok.inj (hok₁.symm.trans hok)
  obtain ⟨i, o, hin⟩ := exists_listed h.formed
  have hrecorded := recording_apply (coherent_relist.2 h.coherent)
    (show (g.relist i o).Recorded from h.recorded) hin ((rule.check_relist g s i o).trans hcheck)
  rw [rule.apply_relist, hok] at hrecorded
  exact ⟨hg₁, hrecorded, hw₁, h.sameEnds hsame⟩

theorem Regular.frontierPivot {w : Web} (h : Regular w g)
    (hcheck : g.checkFrontierPivot v u = .ok true) (hok : g.frontierPivot v u = .ok g') :
    Regular w g' := by
  obtain ⟨g₁, hok₁, hg₁, hw₁, hsame⟩ := exists_frontierPivot h.coherent h.formed hcheck
  obtain rfl : g₁ = g' := Except.ok.inj (hok₁.symm.trans hok)
  obtain ⟨i, o, hin⟩ := exists_listed h.formed
  have hrecorded := recording_frontierPivot (coherent_relist.2 h.coherent)
    (show (g.relist i o).Recorded from h.recorded) hin hcheck
  rw [relist_frontierPivot, hok] at hrecorded
  exact ⟨hg₁, hrecorded, hw₁, h.sameEnds hsame⟩

/-- A run keeps the form. -/
theorem Regular.run {w : Web} (h : Regular w g) (hrun : Run g g') : Regular w g' := by
  induction hrun with
  | start => exact h
  | rule rule s _ hcheck hok ih => exact ih.apply hcheck hok
  | frontierPivot v u _ hcheck hok ih => exact ih.frontierPivot hcheck hok

theorem Regular.safe {w : Web} (h : Regular w g) : g.Safe where
  sites := exists_sites h.coherent h.formed.simple
  check := exists_check h.coherent h.formed.simple
  apply rule s hcheck := by
    obtain ⟨g', hok, -⟩ := exists_apply h.coherent h.formed hcheck
    exact ⟨g', hok⟩
  checkFrontierPivot v u hv hu := exists_checkFrontierPivot h.coherent h.formed
    ((h.coherent.has v).2 hv) ((h.coherent.has u).2 hu)
  frontierPivot v u hcheck := by
    obtain ⟨g', hok, -⟩ := exists_frontierPivot h.coherent h.formed hcheck
    exact ⟨g', hok⟩

/-- A diagram each end of which has a single edge has a graph-like form. However that is rewritten,
    it stays in graph-like form with the same ends, and no rewrite is a fault. -/
theorem graphLike_run (hd : d.Coherent) (hends : ∀ v, d.web.IsEnd v → d.web.degree v = 1) :
    ∃ g, ofDiagram d = .ok g ∧ ∀ g', Run g g' → Regular d.web g' ∧ g'.Safe := by
  obtain ⟨g, hok, hg, hr, hw, hsame⟩ := exists_ofDiagram_formed hd (hd.valid.hung hends)
  have hstart : Regular d.web g := by
    refine ⟨hg, hr, hw, fun v hv => (hsame v).resolve_right fun hc => ?_⟩
    exact hv.elim hc.1 hc.2
  exact ⟨g, hok, fun g' hrun => ⟨hstart.run hrun, (hstart.run hrun).safe⟩⟩

theorem tripleBox_run : tripleBox.Coherent ∧
    (∀ v, tripleBox.web.IsEnd v → tripleBox.web.degree v = 1) ∧
    ∃ g, ofDiagram tripleBox = .ok g ∧ ∀ g', Run g g' → Regular tripleBox.web g' ∧ g'.Safe :=
  ⟨tripleBox_coherent, tripleBox_degree_end,
    graphLike_run tripleBox_coherent tripleBox_degree_end⟩

end GraphLike

end ZXRewriting
