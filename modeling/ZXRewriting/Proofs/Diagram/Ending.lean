import ZXRewriting.Proofs.Diagram.Tidying
import ZXRewriting.Proofs.Diagram.Upkeep
import ZXRewriting.Proofs.GraphLike.Weight

/-!
# Simplifying diagrams in circuit form comes to an end

Five of the six rules come to an end. Fusing spiders, removing identities and changing colours leave
fewer spiders, cancelling leaves fewer of them or fewer parallel wires, and the rule that puts boxes
around X spiders leaves fewer of those, however many boxes come up (`DiagramRule.load`). So rounds of
matching and rewriting end on whatever comes of bare wires, and leave no match
(`Diagram.exists_settled`).

The sixth one, which copies half turns, need not come to an end.
-/

namespace ZXRewriting

open Function (update update_self update_of_ne)

namespace Web

variable {w w' : Web} {h u v : Vertex} {kind : SpiderKind} {p : Phase} {us : List Vertex}

/-! ### Counting spiders -/

/-- The X spiders. -/
def exes (w : Web) : Finset Vertex := (Finset.range w.next).filter fun v => w.kind v = some .x

theorem card_spiders_congr (hnext : w'.next = w.next) (hhas : ∀ u, w'.Has u ↔ w.Has u) :
    w'.spiders.card = w.spiders.card := by
  rw [spiders, spiders, hnext]
  exact congrArg Finset.card (Finset.filter_congr fun u _ => hhas u)

theorem spiders_remove (w : Web) (v : Vertex) : (w.remove v).spiders = w.spiders.erase v := by
  ext u
  rw [Finset.mem_erase, spiders, spiders, Finset.mem_filter, Finset.mem_filter, has_remove]
  exact and_left_comm

theorem spiders_absorbBox (w : Web) (v h : Vertex) :
    (Web.absorbBox .plain v w h).spiders = w.spiders.erase h := by
  rw [← spiders_remove, absorbBox]
  split <;> rfl

/-- Absorbing boxes takes them away. -/
theorem spiders_foldl_absorbBox (w : Web) (v : Vertex) (hs : List Vertex) :
    (hs.foldl (Web.absorbBox .plain v) w).spiders = w.spiders \ hs.toFinset := by
  induction hs generalizing w with
  | nil => simp
  | cons h rest ih =>
    rw [List.foldl_cons, ih, spiders_absorbBox, List.toFinset_cons, Finset.sdiff_insert,
      Finset.erase_sdiff_comm]

/-- Of the spiders that come onto the wires around an X spider, which turns into a Z spider, none is an
    X spider. -/
theorem Valid.card_exes_boxed (hw : w.Valid) (hv : w.kind v = some .x)
    (carrier : Vertex → Option Carrier) :
    { (w.insertAround v us .box p).paint v .z with carrier := carrier }.exes.card < w.exes.card := by
  refine Finset.card_lt_card (Finset.ssubset_iff_subset_ne.2 ⟨fun u hu => ?_, fun he => ?_⟩)
  · obtain ⟨hlt, hu⟩ := Finset.mem_filter.1 hu
    change update (w.insertAround v us .box p).kind v (some .z) u = some .x at hu
    have huv : u ≠ v := by
      rintro rfl
      rw [update_self] at hu
      cases hu
    rw [update_of_ne huv] at hu
    rcases Nat.lt_or_ge u w.next with hold | hnew
    · rw [kind_insertAround hold] at hu
      exact Finset.mem_filter.2 ⟨Finset.mem_range.2 hold, hu⟩
    · rw [kind_new_insertAround hnew (Finset.mem_range.1 hlt)] at hu
      cases hu
  · have hmem : v ∈ w.exes :=
      Finset.mem_filter.2 ⟨Finset.mem_range.2 (hw.lt v (has_of_kind hv)), hv⟩
    rw [← he] at hmem
    have hkind : update (w.insertAround v us .box p).kind v (some .z) v = some .x :=
      (Finset.mem_filter.1 hmem).2
    rw [update_self] at hkind
    cases hkind

/-- A spider that is fused goes. -/
theorem Valid.card_spiders_fuseWires (hw : w.Valid) (hu : w.Has u) :
    (w.fuseWires v u us).spiders.card < w.spiders.card := by
  obtain ⟨hnext, hkind, -⟩ := wireTo_fields w v (us.filter (· ≠ v))
  have hsame : ((w.wireTo v (us.filter (· ≠ v))).addToPhase v (w.phase u)).spiders.card =
      w.spiders.card := card_spiders_congr hnext fun x => by
    rw [Has, Has, kind_addToPhase, hkind]
  have hmem : u ∈ ((w.wireTo v (us.filter (· ≠ v))).addToPhase v (w.phase u)).spiders := by
    refine Finset.mem_filter.2 ⟨Finset.mem_range.2 ?_, ?_⟩
    · exact hnext.symm ▸ hw.lt u hu
    · rw [Has, kind_addToPhase, hkind]
      exact hu
  rw [fuseWires, spiders_remove, ← hsame]
  exact Finset.card_erase_lt_of_mem hmem

end Web

/-! ### What becomes less -/

open Web

/-- What a rewrite by a rule makes less, if anything. -/
def DiagramRule.load : DiagramRule → Web → ℕ
  | .hadamard, w => w.exes.card
  | .identity, w => w.bulk
  | .cancel, w => w.bulk
  | _, w => w.spiders.card

namespace Diagram

variable {d d' : Diagram} {rule : DiagramRule} {m : Match} {n : ℕ} {actions : List Action}
  {u v : Vertex}

section

variable (hd : d.Coherent)
include hd

theorem load_fuse (hv : d.web.Has v) (hu : d.web.Has u) (h : d.checkFusion v u = .ok true)
    (hok : d.fuse v u = .ok d') : d'.web.spiders.card < d.web.spiders.card := by
  obtain ⟨-, ns, -, -, -, -, -, -, d₁, hok₁, -, hw₁⟩ := exists_fuse hd hv hu h
  obtain rfl := Except.ok.inj (hok₁.symm.trans hok)
  rw [hw₁]
  exact hd.valid.card_spiders_fuseWires hu

variable (hplain : d.web.Plain)
include hplain

theorem load_hadamard (hv : d.web.Has v) (h : d.checkHadamard v = .ok true)
    (hok : d.hadamard v = .ok d') : d'.web.exes.card < d.web.exes.card := by
  obtain ⟨k, hk, hx⟩ := of_bind_eq_ok h
  obtain rfl : k = .x := eq_of_beq (Except.ok.inj hx)
  obtain ⟨carrier, d₁, hok₁, -, hw₁⟩ := exists_hadamard hd hplain hv
  obtain rfl := Except.ok.inj (hok₁.symm.trans hok)
  rw [hw₁]
  exact hd.valid.card_exes_boxed (kind_of_eq_ok hk) carrier

theorem load_changeColour (hv : d.web.Has v) (h : d.checkColourChange v = .ok true)
    (hok : d.changeColour v = .ok d') : d'.web.spiders.card < d.web.spiders.card := by
  obtain ⟨k, carrier, hboxed, d₁, hok₁, -, hw₁⟩ := exists_changeColour hd hplain hv h
  obtain rfl := Except.ok.inj (hok₁.symm.trans hok)
  -- the spider has a wire, so that there is a box to absorb
  obtain ⟨b, hb⟩ : ∃ b, b ∈ d.web.nearby v := by
    rw [checkColourChange, and_eq_true_iff, and_eq_true_iff, Diagram.degree, degree_eq hd hv] at h
    have hpos : 0 < d.web.degree v := of_decide_eq_true (Except.ok.inj h.2.1)
    rw [degree_eq_sum hd.valid] at hpos
    refine List.exists_mem_of_ne_nil _ fun hnil => ?_
    rw [hnil] at hpos
    exact absurd hpos (Nat.lt_irrefl 0)
  have hsub := spiders_foldl_absorbBox d.web v (d.web.nearby v)
  have hv' : ((d.web.nearby v).foldl (Web.absorbBox .plain v) d.web).Has v := by
    have hmem : v ∈ d.web.spiders \ (d.web.nearby v).toFinset := by
      rw [Finset.mem_sdiff, List.mem_toFinset]
      exact ⟨hd.valid.mem_spiders_iff.2 hv, hd.valid.notMem_nearby_self⟩
    rw [← hsub] at hmem
    exact (Finset.mem_filter.1 hmem).2
  have hcard : d₁.web.spiders.card =
      ((d.web.nearby v).foldl (Web.absorbBox .plain v) d.web).spiders.card := by
    rw [hw₁]
    exact card_spiders_congr rfl fun x => has_paint hv'
  rw [hcard, hsub]
  refine Finset.card_lt_card (Finset.ssubset_iff_subset_ne.2 ⟨Finset.sdiff_subset, fun he => ?_⟩)
  have hmem : b ∈ d.web.spiders := hd.valid.mem_spiders_iff.2 (hd.valid.has_of_mem_nearby hb)
  rw [← he, Finset.mem_sdiff] at hmem
  exact hmem.2 (List.mem_toFinset.2 hb)

/-- A rewrite by a rule that copies nothing leaves less to do. -/
theorem load_lt (hrule : rule ≠ .piCopy) (h : rule.check d m = .ok true)
    (hok : rule.apply d m = .ok d') : rule.load d'.web < rule.load d.web := by
  have htidy (hmem : rule ∈ tidyRules) : d'.web.bulk < d.web.bulk := by
    obtain ⟨d₁, hok₁, -, hlt⟩ := (decreasing_tidy (I := fun _ => True) ⟨fun _ _ => trivial,
      fun _ _ _ _ => trivial⟩ hmem).apply d m ⟨hd, trivial⟩ h
    rwa [Except.ok.inj (hok₁.symm.trans hok)] at hlt
  obtain ⟨hhas, hcheck⟩ := (check_iff hd).1 h
  rw [DiagramRule.checkPresent.eq_def] at hcheck
  split at hcheck
  · next v u => exact load_fuse hd (hhas v (by simp)) (hhas u (by simp)) hcheck hok
  · next v => exact load_hadamard hd hplain (hhas v (by simp)) hcheck hok
  · exact htidy (by decide)
  · exact htidy (by decide)
  · exact absurd rfl hrule
  · next v boxes =>
    exact load_changeColour hd hplain (hhas v (by simp)) (and_eq_true_iff.1 hcheck).1 hok
  · cases hcheck

end

/-- Each rule that copies nothing, on diagrams with plain edges. -/
theorem decreasing (hrule : rule ≠ .piCopy) : Rule.Decreasing rule
    (fun d : Diagram => d.Coherent ∧ d.web.Plain) fun d => rule.load d.web where
  sites d hd := by
    obtain ⟨ms, hok, -⟩ := lists_sites hd.1 rule
    exact ⟨ms, hok⟩
  check d m hd := succeeds_check hd.1 rule m
  apply d m hd h := by
    obtain ⟨d', hok, hd', hmoored⟩ := exists_moored hd.1 hd.2 h
    exact ⟨d', hok, ⟨hd', hmoored.plain⟩, load_lt hd.1 hd.2 hrule h hok⟩

/-- There are more rounds than there is to do. -/
theorem load_lt_roundLimit (rule : DiagramRule) (d : Diagram) : rule.load d.web < d.roundLimit := by
  have hbulk := d.bulk_lt_roundLimit
  have hspiders : d.web.spiders.card ≤ d.web.bulk := by
    rw [bulk]
    omega
  have hexes : d.web.exes.card ≤ d.web.spiders.card :=
    Finset.card_le_card (Finset.monotone_filter_right _ fun v _ hv => has_of_kind hv)
  cases rule <;> simp only [DiagramRule.load] <;> omega

/-- On whatever comes of bare wires when gates are put on and the diagram is rewritten, a rule that
    copies nothing is applied until nothing is listed any more: as often as there is something to do
    for it at most, and beyond that the number of rounds makes no difference. -/
theorem exists_settled (h : develop n actions = .ok d) (hrule : rule ≠ .piCopy) :
    ∃ k d', d.simplify rule = .ok (k, d') ∧ k ≤ rule.load d.web ∧ Rule.Settled rule d' ∧
      ∀ rounds, rule.load d.web < rounds → Rule.simplifyWithin rule rounds d = .ok (k, d') := by
  have hmeets := meets_develop n actions
  rw [h] at hmeets
  have hready : d.Ready n := Upheld.ready hmeets
  obtain ⟨⟨k, d'⟩, ⟨-, hle⟩, hrounds⟩ :=
    (decreasing hrule).exists_simplifyWithin (d := d) ⟨hready.coherent, hready.web.plain⟩
  have hok := hrounds _ (load_lt_roundLimit rule d)
  obtain ⟨hd', hnone⟩ := (exact_of_coherent rule).sites_of_simplifyWithin hready.coherent hok
  exact ⟨k, d', hok, le_of_add_le_right hle, (exact_of_coherent rule).settled hd' hnone, hrounds⟩

end Diagram

end ZXRewriting
