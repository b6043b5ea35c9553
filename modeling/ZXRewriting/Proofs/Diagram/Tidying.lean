import ZXRewriting.Pipelines
import ZXRewriting.Proofs.Diagram.NonClifford
import ZXRewriting.Proofs.Diagram.Sites
import ZXRewriting.Proofs.Rewriting.Termination

/-!
# Removing identities and cancelling come to an end

A rewrite by one of the two rules takes spiders away, and then joins two of them at most, or it takes
away all but one of the wires between two spiders. So three times the number of spiders and the
number of pairs with several wires between them become less together (`Web.bulk`), and the rounds
of either rule end with a diagram (`Diagram.exists_tidied`). Whatever is kept when spiders go, without
regard to edges (`Web.Durable`), holds of it still. So the T-count does not grow.
-/

namespace ZXRewriting

open Multigraph (SamePair)

namespace Web

variable {w w' : Web} {n : ℕ} {a b s t u v : Vertex} {k : EdgeKind}

/-- The pairs of vertices with several plain edges between them. -/
def doubles (w : Web) : Finset (Vertex × Vertex) :=
  (Finset.range w.next ×ˢ Finset.range w.next).filter fun e => 2 ≤ w.count e.1 e.2 .plain

/-- What becomes less when wires and spiders go. A spider counts for more than a pair, either way
    round, that comes to have another wire. -/
def bulk (w : Web) : ℕ := 3 * w.spiders.card + w.doubles.card

theorem Valid.mem_doubles (hw : w.Valid) : (s, t) ∈ w.doubles ↔ 2 ≤ w.count s t .plain := by
  rw [doubles, Finset.mem_filter, Finset.mem_product, Finset.mem_range, Finset.mem_range,
    and_iff_right_iff_imp]
  intro h
  have hpos : 0 < w.count s t .plain := Nat.lt_of_lt_of_le Nat.two_pos h
  exact ⟨hw.lt s (hw.has s t _ hpos), hw.lt t (hw.has t s _ (hw.symm s t _ ▸ hpos))⟩

theorem bulk_le (w : Web) : w.bulk ≤ 3 * w.next + w.next * w.next := by
  have hspiders : w.spiders.card ≤ w.next :=
    (Finset.card_filter_le _ _).trans (Finset.card_range w.next).le
  have hdoubles : w.doubles.card ≤ w.next * w.next := by
    refine (Finset.card_filter_le _ _).trans ?_
    rw [Finset.card_product, Finset.card_range]
  rw [bulk]
  omega

section

variable (hw : w.Valid)
include hw

/-- Another wire makes two pairs at most, one either way round. -/
theorem Valid.card_doubles_addEdges :
    (w.addEdges a b .plain 1).doubles.card ≤ w.doubles.card + 2 := by
  have hsub : (w.addEdges a b .plain 1).doubles ⊆ insert (a, b) (insert (b, a) w.doubles) := by
    rintro ⟨s, t⟩ he
    have hcount := (Finset.mem_filter.1 he).2
    rw [hw.count_addEdges_eq] at hcount
    rw [Finset.mem_insert, Finset.mem_insert, hw.mem_doubles]
    by_cases hpair : SamePair s t a b
    · rcases hpair with ⟨rfl, rfl⟩ | ⟨rfl, rfl⟩
      · exact .inl rfl
      · exact .inr (.inl rfl)
    · rw [if_neg fun h => hpair h.1] at hcount
      exact .inr (.inr hcount)
  have hcard := Finset.card_le_card hsub
  have h₁ := Finset.card_insert_le (a, b) (insert (b, a) w.doubles)
  have h₂ := Finset.card_insert_le (b, a) w.doubles
  omega

theorem Valid.bulk_addEdges : (w.addEdges a b .plain 1).bulk ≤ w.bulk + 2 := by
  have hcard := hw.card_doubles_addEdges (a := a) (b := b)
  have hspiders : (w.addEdges a b .plain 1).spiders = w.spiders := rfl
  rw [bulk, bulk, hspiders]
  omega

theorem Valid.bulk_remove (hv : w.Has v) : (w.remove v).bulk + 3 ≤ w.bulk := by
  have hspiders : (w.remove v).spiders ⊆ w.spiders.erase v := fun u hu => by
    obtain ⟨hlt, hu⟩ := Finset.mem_filter.1 hu
    rw [Has, kind_remove, Function.update_apply] at hu
    split at hu
    · cases hu
    · next hne => exact Finset.mem_erase.2 ⟨hne, Finset.mem_filter.2 ⟨hlt, hu⟩⟩
  have hdoubles : (w.remove v).doubles ⊆ w.doubles := fun e he => by
    obtain ⟨hlt, hcount⟩ := Finset.mem_filter.1 he
    refine Finset.mem_filter.2 ⟨hlt, hcount.trans ?_⟩
    rw [Web.remove]
    dsimp only
    split <;> omega
  have hmem : v ∈ w.spiders := Finset.mem_filter.2 ⟨Finset.mem_range.2 (hw.lt v hv), hv⟩
  have h₁ := Finset.card_le_card hspiders
  have h₂ := Finset.card_le_card hdoubles
  have hpos := Finset.card_pos.2 ⟨v, hmem⟩
  rw [Finset.card_erase_of_mem hmem] at h₁
  rw [bulk, bulk]
  omega

/-- Taking wires away in pairs leaves one at most. -/
theorem Valid.bulk_takeEdges (hle : 2 ≤ w.count v u .plain) :
    (w.takeEdges v u .plain (w.count v u .plain - w.count v u .plain % 2)).bulk < w.bulk := by
  set w' := w.takeEdges v u .plain (w.count v u .plain - w.count v u .plain % 2) with hw'
  have hcount (s t : Vertex) : w'.count s t .plain =
      if SamePair s t v u then w.count v u .plain % 2 else w.count s t .plain := by
    rw [hw', Web.takeEdges, Web.setCount]
    dsimp only
    split
    · rw [if_pos rfl]
      have := Nat.mod_le (w.count v u .plain) 2
      omega
    · rfl
  have hsub : w'.doubles ⊆ w.doubles.erase (v, u) := fun e he => by
    obtain ⟨hlt, he⟩ := Finset.mem_filter.1 he
    rw [hcount] at he
    split at he
    · have := Nat.mod_lt (w.count v u .plain) (show 0 < 2 by decide)
      omega
    · next hpair =>
      refine Finset.mem_erase.2 ⟨fun heq => hpair ?_, Finset.mem_filter.2 ⟨hlt, he⟩⟩
      rw [heq]
      exact .inl ⟨rfl, rfl⟩
  have hmem : (v, u) ∈ w.doubles := hw.mem_doubles.2 hle
  have hcard := Finset.card_le_card hsub
  have hpos := Finset.card_pos.2 ⟨_, hmem⟩
  have hspiders : w'.spiders = w.spiders := rfl
  rw [Finset.card_erase_of_mem hmem] at hcard
  rw [bulk, bulk, hspiders]
  omega

theorem Cancelled.bulk_lt (h : Cancelled v u w w') (hv : w.Has v) (hu : (w.remove v).Has u) :
    w'.bulk < w.bulk := by
  have hremove := hw.bulk_remove hv
  have hremove' := (hw.remove v).bulk_remove hu
  cases h with
  | wires hle => exact hw.bulk_takeEdges hle
  | closed => omega
  | @joined a b =>
    have hadd := ((hw.remove v).remove u).bulk_addEdges (a := a) (b := b)
    omega

end

/-- A property that is kept when spiders go, and in which edges have no say. -/
structure Durable (I : Web → Prop) : Prop where
  remove : ∀ {w : Web}, I w → ∀ v, I (w.remove v)
  congr : ∀ {w w' : Web}, I w → w'.kind = w.kind → w'.phase = w.phase → w'.carrier = w.carrier → I w'

theorem durable_tCountLe (n : ℕ) : Durable (TCountLe n) where
  remove h v := h.remove v
  congr h hk hp _ := h.congr hk hp

theorem Durable.and {I J : Web → Prop} (hI : Durable I) (hJ : Durable J) :
    Durable fun w => I w ∧ J w where
  remove h v := ⟨hI.remove h.1 v, hJ.remove h.2 v⟩
  congr h hk hp hc := ⟨hI.congr h.1 hk hp hc, hJ.congr h.2 hk hp hc⟩

theorem Cancelled.keeps {I : Web → Prop} (hI : Durable I) (h : Cancelled v u w w') (hw : I w) :
    I w' := by
  cases h with
  | wires _ => exact hI.congr hw rfl rfl rfl
  | closed => exact hI.remove (hI.remove hw v) u
  | joined => exact hI.congr (hI.remove (hI.remove hw v) u) rfl rfl rfl

end Web

namespace Diagram

open Web

variable {d : Diagram} {I : Web → Prop}

/-- The two rules that leave the phases as they are. -/
def tidyRules : List DiagramRule := [.identity, .cancel]

/-- A rewrite by one of them leaves less. -/
theorem decreasing_tidy (hI : Durable I) {rule : DiagramRule} (hrule : rule ∈ tidyRules) :
    Rule.Decreasing rule (fun d : Diagram => d.Coherent ∧ I d.web) fun d => d.web.bulk where
  sites d hd := by
    obtain ⟨ms, hok, -⟩ := lists_sites hd.1 rule
    exact ⟨ms, hok⟩
  check d m hd := succeeds_check hd.1 rule m
  apply d m := by
    rintro ⟨hd, hi⟩ hcheck
    obtain ⟨hhas, hcheck⟩ := (check_iff hd).1 hcheck
    rw [DiagramRule.checkPresent.eq_def] at hcheck
    split at hcheck
    case h_3 v _ =>
      have hv := hhas v (by simp)
      obtain ⟨a, c, hac⟩ := nearby_of_checkIdentity hd hv hcheck
      obtain ⟨d', hok, hd', hw'⟩ := yields_removeIdentity hd hv hac
      have hremove := hd.valid.bulk_remove hv
      have hadd := (hd.valid.remove v).bulk_addEdges (a := a) (b := c)
      refine ⟨d', hok, ⟨hd', hw' ▸ hI.congr (hI.remove hi v) rfl rfl rfl⟩, ?_⟩
      rw [hw']
      omega
    case h_4 v u _ =>
      have hv := hhas v (by simp)
      have hu := hhas u (by simp)
      have hne := ((checkCancel_iff hd hv hu).1 hcheck).1
      obtain ⟨w, ⟨d', hok, hd', rfl⟩, hw⟩ := exists_cancel hd hv hu hcheck
      refine ⟨d', hok, ⟨hd', hw.keeps hI hi⟩, hw.bulk_lt hd.valid hv ?_⟩
      rw [Has, kind_remove, Function.update_of_ne hne.symm]
      exact hu
    case h_7 => cases hcheck
    all_goals exact absurd hrule (by decide)

theorem mul_self_le_two_pow (n : ℕ) : n * n ≤ 4 * 2 ^ n := by
  induction n with
  | zero => decide
  | succ n ih =>
    have hlt := n.lt_two_pow_self
    rw [Nat.pow_succ, Nat.add_mul, Nat.mul_add]
    omega

/-- There are more rounds than there is to take away. -/
theorem bulk_lt_roundLimit (d : Diagram) : d.web.bulk < d.roundLimit := by
  have hle := d.web.bulk_le
  have hlt := (d.graph.nextVertex).lt_two_pow_self
  have hsq := mul_self_le_two_pow d.graph.nextVertex
  have hmono : 2 ^ (64 + d.graph.nextVertex) ≤ 2 ^ (64 + d.graph.nextVertex + d.graph.edgeCount) :=
    Nat.pow_le_pow_right (by decide) (Nat.le_add_right _ _)
  rw [Nat.pow_add] at hmono
  rw [show d.web.next = d.graph.nextVertex from rfl] at hle
  rw [Diagram.roundLimit, Nat.one_shiftLeft]
  omega

/-- Removing identities, or cancelling, until there is no more. -/
theorem exists_tidied (hI : Durable I) (hd : d.Coherent) (hi : I d.web) (rule : DiagramRule)
    (hrule : rule ∈ tidyRules) :
    ∃ r, d.simplify rule = .ok r ∧ r.2.Coherent ∧ I r.2.web := by
  obtain ⟨r, ⟨hr, -⟩, hrounds⟩ := (decreasing_tidy hI hrule).exists_simplifyWithin ⟨hd, hi⟩
  exact ⟨r, hrounds _ d.bulk_lt_roundLimit, hr⟩

end Diagram

end ZXRewriting
