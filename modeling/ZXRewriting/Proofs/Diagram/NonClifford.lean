import ZXRewriting.Proofs.Diagram.Ledger

/-!
# Phases that are no multiples of a quarter turn

The T-count of a diagram is the number of its coloured spiders with such a phase
(`Web.IsNonClifford`). A bound on it (`Web.TCountLe`) is about kinds and phases alone, and does
without a count: there are that many vertices, and all such spiders are among them. An edit keeps
a bound if it makes no other spider one (`TCountLe.of_imp`), and also if a single one comes in place
of another (`TCountLe.move`).

Multiples of a quarter turn are never rounded, so that adding one does not make a spider one
(`TCountLe.addToPhase`), and neither does fusing two of which none is. Nothing more about rounding
is used.
-/

namespace ZXRewriting

open Function (update update_self update_of_ne)

namespace Web

variable {w w' : Web} {n : ℕ} {p : Phase} {s t u v : Vertex}

/-- Whether a spider is coloured, with a phase that is no multiple of a quarter turn. -/
def IsNonClifford (w : Web) (v : Vertex) : Prop := w.IsColoured v ∧ ¬(w.phase v).isClifford

instance : DecidablePred w.IsNonClifford := fun _ => inferInstanceAs (Decidable (_ ∧ ¬_))

/-- There are at most `n` such spiders. -/
def TCountLe (n : ℕ) (w : Web) : Prop :=
  ∃ among : Finset Vertex, among.card ≤ n ∧ ∀ v, w.IsNonClifford v → v ∈ among

namespace TCountLe

section

variable (h : w.TCountLe n)
include h

theorem of_imp (himp : ∀ v, w'.IsNonClifford v → w.IsNonClifford v) : w'.TCountLe n := by
  obtain ⟨among, hcard, hmem⟩ := h
  exact ⟨among, hcard, fun v hv => hmem v (himp v hv)⟩

theorem congr (hk : w'.kind = w.kind) (hp : w'.phase = w.phase) : w'.TCountLe n :=
  h.of_imp fun v hv => by rwa [IsNonClifford, IsColoured, ← hk, ← hp]

/-- At most one spider comes in place of another one. -/
theorem move (hs : ¬w'.IsNonClifford s)
    (ht : w'.IsNonClifford t → w.IsNonClifford s ∨ w.IsNonClifford t)
    (hrest : ∀ v, v ≠ t → w'.IsNonClifford v → w.IsNonClifford v) : w'.TCountLe n := by
  by_cases hmoved : w'.IsNonClifford t ∧ ¬w.IsNonClifford t
  swap
  · refine h.of_imp fun v hv => ?_
    by_cases hvt : v = t
    · subst hvt
      exact not_not.1 fun hnot => hmoved ⟨hv, hnot⟩
    · exact hrest v hvt hv
  obtain ⟨among, hcard, hmem⟩ := h
  have hmems : s ∈ among := hmem s ((ht hmoved.1).resolve_right hmoved.2)
  refine ⟨insert t (among.erase s), ?_, fun v hv => ?_⟩
  · have hinsert := Finset.card_insert_le t (among.erase s)
    have hpos := Finset.card_pos.2 ⟨s, hmems⟩
    rw [Finset.card_erase_of_mem hmems] at hinsert
    omega
  · rw [Finset.mem_insert, Finset.mem_erase]
    by_cases hvt : v = t
    · exact .inl hvt
    · exact .inr ⟨fun hvs => hs (hvs ▸ hv), hmem v (hrest v hvt hv)⟩

/-- A spider less. -/
theorem take (hv : w.IsNonClifford v) (hv' : ¬w'.IsNonClifford v)
    (himp : ∀ u, w'.IsNonClifford u → w.IsNonClifford u) : ∃ k, n = k + 1 ∧ w'.TCountLe k := by
  obtain ⟨among, hcard, hmem⟩ := h
  have hpos := Finset.card_pos.2 ⟨v, hmem v hv⟩
  refine ⟨n - 1, by omega, among.erase v, ?_, fun u hu => ?_⟩
  · rw [Finset.card_erase_of_mem (hmem v hv)]
    omega
  · exact Finset.mem_erase.2 ⟨fun huv => hv' (huv ▸ hu), hmem u (himp u hu)⟩

/-! ### Edits -/

theorem setPhase (hp : p.isClifford) : (w.setPhase v p).TCountLe n :=
  h.of_imp fun u hu => by
    rw [IsNonClifford, phase_setPhase, Function.update_apply] at hu
    split at hu
    · exact absurd hp hu.2
    · exact hu

theorem addToPhase (hp : p.isClifford) : (w.addToPhase v p).TCountLe n :=
  h.of_imp fun u hu => by
    rw [IsNonClifford, phase_addToPhase, Function.update_apply] at hu
    split at hu
    · next hu' =>
      refine ⟨hu.1, fun hc => hu.2 ?_⟩
      exact Phase.isClifford_add (hu' ▸ hc) hp
    · exact hu

theorem addSpider (hp : p.isClifford) : (w.addSpider p).TCountLe n :=
  h.of_imp fun u hu => by
    rw [IsNonClifford, IsColoured, kind_addSpider, phase_addSpider, Function.update_apply,
      Function.update_apply] at hu
    split at hu
    · exact absurd hp hu.2
    · exact hu

theorem remove (v : Vertex) : (w.remove v).TCountLe n :=
  h.of_imp fun u hu => by
    rw [IsNonClifford, IsColoured, kind_remove, phase_remove, Function.update_apply,
      Function.update_apply] at hu
    split at hu
    · exact absurd rfl hu.2
    · exact hu

/-- The phase of a coloured spider is moved onto another one. -/
theorem fuse (hs : w.IsColoured s) (hk : ∀ v, w'.IsColoured v → w.IsColoured v)
    (ht : (w.phase t).isClifford → (w.phase s).isClifford → (w'.phase t).isClifford)
    (hrest : ∀ v, v ≠ s → v ≠ t → (w.phase v).isClifford → (w'.phase v).isClifford)
    (hgone : ¬w'.IsNonClifford s) : w'.TCountLe n := by
  refine h.move (t := t) hgone (fun htn => ?_) fun v hvt hv => ?_
  · by_contra hnot
    rw [not_or] at hnot
    have hclifford {x : Vertex} (hx : w.IsColoured x) (hnc : ¬w.IsNonClifford x) :
        (w.phase x).isClifford := not_not.1 fun hc => hnc ⟨hx, hc⟩
    exact htn.2 (ht (hclifford (hk t htn.1) hnot.2) (hclifford hs hnot.1))
  · exact ⟨hk v hv.1, fun hc => hv.2 (hrest v (fun he => hgone (he ▸ hv)) hvt hc)⟩

/-- It is the same with a multiple of it. -/
theorem fusePhase (hs : w.IsColoured s) (hst : s ≠ t) (σ : ℤ) : (w.fusePhase s t σ).TCountLe n := by
  refine h.fuse (t := t) hs (fun _ hv => hv) (fun ht hs => ?_) (fun v hvs hvt hv => ?_) fun hc => hc.2 ?_
  · rw [Web.fusePhase]
    dsimp only
    rw [update_of_ne hst.symm, update_self]
    exact Phase.isClifford_add ht (Phase.isClifford_scale hs σ)
  · rw [Web.fusePhase]
    dsimp only
    rwa [update_of_ne hvs, update_of_ne hvt]
  · rw [Web.fusePhase]
    dsimp only
    rw [update_self]
    rfl

end

end TCountLe

end Web

namespace Diagram

variable {d : Diagram} {v : Vertex}

theorem isNonClifford_eq (hv : d.web.Has v) :
    d.isNonClifford v = .ok (decide (d.web.IsNonClifford v)) := by
  obtain ⟨k, hk⟩ := Option.isSome_iff_exists.1 hv
  rw [isNonClifford, kind_eq hk]
  refine congrArg Except.ok ?_
  rw [Bool.eq_iff_iff, decide_eq_true_iff, Web.IsNonClifford, Web.IsColoured, hk]
  simp [web]

theorem tCount_eq (hd : d.Coherent) :
    d.tCount = .ok (d.spiders.filter fun v => d.web.IsNonClifford v).length := by
  have hlist : d.spiders.filterM d.isNonClifford =
      .ok (d.spiders.filter fun v => d.web.IsNonClifford v) := filterM_eq fun v hv => by
    rw [spiders_eq hd] at hv
    exact isNonClifford_eq (of_decide_eq_true (List.mem_filter.1 hv).2)
  rw [tCount, hlist]
  rfl

/-- The T-count is the least bound. -/
theorem exists_tCount (hd : d.Coherent) :
    ∃ n, d.tCount = .ok n ∧ ∀ k, d.web.TCountLe k ↔ n ≤ k := by
  have hspiders := spiders_eq hd
  have hnodup : (d.spiders.filter fun v => d.web.IsNonClifford v).Nodup := by
    rw [hspiders]
    exact (List.nodup_range.filter _).filter _
  have hmem {v : Vertex} (hv : d.web.IsNonClifford v) :
      v ∈ (d.spiders.filter fun v => d.web.IsNonClifford v).toFinset := by
    rw [List.mem_toFinset, List.mem_filter, hspiders, List.mem_filter, List.mem_range,
      decide_eq_true_iff, decide_eq_true_iff]
    exact ⟨⟨hd.valid.lt v hv.1.has, hv.1.has⟩, hv⟩
  refine ⟨_, tCount_eq hd, fun k => ⟨?_, fun hle => ?_⟩⟩
  · rintro ⟨among, hcard, hamong⟩
    rw [← List.toFinset_card_of_nodup hnodup]
    refine Nat.le_trans (Finset.card_le_card fun v hv => ?_) hcard
    exact hamong v (of_decide_eq_true (List.mem_filter.1 (List.mem_toFinset.1 hv)).2)
  · exact ⟨_, Nat.le_trans (List.toFinset_card_le _) hle, fun v hv => hmem hv⟩

end Diagram

end ZXRewriting
