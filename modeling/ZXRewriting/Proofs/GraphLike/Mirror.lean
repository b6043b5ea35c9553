import ZXRewriting.Proofs.GraphLike.Anchored
import ZXRewriting.Proofs.GraphLike.Master
import ZXRewriting.Proofs.Semantics.Reversible

/-!
# The master mirrors what is rewritten

The spiders of a graph-like diagram that have a name take their *twist*, a factor of any size, from
the spider of the master that they name, or the inverse of its twist if their sign is negative
(`Web.twist`). The master mirrors the diagram if the two denote the same up to a scalar whatever
those twists are (`Web.Mirrors`). That says more than that they denote the same with their own
phases, and it is what rewriting keeps: what is not named has no twist, so that nothing else depends
on the twists, and where two named spiders are fused, the master moves the phase of the one onto the
other one, which no diagram with those twists can tell from leaving it where it is
(`Web.Traced.exists_unmerged`).

When gadgets are fused, the centre of the one that stays has to be without a twist. It has no name,
if the map is invertible whatever the twists are (`Web.Firm.carrier_centre`).
-/

namespace ZXRewriting

open Function (update update_self update_of_ne)
open GraphLike (Renamed)

namespace Web

variable {w w' w'' m : Web} {M : Diagram} {D n : ℕ} {K : Finset Vertex} {P off : Vertex → ℚ}
  {τ : Vertex → ℂ} {c d l keep gone r s t u v x : Vertex} {p : Phase} {outputs inputs : List Vertex}

/-- The twist of a spider, given one for each name. -/
noncomputable def twist (w : Web) (τ : Vertex → ℂ) (v : Vertex) : ℂ :=
  match w.carrier v with
  | some c => τ c.spider ^ c.sign
  | none => 1

/-- Whether some spider has a name. -/
def Names (w : Web) (r : Vertex) : Prop := ∃ u c, w.carrier u = some c ∧ c.spider = r

/-- Twists that are not zero, for the names that spiders have. -/
structure Twists (w : Web) (τ : Vertex → ℂ) : Prop where
  ne_zero : ∀ r, τ r ≠ 0
  eq_one : ∀ r, ¬w.Names r → τ r = 1

/-- A web that denotes the same up to a scalar, whatever the twists of the names are. -/
def Mirrors (w m : Web) : Prop := ∀ τ, w.Twists τ →
  Proportional (m.tensors τ).amplitude (w.tensors (w.twist τ)).amplitude

/-- Another web that denotes the same up to a scalar, whatever the twists of its own names are. -/
def Reflects (w w' : Web) : Prop := ∀ τ, w'.Twists τ → w.Twists τ ∧
  Proportional (w.tensors (w.twist τ)).amplitude (w'.tensors (w'.twist τ)).amplitude

theorem Reflects.trans (h : Reflects w w') (h' : Reflects w' w'') : Reflects w w'' := fun τ hτ => by
  obtain ⟨hτ', hprop'⟩ := h' τ hτ
  obtain ⟨hτ'', hprop⟩ := h τ hτ'
  exact ⟨hτ'', hprop.trans hprop'⟩

theorem Reflects.refl (w : Web) : Reflects w w := fun _ hτ => ⟨hτ, .refl _⟩

theorem Mirrors.reflects (hm : w.Mirrors m) (h : Reflects w w') : w'.Mirrors m := fun τ hτ => by
  obtain ⟨hτ', hprop⟩ := h τ hτ
  exact (hm τ hτ').trans hprop

theorem twist_of_none (h : w.carrier v = none) : w.twist τ v = 1 := by rw [twist, h]

theorem twist_of_some {c : Carrier} (h : w.carrier v = some c) :
    w.twist τ v = τ c.spider ^ c.sign := by
  rw [twist, h]

theorem twist_congr (h : w'.carrier v = w.carrier v) : w'.twist τ v = w.twist τ v := by
  rw [twist, twist, h]

/-- More names may have twists. -/
theorem Twists.of_names (h : w.Twists τ) (hn : ∀ r, w.Names r → w'.Names r) : w'.Twists τ :=
  ⟨h.ne_zero, fun r hr => h.eq_one r fun hr' => hr (hn r hr')⟩

/-- Names that are passed on are those that there were. -/
theorem Twists.of_renamed (h : w'.Twists τ) (hr : Renamed w.carrier w'.carrier) : w.Twists τ := by
  obtain ⟨f, hf, -⟩ := hr
  refine h.of_names ?_
  rintro r ⟨u, c, hu, rfl⟩
  obtain ⟨c₀, hc₀, he, -⟩ := hf u c hu
  exact ⟨f u, c₀, hc₀, he.symm⟩

theorem Twists.twist_ne_zero (h : w.Twists τ) (v : Vertex) : w.twist τ v ≠ 0 := by
  cases hc : w.carrier v with
  | none =>
    rw [twist_of_none hc]
    exact one_ne_zero
  | some c =>
    rw [twist_of_some hc]
    exact zpow_ne_zero _ (h.ne_zero _)

/-- No twists at all. -/
theorem twists_one : w.Twists 1 := ⟨fun _ => one_ne_zero, fun _ _ => rfl⟩

theorem twist_one : w.twist 1 = 1 := funext fun v => by
  cases hc : w.carrier v with
  | none => exact twist_of_none hc
  | some c => rw [twist_of_some hc, Pi.one_apply, one_zpow, Pi.one_apply]

/-- Without twists, the two denote the same. -/
theorem Mirrors.proportional (h : w.Mirrors m) :
    Proportional (m.tensors 1).amplitude (w.tensors 1).amplitude := by
  have h := h 1 twists_one
  rwa [twist_one] at h

theorem Simple.tensors_eq (hw : w.Simple) : w.tensors τ = w.network τ :=
  tensors_eq_network hw.colour

/-! ### Names that go -/

/-- A name that goes has no twist any more, and neither has who had it. -/
theorem Traced.twists_of_dropped (h : Traced D K P off w m)
    (hc : ∀ x, w'.carrier x = none ∨ w'.carrier x = w.carrier x) (hτ : w'.Twists τ) :
    w.Twists τ ∧ w'.twist τ = w.twist τ := by
  have hnames {x : Vertex} {c : Carrier} (hx : w'.carrier x = some c) : w.carrier x = some c := by
    rcases hc x with h' | h'
    · rw [h'] at hx
      cases hx
    · rwa [← h']
  refine ⟨hτ.of_names ?_, funext fun x => ?_⟩
  · rintro r ⟨u, c, hu, rfl⟩
    exact ⟨u, c, hnames hu, rfl⟩
  · rcases hc x with hx | hx
    · rw [twist_of_none hx]
      cases hcx : w.carrier x with
      | none => exact (twist_of_none hcx).symm
      | some c =>
        rw [twist_of_some hcx, hτ.eq_one, one_zpow]
        rintro ⟨u, c', hu, he⟩
        rw [h.distinct u x c' c (hnames hu) hcx he, hx] at hu
        cases hu
    · exact twist_congr hx

namespace Traced

variable (h : Traced D K P 0 w m)
include h

/-- Edits by which no spider gets a name, and which keep what a web denotes if those without a name
    have no twist. -/
theorem reflects_of_dropped (hc : ∀ x, w'.carrier x = none ∨ w'.carrier x = w.carrier x)
    (hamp : ∀ τ : Vertex → ℂ, (∀ x, w'.carrier x = none → τ x = 1) →
      Proportional (w.tensors τ).amplitude (w'.tensors τ).amplitude) : Reflects w w' := fun τ hτ => by
  obtain ⟨hτ', htwist⟩ := h.twists_of_dropped hc hτ
  refine ⟨hτ', ?_⟩
  rw [htwist]
  exact hamp _ fun x hx => by rw [← htwist, twist_of_none hx]

/-- The steps of the conversion that leave names as they are. -/
theorem reflects_of_converts (hconverts : Converts w w')
    (hc : ∀ x, w'.carrier x = none ∨ w'.carrier x = w.carrier x)
    (hgone : ∀ x, ¬w'.Has x → w'.carrier x = none) : Reflects w w' :=
  h.reflects_of_dropped hc fun τ hτ => hconverts.amplitude τ fun x hx => hτ x (hgone x hx)

/-! ### Rewrites -/

theorem reflects_localComplement (hw : w.InForm) (hD : Phase.IsGrid D) (hg : w.OnGrid D)
    (hv : w.IsInner v) (hp : (w.phase v).isProperClifford) : Reflects w (w.localComplement v) := by
  have hz : ∀ u ∈ w.nearby v, w.IsZ u := fun u hu => (hv.2 u hu).1
  have hcarrier : (w.localComplement v).carrier = update w.carrier v none := carrier_localComplement
  have hform := (hw.keeps_localComplement hv.1.1 hz).form
  refine h.reflects_of_dropped (fun x => ?_) fun τ hτ => ?_
  · rw [hcarrier, Function.update_apply]
    split
    · exact .inl rfl
    · exact .inr rfl
  · rw [hw.simple.tensors_eq, hform.simple.tensors_eq]
    exact hw.simple.amplitude_localComplement hD hg hv.1.1 hz hp
      (hτ v (by rw [hcarrier, update_self]))

theorem reflects_pivot (hw : w.InForm) (hD : Phase.IsGrid D) (hg : w.OnGrid D)
    (hp : w.Pivotable v u) (hpv : (w.phase v).isPauli) (hpu : (w.phase u).isPauli) :
    Reflects w (w.pivot v u) := by
  have hcarrier : (w.pivot v u).carrier = update (update w.carrier v none) u none := carrier_pivot
  have hform := (hw.keeps_pivot hp).form
  refine h.reflects_of_dropped (fun x => ?_) fun τ hτ => ?_
  · rw [hcarrier, Function.update_apply, Function.update_apply]
    split_ifs
    · exact .inl rfl
    · exact .inl rfl
    · exact .inr rfl
  · rw [hw.simple.tensors_eq, hform.simple.tensors_eq]
    refine hw.simple.amplitude_pivot hD hg hp hpv hpu (hτ v ?_) (hτ u (by rw [hcarrier, update_self]))
    rw [hcarrier, Function.update_apply]
    split
    · rfl
    · rw [update_self]

theorem reflects_shiftBoundary (hw : w.InForm) (hv : w.IsZ v) (ht : w.IsEnd t) :
    Reflects w (Web.shiftBoundary v w t) := by
  have hform := (hw.shiftBoundary hv ht).1
  rw [Web.shiftBoundary] at hform ⊢
  cases hk : w.link v t with
  | none => exact .refl w
  | some k =>
    rw [hk] at hform
    have hnone : (w.split v t k).carrier w.next = none := h.carrier_of_not_coloured fun hc =>
      hw.simple.valid.not_has_next hc.has
    refine h.reflects_of_dropped (fun x => .inr rfl) fun τ hτ => ?_
    rw [hw.simple.tensors_eq, hform.simple.tensors_eq]
    exact hw.simple.amplitude_split hv.has ht.has (fun he => hv.not_isEnd (he ▸ ht)) hk
      (hτ w.next hnone)

theorem reflects_shiftBoundaries (hw : w.InForm) (hv : w.IsZ v) :
    Reflects w (w.shiftBoundaries v) := by
  have hts : ∀ t ∈ w.ends v, w.IsEnd t := fun t ht => by simpa using (List.mem_filter.1 ht).2
  rw [Web.shiftBoundaries]
  generalize w.ends v = ts at hts
  induction ts generalizing w with
  | nil => exact .refl w
  | cons t rest ih =>
    have ht := hts t List.mem_cons_self
    obtain ⟨hw₁, hf₁, -⟩ := hw.shiftBoundary hv ht
    exact (h.reflects_shiftBoundary hw hv ht).trans <|
      ih (h.shiftBoundary hw.simple.valid v t) hw₁ (hf₁.isZ hv)
        fun u hu => hf₁.isEnd (hts u (List.mem_cons_of_mem t hu))

end Traced

/-! ### Names that are passed on -/

theorem twist_moveCarrier (ht : w.carrier t = none) :
    (w.moveCarrier s t).twist τ = update (update (w.twist τ) s 1) t (w.twist τ s) := by
  funext x
  rw [moveCarrier]
  cases hs : w.carrier s with
  | none =>
    rw [twist_of_none hs, Function.update_apply, Function.update_apply]
    split_ifs with hxt hxs
    · rw [hxt, twist_of_none ht]
    · rw [hxs, twist_of_none hs]
    · rfl
  | some c =>
    rw [twist, Function.update_apply, Function.update_apply, twist_of_some hs]
    dsimp only
    rw [Function.update_apply, Function.update_apply]
    split_ifs
    · rfl
    · rfl
    · rfl

theorem renamed_moveCarrier (w : Web) (s t : Vertex) :
    Renamed w.carrier (w.moveCarrier s t).carrier := by
  rw [moveCarrier]
  cases hs : w.carrier s with
  | none => exact .refl _
  | some c => exact GraphLike.renamed_move hs t

theorem twist_negatePhase :
    (w.negatePhase v).twist τ = update (w.twist τ) v (w.twist τ v)⁻¹ := by
  funext x
  by_cases hx : x = v
  · subst hx
    have hc : (w.negatePhase x).carrier x = (w.carrier x).map fun c => ⟨c.spider, -c.sign⟩ :=
      update_self _ _ _
    rw [update_self, twist, hc, twist]
    cases w.carrier x with
    | none => exact (inv_one (G := ℂ)).symm
    | some c => exact zpow_neg _ _
  · rw [update_of_ne hx]
    exact twist_congr (update_of_ne hx _ _)

theorem renamed_negatePhase (w : Web) (v : Vertex) :
    Renamed w.carrier (w.negatePhase v).carrier := by
  rw [negatePhase]
  dsimp only
  cases hc : w.carrier v with
  | none => exact GraphLike.renamed_erase _ v
  | some c => exact GraphLike.renamed_negate hc

/-- The leaf that takes over the phase of a spider takes over its twist. -/
theorem Traced.reflects_shiftPhase (h : Traced D K P 0 w m) (hw : w.InForm) (hv : w.IsZ v) :
    Reflects w (w.shiftPhase v) := fun τ hτ => by
  by_cases hp : (w.phase v).isPauli
  · rw [Web.shiftPhase, if_pos hp] at hτ ⊢
    exact ⟨hτ, .refl _⟩
  have hval := hw.simple.valid
  have hform := (hw.shiftPhase hv).1
  have hnext : w.carrier w.next = none := h.carrier_of_not_coloured fun hc =>
    hval.not_has_next hc.has
  have hleaf : w.carrier (w.next + 1) = none := h.carrier_of_not_coloured fun hc =>
    hval.ne_next_succ hc.has rfl
  have hne := hval.ne_next hv.has
  have hne' := hval.ne_next_succ hv.has
  -- the spiders and edges that are added have no names
  have hrenamed : Renamed w.carrier (w.shiftPhase v).carrier := by
    rw [Web.shiftPhase, if_neg hp]
    exact renamed_moveCarrier _ v (w.next + 1)
  have htwist : (w.shiftPhase v).twist τ =
      update (update (w.twist τ) v 1) (w.next + 1) (w.twist τ v) := by
    rw [Web.shiftPhase, if_neg hp]
    exact twist_moveCarrier hleaf
  refine ⟨hτ.of_renamed hrenamed, ?_⟩
  rw [hw.simple.tensors_eq, hform.simple.tensors_eq, htwist]
  refine hw.amplitude_shiftPhase hv hp (fun u hu huv => ?_) ?_ ?_ (update_self _ _ _)
  · rw [update_of_ne (hval.ne_next_succ hu.has), update_of_ne huv]
  · rw [update_of_ne hne', update_self]
  · rw [update_of_ne (Nat.lt_succ_self _).ne, update_of_ne hne.symm, twist_of_none hnext]

/-- Where a half turn on the centre of a gadget turns the phase of the leaf around, it turns its
    twist around. -/
theorem IsGadget.reflects_clearCentre (hl : w.IsGadget c l) (hw : w.InForm) (hD : Phase.IsGrid D)
    (hg : w.OnGrid D) : Reflects w (w.clearCentre c l) := fun τ hτ => by
  have hform := hw.clearCentre c l
  have htwist : w.Twists τ ∧ (w.clearCentre c l).twist τ =
      update (w.twist τ) l (if (w.phase c).isPi then (w.twist τ l)⁻¹ else w.twist τ l) := by
    rw [clearCentre] at hτ ⊢
    split
    · next hpi =>
      rw [if_pos hpi] at hτ
      exact ⟨hτ.of_renamed (renamed_negatePhase (w.setPhase c .zero) l), twist_negatePhase⟩
    · next hpi =>
      rw [if_neg hpi] at hτ
      exact ⟨hτ, (Function.update_eq_self _ _).symm⟩
  refine ⟨htwist.1, ?_⟩
  rw [hw.simple.tensors_eq, hform.simple.tensors_eq, htwist.2]
  exact hl.amplitude_clearCentre hw.simple hD hg (htwist.1.twist_ne_zero l)
    (fun u hu => update_of_ne hu _ _) (update_self _ _ _)

/-! ### Names that are merged -/

/-- Phases and twists that make the same factors. -/
theorem tensors_eq_of_factor {τ' : Vertex → ℂ} (hn : w'.next = w.next) (hk : w'.kind = w.kind)
    (hc : w'.count = w.count) (hf : ∀ v, (w.kindAt v).factor (w'.phase v) * τ v =
      (w.kindAt v).factor (w.phase v) * τ' v) : w'.tensors τ = w.tensors τ' := by
  obtain ⟨next, kind, phase, count, inputs, outputs, carrier⟩ := w
  obtain ⟨next', kind', phase', count', inputs', outputs', carrier'⟩ := w'
  subst hn hk hc
  rw [tensors, tensors, Network.mk.injEq]
  exact ⟨rfl, rfl, funext hf, rfl⟩

/-- Moving a phase onto another one is the same as to move the twists. -/
theorem Ledger.tensors_fusePhase {σ : ℤ} (h : Ledger D K P m) (hD : Phase.IsGrid D) (hs : m.IsOwn s)
    (ht : m.IsOwn t) (hst : s ≠ t) (hσ : σ = 1 ∨ σ = -1) (hcs : m.IsColoured s)
    (hct : m.IsColoured t) (hτ : τ s = 1) : (m.fusePhase s t σ).tensors τ = m.tensors
      (update (update τ t (τ t * (m.phase s).unit ^ σ)) s (m.phase s).unit⁻¹) := by
  have hgs := h.grid s (h.mem_of_own hs)
  have hgt := h.grid t (h.mem_of_own ht)
  have hfactor {v : Vertex} (hv : m.IsColoured v) (p : Phase) : (m.kindAt v).factor p = p.unit := by
    obtain ⟨κ, hκ, hphased⟩ := (Option.any_eq_true _ _).1 hv
    rw [kindAt_eq hκ, SpiderKind.factor_of_isPhased hphased]
  refine tensors_eq_of_factor rfl rfl rfl fun v => ?_
  by_cases hvs : v = s
  · subst hvs
    rw [phase_fusePhase_self, update_self, hfactor hcs, hfactor hcs, Phase.unit_zero, hτ,
      mul_inv_cancel₀ (Phase.unit_ne_zero _), mul_one]
  rw [update_of_ne hvs]
  by_cases hvt : v = t
  · subst hvt
    have hphase : (m.fusePhase s v σ).phase v = m.phase v + (m.phase s).scale σ := by
      rw [Web.fusePhase]
      dsimp only
      rw [update_of_ne hvs, update_self]
    have hunit : ((m.phase s).scale σ).unit = (m.phase s).unit ^ σ := by
      rw [(hgs.scale hD σ).2]
      rcases hσ with rfl | rfl
      · rw [zpow_one, Int.cast_one, one_mul, Phase.unit]
      · rw [zpow_neg, zpow_one, Int.cast_neg, Int.cast_one, neg_one_mul, Phase.turn_neg, Phase.unit]
    rw [update_self, hfactor hct, hfactor hct, hphase, (hgt.add hD (hgs.scale hD σ).1).2, hunit]
    ring
  · rw [update_of_ne hvt, phase_fusePhase_of_ne hvs hvt]

/-- Where the phase of one name is moved onto that of another one, the master tells no difference, if
    its twist is moved too. -/
theorem Traced.exists_unmerged_of_some {k e : Carrier} (h : Traced D K P off w M.web)
    (hD : Phase.IsGrid D) (hcol : ∀ r, M.web.IsOwn r → M.web.IsColoured r) (hne : keep ≠ gone)
    (hk : w.carrier keep = some k) (he : w.carrier gone = some e)
    (hτ : (w.mergeCarriers keep gone).Twists τ) : ∃ τ', w.Twists τ' ∧
      (w.mergedMaster M keep gone).web.tensors τ = M.web.tensors τ' ∧
      (w.mergeCarriers keep gone).twist τ keep = w.twist τ' keep * w.twist τ' gone ∧
      ∀ x, x ≠ keep → x ≠ gone → (w.mergeCarriers keep gone).twist τ x = w.twist τ' x := by
  have hdiff : e.spider ≠ k.spider := fun heq => hne (h.distinct keep gone k e hk he heq.symm)
  rw [mergeCarriers_of_some hne he hk] at hτ ⊢
  rw [mergedMaster_of_some hne he hk hdiff, Diagram.web_fusePhase]
  -- nobody has the name that was given up, so that it has no twist
  have hgone : τ e.spider = 1 := by
    refine hτ.eq_one _ ?_
    rintro ⟨u, e', hu, heq⟩
    dsimp only at hu
    rw [Function.update_apply] at hu
    split at hu
    · cases hu
    · next hug => exact hug (h.distinct u gone e' e hu he heq)
  have hone := h.sign keep k hk
  have hsign : k.sign * e.sign = 1 ∨ k.sign * e.sign = -1 := by
    rcases hone with h₁ | h₁ <;> rcases h.sign gone e he with h₂ | h₂ <;> simp [h₁, h₂]
  have hunit : (M.web.phase e.spider).unit ≠ 0 := Phase.unit_ne_zero _
  refine ⟨_, ⟨fun r => ?_, fun r hr => ?_⟩, h.ledger.tensors_fusePhase hD (h.own gone e he)
    (h.own keep k hk) hdiff hsign (hcol _ (h.own gone e he)) (hcol _ (h.own keep k hk)) hgone,
    ?_, fun x hxk hxg => ?_⟩
  · rw [Function.update_apply, Function.update_apply]
    split_ifs
    · exact inv_ne_zero hunit
    · exact mul_ne_zero (hτ.ne_zero _) (zpow_ne_zero _ hunit)
    · exact hτ.ne_zero r
  · have hre : r ≠ e.spider := fun heq => hr ⟨gone, e, he, heq.symm⟩
    have hrk : r ≠ k.spider := fun heq => hr ⟨keep, k, hk, heq.symm⟩
    rw [update_of_ne hre, update_of_ne hrk]
    exact (hτ.of_renamed (GraphLike.renamed_erase w.carrier gone)).eq_one r hr
  · rw [twist_of_some hk, twist_of_some he, update_self, update_of_ne hdiff.symm, update_self,
      twist_of_some (c := k) ((update_of_ne hne _ _).trans hk), mul_zpow, mul_assoc, ← zpow_mul,
      inv_zpow]
    have hexp : k.sign * e.sign * k.sign = e.sign := by
      rcases hone with h₁ | h₁ <;> rw [h₁] <;> ring
    rw [hexp, mul_inv_cancel₀ (zpow_ne_zero _ hunit), mul_one]
  · cases hx : w.carrier x with
    | none => rw [twist_of_none hx, twist_of_none ((update_of_ne hxg _ _).trans hx)]
    | some e' =>
      rw [twist_of_some hx, twist_of_some ((update_of_ne hxg _ _).trans hx),
        update_of_ne fun heq => hxg (h.distinct x gone e' e hx he heq),
        update_of_ne fun heq => hxk (h.distinct x keep e' k hx hk heq)]

/-- Where one spider comes to be named for two, the master tells no difference, if it is the twist of
    the other one that it has besides its own. -/
theorem Traced.exists_unmerged (h : Traced D K P off w M.web) (hD : Phase.IsGrid D)
    (hcol : ∀ r, M.web.IsOwn r → M.web.IsColoured r) (hne : keep ≠ gone)
    (hτ : (w.mergeCarriers keep gone).Twists τ) : ∃ τ', w.Twists τ' ∧
      (w.mergedMaster M keep gone).web.tensors τ = M.web.tensors τ' ∧
      (w.mergeCarriers keep gone).twist τ keep = w.twist τ' keep * w.twist τ' gone ∧
      ∀ x, x ≠ keep → x ≠ gone → (w.mergeCarriers keep gone).twist τ x = w.twist τ' x := by
  cases hk : w.carrier keep with
  | none =>
    rw [mergeCarriers_of_none hne hk] at hτ ⊢
    rw [mergedMaster_of_none hne hk]
    refine ⟨τ, hτ.of_renamed (renamed_moveCarrier w gone keep), rfl, ?_, fun x hxk hxg => ?_⟩
    · rw [twist_moveCarrier hk, update_self, twist_of_none hk, one_mul]
    · rw [twist_moveCarrier hk, update_of_ne hxk, update_of_ne hxg]
  | some k =>
    cases he : w.carrier gone with
    | none =>
      have hmerge : w.mergeCarriers keep gone = w := by rw [Web.mergeCarriers, he]
      rw [hmerge] at hτ ⊢
      refine ⟨τ, hτ, ?_, ?_, fun _ _ _ => rfl⟩
      · rw [mergedMaster, he]
      · rw [twist_of_none he, mul_one]
    | some e => exact h.exists_unmerged_of_some hD hcol hne hk he hτ

/-- A half turn that is pushed through a spider turns its name around. -/
theorem carrier_handOver_pushThrough : ((w.pushThrough v gone).handOver v keep gone).carrier =
    if (w.phase v).isPi then (w.negatePhase gone).carrier else w.carrier := by
  have hkeep : ((w.pushThrough v gone).handOver v keep gone).carrier =
      (w.pushThrough v gone).carrier := carrier_toggleAll
  rw [hkeep, Web.pushThrough]
  split
  · exact carrier_addToPhases
  · rfl

theorem twist_handOver_pushThrough : ((w.pushThrough v gone).handOver v keep gone).twist τ =
    update (w.twist τ) gone (if (w.phase v).isPi then (w.twist τ gone)⁻¹ else w.twist τ gone) := by
  have hcarrier : ((w.pushThrough v gone).handOver v keep gone).carrier = _ :=
    carrier_handOver_pushThrough
  split
  · next hpi =>
    rw [if_pos hpi] at hcarrier
    rw [← twist_negatePhase]
    exact funext fun x => twist_congr (congrFun hcarrier x)
  · next hpi =>
    rw [if_neg hpi] at hcarrier
    rw [Function.update_eq_self]
    exact funext fun x => twist_congr (congrFun hcarrier x)

/-- The master mirrors a web with one spider named for two, others having lost their names perhaps, if
    that web denotes the same with the twists of the two at that spider. -/
theorem Mirrors.merge {w₁ : Web} {off' : Vertex → ℚ} (hm : w.Mirrors M.web) (hD : Phase.IsGrid D)
    (h : Traced D K P off w₁ M.web) (h' : Traced D K P off' (w₁.mergeCarriers keep gone) m)
    (hcol : ∀ r, M.web.IsOwn r → M.web.IsColoured r) (hne : keep ≠ gone)
    (hr : Renamed w.carrier w₁.carrier) (hc : ∀ x, w'.carrier x = none ∨
      w'.carrier x = (w₁.mergeCarriers keep gone).carrier x)
    (hamp : ∀ τ τ' : Vertex → ℂ, w.Twists τ → τ' keep = w₁.twist τ keep * w₁.twist τ gone →
      (∀ x, x ≠ keep → x ≠ gone → τ' x = w₁.twist τ x) → (∀ x, w'.carrier x = none → τ' x = 1) →
        Proportional (w.tensors (w.twist τ)).amplitude (w'.tensors τ').amplitude) :
    w'.Mirrors (w₁.mergedMaster M keep gone).web := fun τ hτ => by
  obtain ⟨hτ₁, htwist⟩ := h'.twists_of_dropped hc hτ
  obtain ⟨τ', hτ', htensors, hat, hoff⟩ := h.exists_unmerged hD hcol hne hτ₁
  have hτ₀ := hτ'.of_renamed hr
  rw [htensors, htwist]
  refine (hm τ' hτ₀).trans (hamp τ' _ hτ₀ hat hoff fun x hx => ?_)
  rw [← htwist, twist_of_none hx]

section

variable (hm : w.Mirrors M.web) (h : Traced D K P 0 w M.web) (hD : Phase.IsGrid D)
  (hg : w.OnGrid D) (hcol : ∀ r, M.web.IsOwn r → M.web.IsColoured r)
include hm h hD hg hcol

theorem Mirrors.fuse (hw : w.InForm) (hf : w.Fusable v keep gone) : (w.fuse v keep gone).Mirrors
    (((w.pushThrough v gone).handOver v keep gone).mergedMaster M keep gone).web := by
  have h₁ := h.pushThrough hD v gone
  have hgone : (w.pushThrough v gone).IsColoured gone := by
    rw [IsColoured, kind_pushThrough]
    exact hf.gone_isZ.isColoured
  have hkeep : ((w.pushThrough v gone).handOver v keep gone).IsColoured keep := by
    rw [IsColoured, handOver, kind_toggleAll, kind_addToPhase, kind_pushThrough]
    exact hf.keep_isZ.isColoured
  have h₂ : Traced D K P _ ((w.pushThrough v gone).handOver v keep gone) M.web :=
    (h₁.addToPhase hD (h₁.grid gone hgone)).toggleAll hD keep _
  have hmerge := Traced.merge hD h₁ h₂ hgone hkeep carrier_toggleAll hf.ne
  refine hm.merge hD h₂ hmerge hcol hf.ne ?_ (fun x => ?_) fun τ τ' hτ hat hoff hone => ?_
  · rw [carrier_handOver_pushThrough]
    split
    · exact renamed_negatePhase w gone
    · exact .refl _
  · rw [Web.fuse, carrier_remove, Function.update_apply, carrier_remove, Function.update_apply]
    split_ifs
    · exact .inl rfl
    · exact .inl rfl
    · exact .inr rfl
  · have hform := (hf.keeps hw).form
    have hgv := hf.gone_ne hw.simple
    have hkv := hf.keep_ne hw.simple
    have hdropped : (w.fuse v keep gone).carrier v = none := by
      rw [Web.fuse, carrier_remove, update_of_ne hgv.symm, carrier_remove, update_self]
    rw [twist_handOver_pushThrough] at hat hoff
    rw [hw.simple.tensors_eq, hform.simple.tensors_eq]
    refine hf.amplitude_fuse hw.simple hD hg ?_ (hτ.twist_ne_zero gone) (fun u _ huk hug => ?_) ?_
    · have hv := hoff v hkv.symm hgv.symm
      rw [update_of_ne hgv.symm, hone v hdropped] at hv
      exact hv.symm
    · rw [hoff u huk hug, update_of_ne hug]
    · rw [hat, update_of_ne hf.ne, update_self]

/-- Fusing behind a plain edge. -/
theorem Mirrors.takeIn {links : List Link} (hw : w.Valid) (hv : w.IsZ v) (hu : w.IsZ u)
    (hne : v ≠ u) (hlinks : w.LinksAre u links) (hplain : 0 < w.count u v .plain) :
    (w.takeIn v u links).Mirrors ((w.gather v u links).mergedMaster M v u).web := by
  have hgather : Traced D K P (update 0 v (0 + (w.phase u).value)) (w.gather v u links) M.web :=
    (h.addToPhase hD (h.grid u hu.isColoured)).moveLinks hD v links
  obtain ⟨-, hkind, -⟩ := moveLinks_fields v (w.addToPhase v (w.phase u)) links
  have hz : (w.gather v u links).IsColoured v := by
    rw [IsColoured, gather, hkind]
    exact hv.isColoured
  have hcarrier : (w.gather v u links).carrier = w.carrier := carrier_moveLinks
  have hmerge := Traced.merge hD h hgather hu.isColoured hz hcarrier hne
  refine hm.merge hD hgather hmerge hcol hne ?_ (fun x => ?_) fun τ τ' hτ hat hoff _ => ?_
  · rw [hcarrier]
    exact .refl _
  · rw [Web.takeIn, carrier_remove, Function.update_apply]
    split
    · exact .inl rfl
    · exact .inr rfl
  · have htwist (x : Vertex) : (w.gather v u links).twist τ x = w.twist τ x :=
      twist_congr (congrFun hcarrier x)
    refine hlinks.amplitude_takeIn hw hv hu hne hD hg hplain ?_ fun x hxv hxu => ?_
    · rw [hat, htwist, htwist]
    · rw [hoff x hxv hxu, htwist]

/-- Two gadgets are fused without a twist at the centre of the first one. -/
theorem Mirrors.absorb (hw : w.InForm) (hs : w.SameSupport c d l t)
    (hc : (w.phase c).unit = 1) (hd : (w.phase d).unit = 1) (hnone : w.carrier c = none) :
    (w.absorb d l t).Mirrors ((w.addToPhase l (w.phase t)).mergedMaster M l t).web := by
  have hz {x : Vertex} (hx : w.IsZ x) : w.IsColoured x := hx.isColoured
  have h₁ := h.addToPhase (v := l) hD (h.grid t (hz hs.right.leaf))
  have hmerge := Traced.merge hD h h₁ (hz hs.right.leaf) (hz hs.left.leaf) rfl hs.leaf_ne_leaf
  refine hm.merge hD h₁ hmerge hcol hs.leaf_ne_leaf (.refl _) (fun x => ?_)
    fun τ τ' hτ hat hoff hone => ?_
  · rw [Web.absorb, carrier_remove, Function.update_apply, carrier_remove, Function.update_apply]
    split_ifs
    · exact .inl rfl
    · exact .inl rfl
    · exact .inr rfl
  · have hform := (hs.keeps_absorb hw).form
    have hdl := (hs.leaf_ne_centre hw.simple).symm
    have hdt := hs.right.ne hw.simple
    have hdropped : (w.absorb d l t).carrier d = none := by
      rw [Web.absorb, carrier_remove, update_self]
    rw [hw.simple.tensors_eq, hform.simple.tensors_eq]
    refine hs.amplitude_absorb hw.simple hD hg ?_ ?_ hat fun u _ hul hut => hoff u hul hut
    · rw [hc, twist_of_none hnone, mul_one]
    · rw [hd, one_mul]
      exact (hoff d hdl hdt).symm.trans (hone d hdropped)

end

/-! ### Centres of gadgets -/

/-- The twist of the leaf weighs the even parities of a gadget against the odd ones, which have the
    twist of the centre too. -/
theorem IsGadget.exists_parts (h : w.IsGadget c l) (hw : w.Simple) (τ : Vertex → ℂ) :
    ∃ even odd : Bits → ℂ, ∀ (y z : ℂ) (b : Bits),
      (w.network (update (update τ c y) l z)).amplitude b =
        (1 + (w.phase l).unit * z) * even b + y * (1 - (w.phase l).unit * z) * odd b := by
  set rest := (w.network τ).inner.erase l with hrest
  set W : Bits → ℂ := ((w.remove l).network (update τ c 1)).weight with hW
  refine ⟨sumOver rest fun b => if b c then 0 else W b,
    sumOver rest fun b => if b c then W b else 0, fun y z b => ?_⟩
  set σ := update (update τ c y) l z with hσ
  have hcl : c ≠ l := h.ne hw
  have hinner : (w.network σ).inner = insert l rest := by
    rw [hrest, Finset.insert_erase ((hw.valid.mem_inner).2 h.leaf)]
    exact inner_congr rfl rfl
  have hcentre (b : Bits) : ((w.remove l).network σ).weight b = W b * if b c then y else 1 := by
    have hz : (w.remove l).IsZ c := by
      rw [IsZ, kind_remove, update_of_ne hcl]
      exact h.centre
    refine weight_twist ((hw.remove l).valid.mem_inner.2 hz) ?_ fun u hu huc => ?_
    · rw [hσ, update_of_ne hcl, update_self, update_self, one_mul]
    · rw [(hw.valid.inner_remove l)] at hu
      rw [hσ, update_of_ne (Finset.ne_of_mem_erase hu), update_of_ne huc, update_of_ne huc]
  have hleaf : σ l = z := update_self _ _ _
  rw [Network.amplitude, hinner, sumOver_insert (Finset.notMem_erase l _), ← sumOver_mul_left,
    ← sumOver_mul_left, ← sumOver_add]
  refine sumOver_congr fun b _ => ?_
  rw [h.weight_leaf hw, h.weight_leaf hw, hcentre, hleaf]
  cases b c
  · simp
    ring
  · simp [EdgeKind.value]
    ring

/-- Whether a web denotes an invertible map, whatever the twists of the names are. -/
def Firm (n : ℕ) (outputs inputs : List Vertex) (w : Web) : Prop := ∀ τ, w.Twists τ →
  Reversible n outputs inputs (w.tensors (w.twist τ)).amplitude

theorem Mirrors.firm (hm : w.Mirrors m)
    (h : ∀ τ, w.Twists τ → Reversible n outputs inputs (m.tensors τ).amplitude) :
    w.Firm n outputs inputs := fun τ hτ => (h τ hτ).congr (hm τ hτ)

/-- Two spiders with names may have any twists. -/
theorem Traced.exists_twists (h : Traced D K P off w m) (hc : w.carrier c ≠ none)
    (hl : w.carrier l ≠ none) (hne : c ≠ l) {y z : ℂ} (hy : y ≠ 0) (hz : z ≠ 0) :
    ∃ τ, w.Twists τ ∧ w.twist τ = update (update (1 : Vertex → ℂ) c y) l z := by
  obtain ⟨k, hk⟩ := Option.ne_none_iff_exists'.1 hc
  obtain ⟨j, hj⟩ := Option.ne_none_iff_exists'.1 hl
  have hdiff : k.spider ≠ j.spider := fun he => hne (h.distinct c l k j hk hj he)
  have hsign {v : Vertex} {e : Carrier} (hv : w.carrier v = some e) (x : ℂ) :
      (x ^ e.sign) ^ e.sign = x := by
    rcases h.sign v e hv with he | he <;> simp [he]
  refine ⟨update (update 1 k.spider (y ^ k.sign)) j.spider (z ^ j.sign),
    ⟨fun r => ?_, fun r hr => ?_⟩, funext fun x => ?_⟩
  · rw [Function.update_apply, Function.update_apply]
    split_ifs
    · exact zpow_ne_zero _ hz
    · exact zpow_ne_zero _ hy
    · exact one_ne_zero
  · rw [update_of_ne fun he => hr ⟨l, j, hj, he.symm⟩,
      update_of_ne fun he => hr ⟨c, k, hk, he.symm⟩]
    rfl
  · by_cases hxl : x = l
    · rw [hxl, twist_of_some hj, update_self, update_self, hsign hj]
    by_cases hxc : x = c
    · rw [hxc, twist_of_some hk, update_of_ne hdiff, update_self, update_of_ne hne, update_self,
        hsign hk]
    rw [update_of_ne hxl, update_of_ne hxc]
    cases hx : w.carrier x with
    | none => exact twist_of_none hx
    | some e =>
      rw [twist_of_some hx, update_of_ne fun he => hxl (h.distinct x l e j hx hj he),
        update_of_ne fun he => hxc (h.distinct x c e k hx hk he), Pi.one_apply, one_zpow,
        Pi.one_apply]

/-- Beside a leaf with a name the centre of a gadget has none: the two could be given twists for
    which the map is not invertible. -/
theorem Firm.carrier_centre (hf : w.Firm n outputs inputs) (h : Traced D K P off w m)
    (hw : w.Simple) (hg : w.IsGadget c l) (hl : w.carrier l ≠ none) : w.carrier c = none := by
  by_contra hc
  obtain ⟨even, odd, hparts⟩ := hg.exists_parts hw 1
  set a := (w.phase l).unit with ha
  have ha0 : a ≠ 0 := Phase.unit_ne_zero _
  have hrev {y z : ℂ} (hy : y ≠ 0) (hz : z ≠ 0) : Reversible n outputs inputs
      fun b => (1 + a * z) * even b + y * (1 - a * z) * odd b := by
    obtain ⟨τ, hτ, htwist⟩ := h.exists_twists hc hl (hg.ne hw) hy hz
    have hτ' := hf τ hτ
    rw [hw.tensors_eq, htwist] at hτ'
    exact hτ'.congr (.of_eq fun b => hparts y z b)
  have heven : Reversible n outputs inputs even := by
    refine (hrev one_ne_zero (inv_ne_zero ha0)).congr ⟨2, two_ne_zero, fun b => ?_⟩
    rw [mul_inv_cancel₀ ha0]
    ring
  have hodd : Reversible n outputs inputs odd := by
    refine (hrev one_ne_zero (neg_ne_zero.2 (inv_ne_zero ha0))).congr ⟨2, two_ne_zero, fun b => ?_⟩
    rw [mul_neg, mul_inv_cancel₀ ha0]
    ring
  obtain ⟨x, hx, hnot⟩ := heven.exists_add_mul hodd
  refine hnot ((hrev (mul_ne_zero (neg_ne_zero.2 two_ne_zero) hx)
    (mul_ne_zero three_ne_zero (inv_ne_zero ha0))).congr ⟨4, by norm_num, fun b => ?_⟩)
  rw [mul_left_comm a, mul_inv_cancel₀ ha0]
  ring

/-- Fusing two gadgets, where leaves have names. -/
theorem Mirrors.fuseGadgets (hm : w.Mirrors M.web) (h : Traced D K P 0 w M.web)
    (hD : Phase.IsGrid D) (hg : w.OnGrid D) (hcol : ∀ r, M.web.IsOwn r → M.web.IsColoured r)
    (hw : w.InForm) (hf : w.Firm n outputs inputs) (ha : w.Anchored fun _ => True)
    (hs : w.SameSupport c d l t) (hc : (w.phase c).isPauli) (hd : (w.phase d).isPauli) : (w.fuseGadgets c d l t).Mirrors
      ((((w.clearCentre c l).clearCentre d t).addToPhase l
        (((w.clearCentre c l).clearCentre d t).phase t)).mergedMaster M l t).web := by
  have hne := hs.right.ne hw.simple
  set w₁ := w.clearCentre c l with hw₁
  have hright : w₁.IsGadget d t := hs.right.congr kind_clearCentre nearby_clearCentre
  have hform₁ := hw.clearCentre c l
  have hgrid₁ := hg.clearCentre hD c l
  set w₂ := w₁.clearCentre d t with hw₂
  have hcleared : (w₂.phase c).unit = 1 := by
    rw [hw₂, phase_clearCentre_of_ne hs.ne (hs.centre_ne_leaf hw.simple)]
    exact phase_clearCentre (hs.left.ne hw.simple) hc
  have hcleared' : (w₂.phase d).unit = 1 := by
    refine phase_clearCentre hne ?_
    rwa [hw₁, phase_clearCentre_of_ne hs.ne.symm (hs.leaf_ne_centre hw.simple).symm]
  -- the first gadget has another neighbour besides its leaf
  obtain ⟨x, hx⟩ := List.exists_mem_of_ne_nil _ hs.nonempty
  rw [← hs.support, List.mem_filter, decide_eq_true_iff] at hx
  have hleaf := ha.named_leaf hw.simple hs.left.leaf trivial hs.left.nearby_leaf hx.1 hx.2
  have hcentre := hf.carrier_centre h hw.simple hs.left hleaf
  refine ((hm.reflects (hs.left.reflects_clearCentre hw hD hg)).reflects
    (hright.reflects_clearCentre hform₁ hD hgrid₁)).absorb ((h.clearCentre hD c l).clearCentre hD d t)
      hD (hgrid₁.clearCentre hD d t) hcol (hform₁.clearCentre d t) ?_ hcleared hcleared' ?_
  · exact hs.congr (kind_clearCentre.trans kind_clearCentre)
      (nearby_clearCentre.trans nearby_clearCentre)
  · rwa [carrier_clearCentre, carrier_clearCentre]

end Web

end ZXRewriting
