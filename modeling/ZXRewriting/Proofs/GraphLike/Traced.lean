import ZXRewriting.Proofs.Diagram.Ledger
import ZXRewriting.Proofs.GraphLike.Steps

/-!
# Phases and what is carried for them

A spider of a graph-like diagram stands for the spider of the master that it names: what the master
carries for it, with the sign, is *due* to it (`Web.due`). Its phase is what is due, but for a multiple
of a quarter turn (`Web.Traced`), as the rules only ever add such multiples, negate a phase
together with the sign, or move a phase onto another spider and tell the master.

In between, the phase of a spider may be off by what is not told yet, which is the argument `off`.
-/

namespace ZXRewriting

open Function (update update_self update_of_ne)

/-- The multiples of a quarter turn. -/
def quarters : AddSubgroup ℚ := AddSubgroup.zmultiples (1 / 2)

theorem mem_quarters {x : ℚ} : x ∈ quarters ↔ ∃ k : ℤ, x = k / 2 := by
  rw [quarters, AddSubgroup.mem_zmultiples_iff]
  simp only [zsmul_eq_mul, mul_one_div, eq_comm]

theorem intCast_mem_quarters (n : ℤ) : (n : ℚ) ∈ quarters :=
  mem_quarters.2 ⟨2 * n, by push_cast; ring⟩

theorem two_mul_mem_quarters (k : ℤ) : 2 * (k : ℚ) ∈ quarters := by
  have h := intCast_mem_quarters (2 * k)
  push_cast at h
  exact h

namespace Phase

variable {p : Phase}

theorem value_mem_of_isPauli (h : p.isPauli) : p.value ∈ quarters := by
  obtain ⟨n, hn⟩ := exists_value_of_isPauli h
  exact hn ▸ intCast_mem_quarters n

theorem value_mem_of_isProperClifford (h : p.isProperClifford) : p.value ∈ quarters := by
  rw [mem_quarters]
  refine ⟨p.num, ?_⟩
  rw [value, show p.den = 2 from beq_iff_eq.1 h]
  norm_num

end Phase

namespace Web

variable {w w' m : Web} {D : ℕ} {K : Finset Vertex} {P off off' : Vertex → ℚ} {p q : Phase}
  {keep gone s t u v : Vertex} {k : EdgeKind} {x : ℚ}

/-- What the master carries for a spider. -/
def due (w m : Web) (u : Vertex) : ℚ :=
  match w.carrier u with
  | some c => c.sign * (m.phase c.spider).value
  | none => 0

theorem due_of_some {c : Carrier} (h : w.carrier u = some c) :
    w.due m u = c.sign * (m.phase c.spider).value := by
  rw [due, h]

theorem due_of_none (h : w.carrier u = none) : w.due m u = 0 := by
  rw [due, h]

/-- A spider without a name takes the name over. -/
theorem mergeCarriers_of_none (hne : keep ≠ gone) (hk : w.carrier keep = none) :
    w.mergeCarriers keep gone = w.moveCarrier gone keep := by
  rw [mergeCarriers, moveCarrier]
  cases w.carrier gone with
  | none => rfl
  | some c => simp only [update_of_ne hne, hk]

theorem mergedMaster_of_none {M : Diagram} (hne : keep ≠ gone) (hk : w.carrier keep = none) :
    w.mergedMaster M keep gone = M := by
  rw [mergedMaster]
  cases w.carrier gone with
  | none => rfl
  | some c => simp only [update_of_ne hne, hk]

/-- Of two names the one goes, and the master moves its phase. -/
theorem mergeCarriers_of_some {c k : Carrier} (hne : keep ≠ gone) (hc : w.carrier gone = some c)
    (hk : w.carrier keep = some k) :
    w.mergeCarriers keep gone = { w with carrier := update w.carrier gone none } := by
  simp only [mergeCarriers, hc, update_of_ne hne, hk]

theorem mergedMaster_of_some {M : Diagram} {c k : Carrier} (hne : keep ≠ gone)
    (hc : w.carrier gone = some c) (hk : w.carrier keep = some k) (hdiff : c.spider ≠ k.spider) :
    w.mergedMaster M keep gone = M.fusePhase c.spider k.spider (k.sign * c.sign) := by
  simp only [mergedMaster, hc, update_of_ne hne, hk, if_neg hdiff.symm]

/-- The names that spiders have are those of spiders of the master that are carried by themselves, and
    all distinct; and a spider is `off` from what is due to it by a multiple of a quarter turn. -/
structure Traced (D : ℕ) (K : Finset Vertex) (P off : Vertex → ℚ) (w m : Web) : Prop where
  ledger : Ledger D K P m
  grid : ∀ u, w.IsColoured u → (w.phase u).OnGrid D
  coloured : ∀ u c, w.carrier u = some c → w.IsColoured u
  sign : ∀ u c, w.carrier u = some c → c.sign = 1 ∨ c.sign = -1
  own : ∀ u c, w.carrier u = some c → m.IsOwn c.spider
  distinct : ∀ u u' c c', w.carrier u = some c → w.carrier u' = some c' → c.spider = c'.spider →
    u = u'
  near : ∀ u, w.IsColoured u → (w.phase u).value - w.due m u - off u ∈ quarters

namespace Traced

section

variable (h : Traced D K P off w m)
include h

theorem carrier_of_not_coloured (hv : ¬w.IsColoured v) : w.carrier v = none := by
  cases hc : w.carrier v with
  | none => rfl
  | some c => exact absurd (h.coloured v c hc) hv

theorem mono (hoff : ∀ u, w.IsColoured u → off u - off' u ∈ quarters) :
    Traced D K P off' w m := by
  refine { h with near := fun u hu => ?_ }
  have hsum := quarters.add_mem (h.near u hu) (hoff u hu)
  convert hsum using 1
  ring

/-- Edits that leave the coloured spiders, their phases and the names as they are. -/
theorem congr (hk : ∀ u, w'.IsColoured u ↔ w.IsColoured u)
    (hp : ∀ u, w.IsColoured u → w'.phase u = w.phase u) (hc : w'.carrier = w.carrier) :
    Traced D K P off w' m where
  ledger := h.ledger
  grid u hu := by
    rw [hp u ((hk u).1 hu)]
    exact h.grid u ((hk u).1 hu)
  coloured u c hu := (hk u).2 (h.coloured u c (hc ▸ hu))
  sign u c hu := h.sign u c (hc ▸ hu)
  own u c hu := h.own u c (hc ▸ hu)
  distinct u u' c c' hu hu' := h.distinct u u' c c' (hc ▸ hu) (hc ▸ hu')
  near u hu := by
    rw [due, hp u ((hk u).1 hu), hc]
    exact h.near u ((hk u).1 hu)

/-! ### Phases -/

/-- Another phase puts a spider off by the difference. -/
theorem setPhase (hp : w.IsColoured v → p.OnGrid D ∧ p.value - (w.phase v).value - x ∈ quarters) :
    Traced D K P (update off v (off v + x)) (w.setPhase v p) m := by
  refine { h with grid := fun u hu => ?_, near := fun u hu => ?_ }
  · rw [phase_setPhase, Function.update_apply]
    split
    · next hv => exact (hp (hv ▸ hu)).1
    · exact h.grid u hu
  · rw [phase_setPhase, Function.update_apply, Function.update_apply]
    split
    · next hv =>
      subst hv
      have hsum := quarters.add_mem (h.near u hu) (hp hu).2
      convert hsum using 1
      rw [show (w.setPhase u p).due m u = w.due m u from rfl]
      ring
    · exact h.near u hu

/-- A phase that differs by a multiple of a quarter turn. -/
theorem setPhase_quarter (hp : w.IsColoured v →
    p.OnGrid D ∧ p.value - (w.phase v).value ∈ quarters) :
    Traced D K P off (w.setPhase v p) m := by
  have hset := h.setPhase (v := v) (p := p) (x := 0) fun hv => by
    rw [sub_zero]
    exact hp hv
  rwa [add_zero, Function.update_eq_self] at hset

/-- Adding to a phase. -/
theorem addToPhase (hD : Phase.IsGrid D) (hp : p.OnGrid D) :
    Traced D K P (update off v (off v + p.value)) (w.addToPhase v p) m := by
  refine h.setPhase fun hv => ?_
  obtain ⟨k, hk⟩ := (h.grid v hv).value_add hD hp
  refine ⟨((h.grid v hv).add hD hp).1, ?_⟩
  rw [hk]
  convert two_mul_mem_quarters k using 1
  ring

theorem addToPhase_quarter (hD : Phase.IsGrid D) (hp : p.OnGrid D) (hq : p.value ∈ quarters) :
    Traced D K P off (w.addToPhase v p) m := by
  refine (h.addToPhase hD hp).mono fun u _ => ?_
  rw [Function.update_apply]
  split
  · next hu =>
    rw [hu]
    convert hq using 1
    ring
  · rw [sub_self]
    exact quarters.zero_mem

theorem addToPhases (hD : Phase.IsGrid D) (hp : p.OnGrid D) (hq : p.value ∈ quarters)
    (vs : List Vertex) : Traced D K P off (w.addToPhases vs p) m := by
  induction vs generalizing w with
  | nil => exact h
  | cons t rest ih => exact ih (h.addToPhase_quarter hD hp hq)

/-- The sign follows the phase. -/
theorem negatePhase (hD : Phase.IsGrid D) (hoff : off v = 0) :
    Traced D K P off (w.negatePhase v) m := by
  have hcarrier (u : Vertex) (c : Carrier) (hc : (w.negatePhase v).carrier u = some c) :
      ∃ c', w.carrier u = some c' ∧ c.spider = c'.spider ∧ (c.sign = c'.sign ∨ c.sign = -c'.sign) := by
    rw [Web.negatePhase] at hc
    dsimp only at hc
    rw [Function.update_apply] at hc
    split at hc
    · next hu =>
      obtain ⟨c', hc', rfl⟩ := Option.map_eq_some_iff.1 hc
      exact ⟨c', hu ▸ hc', rfl, .inr rfl⟩
    · exact ⟨c, hc, rfl, .inl rfl⟩
  have hdue (u : Vertex) : (w.negatePhase v).due m u =
      if u = v then -w.due m u else w.due m u := by
    by_cases hu : u = v
    · subst hu
      rw [if_pos rfl, due, due, show (w.negatePhase u).carrier u =
        (w.carrier u).map fun c => ⟨c.spider, -c.sign⟩ from update_self u _ _]
      cases w.carrier u <;> simp
    · rw [if_neg hu, due, due,
        show (w.negatePhase v).carrier u = w.carrier u from update_of_ne hu _ _]
  refine { h with
    grid := fun u hu => ?_
    coloured := fun u c hc => ?_
    sign := fun u c hc => ?_
    own := fun u c hc => ?_
    distinct := fun u u' c c' hc hc' he => ?_
    near := fun u hu => ?_ }
  · change ((w.setPhase v (-w.phase v)).phase u).OnGrid D
    rw [phase_setPhase, Function.update_apply]
    split
    · next hv => exact ((h.grid v (hv ▸ hu)).neg hD).1
    · exact h.grid u hu
  · obtain ⟨c', hc', -⟩ := hcarrier u c hc
    exact h.coloured u c' hc'
  · obtain ⟨c', hc', -, hs⟩ := hcarrier u c hc
    rcases h.sign u c' hc' with h₁ | h₁ <;> rcases hs with h₂ | h₂ <;> simp [h₁, h₂]
  · obtain ⟨c', hc', hs, -⟩ := hcarrier u c hc
    exact hs ▸ h.own u c' hc'
  · obtain ⟨c₁, hc₁, hs₁, -⟩ := hcarrier u c hc
    obtain ⟨c₂, hc₂, hs₂, -⟩ := hcarrier u' c' hc'
    exact h.distinct u u' c₁ c₂ hc₁ hc₂ (hs₁.symm.trans (he.trans hs₂))
  · have hcol : w.IsColoured u := hu
    rw [hdue, show (w.negatePhase v).phase = update w.phase v (-w.phase v) from rfl,
      Function.update_apply]
    split
    · next hv =>
      subst hv
      obtain ⟨k, hk⟩ := (h.grid u hcol).value_neg hD
      have hnear := quarters.neg_mem (h.near u hcol)
      rw [hoff] at hnear ⊢
      have hsum := quarters.add_mem hnear (two_mul_mem_quarters k)
      convert hsum using 1
      rw [hk]
      ring
    · exact h.near u hcol

/-! ### Edges -/

theorem toggle (hD : Phase.IsGrid D) (s t : Vertex) : Traced D K P off (w.toggle s t) m := by
  rw [Web.toggle]
  split
  · exact h.addToPhase_quarter hD Phase.onGrid_pi (Phase.value_mem_of_isPauli rfl)
  · exact h.congr (fun _ => .rfl) (fun _ _ => rfl) rfl

theorem toggleAll (hD : Phase.IsGrid D) (s : Vertex) (ts : List Vertex) :
    Traced D K P off (w.toggleAll s ts) m := by
  induction ts generalizing w with
  | nil => exact h
  | cons t rest ih => exact ih (h.toggle hD s t)

/-! ### Spiders -/

theorem remove (v : Vertex) : Traced D K P off (w.remove v) m := by
  have hkind {u : Vertex} (hu : (w.remove v).IsColoured u) : w.IsColoured u ∧ u ≠ v := by
    rw [IsColoured, kind_remove, Function.update_apply] at hu
    split at hu
    · cases hu
    · next hne => exact ⟨hu, hne⟩
  have hcarrier {u : Vertex} {c : Carrier} (hc : (w.remove v).carrier u = some c) :
      w.carrier u = some c ∧ u ≠ v := by
    rw [Web.remove] at hc
    dsimp only at hc
    rw [Function.update_apply] at hc
    split at hc
    · cases hc
    · next hne => exact ⟨hc, hne⟩
  refine ⟨h.ledger, fun u hu => ?_, fun u c hc => ?_, fun u c hc => h.sign u c (hcarrier hc).1,
    fun u c hc => h.own u c (hcarrier hc).1,
    fun u u' c c' hc hc' => h.distinct u u' c c' (hcarrier hc).1 (hcarrier hc').1, fun u hu => ?_⟩
  · obtain ⟨hu, hne⟩ := hkind hu
    rw [phase_remove, update_of_ne hne]
    exact h.grid u hu
  · obtain ⟨hc, hne⟩ := hcarrier hc
    rw [IsColoured, kind_remove, update_of_ne hne]
    exact h.coloured u c hc
  · obtain ⟨hu, hne⟩ := hkind hu
    have hdue : (w.remove v).due m u = w.due m u := by
      rw [due, due, Web.remove]
      dsimp only
      rw [update_of_ne hne]
    rw [phase_remove, update_of_ne hne, hdue]
    exact h.near u hu

/-- A new spider is off by its phase. -/
theorem addSpider (hfree : ¬w.Has w.next) (hp : p.OnGrid D) :
    Traced D K P (update off w.next p.value) (w.addSpider p) m := by
  have hkind {u : Vertex} (hu : u ≠ w.next) : (w.addSpider p).IsColoured u ↔ w.IsColoured u := by
    rw [IsColoured, kind_addSpider, update_of_ne hu, IsColoured]
  have hnone : w.carrier w.next = none :=
    h.carrier_of_not_coloured fun hc => hfree hc.has
  refine { h with
    grid := fun u hu => ?_
    coloured := fun u c hc => ?_
    near := fun u hu => ?_ }
  · rw [phase_addSpider, Function.update_apply]
    split
    · exact hp
    · next hne => exact h.grid u ((hkind hne).1 hu)
  · have hcol := h.coloured u c hc
    exact (hkind fun he => hfree (he ▸ hcol.has)).2 hcol
  · rw [phase_addSpider, Function.update_apply, Function.update_apply]
    split
    · next hu =>
      rw [due, hu, show (w.addSpider p).carrier w.next = none from hnone]
      simp
    · next hne => exact h.near u ((hkind hne).1 hu)

/-! ### Names -/

omit h in
/-- A spider that is not there is not off. -/
theorem forget {x : ℚ} (h : Traced D K P (update 0 v x) w m) (hv : ¬w.IsColoured v) :
    Traced D K P 0 w m :=
  h.mono fun u hu => by
    rw [update_of_ne fun he : u = v => hv (he ▸ hu), sub_self]
    exact quarters.zero_mem

/-- What was due to one spider comes to be due to another one. -/
theorem moveCarrier (ht : w.IsColoured t) (hnone : w.carrier t = none) : Traced D K P
    (update (update off s (off s + w.due m s)) t (off t - w.due m s)) (w.moveCarrier s t) m := by
  rw [Web.moveCarrier, due]
  cases hs : w.carrier s with
  | none => simpa using h
  | some c =>
    have hst : s ≠ t := fun he => by rw [he, hnone] at hs; cases hs
    have hcarrier {u : Vertex} {c' : Carrier}
        (hc : update (update w.carrier s none) t (some c) u = some c') :
        u = t ∧ c' = c ∨ u ≠ t ∧ u ≠ s ∧ w.carrier u = some c' := by
      rw [Function.update_apply, Function.update_apply] at hc
      split_ifs at hc with hu hu'
      · exact .inl ⟨hu, (Option.some.inj hc).symm⟩
      · exact .inr ⟨hu, hu', hc⟩
    refine ⟨h.ledger, h.grid, fun u c' hc => ?_, fun u c' hc => ?_, fun u c' hc => ?_,
      fun u u' c₁ c₂ h₁ h₂ he => ?_, fun u hu => ?_⟩
    · rcases hcarrier hc with ⟨rfl, -⟩ | ⟨-, -, hc⟩
      · exact ht
      · exact h.coloured u c' hc
    · rcases hcarrier hc with ⟨-, rfl⟩ | ⟨-, -, hc⟩
      · exact h.sign s c' hs
      · exact h.sign u c' hc
    · rcases hcarrier hc with ⟨-, rfl⟩ | ⟨-, -, hc⟩
      · exact h.own s c' hs
      · exact h.own u c' hc
    · rcases hcarrier h₁ with ⟨hu, hc₁⟩ | ⟨-, hu, hc₁⟩ <;>
        rcases hcarrier h₂ with ⟨hu', hc₂⟩ | ⟨-, hu', hc₂⟩
      · exact hu.trans hu'.symm
      · exact absurd (h.distinct s u' c₁ c₂ (hc₁ ▸ hs) hc₂ he).symm hu'
      · exact absurd (h.distinct u s c₁ c₂ hc₁ (hc₂ ▸ hs) he) hu
      · exact h.distinct u u' c₁ c₂ hc₁ hc₂ he
    · have hnear := h.near u hu
      rw [due] at hnear ⊢
      dsimp only at hnear ⊢
      by_cases hut : u = t
      · subst hut
        rw [hnone] at hnear
        rw [update_self, update_self]
        convert hnear using 1
        ring
      rw [update_of_ne hut, update_of_ne hut]
      by_cases hus : u = s
      · subst hus
        rw [hs] at hnear
        rw [update_self, update_self]
        convert hnear using 1
        ring
      · rw [update_of_ne hus, update_of_ne hus]
        exact hnear

end

section Fused

variable {M : Diagram} {off : Vertex → ℚ} {k c : Carrier} (h : Traced D K P off w M.web)
  (hne : keep ≠ gone) (hk : w.carrier keep = some k) (hc : w.carrier gone = some c)
include h hne hk hc

theorem carrier_ne : c.spider ≠ k.spider := fun he => hne (h.distinct keep gone k c hk hc he.symm)

omit hne in
/-- What is due to other spiders stays. -/
theorem due_fusePhase {u : Vertex} (hug : u ≠ gone) (huk : u ≠ keep) :
    due { w with carrier := update w.carrier gone none }
      (M.web.fusePhase c.spider k.spider (k.sign * c.sign)) u = w.due M.web u := by
  cases hcu : w.carrier u with
  | none => rw [due_of_none hcu, due_of_none ((update_of_ne hug _ _).trans hcu)]
  | some c' =>
    rw [due_of_some hcu, due_of_some ((update_of_ne hug _ _).trans hcu),
      phase_fusePhase_of_ne (fun he => hug (h.distinct u gone c' c hcu hc he))
        fun he => huk (h.distinct u keep c' k hcu hk he)]

/-- What is due to the one is due to the other now. -/
theorem exists_due_fusePhase (hD : Phase.IsGrid D) :
    ∃ j : ℤ, due { w with carrier := update w.carrier gone none }
      (M.web.fusePhase c.spider k.spider (k.sign * c.sign)) keep =
        w.due M.web keep + w.due M.web gone + 2 * j := by
  obtain ⟨-, j, hj⟩ := h.ledger.value_fusePhase (σ := k.sign * c.sign) hD (h.own gone c hc)
    (h.own keep k hk) (h.carrier_ne hne hk hc)
  refine ⟨k.sign * j, ?_⟩
  rw [due_of_some hc, due_of_some hk, due_of_some (c := k) ((update_of_ne hne _ _).trans hk), hj]
  rcases h.sign keep k hk with h₁ | h₁ <;> rw [h₁] <;> push_cast <;> ring

end Fused

/-- Two spiders, for each of which there is a name, come to have one of them. -/
theorem fuseCarriers {M : Diagram} {k c : Carrier} (hD : Phase.IsGrid D)
    (h : Traced D K P (update 0 keep x) w M.web) (hne : keep ≠ gone)
    (hk : w.carrier keep = some k) (hc : w.carrier gone = some c)
    (hx : x - w.due M.web gone ∈ quarters) : Traced D K P (update 0 gone (w.due M.web gone))
      { w with carrier := update w.carrier gone none }
      (M.web.fusePhase c.spider k.spider (k.sign * c.sign)) := by
  have hdiff := h.carrier_ne hne hk hc
  have hsign : k.sign * c.sign = 1 ∨ k.sign * c.sign = -1 := by
    rcases h.sign keep k hk with h₁ | h₁ <;> rcases h.sign gone c hc with h₂ | h₂ <;>
      simp [h₁, h₂]
  have hown := h.own gone c hc
  have hown' := h.own keep k hk
  have hcarrier {u : Vertex} {c' : Carrier}
      (hu : update w.carrier gone none u = some c') : w.carrier u = some c' ∧ u ≠ gone := by
    rw [Function.update_apply] at hu
    split at hu
    · cases hu
    · next hug => exact ⟨hu, hug⟩
  refine ⟨h.ledger.fusePhase hD hown hown' hdiff hsign, h.grid,
    fun u c' hu => h.coloured u c' (hcarrier hu).1, fun u c' hu => h.sign u c' (hcarrier hu).1,
    fun u c' hu => ?_,
    fun u u' c₁ c₂ h₁ h₂ => h.distinct u u' c₁ c₂ (hcarrier h₁).1 (hcarrier h₂).1,
    fun u hu => ?_⟩
  · obtain ⟨hu, hug⟩ := hcarrier hu
    exact (isOwn_fusePhase hown hown' hdiff).2 ⟨h.own u c' hu,
      fun he => hug (h.distinct u gone c' c hu hc he)⟩
  · have hnear := h.near u hu
    by_cases hug : u = gone
    · subst hug
      rw [update_of_ne hne.symm] at hnear
      simpa [due] using hnear
    by_cases huk : u = keep
    · subst huk
      obtain ⟨j, hj⟩ := h.exists_due_fusePhase hne hk hc hD
      rw [update_self] at hnear
      rw [update_of_ne hug, hj]
      have hsum := quarters.sub_mem (quarters.add_mem hnear hx) (two_mul_mem_quarters j)
      convert hsum using 1
      rw [Pi.zero_apply]
      ring
    · rw [update_of_ne hug, h.due_fusePhase hk hc hug huk]
      rwa [update_of_ne huk] at hnear

/-- One spider comes to be named for two, the phase of the one having been added to that of the
    other, and the master is told. -/
theorem mergeCarriers {M : Diagram} (hD : Phase.IsGrid D)
    (h : Traced D K P (update 0 keep x) w M.web) (hkeep : w.IsColoured keep) (hne : keep ≠ gone)
    (hx : x - w.due M.web gone ∈ quarters) : Traced D K P (update 0 gone (w.due M.web gone))
      (w.mergeCarriers keep gone) (w.mergedMaster M keep gone).web := by
  cases hk : w.carrier keep with
  | none =>
    rw [mergeCarriers_of_none hne hk, mergedMaster_of_none hne hk]
    refine (h.moveCarrier (s := gone) hkeep hk).mono fun u _ => ?_
    by_cases hu : u = keep
    · subst hu
      rw [update_self, update_self, update_of_ne hne]
      simpa using hx
    · rw [update_of_ne hu]
      by_cases hug : u = gone
      · subst hug
        rw [update_self, update_self, update_of_ne hne.symm]
        simp
      · rw [update_of_ne hug, update_of_ne hug, update_of_ne hu]
        simp
  | some k =>
    cases hc : w.carrier gone with
    | none =>
      have hmerge : w.mergeCarriers keep gone = w := by rw [Web.mergeCarriers, hc]
      have hmaster : w.mergedMaster M keep gone = M := by rw [mergedMaster, hc]
      simp only [due, hc, sub_zero] at hx
      simp only [hmerge, hmaster, due, hc]
      refine h.mono fun u _ => ?_
      by_cases hu : u = keep
      · subst hu
        rw [update_self, update_of_ne hne]
        simpa using hx
      · rw [update_of_ne hu]
        simp
    | some c =>
      rw [mergeCarriers_of_some hne hc hk,
        mergedMaster_of_some hne hc hk (h.carrier_ne hne hk hc), Diagram.web_fusePhase]
      exact h.fuseCarriers hD hne hk hc hx

end Traced

end Web

end ZXRewriting
