import ZXRewriting.Proofs.Diagram.Web
import ZXRewriting.Proofs.Phase.Classes

/-!
# The ledger of phases

Every coloured spider of a master names the spider that carries its phase and the sign it is carried
with. These names are a *ledger* of the phases the spiders were made with (`Web.Ledger`): whoever is
named is named by itself too, has as its phase the sum of what it carries, and all others have
none. Moving a phase onto another spider keeps the ledger (`Web.Ledger.fusePhase`), if both
spiders are carried by themselves: no name leads to a spider that names another one.
-/

namespace ZXRewriting

open Function (update update_self update_of_ne)

namespace Web

variable {w : Web} {D : ℕ} {K : Finset Vertex} {P : Vertex → ℚ} {r s t v : Vertex} {σ : ℤ}

/-- The sign with which `r` carries the phase of `v`, zero if it does not. -/
def share (w : Web) (r v : Vertex) : ℤ :=
  match w.carrier v with
  | some c => if c.spider = r then c.sign else 0
  | none => 0

/-- Whether a spider is carried by itself. -/
def IsOwn (w : Web) (r : Vertex) : Prop := w.carrier r = some ⟨r, 1⟩

/-- The names of the coloured spiders, when each is carried by itself. -/
def ownNames (w : Web) (v : Vertex) : Option Carrier :=
  if w.IsColoured v then some ⟨v, 1⟩ else none

theorem ownNames_eq_some {c : Carrier} (h : w.ownNames v = some c) :
    w.IsColoured v ∧ c = ⟨v, 1⟩ := by
  rw [ownNames] at h
  split at h
  · next hv => exact ⟨hv, (Option.some.inj h).symm⟩
  · cases h

/-- The spiders of `K` are carried by spiders that are carried by themselves, and have no phase if they
    are not such a spider. -/
structure Named (K : Vertex → Prop) (w : Web) : Prop where
  entry : ∀ v, K v ↔ (w.carrier v).isSome
  sign : ∀ v c, w.carrier v = some c → c.sign = 1 ∨ c.sign = -1
  own : ∀ v c, w.carrier v = some c → w.IsOwn c.spider
  rest : ∀ v, K v → ¬w.IsOwn v → w.phase v = .zero

/-- The spiders of `K`, with the phases `P` at first, are carried by spiders that are carried by
    themselves; such a spider has the sum of the phases it carries, and any other one has none. -/
structure Ledger (D : ℕ) (K : Finset Vertex) (P : Vertex → ℚ) (w : Web) : Prop where
  entry : ∀ v, v ∈ K ↔ (w.carrier v).isSome
  sign : ∀ v c, w.carrier v = some c → c.sign = 1 ∨ c.sign = -1
  own : ∀ v c, w.carrier v = some c → w.IsOwn c.spider
  grid : ∀ v ∈ K, (w.phase v).OnGrid D
  total : ∀ r ∈ K, ∃ k : ℤ, (w.phase r).value = ∑ v ∈ K, w.share r v * P v + 2 * k
  rest : ∀ v ∈ K, ¬w.IsOwn v → w.phase v = .zero

/-- It is so if everyone is carried by itself. -/
theorem Named.start (h : w.carrier = w.ownNames) : w.Named w.IsColoured := by
  have hself {v : Vertex} (hv : w.IsColoured v) : w.IsOwn v := by rw [IsOwn, h, ownNames, if_pos hv]
  have hcase {v : Vertex} {c : Carrier} (hc : w.carrier v = some c) : w.IsColoured v ∧ c = ⟨v, 1⟩ :=
    ownNames_eq_some (h ▸ hc)
  refine ⟨fun v => ?_, fun v c hc => ?_, fun v c hc => ?_, fun v hv hnot => absurd (hself hv) hnot⟩
  · rw [h, ownNames]
    split <;> simp_all
  · exact .inl (by rw [(hcase hc).2])
  · obtain ⟨hv, rfl⟩ := hcase hc
    exact hself hv

theorem Ledger.named (h : Ledger D K P w) : w.Named (· ∈ K) := ⟨h.entry, h.sign, h.own, h.rest⟩

theorem Ledger.mem_of_own (h : Ledger D K P w) (hr : w.IsOwn r) : r ∈ K := by
  rw [h.entry, hr]
  rfl

/-- At first everyone is carried by itself. -/
theorem Ledger.start (hcarrier : ∀ v, w.carrier v = if v ∈ K then some ⟨v, 1⟩ else none)
    (hgrid : ∀ v ∈ K, (w.phase v).OnGrid D) : Ledger D K (fun v => (w.phase v).value) w := by
  have hown {v : Vertex} (hv : v ∈ K) : w.IsOwn v := by rw [IsOwn, hcarrier, if_pos hv]
  have hcase {v : Vertex} {c : Carrier} (hc : w.carrier v = some c) : v ∈ K ∧ c = ⟨v, 1⟩ := by
    rw [hcarrier] at hc
    split at hc
    · next hv => exact ⟨hv, (Option.some.inj hc).symm⟩
    · cases hc
  refine ⟨fun v => ?_, fun v c hc => ?_, fun v c hc => ?_, hgrid, fun r hr => ⟨0, ?_⟩,
    fun v hv hnot => absurd (hown hv) hnot⟩
  · rw [hcarrier]
    split <;> simp_all
  · exact .inl (by rw [(hcase hc).2])
  · rw [(hcase hc).2]
    exact hown (hcase hc).1
  · have hshare : ∀ v ∈ K, w.share r v * (w.phase v).value = if v = r then (w.phase r).value else 0 :=
      fun v hv => by
        rw [share, show w.carrier v = some ⟨v, 1⟩ from hown hv]
        dsimp only
        split
        · next he => simp [he]
        · simp
    rw [Finset.sum_congr rfl hshare, Finset.sum_ite_eq' K r, if_pos hr]
    simp

/-- Moves the phase of `s`, times `σ`, onto `t`, with all the phases it carries. -/
def fusePhase (w : Web) (s t : Vertex) (σ : ℤ) : Web :=
  { w with
    phase := update (update w.phase t (w.phase t + (w.phase s).scale σ)) s .zero
    carrier := update (fun v => (w.carrier v).map fun c =>
      if c.spider = s then ⟨t, c.sign * σ⟩ else c) s (some ⟨t, σ⟩) }

/-- What is carried by `s` comes to be carried by `t`. -/
theorem carrier_fusePhase (hs : w.IsOwn s) : (w.fusePhase s t σ).carrier v =
    (w.carrier v).map fun c => if c.spider = s then ⟨t, c.sign * σ⟩ else c := by
  rw [fusePhase]
  dsimp only
  by_cases hv : v = s
  · subst hv
    rw [update_self, show w.carrier v = some ⟨v, 1⟩ from hs]
    simp
  · rw [update_of_ne hv]

theorem share_fusePhase (hs : w.IsOwn s) (hst : s ≠ t) : (w.fusePhase s t σ).share r v =
    if r = s then 0 else if r = t then w.share t v + σ * w.share s v else w.share r v := by
  rw [share, carrier_fusePhase hs, share, share, share]
  cases w.carrier v with
  | none => simp
  | some c => grind

theorem isOwn_fusePhase (hs : w.IsOwn s) (ht : w.IsOwn t) (hst : s ≠ t) :
    (w.fusePhase s t σ).IsOwn r ↔ w.IsOwn r ∧ r ≠ s := by
  rw [IsOwn, carrier_fusePhase hs, IsOwn]
  cases hr : w.carrier r with
  | none => simp
  | some c =>
    rw [IsOwn] at hs ht
    obtain ⟨x, y⟩ := c
    by_cases hx : x = s
    · subst hx
      simp
      grind
    · simp [hx]
      grind

theorem phase_fusePhase_of_ne (hrs : r ≠ s) (hrt : r ≠ t) :
    (w.fusePhase s t σ).phase r = w.phase r := by
  rw [fusePhase]
  dsimp only
  rw [update_of_ne hrs, update_of_ne hrt]

theorem phase_fusePhase_self : (w.fusePhase s t σ).phase s = .zero := update_self s _ _

/-- Moving a phase keeps the names in order. -/
theorem Named.fusePhase {K : Vertex → Prop} (h : w.Named K) (hs : w.IsOwn s) (ht : w.IsOwn t)
    (hst : s ≠ t) (hσ : σ = 1 ∨ σ = -1) : (w.fusePhase s t σ).Named K where
  entry v := by
    rw [carrier_fusePhase hs, Option.isSome_map]
    exact h.entry v
  sign v c hc := by
    rw [carrier_fusePhase hs] at hc
    obtain ⟨c', hc', rfl⟩ := Option.map_eq_some_iff.1 hc
    split
    · dsimp only
      rcases h.sign v c' hc' with h₁ | h₁ <;> rcases hσ with rfl | rfl <;> simp [h₁]
    · exact h.sign v c' hc'
  own v c hc := by
    rw [carrier_fusePhase hs] at hc
    obtain ⟨c', hc', rfl⟩ := Option.map_eq_some_iff.1 hc
    rw [isOwn_fusePhase hs ht hst]
    split
    · exact ⟨ht, hst.symm⟩
    · next hne => exact ⟨h.own v c' hc', hne⟩
  rest v hv hnot := by
    rw [isOwn_fusePhase hs ht hst, not_and_not_right] at hnot
    by_cases hvs : v = s
    · rw [hvs, phase_fusePhase_self]
    · have hown : ¬w.IsOwn v := fun ho => hvs (hnot ho)
      have hvt : v ≠ t := fun he => hown (he ▸ ht)
      rw [phase_fusePhase_of_ne hvs hvt]
      exact h.rest v hv hown

variable (hD : Phase.IsGrid D) (h : Ledger D K P w) (hs : w.IsOwn s) (ht : w.IsOwn t) (hst : s ≠ t)
include hD h hs ht hst

/-- The value of the phase that is moved onto another one. -/
theorem Ledger.value_fusePhase : ((w.fusePhase s t σ).phase t).OnGrid D ∧
    ∃ k : ℤ, ((w.fusePhase s t σ).phase t).value =
      (w.phase t).value + σ * (w.phase s).value + 2 * k := by
  have hgs := h.grid s (h.mem_of_own hs)
  have hgt := h.grid t (h.mem_of_own ht)
  have hphase : (w.fusePhase s t σ).phase t = w.phase t + (w.phase s).scale σ := by
    rw [fusePhase]
    dsimp only
    rw [update_of_ne hst.symm, update_self]
  obtain ⟨j, hj⟩ := hgs.value_scale hD σ
  obtain ⟨k, hk⟩ := hgt.value_add hD (hgs.scale hD σ).1
  rw [hphase]
  refine ⟨(hgt.add hD (hgs.scale hD σ).1).1, j + k, ?_⟩
  rw [hk, hj]
  push_cast
  ring

/-- Moving a phase keeps the ledger. -/
theorem Ledger.fusePhase (hσ : σ = 1 ∨ σ = -1) : Ledger D K P (w.fusePhase s t σ) where
  entry := (h.named.fusePhase hs ht hst hσ).entry
  sign := (h.named.fusePhase hs ht hst hσ).sign
  own := (h.named.fusePhase hs ht hst hσ).own
  grid v hv := by
    by_cases hvs : v = s
    · rw [hvs, phase_fusePhase_self]
      exact Phase.onGrid_zero
    by_cases hvt : v = t
    · rw [hvt]
      exact (h.value_fusePhase hD hs ht hst).1
    · rw [phase_fusePhase_of_ne hvs hvt]
      exact h.grid v hv
  total r hr := by
    simp only [share_fusePhase hs hst]
    by_cases hrs : r = s
    · refine ⟨0, ?_⟩
      rw [hrs, phase_fusePhase_self]
      simp [Phase.value, Phase.zero]
    by_cases hrt : r = t
    · -- the sums of the two are added
      obtain ⟨-, k, hk⟩ := h.value_fusePhase (σ := σ) hD hs ht hst
      obtain ⟨i, hi⟩ := h.total s (h.mem_of_own hs)
      obtain ⟨j, hj⟩ := h.total t (h.mem_of_own ht)
      refine ⟨k + j + σ * i, ?_⟩
      simp only [if_neg hrs, if_pos hrt]
      rw [hrt, hk, hi, hj, mul_add, Finset.mul_sum]
      simp only [Int.cast_add, Int.cast_mul, add_mul, Finset.sum_add_distrib, mul_assoc]
      ring
    · obtain ⟨k, hk⟩ := h.total r hr
      refine ⟨k, ?_⟩
      simp only [if_neg hrs, if_neg hrt]
      rw [phase_fusePhase_of_ne hrs hrt, hk]
  rest := (h.named.fusePhase hs ht hst hσ).rest

end Web

/-- What the program does is the same on the web. -/
theorem Diagram.web_fusePhase (d : Diagram) (s t : Vertex) (σ : ℤ) :
    (d.fusePhase s t σ).web = d.web.fusePhase s t σ := by
  refine Web.ext rfl rfl (funext fun v => ?_) rfl rfl rfl (funext fun v => ?_)
  · change ((d.addToPhase t ((d.phase s).scale σ)).setPhase s .zero).phase v = _
    rw [phase_setPhase, phase_addToPhase, Web.fusePhase]
    dsimp only
    rw [Function.update_apply, Function.update_apply]
    simp only [eq_comm (a := v)]
    rfl
  · change ((d.carriers.map fun _ c => if c.spider = s then (⟨t, c.sign * σ⟩ : Carrier) else c).insert
      s ⟨t, σ⟩)[v]? = _
    rw [congrFun (VertexMap.insert_eq _ s _) v, Web.fusePhase]
    dsimp only
    rw [Function.update_apply, Function.update_apply, Std.ExtTreeMap.getElem?_map]
    rfl

end ZXRewriting
