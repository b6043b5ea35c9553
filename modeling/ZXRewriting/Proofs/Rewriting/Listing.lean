import ZXRewriting.Proofs.Rewriting.Termination

/-!
# Listings that agree with the check

A rule lists the places it applies at by a scan that leaves out what overlaps with an earlier match,
whereas its check looks at one match on its own. A listing is *faithful* (`Rule.Faithful`) if
nevertheless the check accepts whatever is listed, and accepts nothing at all where the list is empty.
Then a batch of listed matches always rewrites something, and rounds of rewriting end exactly where
no match is accepted any more.

The scan leaves something out only after a match was found (`exists_scan`), so that an empty list means
that no vertex had a match to begin with.
-/

namespace ZXRewriting

namespace Rule

variable {ρ δ : Type} [Rule ρ δ] {rule : ρ} {I : δ → Prop} {d : δ}

/-- Nothing is listed, and no match is accepted. -/
def Settled (rule : ρ) (d : δ) : Prop :=
  sites rule d = .ok [] ∧ ∀ m, check rule d m = .ok false

/-- What the listing of a rule promises about its check on a diagram, and what follows for rewriting
    there until there is no match left. -/
structure Faithful (rule : ρ) (d : δ) : Prop where
  /-- What is listed is accepted, and if nothing is listed then nothing is. A batch of listed matches
      rewrites something. -/
  listed : ∃ ms, sites rule d = .ok ms ∧ (∀ m ∈ ms, check rule d m = .ok true) ∧
    (ms = [] ↔ ∀ m, check rule d m = .ok false) ∧
    (ms ≠ [] → ∃ n d', rewrite rule d ms = .ok (n, d') ∧ 0 < n)
  /-- Rounds that came to an end leave no match, and nothing for further rounds. -/
  settled : ∀ rounds n d', simplifyWithin rule rounds d = .ok (n, d') →
    (∀ m, check rule d' m = .ok false) ∧
      ∀ more, simplifyWithin rule (more + 1) d' = .ok (0, d')

/-- On the diagrams that satisfy `I`, nothing about a rule is a fault, and the matches it lists agree
    with those its check accepts. -/
structure Exact (rule : ρ) (I : δ → Prop) : Prop where
  check : ∀ d m, I d → Succeeds (Rule.check rule d m)
  apply : ∀ d m, I d → Rule.check rule d m = .ok true → ∃ d', Rule.apply rule d m = .ok d' ∧ I d'
  sites : ∀ d, I d → ∃ ms, Rule.sites rule d = .ok ms ∧ (∀ m ∈ ms, Rule.check rule d m = .ok true) ∧
    (ms = [] → ∀ m, Rule.check rule d m ≠ .ok true)

namespace Exact

variable (h : Exact rule I)
include h

/-- One match of a batch. -/
theorem exists_step {p : Progress δ} (hp : I p.diagram) (m : Match) :
    ∃ p', step rule p m = .ok p' ∧ I p'.diagram ∧ p.count ≤ p'.count := by
  rw [step]
  split
  · exact ⟨p, rfl, hp, Nat.le_refl _⟩
  · obtain ⟨_ | _, hb⟩ := h.check p.diagram m hp
    · rw [hb]
      exact ⟨p, rfl, hp, Nat.le_refl _⟩
    · obtain ⟨d', hok, hd'⟩ := h.apply p.diagram m hp hb
      refine ⟨⟨d', m ++ p.touched, p.count + 1⟩, ?_, hd', Nat.le_succ _⟩
      rw [hb]
      change (Rule.apply rule p.diagram m >>= fun d => _) = _
      rw [hok]
      rfl

/-- A batch that is under way. -/
theorem exists_batch {p : Progress δ} (hp : I p.diagram) (ms : List Match) :
    ∃ p', ms.foldlM (step rule) p = .ok p' ∧ I p'.diagram ∧ p.count ≤ p'.count :=
  exists_foldlM (f := step rule)
    (fun _ (p' : Progress δ) => I p'.diagram ∧ p.count ≤ p'.count) ms ⟨hp, Nat.le_refl _⟩
    fun _ m _ p₁ _ hinv => by
      obtain ⟨hp₁, hle⟩ := hinv
      obtain ⟨p', hok, hp', hle'⟩ := h.exists_step hp₁ m
      exact ⟨p', hok, hp', Nat.le_trans hle hle'⟩

/-- A batch gives a diagram; it rewrites something if its first match is accepted. -/
theorem exists_rewrite (hd : I d) (ms : List Match) : ∃ n d', rewrite rule d ms = .ok (n, d') ∧
    I d' ∧ ∀ m rest, ms = m :: rest → Rule.check rule d m = .ok true → 0 < n := by
  obtain ⟨p, hok, hp, -⟩ := h.exists_batch (p := ⟨d, [], 0⟩) hd ms
  refine ⟨p.count, p.diagram, by rw [rewrite, hok]; rfl, hp, ?_⟩
  rintro m rest rfl hm
  obtain ⟨d₁, hok₁, hd₁⟩ := h.apply d m hd hm
  have hfirst : step rule ⟨d, [], 0⟩ m = .ok ⟨d₁, m ++ [], 0 + 1⟩ := by
    rw [step, if_neg (by simp), hm]
    change (Rule.apply rule d m >>= fun d => _) = _
    rw [hok₁]
    rfl
  rw [List.foldlM_cons, hfirst] at hok
  obtain ⟨p', hok', -, hle⟩ := h.exists_batch (p := ⟨d₁, m ++ [], 0 + 1⟩) hd₁ rest
  rw [← Except.ok.inj (hok'.symm.trans hok)]
  exact hle

/-- Rounds that come to an end do so where nothing is listed. -/
theorem sites_of_simplifyWithin {rounds n : ℕ} {d' : δ} (hd : I d)
    (hok : simplifyWithin rule rounds d = .ok (n, d')) : I d' ∧ Rule.sites rule d' = .ok [] := by
  induction rounds generalizing d n with
  | zero => cases hok
  | succ rounds ih =>
    obtain ⟨ms, hms, haccepted, -⟩ := h.sites d hd
    rw [simplifyWithin, hms] at hok
    cases ms with
    | nil =>
      obtain ⟨-, rfl⟩ := Prod.mk.inj (Except.ok.inj hok)
      exact ⟨hd, hms⟩
    | cons m rest =>
      -- the first match is accepted, so that the round rewrites something
      obtain ⟨k, d₁, hok₁, hd₁, hpos⟩ := h.exists_rewrite hd (m :: rest)
      have hpos := hpos m rest rfl (haccepted m List.mem_cons_self)
      change (rewrite rule d (m :: rest) >>= fun r => _) = _ at hok
      rw [hok₁] at hok
      change (if k = 0 then _ else _) = _ at hok
      rw [if_neg (Nat.ne_of_gt hpos)] at hok
      obtain ⟨⟨more, d₂⟩, hok₂, heq⟩ := of_bind_eq_ok hok
      obtain ⟨-, rfl⟩ := Prod.mk.inj (Except.ok.inj heq)
      exact ih hd₁ hok₂

theorem check_eq_false (hd : I d) {m : Match} (hm : Rule.check rule d m ≠ .ok true) :
    Rule.check rule d m = .ok false := by
  obtain ⟨_ | _, hb⟩ := h.check d m hd
  · exact hb
  · exact absurd hb hm

/-- Where nothing is listed nothing is accepted. -/
theorem check_of_sites (hd : I d) (hnone : Rule.sites rule d = .ok []) (m : Match) :
    Rule.check rule d m = .ok false := by
  obtain ⟨ms, hms, -, hempty⟩ := h.sites d hd
  exact h.check_eq_false hd (hempty (Except.ok.inj (hms.symm.trans hnone)) m)

theorem settled (hd : I d) (hnone : Rule.sites rule d = .ok []) : Settled rule d :=
  ⟨hnone, h.check_of_sites hd hnone⟩

theorem settled_iff (hd : I d) : Settled rule d ↔ ∀ m, Rule.check rule d m ≠ .ok true := by
  refine ⟨fun hs m hm => absurd ((hs.2 m).symm.trans hm) (by simp), fun hno => ?_⟩
  obtain ⟨ms, hms, haccepted, -⟩ := h.sites d hd
  obtain rfl : ms = [] :=
    List.eq_nil_iff_forall_not_mem.2 fun m hm => hno m (haccepted m hm)
  exact h.settled hd hms

/-- A round that rewrites nothing has nothing to rewrite. -/
theorem settled_of_replace {d' : δ} (hd : I d) (hok : replace rule d = .ok (0, d')) :
    d' = d ∧ Settled rule d := by
  obtain ⟨ms, hms, haccepted, -⟩ := h.sites d hd
  rw [replace, hms] at hok
  change rewrite rule d ms = _ at hok
  cases ms with
  | nil => exact ⟨(Prod.mk.inj (Except.ok.inj hok)).2.symm, h.settled hd hms⟩
  | cons m rest =>
    obtain ⟨n, d₁, hok₁, -, hpos⟩ := h.exists_rewrite hd (m :: rest)
    have hn := hpos m rest rfl (haccepted m List.mem_cons_self)
    rw [hok₁] at hok
    exact absurd (Prod.mk.inj (Except.ok.inj hok)).1 (Nat.ne_of_gt hn)

theorem faithful (hd : I d) : Faithful rule d where
  listed := by
    obtain ⟨ms, hms, haccepted, hempty⟩ := h.sites d hd
    refine ⟨ms, hms, haccepted, ⟨fun he m => h.check_eq_false hd (hempty he m), fun hall => ?_⟩,
      fun hne => ?_⟩
    · refine List.eq_nil_iff_forall_not_mem.2 fun m hm => ?_
      have := (hall m).symm.trans (haccepted m hm)
      exact absurd (Except.ok.inj this) Bool.false_ne_true
    · obtain ⟨m, rest, rfl⟩ := List.exists_cons_of_ne_nil hne
      obtain ⟨n, d', hok, -, hpos⟩ := h.exists_rewrite hd (m :: rest)
      exact ⟨n, d', hok, hpos m rest rfl (haccepted m List.mem_cons_self)⟩
  settled rounds n d' hok := by
    obtain ⟨hd', hnone⟩ := h.sites_of_simplifyWithin hd hok
    refine ⟨h.check_of_sites hd' hnone, fun more => ?_⟩
    rw [simplifyWithin, hnone]
    rfl

end Exact

end Rule

/-! ### Scans -/

/-- A scan gives what its site finds, and nothing only if nothing is found with nothing taken. -/
theorem exists_scan_exact {site : List Vertex → Vertex → Except Fault (Option Claim)} {vs : List Vertex}
    {P : Match → Prop}
    (hsite : ∀ taken, ∀ v ∈ vs, ∃ c, site taken v = .ok c ∧ ∀ claim ∈ c, P claim.found) :
    ∃ ms, scan site vs = .ok ms ∧ (∀ m ∈ ms, P m) ∧
      (ms = [] → ∀ v ∈ vs, site [] v = .ok none) := by
  suffices h : ∀ taken, ∃ ms, scanFrom site taken vs = .ok ms ∧ (∀ m ∈ ms, P m) ∧
      (taken = [] → ms = [] → ∀ v ∈ vs, site [] v = .ok none) by
    obtain ⟨ms, hok, hP, hnone⟩ := h []
    exact ⟨ms, hok, hP, hnone rfl⟩
  induction vs with
  | nil => exact fun taken => ⟨[], rfl, by simp, by simp⟩
  | cons v rest ih =>
    intro taken
    have ih := ih fun taken u hu => hsite taken u (List.mem_cons_of_mem v hu)
    rw [scanFrom]
    split
    · next hv =>
      obtain ⟨ms, hok, hP, -⟩ := ih taken
      refine ⟨ms, hok, hP, fun he => ?_⟩
      rw [he] at hv
      exact absurd hv List.not_mem_nil
    · obtain ⟨c, hc, hfound⟩ := hsite taken v List.mem_cons_self
      rw [hc]
      cases c with
      | none =>
        obtain ⟨ms, hok, hP, hnone⟩ := ih taken
        refine ⟨ms, hok, hP, fun he hms u hu => ?_⟩
        rcases List.mem_cons.1 hu with rfl | hu
        · rw [← he, hc]
        · exact hnone he hms u hu
      | some claim =>
        obtain ⟨later, hok, hP, -⟩ := ih (claim.taken ++ taken)
        refine ⟨claim.found :: later, ?_, ?_, fun _ he => by cases he⟩
        · change (scanFrom site (claim.taken ++ taken) rest >>= fun later => _) = _
          rw [hok]
          rfl
        · intro m hm
          rcases List.mem_cons.1 hm with rfl | hm
          · exact hfound claim rfl
          · exact hP m hm

end ZXRewriting
