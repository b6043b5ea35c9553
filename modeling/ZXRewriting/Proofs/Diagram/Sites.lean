import ZXRewriting.Proofs.Diagram.Kinds
import ZXRewriting.Proofs.Rewriting.Listing

/-!
# What the rules for diagrams in circuit form list

On a coherent diagram, whatever its edges, each of the six rules lists the places it applies at, checks
a match and rewrites at one that is accepted without a fault; what is listed is accepted, and where
nothing is listed, nothing is (`Diagram.exact_of_coherent`).

A match is accepted at the spider where the scan would find one, which for the rules that look at a
pair in order of age is the older of the two: their checks do not tell the two spiders apart.
-/

namespace ZXRewriting

open Function (update update_self update_of_ne)

/-- What is left of a web when wires or boxes cancel at two spiders: wires go in pairs, or two boxes go,
    the far ends of which may be joined. -/
inductive Web.Cancelled (v u : Vertex) (w : Web) : Web → Prop
  | wires (hle : 2 ≤ w.count v u .plain) :
    Cancelled v u w (w.takeEdges v u .plain (w.count v u .plain - w.count v u .plain % 2))
  | closed : Cancelled v u w ((w.remove v).remove u)
  | joined {a b : Vertex} : Cancelled v u w (((w.remove v).remove u).addEdges a b .plain 1)

namespace Diagram

open Web

variable {d : Diagram} {s t : SpiderKind} {u v : Vertex} {m : Match} {accepted : Match → Prop}

/-- A listing of matches that are accepted, which is empty only if none is. -/
def Lists (x : Except Fault (List Match)) (accepted : Match → Prop) : Prop :=
  ∃ ms, x = .ok ms ∧ (∀ m ∈ ms, accepted m) ∧ (ms = [] → ∀ m, ¬accepted m)

theorem lists_scan (hd : d.Coherent) {site : List Vertex → Vertex → Except Fault (Option Claim)}
    (hsite : ∀ taken v, d.web.Has v → Attains (site taken v) fun c => ∀ claim ∈ c, accepted claim.found)
    (hfinds : ∀ m, accepted m → ∃ v, d.web.Has v ∧ site [] v ≠ .ok none) :
    Lists (scan site d.spiders) accepted := by
  obtain ⟨ms, hok, hms, hnone⟩ := exists_scan_exact (P := accepted) fun taken v hv =>
    hsite taken v ((mem_spiders hd).1 hv)
  refine ⟨ms, hok, hms, fun hempty m hm => ?_⟩
  obtain ⟨v, hv, hne⟩ := hfinds m hm
  exact hne (hnone hempty v ((mem_spiders hd).2 hv))

theorem lists_sitesWhere (hd : d.Coherent) {check : Vertex → Except Fault Bool}
    (hcheck : ∀ v, d.web.Has v → Succeeds (check v))
    (hiff : ∀ m, accepted m ↔ ∃ v, m = [v] ∧ d.web.Has v ∧ check v = .ok true) :
    Lists (d.sitesWhere check) accepted := by
  refine lists_scan hd (fun taken v hv => ?_) fun m hm => ?_
  · obtain ⟨b, hb⟩ := hcheck v hv
    refine ⟨if b then some ⟨[v], [v]⟩ else none, by rw [hb]; rfl, fun claim hc => ?_⟩
    cases b with
    | false => cases hc
    | true =>
      obtain rfl := Option.some.inj hc
      exact (hiff [v]).2 ⟨v, rfl, hv, hb⟩
  · obtain ⟨v, -, hv, hcheck⟩ := (hiff m).1 hm
    refine ⟨v, hv, ?_⟩
    rw [hcheck]
    intro h
    cases h

/-- A search for a spider that passes a check. -/
theorem attains_findM? {check : Vertex → Except Fault Bool} {us : List Vertex}
    (h : ∀ u ∈ us, Succeeds (check u)) : Attains (us.findM? check) fun r =>
      (∀ u ∈ r, u ∈ us ∧ check u = .ok true) ∧ (r = none → ∀ u ∈ us, check u ≠ .ok true) := by
  obtain ⟨p, hp⟩ := Succeeds.exists_eq h
  refine ⟨_, findM?_eq hp, fun u hu => ?_, fun hnone u hu hcheck => ?_⟩
  · have hmem := List.mem_of_find?_eq_some hu
    exact ⟨hmem, (hp u hmem).trans (congrArg Except.ok (List.find?_some hu))⟩
  · have := List.find?_eq_none.1 hnone u hu
    exact this (Except.ok.inj ((hp u hu).symm.trans hcheck))

/-- Looking at a spider for a younger one to go with it. -/
theorem attains_pairAbove (hd : d.Coherent) {check : Vertex → Vertex → Except Fault Bool}
    (taken : List Vertex) (hv : d.web.Has v) (hcheck : ∀ u, d.web.Has u → Succeeds (check v u)) :
    Attains (d.pairAbove check taken v) fun c =>
      (∀ claim ∈ c, ∃ u, d.web.Has u ∧ claim.found = [v, u] ∧ check v u = .ok true) ∧
      (taken = [] → c = none → ∀ u ∈ d.web.nearby v, v < u → check v u ≠ .ok true) := by
  obtain ⟨hns, hhas⟩ := neighborSet_has hd hv
  rw [pairAbove, hns]
  refine (attains_findM? fun u hu => hcheck u (hhas u (List.mem_filter.1 hu).1)).bind
    fun r hr => .ok ⟨fun claim hc => ?_, fun htaken hc u hu hlt => ?_⟩
  · obtain ⟨u, hu, rfl⟩ := Option.mem_map.1 hc
    obtain ⟨hmem, hpass⟩ := hr.1 u hu
    exact ⟨u, hhas u (List.mem_filter.1 hmem).1, rfl, hpass⟩
  · refine hr.2 (Option.map_eq_none_iff.1 hc) u (List.mem_filter.2 ⟨hu, ?_⟩)
    simp [hlt, htaken]

theorem pairAbove_ne_none (hd : d.Coherent) {check : Vertex → Vertex → Except Fault Bool}
    (hv : d.web.Has v) (hcheck : ∀ u, d.web.Has u → Succeeds (check v u)) (hu : u ∈ d.web.nearby v)
    (hlt : v < u) (h : check v u = .ok true) : d.pairAbove check [] v ≠ .ok none := by
  obtain ⟨c, hc, -, hnone⟩ := attains_pairAbove hd [] hv hcheck
  rw [hc]
  exact fun he => hnone rfl (Except.ok.inj he) u hu hlt h

/-- Of two spiders that are joined, one is older. -/
theorem exists_older (hd : d.Coherent) {P : Vertex → Vertex → Prop} (hsymm : ∀ v u, P v u → P u v)
    (hu : u ∈ d.web.nearby v) (h : P v u) :
    ∃ a b, d.web.Has a ∧ b ∈ d.web.nearby a ∧ a < b ∧ P a b := by
  have hv := hd.valid.mem_nearby_comm.1 hu
  rcases Nat.lt_or_gt_of_ne (show v ≠ u from fun he => hd.valid.notMem_nearby_self (he ▸ hu)) with
    hlt | hlt
  · exact ⟨v, u, hd.valid.has_of_mem_nearby hv, hu, hlt, h⟩
  · exact ⟨u, v, hd.valid.has_of_mem_nearby hu, hv, hlt, hsymm v u h⟩

/-! ### What the checks say -/

section

variable (hd : d.Coherent)
include hd

/-- A match is accepted if its spiders are there and it is accepted among them. -/
theorem check_iff {rule : DiagramRule} : rule.check d m = .ok true ↔
    (∀ v ∈ m, d.web.Has v) ∧ rule.checkPresent d m = .ok true := by
  rw [DiagramRule.check, ← all_contains_iff hd]
  split
  · next h => exact (and_iff_right h).symm
  · next h => exact iff_of_false (fun he => by cases he) fun he => h he.1

theorem succeeds_isWireBox (hv : d.web.Has v) : Succeeds (d.isWireBox v) := by
  obtain ⟨k, hk, -⟩ := exists_kind hv
  rw [isWireBox, hk, Diagram.degree, degree_eq hd hv, (neighborSet_has hd hv).1]
  exact (Succeeds.ok _).and fun _ => (Succeeds.ok _).and fun _ => .ok _

theorem succeeds_checkFusion (hv : d.web.Has v) (hu : d.web.Has u) : Succeeds (d.checkFusion v u) := by
  obtain ⟨k, hk, -⟩ := exists_kind hv
  obtain ⟨k', hk', -⟩ := exists_kind hu
  rw [checkFusion, hk, hk', Diagram.connected, connected_eq hd hv]
  exact (Succeeds.ok _).and fun _ => (Succeeds.ok _).and fun _ => (Succeeds.ok _).and fun _ => .ok _

theorem checkFusion_iff (hv : d.web.Has v) (hu : d.web.Has u) : d.checkFusion v u = .ok true ↔
    v ≠ u ∧ (∃ k, d.web.kind v = some k ∧ d.web.kind u = some k ∧ k.isPhased = true) ∧
      0 < d.web.joins v u := by
  obtain ⟨k, hk, hkv⟩ := exists_kind hv
  obtain ⟨k', hk', hku⟩ := exists_kind hu
  simp only [checkFusion, and_eq_true_iff, hk, hk', Diagram.connected, connected_eq hd hv]
  simp [pure, Except.pure, bind, Except.bind, hkv, hku]
  grind

theorem succeeds_checkIdentity (hv : d.web.Has v) : Succeeds (d.checkIdentity v) := by
  obtain ⟨k, hk, -⟩ := exists_kind hv
  rw [checkIdentity, hk, Diagram.degree, degree_eq hd hv, (neighborSet_has hd hv).1]
  exact (Succeeds.ok _).and fun _ => (Succeeds.ok _).and fun _ => (Succeeds.ok _).and fun _ => .ok _

theorem succeeds_checkCancel (hv : d.web.Has v) (hu : d.web.Has u) : Succeeds (d.checkCancel v u) := by
  obtain ⟨k, hk, -⟩ := exists_kind hv
  obtain ⟨k', hk', -⟩ := exists_kind hu
  rw [checkCancel, hk, hk', wires_eq hd hv]
  split
  · exact .ok _
  · change Succeeds (if _ then _ else _)
    split
    · exact .ok _
    · exact (succeeds_isWireBox hd hv).and fun _ => (succeeds_isWireBox hd hu).and fun _ => .ok _

/-- Two spiders of the two colours cancel wires, whichever comes first, and so do two boxes. -/
theorem checkCancel_iff (hv : d.web.Has v) (hu : d.web.Has u) : d.checkCancel v u = .ok true ↔
    v ≠ u ∧ ((∃ k, d.web.kind v = some k ∧ d.web.kind u = some k.opposite ∧ k.isPhased = true ∧
        2 ≤ d.web.count v u .plain) ∨
      d.isWireBox v = .ok true ∧ d.isWireBox u = .ok true ∧ d.web.count v u .plain = 1) := by
  obtain ⟨k, hk, hkv⟩ := exists_kind hv
  obtain ⟨k', hk', hku⟩ := exists_kind hu
  rw [checkCancel, hk, hk', wires_eq hd hv, hkv, hku]
  split
  · next hvu => exact iff_of_false (fun h => by cases h) fun h => h.1 hvu
  next hvu =>
  change (if (k.isPhased && k' == k.opposite) = true then _ else _) = _ ↔ _
  split
  · next hphased =>
    rw [Bool.and_eq_true, beq_iff_eq] at hphased
    obtain ⟨hphased, rfl⟩ := hphased
    constructor
    · intro h
      exact ⟨hvu, .inl ⟨k, rfl, rfl, hphased, of_decide_eq_true (Except.ok.inj h)⟩⟩
    · rintro ⟨-, ⟨-, -, -, -, hle⟩ | ⟨hbox, -⟩⟩
      · exact congrArg Except.ok (decide_eq_true hle)
      · obtain rfl : k = .box := Option.some.inj (hkv.symm.trans (of_isWireBox hd hv hbox).1)
        cases hphased
  · next hphased =>
    rw [and_eq_true_iff, and_eq_true_iff]
    constructor
    · rintro ⟨hv, hu, hone⟩
      exact ⟨hvu, .inr ⟨hv, hu, eq_of_beq (Except.ok.inj hone)⟩⟩
    · rintro ⟨-, ⟨k₁, hk₁, hk₁', hp, -⟩ | ⟨hv, hu, hone⟩⟩
      · refine absurd ?_ hphased
        rw [Option.some.inj hk₁, Option.some.inj hk₁', hp, beq_self_eq_true]
        rfl
      · exact ⟨hv, hu, congrArg Except.ok (beq_iff_eq.2 hone)⟩

theorem checkCancel_comm (hv : d.web.Has v) (hu : d.web.Has u) (h : d.checkCancel v u = .ok true) :
    d.checkCancel u v = .ok true := by
  rw [checkCancel_iff hd hv hu] at h
  rw [checkCancel_iff hd hu hv, hd.valid.symm u v]
  obtain ⟨hne, ⟨k, hk, hk', hp, hle⟩ | ⟨hv, hu, hone⟩⟩ := h
  · exact ⟨hne.symm, .inl ⟨k.opposite, hk', by rwa [SpiderKind.opposite_opposite],
      by rwa [SpiderKind.isPhased_opposite], hle⟩⟩
  · exact ⟨hne.symm, .inr ⟨hu, hv, hone⟩⟩

theorem mem_nearby_of_checkCancel (hv : d.web.Has v) (hu : d.web.Has u)
    (h : d.checkCancel v u = .ok true) : u ∈ d.web.nearby v := by
  obtain ⟨-, hcount⟩ := (checkCancel_iff hd hv hu).1 h
  rw [hd.valid.mem_nearby, joins_pos_iff]
  rcases hcount with ⟨-, -, -, -, hle⟩ | ⟨-, -, hone⟩
  · exact ⟨.plain, by omega⟩
  · exact ⟨.plain, by omega⟩

theorem succeeds_checkPiCopy (hv : d.web.Has v) (hu : d.web.Has u) : Succeeds (d.checkPiCopy v u) := by
  obtain ⟨k, hk, -⟩ := exists_kind hv
  obtain ⟨k', hk', -⟩ := exists_kind hu
  rw [checkPiCopy, hk, hk', wires_eq hd hv, Diagram.degree, degree_eq hd hv, (neighborSet_has hd hv).1]
  exact (Succeeds.ok _).and fun _ => (Succeeds.ok _).and fun _ => (Succeeds.ok _).and fun _ =>
    (Succeeds.ok _).and fun _ => (Succeeds.ok _).and fun _ => (Succeeds.ok _).and fun _ => .ok _

/-- A half turn is pushed through a neighbour. -/
theorem of_checkPiCopy (hv : d.web.Has v) (h : d.checkPiCopy v u = .ok true) :
    (∃ k, d.web.kind v = some k ∧ k.isPhased = true) ∧ u ∈ d.web.nearby v := by
  obtain ⟨k, hk, h⟩ := of_bind_eq_ok h
  simp only [and_eq_true_iff] at h
  obtain ⟨hphased, -, -, -, hwire, -⟩ := h
  rw [wires_eq hd hv] at hwire
  refine ⟨⟨k, kind_of_eq_ok hk, Except.ok.inj hphased⟩, ?_⟩
  rw [hd.valid.mem_nearby, joins_pos_iff]
  exact ⟨.plain, by have := eq_of_beq (Except.ok.inj hwire); omega⟩

theorem succeeds_checkColourChange (hv : d.web.Has v) : Succeeds (d.checkColourChange v) := by
  obtain ⟨k, hk, -⟩ := exists_kind hv
  obtain ⟨hns, hhas⟩ := neighborSet_has hd hv
  rw [checkColourChange, hk, Diagram.degree, degree_eq hd hv, hns]
  refine (Succeeds.ok _).and fun _ => (Succeeds.ok _).and fun _ => Succeeds.allM fun h hh => ?_
  refine (succeeds_isWireBox hd (hhas h hh)).and fun _ => ?_
  rw [wires_eq hd hv]
  exact .ok _

/-- The boxes around a spider are neighbours of it. -/
theorem attains_boxesAround (hv : d.web.Has v) : Attains (d.boxesAround v) fun hs =>
    hs.Nodup ∧ ∀ h ∈ hs, d.web.Has h ∧ h ≠ v := by
  obtain ⟨hns, hhas⟩ := neighborSet_has hd hv
  obtain ⟨p, hp⟩ := Succeeds.exists_eq (l := d.web.nearby v)
    (f := fun h => (return (← d.kind h) == .box : Except Fault Bool)) fun h hh => by
      obtain ⟨k, hk, -⟩ := exists_kind (hhas h hh)
      rw [hk]
      exact .ok _
  rw [boxesAround, hns]
  refine ⟨_, filterM_eq hp, nodup_nearby.filter _, fun h hh => ?_⟩
  have hmem := (List.mem_filter.1 hh).1
  exact ⟨hhas h hmem, fun he => hd.valid.notMem_nearby_self (he ▸ hmem)⟩

/-- Checking a match is no fault. -/
theorem succeeds_check (rule : DiagramRule) (m : Match) : Succeeds (rule.check d m) := by
  rw [DiagramRule.check]
  split
  swap
  · exact .ok _
  next hall =>
  have hhas := (all_contains_iff hd).1 hall
  rw [DiagramRule.checkPresent.eq_def]
  split
  · exact succeeds_checkFusion hd (hhas _ (by simp)) (hhas _ (by simp))
  · obtain ⟨k, hk, -⟩ := exists_kind (hhas _ List.mem_cons_self)
    rw [checkHadamard, hk]
    exact .ok _
  · exact succeeds_checkIdentity hd (hhas _ (by simp))
  · exact succeeds_checkCancel hd (hhas _ (by simp)) (hhas _ (by simp))
  · exact succeeds_checkPiCopy hd (hhas _ (by simp)) (hhas _ (by simp))
  · refine (succeeds_checkColourChange hd (hhas _ (by simp))).and fun _ => ?_
    exact (attains_boxesAround hd (hhas _ (by simp))).succeeds.bind fun _ _ => .ok _
  · exact .ok _

/-! ### What is listed -/

/-- A rule that lists spiders on their own. -/
theorem lists_sitesWhere_check {rule : DiagramRule} {check : Vertex → Except Fault Bool}
    (hcheck : ∀ v, d.web.Has v → Succeeds (check v))
    (hpresent : ∀ m, rule.checkPresent d m = .ok true ↔ ∃ v, m = [v] ∧ check v = .ok true) :
    Lists (d.sitesWhere check) fun m => rule.check d m = .ok true := by
  refine lists_sitesWhere hd hcheck fun m => ?_
  rw [check_iff hd, hpresent]
  constructor
  · rintro ⟨hhas, v, rfl, hv⟩
    exact ⟨v, rfl, hhas v (by simp), hv⟩
  · rintro ⟨v, rfl, hhas, hv⟩
    exact ⟨by simpa using hhas, v, rfl, hv⟩

theorem lists_fusionSites : Lists d.fusionSites fun m => DiagramRule.fusion.check d m = .ok true := by
  refine lists_scan hd (fun taken v hv => ?_) fun m hm => ?_
  · obtain ⟨k, hk, -⟩ := exists_kind hv
    rw [hk]
    change Attains (if k.isPhased = true then _ else _) _
    split
    · refine (attains_pairAbove hd taken hv fun u hu => succeeds_checkFusion hd hv hu).mono
        fun c hc claim hclaim => ?_
      obtain ⟨u, hu, hfound, hpass⟩ := hc.1 claim hclaim
      rw [hfound, check_iff hd]
      exact ⟨by simp [hv, hu], hpass⟩
    · exact .ok fun claim hc => by cases hc
  · obtain ⟨hhas, hm⟩ := (check_iff hd).1 hm
    rw [DiagramRule.checkPresent.eq_def] at hm
    split at hm <;> try contradiction
    next v u _ _ =>
    rw [checkFusion_iff hd (hhas v (by simp)) (hhas u (by simp))] at hm
    obtain ⟨hne, ⟨k, hk, hk', hphased⟩, hjoins⟩ := hm
    obtain ⟨a, b, ha, hb, hlt, hab⟩ := exists_older hd (P := fun v u => ∃ k, d.web.kind v = some k ∧
      d.web.kind u = some k ∧ k.isPhased = true) (fun v u hp => hp.imp fun k hk => ⟨hk.2.1, hk.1, hk.2.2⟩)
      (hd.valid.mem_nearby.2 hjoins) ⟨k, hk, hk', hphased⟩
    refine ⟨a, ha, ?_⟩
    obtain ⟨k, hk, -, hphased⟩ := id hab
    rw [kind_eq hk]
    change (if k.isPhased = true then _ else _) ≠ _
    rw [if_pos hphased]
    exact pairAbove_ne_none hd ha (fun u hu => succeeds_checkFusion hd ha hu) hb hlt
      ((checkFusion_iff hd ha (hd.valid.has_of_mem_nearby hb)).2
        ⟨Nat.ne_of_lt hlt, hab, hd.valid.mem_nearby.1 hb⟩)

theorem lists_cancelSites : Lists d.cancelSites fun m => DiagramRule.cancel.check d m = .ok true := by
  refine lists_scan hd (fun taken v hv => ?_) fun m hm => ?_
  · refine (attains_pairAbove hd taken hv fun u hu => succeeds_checkCancel hd hv hu).mono
      fun c hc claim hclaim => ?_
    obtain ⟨u, hu, hfound, hpass⟩ := hc.1 claim hclaim
    rw [hfound, check_iff hd]
    exact ⟨by simp [hv, hu], hpass⟩
  · obtain ⟨hhas, hm⟩ := (check_iff hd).1 hm
    rw [DiagramRule.checkPresent.eq_def] at hm
    split at hm <;> try contradiction
    next v u _ _ =>
    have hv := hhas v (by simp)
    have hu := hhas u (by simp)
    obtain ⟨a, b, ha, hb, hlt, -, -, hab⟩ := exists_older hd
      (P := fun v u => d.web.Has v ∧ d.web.Has u ∧ d.checkCancel v u = .ok true)
      (fun v u hp => ⟨hp.2.1, hp.1, checkCancel_comm hd hp.1 hp.2.1 hp.2.2⟩)
      (mem_nearby_of_checkCancel hd hv hu hm) ⟨hv, hu, hm⟩
    exact ⟨a, ha, pairAbove_ne_none hd ha (fun u hu => succeeds_checkCancel hd ha hu) hb hlt hab⟩

theorem lists_piCopySites : Lists d.piCopySites fun m => DiagramRule.piCopy.check d m = .ok true := by
  have hsearch (taken : List Vertex) {v : Vertex} (hv : d.web.Has v) :
      Attains (((d.web.nearby v).filter (· ∉ taken)).findM? (d.checkPiCopy v)) _ :=
    attains_findM? fun u hu =>
      succeeds_checkPiCopy hd hv (hd.valid.has_of_mem_nearby (List.mem_filter.1 hu).1)
  refine lists_scan hd (fun taken v hv => ?_) fun m hm => ?_
  · rw [(neighborSet_has hd hv).1]
    refine (hsearch taken hv).bind fun r hr => .ok fun claim hc => ?_
    obtain ⟨u, hu, rfl⟩ := Option.mem_map.1 hc
    obtain ⟨hmem, hpass⟩ := hr.1 u hu
    rw [check_iff hd]
    exact ⟨by simp [hv, hd.valid.has_of_mem_nearby (List.mem_filter.1 hmem).1], hpass⟩
  · obtain ⟨hhas, hm⟩ := (check_iff hd).1 hm
    rw [DiagramRule.checkPresent.eq_def] at hm
    split at hm <;> try contradiction
    next v u _ _ =>
    have hv := hhas v (by simp)
    obtain ⟨r, hr, -, hnone⟩ := hsearch [] hv
    refine ⟨v, hv, fun he => ?_⟩
    obtain ⟨ns, hns, he⟩ := of_bind_eq_ok he
    obtain rfl := Except.ok.inj ((neighborSet_has hd hv).1.symm.trans hns)
    obtain ⟨r', hr', he⟩ := of_bind_eq_ok he
    obtain rfl := Except.ok.inj (hr.symm.trans hr')
    refine hnone (Option.map_eq_none_iff.1 (Except.ok.inj he)) u ?_ hm
    simpa using (of_checkPiCopy hd hv hm).2

theorem lists_colourChangeSites :
    Lists d.colourChangeSites fun m => DiagramRule.colourChange.check d m = .ok true := by
  refine lists_scan hd (fun taken v hv => ?_) fun m hm => ?_
  · obtain ⟨_ | _, hb⟩ := succeeds_checkColourChange hd hv
    · rw [hb]
      exact .ok fun claim hc => by cases hc
    obtain ⟨hs, hhs, -, hhas⟩ := attains_boxesAround hd hv
    rw [hb, hhs]
    refine .ok fun claim hc => ?_
    split at hc
    · cases hc
    · obtain rfl := Option.some.inj hc
      rw [check_iff hd]
      refine ⟨fun u hu => ?_, and_eq_true_iff.2 ⟨hb, ?_⟩⟩
      · rcases List.mem_cons.1 hu with rfl | hu
        · exact hv
        · exact (hhas u hu).1
      · rw [hhs]
        exact congrArg Except.ok (beq_self_eq_true hs)
  · obtain ⟨hhas, hm⟩ := (check_iff hd).1 hm
    rw [DiagramRule.checkPresent.eq_def] at hm
    split at hm <;> try contradiction
    next v boxes _ _ =>
    have hv := hhas v (by simp)
    obtain ⟨hs, hhs, -⟩ := attains_boxesAround hd hv
    refine ⟨v, hv, ?_⟩
    rw [(and_eq_true_iff.1 hm).1, hhs]
    change Except.ok (if hs.any (· ∈ []) = true then none else some _) ≠ _
    rw [if_neg (by simp)]
    intro he
    cases he

theorem lists_sites (rule : DiagramRule) : Lists (rule.sites d) fun m => rule.check d m = .ok true := by
  cases rule with
  | fusion => exact lists_fusionSites hd
  | hadamard =>
    refine lists_sitesWhere_check hd (fun v hv => ?_) fun m => ?_
    · obtain ⟨k, hk, -⟩ := exists_kind hv
      rw [checkHadamard, hk]
      exact .ok _
    · rw [DiagramRule.checkPresent.eq_def]
      split <;> simp_all [pure, Except.pure]
  | identity =>
    refine lists_sitesWhere_check hd (fun v hv => succeeds_checkIdentity hd hv) fun m => ?_
    rw [DiagramRule.checkPresent.eq_def]
    split <;> simp_all [pure, Except.pure]
  | cancel => exact lists_cancelSites hd
  | piCopy => exact lists_piCopySites hd
  | colourChange => exact lists_colourChangeSites hd

end

/-! ### Rewriting at a match -/

section

variable (hd : d.Coherent)
include hd

theorem attains_fuse (hv : d.web.Has v) (hu : d.web.Has u) :
    Attains (d.fuse v u) Coherent := by
  obtain ⟨ns, hns, hcount⟩ := exists_neighbors hd hu
  rw [fuse, hns]
  refine (hd.bears.wireTo hv fun x hx => ?_).bind fun d₁ h₁ => ?_
  · obtain ⟨hx, hxv⟩ := List.mem_filter.1 hx
    rw [← List.count_pos_iff, hcount] at hx
    exact ⟨(hd.valid.has_of_joins hx).2, Ne.symm (of_decide_eq_true hxv)⟩
  · exact ((h₁.addToPhase v _).removeSpider hu).mono fun _ h => h.coherent

theorem attains_hadamard (hv : d.web.Has v) : Attains (d.hadamard v) Coherent := by
  obtain ⟨hns, hhas⟩ := neighborSet_has hd hv
  rw [hadamard, hns]
  exact (hd.bears.insertAround hv hhas .box .zero).bind fun d₁ h₁ => .ok (h₁.setKind hv .z)

/-- A spider that acts as a wire has two neighbours. -/
theorem nearby_of_checkIdentity (hv : d.web.Has v) (h : d.checkIdentity v = .ok true) :
    ∃ a c, d.web.nearby v = [a, c] := by
  simp only [checkIdentity, and_eq_true_iff, (neighborSet_has hd hv).1] at h
  exact List.length_eq_two.1 (eq_of_beq (Except.ok.inj h.2.2.2))

theorem attains_removeIdentity (hv : d.web.Has v) (h : d.checkIdentity v = .ok true) :
    Attains (d.removeIdentity v) Coherent := by
  obtain ⟨a, c, hac⟩ := nearby_of_checkIdentity hd hv h
  obtain ⟨d', hok, hd', -⟩ := yields_removeIdentity hd hv hac
  exact ⟨d', hok, hd'⟩

/-- Cancelling wires or boxes at two spiders that pass the check. -/
theorem exists_cancel (hv : d.web.Has v) (hu : d.web.Has u) (h : d.checkCancel v u = .ok true) :
    ∃ w, Yields (d.cancel v u) w ∧ Cancelled v u d.web w := by
  have hother {x y : Vertex} (hlen : (d.web.nearby x).length = 2) :
      ∃ a, (d.web.nearby x).find? (· ≠ y) = some a := by
    obtain ⟨a, c, hac⟩ := List.length_eq_two.1 hlen
    have hne : a ≠ c := by simpa [hac] using nodup_nearby (w := d.web) (v := x)
    refine Option.isSome_iff_exists.1 (List.find?_isSome.2 ?_)
    by_cases hay : a = y
    · exact ⟨c, by simp [hac], by simpa [← hay] using hne.symm⟩
    · exact ⟨a, by simp [hac], by simpa using hay⟩
  obtain ⟨hne, ⟨k, hk, -, hphased, hle⟩ | ⟨hbox, hbox', -⟩⟩ := (checkCancel_iff hd hv hu).1 h
  · exact ⟨_, yields_cancelWires hd hk (by rintro rfl; cases hphased), .wires hle⟩
  · obtain ⟨hk, -, hlen⟩ := of_isWireBox hd hv hbox
    obtain ⟨-, -, hlen'⟩ := of_isWireBox hd hu hbox'
    obtain ⟨a, ha⟩ := hother (y := u) hlen
    obtain ⟨b, hb⟩ := hother (y := v) hlen'
    refine ⟨_, (gives_cancel hd hk hu hne ha hb).yields, ?_⟩
    split
    · exact .closed
    · exact .joined

theorem attains_piCopy (hv : d.web.Has v) (hu : d.web.Has u) (hne : v ≠ u) :
    Attains (d.piCopy v u) Coherent := by
  obtain ⟨k, hk, -⟩ := exists_kind hv
  obtain ⟨hns, hhas⟩ := neighborSet_has hd hv
  obtain ⟨hns', hhas'⟩ := neighborSet_has hd hu
  rw [piCopy, hk, hns, hns']
  refine (hd.bears.insertAround hu (fun x hx => hhas' x (List.mem_filter.1 hx).1) k .pi).bind
    fun d₁ h₁ => (h₁.removeSpider hv).bind fun d₂ h₂ => ?_
  cases hfar : (d.web.nearby v).find? (· ≠ u) with
  | none => exact .ok h₂.coherent
  | some f =>
    have hf := List.mem_of_find?_eq_some hfar
    have hfu : f ≠ u := by simpa using List.find?_some hfar
    have hkept {x : Vertex} (hx : d.web.Has x) (hxv : x ≠ v) :
        (update d.web.kind v none x).isSome := by
      rw [update_of_ne hxv]
      exact hx
    exact (h₂.addWire (hkept (hhas f hf) fun he => hd.valid.notMem_nearby_self (he ▸ hf))
      (hkept hu hne.symm) hfu).mono fun _ h => h.coherent

theorem attains_changeColour (hv : d.web.Has v) : Attains (d.changeColour v) Coherent := by
  obtain ⟨k, -, hkv⟩ := exists_kind hv
  obtain ⟨hs, hhs, hnodup, hhas⟩ := attains_boxesAround hd hv
  obtain ⟨d₁, hok, hd₁, -, hv₁⟩ := yields_absorbBoxes hd hkv hnodup hhas
  rw [changeColour, hhs]
  change Attains (hs.foldlM (absorbBox v) d >>= _) _
  rw [hok]
  change Attains (d₁.kind v >>= fun k => Except.ok (d₁.setKind v k.opposite)) _
  rw [kind_eq hv₁]
  exact .ok (hd₁.bears.setKind (by rw [hv₁]; rfl) _)

/-- Rewriting at a match that is accepted is no fault. -/
theorem attains_apply {rule : DiagramRule} (h : rule.check d m = .ok true) :
    Attains (rule.apply d m) Coherent := by
  obtain ⟨hhas, h⟩ := (check_iff hd).1 h
  rw [DiagramRule.checkPresent.eq_def] at h
  split at h
  · exact attains_fuse hd (hhas _ (by simp)) (hhas _ (by simp))
  · exact attains_hadamard hd (hhas _ (by simp))
  · exact attains_removeIdentity hd (hhas _ (by simp)) h
  · obtain ⟨w, ⟨d', hok, hd', -⟩, -⟩ := exists_cancel hd (hhas _ (by simp)) (hhas _ (by simp)) h
    exact ⟨d', hok, hd'⟩
  · refine attains_piCopy hd (hhas _ (by simp)) (hhas _ (by simp)) fun he => ?_
    exact hd.valid.notMem_nearby_self (he ▸ (of_checkPiCopy hd (hhas _ (by simp)) h).2)
  · exact attains_changeColour hd (hhas _ (by simp))
  · cases h

end

/-- Each rule, on coherent diagrams. -/
theorem exact_of_coherent (rule : DiagramRule) : Rule.Exact rule Coherent where
  check _ m hd := succeeds_check hd rule m
  apply _ _ hd h := attains_apply hd h
  sites _ hd := lists_sites hd rule

end Diagram

end ZXRewriting
