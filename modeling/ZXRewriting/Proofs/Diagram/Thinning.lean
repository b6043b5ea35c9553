import ZXRewriting.Proofs.Diagram.Bypass
import ZXRewriting.Proofs.Diagram.Tidying
import ZXRewriting.Proofs.Rewriting.Rule

/-!
# Tidying keeps the gates on two wires

On a diagram with cells, removing identities takes away single spiders without phases, and cancelling
takes away two boxes next to each other on a thread: no two spiders have several wires between
them (`Written.count_le_one`). So what is left has all the cells of gates on two wires, and the
other cells are some of those there were (`Thinned`, `Written.keeps_tidy`).
-/

namespace ZXRewriting

open Equiv (Perm)
open Function (update update_self update_of_ne)
open Multigraph (SamePair)

namespace Web

variable {w : Web} {v a b : Vertex} {n t : ℕ} {ends : Perm ℕ} {beside : Vertex → List Vertex}
  {before after spots : List (Vertex × ℕ)} {tip : ℕ → Vertex} {lines : Diagram.Side → Perm ℕ}

theorem IsColoured.not_isEnd (h : w.IsColoured v) : ¬w.IsEnd v := by
  obtain ⟨κ, hκ⟩ := Option.isSome_iff_exists.1 h.has
  rw [IsColoured, hκ] at h
  exact not_isEnd_of_kind hκ (SpiderKind.isBoundary_of_isPhased h)

/-- A spider on a thread is next to one before it and a later one. -/
theorem Runs.exists_wiredTo (h : w.Runs n ends beside tip (before ++ (v, t) :: after)) :
    ∃ a b, w.WiredTo v (a :: b :: beside v) ∧ (a = tip t ∨ (a, t) ∈ before) ∧
      w.Later n ends after t b := by
  induction before generalizing tip with
  | nil =>
    obtain ⟨⟨b, hb, hwired⟩, -⟩ := h
    exact ⟨tip t, b, hwired, .inl rfl, hb⟩
  | cons s before ih =>
    obtain ⟨x, t'⟩ := s
    obtain ⟨a, b, hwired, ha, hb⟩ := ih h.2
    refine ⟨a, b, hwired, ?_, hb⟩
    rw [Function.update_apply] at ha
    rcases ha with ha | ha
    · split_ifs at ha with htt
      · exact .inr (by rw [ha, htt]; exact List.mem_cons_self)
      · exact .inl ha
    · exact .inr (List.mem_cons_of_mem _ ha)

/-- The two are different, and ends or on the same thread. -/
theorem Threaded.exists_wiredTo (h : w.Threaded n lines beside spots)
    (hnodup : (spots.map Prod.fst).Nodup) (hv : (v, t) ∈ spots) :
    ∃ a b, w.WiredTo v (a :: b :: beside v) ∧ a ≠ b ∧
      ∀ x ∈ [a, b], w.IsEnd x ∨ (x, t) ∈ spots := by
  obtain ⟨before, after, rfl⟩ := List.append_of_mem hv
  obtain ⟨a, b, hwired, ha, hb⟩ := h.runs.exists_wiredTo
  have ht := (h.spider _ hv).2.2
  have hlt := ((h.keeps .front).symm t).2 ht
  have hin : w.IsEnd (w.input ((lines .front).symm t)) := h.isEnd_terminal .front hlt
  have hspot {x : Vertex} (hx : (x, t) ∈ before ∨ (x, t) ∈ after) :
      (x, t) ∈ before ++ (v, t) :: after :=
    hx.elim (List.mem_append_left _) fun hx => List.mem_append_right _ (List.mem_cons_of_mem _ hx)
  refine ⟨a, b, hwired, ?_, ?_⟩
  · rintro rfl
    rcases ha with ha | ha
    · rcases hb with hb | ⟨q, hq, -, hb⟩
      · exact (h.spider _ (hspot (.inr hb))).2.1 (ha ▸ hin)
      · exact h.input_ne_output hlt hq (ha.symm.trans hb)
    · rcases hb with hb | ⟨q, hq, -, hb⟩
      · rw [List.map_append, List.map_cons] at hnodup
        exact (List.nodup_append.1 hnodup).2.2 a (List.mem_map.2 ⟨_, ha, rfl⟩) a
          (List.mem_cons_of_mem _ (List.mem_map.2 ⟨_, hb, rfl⟩)) rfl
      · exact (h.spider _ (hspot (.inl ha))).2.1 (hb ▸ h.isEnd_terminal .back hq)
  · refine List.forall_mem_cons.2 ⟨?_, List.forall_mem_singleton.2 ?_⟩
    · exact ha.imp (fun he : a = _ => he ▸ hin) fun ha => hspot (.inl ha)
    · rcases hb with hb | ⟨q, hq, -, rfl⟩
      · exact .inr (hspot (.inr hb))
      · exact .inl (h.isEnd_terminal .back hq)

end Web

namespace Cell

/-- Whether the gate of a cell is on two wires. -/
def isPair : Cell → Bool
  | wire _ _ _ _ => false
  | cnot _ _ _ _ _ _ | cz _ _ _ _ _ _ _ => true

/-- A spider on a thread has nothing beside it, or a single spider of its cell, which is not on the
    same thread. -/
theorem Shown.beside_of_spot {w : Web} {beside : Vertex → List Vertex} {c : Cell} {v : Vertex} {t : ℕ}
    (h : c.Shown w beside) (hv : (v, t) ∈ c.spots) : (c.isPair = false ∧ beside v = []) ∨
      (c.isPair = true ∧ ∃ m ∈ c.spiders, beside v = [m] ∧ (m, t) ∉ c.spots) := by
  cases h with
  | wire _ _ _ hb =>
    obtain ⟨rfl, -⟩ := Prod.mk.inj (List.mem_singleton.1 hv)
    exact .inl ⟨rfl, hb⟩
  | @cnot _ _ a b s t' hab hst _ _ _ _ hba hbb =>
    refine .inr ⟨rfl, ?_⟩
    rcases List.mem_pair.1 hv with he | he <;> obtain ⟨rfl, rfl⟩ := Prod.mk.inj he
    · refine ⟨b, by simp [spiders], hba, fun hm => ?_⟩
      rcases List.mem_pair.1 hm with he | he <;> simp_all
    · refine ⟨a, by simp [spiders], hbb, fun hm => ?_⟩
      rcases List.mem_pair.1 hm with he | he <;> simp_all
  | @cz _ _ a b m s t' _ _ ha hb hm _ _ hba hbb _ =>
    refine .inr ⟨rfl, m, by simp [spiders], ?_, notMem_spots_box (ne_of_kind hm ha (by decide))
      (ne_of_kind hm hb (by decide)) t⟩
    rcases List.mem_pair.1 hv with he | he <;> obtain ⟨rfl, rfl⟩ := Prod.mk.inj he
    · exact hba
    · exact hbb

end Cell

namespace Diagram

/-- Some of the cells, with all the gates on two wires. -/
structure Thinned (cells cells' : List (ℤ × Cell)) : Prop where
  sublist : cells'.Sublist cells
  pairs : cells'.filter (·.2.isPair) = cells.filter (·.2.isPair)

variable {d d' : Diagram} {n : ℕ} {lines : Side → Perm ℕ} {beside : Vertex → List Vertex}
  {cells cells' cells'' : List (ℤ × Cell)} {first last : ℤ} {v u x y : Vertex} {κ : SpiderKind}
  {t : ℕ}

theorem Thinned.refl : Thinned cells cells := ⟨List.Sublist.refl _, rfl⟩

theorem Thinned.trans (h : Thinned cells cells') (h' : Thinned cells' cells'') :
    Thinned cells cells'' := ⟨h'.sublist.trans h.sublist, h'.pairs.trans h.pairs⟩

theorem thinned_middle {before after : List (ℤ × Cell)} {c : ℤ × Cell} (hc : c.2.isPair = false) :
    Thinned (before ++ c :: after) (before ++ after) := by
  refine ⟨(List.Sublist.refl before).append (List.sublist_cons_self c after), ?_⟩
  rw [List.filter_append, List.filter_append, List.filter_cons_of_neg (by rw [hc]; decide)]

section

variable (h : d.Written n lines beside cells first last)
include h

/-- The neighbours of a spider on a thread are all different. -/
theorem Written.exists_wiredTo {c : ℤ × Cell} (hc : c ∈ cells) (hv : (v, t) ∈ c.2.spots) :
    ∃ us, d.web.WiredTo v us ∧ us.Nodup ∧ us.length = if c.2.isPair then 3 else 2 := by
  have hspot : (v, t) ∈ cells.flatMap (·.2.spots) := List.mem_flatMap.2 ⟨c, hc, hv⟩
  obtain ⟨a, b, hwired, hab, hends⟩ := h.threaded.exists_wiredTo h.nodup_spots hspot
  refine ⟨_, hwired, ?_⟩
  rcases (h.shown c hc).beside_of_spot hv with ⟨hpair, hb⟩ | ⟨hpair, m, hm, hb, hout⟩
  · rw [hb, hpair]
    exact ⟨List.nodup_cons.2 ⟨fun he => hab (List.mem_singleton.1 he), List.nodup_singleton b⟩, rfl⟩
  · rw [hb, hpair]
    -- what is beside the spider is on no thread, or on another one
    have hne {x : Vertex} (hx : x ∈ [a, b]) : x ≠ m := by
      rintro rfl
      rcases hends x hx with he | he
      · exact ((h.shown c hc).has x hm).2 he
      · obtain ⟨c', hc', hx'⟩ := List.mem_flatMap.1 he
        obtain rfl := h.eq_of_mem_spiders hc hc' hm (Cell.spiders_of_spots hx')
        exact hout hx'
    have ha := hne List.mem_cons_self
    have hb := hne (List.mem_cons_of_mem _ List.mem_cons_self)
    exact ⟨by simp [hab, ha, hb], rfl⟩

/-- A coloured spider is on a thread. -/
theorem Written.exists_spot (hv : d.web.IsColoured v) : ∃ c ∈ cells, ∃ t, (v, t) ∈ c.2.spots := by
  obtain ⟨⟨k, c⟩, hc, hvc⟩ := List.mem_flatMap.1 ((h.inside v).1 ⟨hv.has, hv.not_isEnd⟩)
  refine ⟨_, hc, ?_⟩
  cases c with
  | wire _ _ x t => exact ⟨t, by rw [List.mem_singleton.1 hvc]; exact List.mem_singleton_self _⟩
  | cnot _ _ a b s t =>
    rcases List.mem_pair.1 hvc with rfl | rfl
    · exact ⟨s, List.mem_cons_self⟩
    · exact ⟨t, List.mem_cons_of_mem _ List.mem_cons_self⟩
  | cz _ _ a b m s t =>
    rcases List.mem_cons.1 hvc with rfl | hvc
    · exact ⟨s, List.mem_cons_self⟩
    rcases List.mem_pair.1 hvc with rfl | rfl
    · exact ⟨t, List.mem_cons_of_mem _ List.mem_cons_self⟩
    · cases h.shown _ hc with
      | cz _ _ _ _ hm =>
        rw [Web.IsColoured, hm] at hv
        cases hv

/-- No wires run side by side at a coloured spider. -/
theorem Written.count_le_one (hv : d.web.IsColoured v) (u : Vertex) :
    d.web.count v u .plain ≤ 1 := by
  obtain ⟨c, hc, t, hspot⟩ := h.exists_spot hv
  obtain ⟨us, hwired, hnodup, -⟩ := h.exists_wiredTo hc hspot
  rw [hwired, if_pos rfl]
  exact List.nodup_iff_count_le_one.1 hnodup u

/-- A coloured spider with two edges is a cell by itself. -/
theorem Written.exists_wire_of_degree (hv : d.web.IsColoured v) (hdeg : d.web.degree v = 2) :
    ∃ k κ p t, (k, .wire κ p v t) ∈ cells := by
  obtain ⟨⟨k, c⟩, hc, t, hspot⟩ := h.exists_spot hv
  obtain ⟨us, hwired, -, hlen⟩ := h.exists_wiredTo hc hspot
  rw [hwired.degree h.coherent.valid, hlen] at hdeg
  cases c with
  | wire κ p x s =>
    obtain ⟨rfl, rfl⟩ := Prod.mk.inj (List.mem_singleton.1 hspot)
    exact ⟨k, κ, p, _, hc⟩
  | cnot | cz => cases hdeg

/-- A box next to a box is a cell by itself. -/
theorem Written.exists_wire_of_box (hv : d.web.kind v = some .box) (hu : d.web.kind u = some .box)
    (hpos : 0 < d.web.joins v u) : ∃ k κ p t, (k, .wire κ p v t) ∈ cells := by
  obtain ⟨⟨k, c⟩, hc, hvc⟩ := List.mem_flatMap.1 ((h.inside v).1
    ⟨Web.has_of_kind hv, Web.not_isEnd_of_kind hv rfl⟩)
  have hshown := h.shown _ hc
  cases c with
  | wire κ p x t =>
    obtain rfl := List.mem_singleton.1 hvc
    exact ⟨k, κ, p, t, hc⟩
  | cnot =>
    cases hshown with
    | cnot _ _ ha hb =>
      rcases List.mem_pair.1 hvc with rfl | rfl
      · cases hv.symm.trans ha
      · cases hv.symm.trans hb
  | cz p p' a b m s t =>
    cases hshown with
    | cz _ _ ha hb =>
      rcases List.mem_cons.1 hvc with rfl | hvc
      · cases hv.symm.trans ha
      rcases List.mem_pair.1 hvc with rfl | rfl
      · cases hv.symm.trans hb
      rw [(h.wiredTo_box hc).joins, List.count_pos_iff] at hpos
      rcases List.mem_pair.1 hpos with rfl | rfl
      · cases hu.symm.trans ha
      · cases hu.symm.trans hb

/-- A spider that is a cell by itself has another neighbour than a given one. -/
theorem Written.exists_other (hc : ∃ k κ p t, (k, .wire κ p v t) ∈ cells)
    (hu : 0 < d.web.joins v u) : ∃ a, d.web.WiredTo v [a, u] ∧ a ≠ u := by
  obtain ⟨k, κ, p, t, hc⟩ := hc
  obtain ⟨us, hwired, hnodup, hlen⟩ := h.exists_wiredTo hc (List.mem_singleton_self (v, t))
  obtain ⟨a, b, rfl⟩ := List.length_eq_two.1 hlen
  have hab : a ≠ b := by simpa using hnodup
  rw [hwired.joins, List.count_pos_iff] at hu
  rcases List.mem_pair.1 hu with rfl | rfl
  · exact ⟨b, hwired.perm (List.Perm.swap _ _ _), hab.symm⟩
  · exact ⟨a, hwired, hab⟩

/-- What is left of the cells when one goes that is a single spider. -/
theorem Written.exists_thinned (hc : ∃ k κ p t, (k, .wire κ p v t) ∈ cells) :
    ∃ cells', Thinned cells cells' ∧ (∀ c ∈ cells, v ∉ c.2.spiders → c ∈ cells') ∧
      ∀ (d' : Diagram) (a b : Vertex), d.web.WiredTo v [a, b] → d'.Coherent →
        d'.web = d.web.bypass v a b .plain → d'.layout = d.layout.remove v →
        d'.Written n lines beside cells' first last := by
  obtain ⟨k, κ, p, t, hc⟩ := hc
  obtain ⟨before, after, rfl⟩ := List.append_of_mem hc
  refine ⟨before ++ after, thinned_middle rfl, fun c hc hv => ?_,
    fun d' a b hv hd' hw' hl' => h.bypass hv hd' hw' hl'⟩
  rcases List.mem_append.1 hc with hc | hc
  · exact List.mem_append_left _ hc
  · refine List.mem_append_right _ ((List.mem_cons.1 hc).resolve_left fun he => hv ?_)
    rw [he]
    exact List.mem_singleton_self v

/-- Removing a spider that is a cell by itself joins its two neighbours. -/
theorem Written.gives_removeIdentity {a b : Vertex} (hv : d.web.WiredTo v [a, b]) (hab : a ≠ b) :
    Diagram.Gives (d.removeIdentity v) (d.web.bypass v a b .plain) (d.layout.remove v) := by
  have hd := h.coherent
  have hhas := (hv.has hd.valid List.mem_cons_self).1
  have hperm : (d.web.nearby v).Perm [a, b] :=
    (List.perm_ext_iff_of_nodup Web.nodup_nearby (by simpa using hab)).2 fun x =>
      hv.mem_nearby hd.valid
  rcases List.perm_pair.1 hperm with he | he
  · exact Diagram.gives_removeIdentity hd hhas he
  · rw [hd.valid.bypass_comm]
    exact Diagram.gives_removeIdentity hd hhas he

end

/-! ### The rules -/

theorem find_nearby {w : Web} {a : Vertex} (hw : w.Valid) (hv : w.WiredTo v [a, u]) (hau : a ≠ u) :
    (w.nearby v).find? (· ≠ u) = some a := by
  have hperm : (w.nearby v).Perm [a, u] :=
    (List.perm_ext_iff_of_nodup Web.nodup_nearby (by simpa using hau)).2 fun x => hv.mem_nearby hw
  rcases List.perm_pair.1 hperm with he | he <;> simp [he, hau]

section

variable (h : d.Written n lines beside cells first last)
include h

/-- A spider that passes the check goes. -/
theorem Written.exists_identity (hv : d.web.Has v) (hcheck : d.checkIdentity v = .ok true) :
    ∃ d' cells', d.removeIdentity v = .ok d' ∧ d'.Written n lines beside cells' first last ∧
      Thinned cells cells' ∧ d'.outputs = d.outputs := by
  have hd := h.coherent
  simp only [checkIdentity, and_eq_true_iff] at hcheck
  obtain ⟨hphased, -, hdeg, -⟩ := hcheck
  obtain ⟨k, hk, hphased⟩ := isPhased_of_check hphased
  have hcol : d.web.IsColoured v := by
    rw [Web.IsColoured, hk]
    exact hphased
  rw [Diagram.degree, degree_eq hd hv] at hdeg
  have hdeg : d.web.degree v = 2 := eq_of_beq (Except.ok.inj hdeg)
  obtain ⟨c, hc, t, hspot⟩ := h.exists_spot hcol
  obtain ⟨us, hwired, hnodup, hlen⟩ := h.exists_wiredTo hc hspot
  rw [hwired.degree hd.valid] at hdeg
  obtain ⟨a, b, rfl⟩ := List.length_eq_two.1 hdeg
  obtain ⟨cells', hthin, -, hwritten⟩ :=
    h.exists_thinned (h.exists_wire_of_degree hcol ((hwired.degree hd.valid).trans hdeg))
  obtain ⟨d', hok, hd', hw', hl'⟩ := h.gives_removeIdentity hwired (by simpa using hnodup)
  exact ⟨d', cells', hok, hwritten d' a b hwired hd' hw' hl', hthin, congrArg Web.outputs hw'⟩

/-- Of two boxes that pass the check, each goes with its far side joined to the other's. -/
theorem Written.exists_cancel (hv : d.web.Has v) (hu : d.web.Has u)
    (hcheck : d.checkCancel v u = .ok true) :
    ∃ d' cells', d.cancel v u = .ok d' ∧ d'.Written n lines beside cells' first last ∧
      Thinned cells cells' ∧ d'.outputs = d.outputs := by
  have hd := h.coherent
  have hval := hd.valid
  obtain ⟨hvu, ⟨k, hk, -, hphased, hle⟩ | ⟨hbox, hbox', hone⟩⟩ := (checkCancel_iff hd hv hu).1 hcheck
  · -- wires would have to run side by side
    have hcol : d.web.IsColoured v := by
      rw [Web.IsColoured, hk]
      exact hphased
    exact absurd (h.count_le_one hcol u) (by omega)
  obtain ⟨hkv, hdeg, -⟩ := of_isWireBox hd hv hbox
  obtain ⟨hku, hdeg', -⟩ := of_isWireBox hd hu hbox'
  have hjoined : 0 < d.web.joins v u := Web.joins_pos_iff.2 ⟨.plain, by omega⟩
  have hcell := h.exists_wire_of_box hkv hku hjoined
  have hcell' := h.exists_wire_of_box hku hkv (by rwa [hval.joins_comm])
  obtain ⟨a, hwv, hau⟩ := h.exists_other hcell hjoined
  obtain ⟨b, hwu, hbv⟩ := h.exists_other hcell' (by rwa [hval.joins_comm])
  -- first one box goes, with the other next to its far side, then the other
  obtain ⟨cells₁, hthin₁, hkept, hwritten₁⟩ := h.exists_thinned hcell
  obtain ⟨d₁, -, hd₁, hw₁, hl₁⟩ := h.gives_removeIdentity hwv hau
  have h₁ := hwritten₁ d₁ a u hwv hd₁ hw₁ hl₁
  have hwu₁ : d₁.web.WiredTo u [b, a] := by
    have hwired := hwu.bypass hval hwv hau hvu.symm
    rw [if_neg hau.symm, List.map_cons, List.map_singleton, update_of_ne hbv, update_self] at hwired
    rw [hw₁]
    exact hwired
  have hcell₁ : ∃ k κ p t, (k, .wire κ p u t) ∈ cells₁ := by
    obtain ⟨k, κ, p, t, hc⟩ := hcell'
    exact ⟨k, κ, p, t, hkept _ hc fun hmem => hvu (List.mem_singleton.1 hmem)⟩
  have hab : a ≠ b := by
    obtain ⟨b', hwu', hne⟩ := h₁.exists_other (u := a) hcell₁ (by rw [hwu₁.joins]; simp)
    have hperm : [b', a].Perm [b, a] := List.perm_iff_count.2 fun y => by
      rw [← hwu'.joins, hwu₁.joins]
    have hnodup : [b, a].Nodup := hperm.nodup_iff.1 (by simpa using hne)
    exact fun he => by simp [he] at hnodup
  obtain ⟨cells₂, hthin₂, -, hwritten₂⟩ := h₁.exists_thinned hcell₁
  obtain ⟨d', hok, hd', hw', hl'⟩ :=
    gives_cancel hd hkv hu hvu (find_nearby hval hwv hau) (find_nearby hval hwu hbv)
  rw [if_neg hab] at hw'
  refine ⟨d', cells₂, hok, hwritten₂ d' b a hwu₁ hd' ?_ (by rw [hl', hl₁]), hthin₁.trans hthin₂,
    congrArg Web.outputs hw'⟩
  rw [hw', hw₁, Web.bypass, Web.bypass, Web.remove_addEdges,
    ((hval.remove v).remove u).addEdges_comm]

end

/-- Rewriting by one of the two rules leaves a diagram with some of the cells. -/
theorem keeps_thinned {rule : DiagramRule} (hrule : rule ∈ tidyRules) (os : List Vertex) :
    Rule.Keeps rule fun d : Diagram => ∃ cells', d.Written n lines beside cells' first last ∧
      Thinned cells cells' ∧ d.outputs = os := by
  rintro d m ⟨cells', h, hthin, hout⟩ hcheck
  have hstep {x : Except Fault Diagram} (hx : ∃ d' cells'', x = .ok d' ∧
      d'.Written n lines beside cells'' first last ∧ Thinned cells' cells'' ∧
        d'.outputs = d.outputs) :
      Leaves x fun d' => ∃ cells'', d'.Written n lines beside cells'' first last ∧
        Thinned cells cells'' ∧ d'.outputs = os := by
    obtain ⟨d', cells'', rfl, h', hthin', hout'⟩ := hx
    exact ⟨cells'', h', hthin.trans hthin', hout'.trans hout⟩
  obtain ⟨hhas, hcheck⟩ := (check_iff h.coherent).1 hcheck
  rw [DiagramRule.checkPresent.eq_def] at hcheck
  split at hcheck
  case h_3 v _ => exact hstep (h.exists_identity (hhas v (by simp)) hcheck)
  case h_4 v u _ => exact hstep (h.exists_cancel (hhas v (by simp)) (hhas u (by simp)) hcheck)
  case h_7 => cases hcheck
  all_goals exact absurd hrule (by decide)

end Diagram

end ZXRewriting
