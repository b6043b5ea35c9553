import ZXRewriting.Proofs.Extraction.Termination
import ZXRewriting.Proofs.GraphLike.Flow

/-!
# Extraction along a flow

A graph-like diagram with a causal flow keeps one while its frontier is prepared
(`Flow.exists_tidier`) and wires are taken out (`Flow.exists_dropWires`). There are no gadgets in
it, no spider is next to two outputs, and of the spiders in front of those at the outputs one of
the highest rank has a neighbour at an output that acts as a wire (`Flow.exists_wire`).

So rows are never added, and the diagram of a circuit is extracted without CNOT gates, whether or
not rows may be added (`Extraction.extract_ofCircuit`).
-/

namespace ZXRewriting

open Function (update update_self update_of_ne)
open Multigraph (SamePair)

namespace Web

variable {w w' : Web} {c : Course} {t u v n i : Vertex} {k : EdgeKind} {frontier : List (ℕ × Vertex)}

/-! ### The ends of the course -/

section

variable (hf : w.Flow c) (hw : w.InForm)
include hf hw

/-- All vertices are on the course. -/
theorem Flow.on_of_has (hv : w.Has v) : c.on v := by
  refine (hf.all v hv).resolve_right fun hk => ?_
  rcases hw.simple.colour v hv with h | h
  · rw [h] at hk
    cases hk
  · exact not_isEnd_of_kind hk rfl h

/-- The neighbour of an output comes before it. -/
theorem Flow.next_of_output (ht : w.kind t = some .output) (hv : v ∈ w.nearby t) :
    w.Leads c v ∧ c.next v = t := by
  have hval := hw.simple.valid
  obtain ⟨u, hu, hut⟩ := hf.onto t (hf.on_of_has hw (has_of_kind ht)) (by rw [ht]; simp)
  have hmem : u ∈ w.nearby t := by
    rw [hval.mem_nearby, hval.joins_comm, ← hut, hf.joined u hu]
    exact Nat.one_pos
  rw [hw.nearby_end (isEnd_of_output ht) hv, List.mem_singleton] at hmem
  exact ⟨hmem ▸ hu, hmem ▸ hut⟩

/-- The neighbour of an input comes after it. -/
theorem Flow.next_of_input (hi : w.kind i = some .input) (hv : v ∈ w.nearby i) :
    w.Leads c i ∧ c.next i = v := by
  have hlead : w.Leads c i := ⟨hf.on_of_has hw (has_of_kind hi), by rw [hi]; simp⟩
  have hmem : c.next i ∈ w.nearby i := by
    rw [hw.simple.valid.mem_nearby, hf.joined i hlead]
    exact Nat.one_pos
  rw [hw.nearby_end (isEnd_of_input hi) hv, List.mem_singleton] at hmem
  exact ⟨hlead, hmem⟩

/-- A spider comes after another vertex. -/
theorem Flow.exists_before (hv : w.IsZ v) :
    ∃ u, w.Leads c u ∧ c.next u = v ∧ u ≠ c.next v ∧ u ∈ w.nearby v := by
  have hlead := hf.leads_of_isColoured hv.isColoured
  obtain ⟨u, hu, huv⟩ := hf.onto v hlead.1 (by rw [hv]; simp)
  refine ⟨u, hu, huv, fun he => ?_, ?_⟩
  · have h₁ := hf.lt u hu
    have h₂ := hf.lt v hlead
    rw [huv] at h₁
    rw [← he] at h₂
    exact Nat.lt_asymm h₁ h₂
  · rw [hw.simple.valid.mem_nearby, hw.simple.valid.joins_comm, ← huv, hf.joined u hu]
    exact Nat.one_pos

theorem Flow.next_mem_nearby (hv : w.Leads c v) : c.next v ∈ w.nearby v := by
  rw [hw.simple.valid.mem_nearby, hf.joined v hv]
  exact Nat.one_pos

/-- What comes after a vertex is a spider or an output. -/
theorem Flow.isZ_next (hx : w.Leads c x) (ho : w.kind (c.next x) ≠ some .output) :
    w.IsZ (c.next x) := by
  have hon := hf.on_next x hx
  refine (hw.simple.colour _ (hf.has _ hon)).resolve_right fun he => ?_
  have hin := (hw.mem_inputs _).1
    ((hw.mem_of_isEnd he).resolve_right fun hmem => ho ((hw.mem_outputs _).1 hmem))
  have hback := hf.lt _ ⟨hon, ho⟩
  rw [(hf.next_of_input hw hin
    (hw.simple.valid.mem_nearby_comm.1 (hf.next_mem_nearby hw hx))).2] at hback
  exact Nat.lt_asymm (hf.lt x hx) hback

/-- There are no leaves. -/
theorem Flow.not_isLeaf : ¬w.IsLeaf v := by
  rintro ⟨hz, hd, -⟩
  obtain ⟨u, -, -, hne, hu⟩ := hf.exists_before hw hz
  have hn := hf.next_mem_nearby hw (hf.leads_of_isColoured hz.isColoured)
  rw [hw.simple.degree_eq] at hd
  obtain ⟨x, hx⟩ := List.length_eq_one_iff.1 hd
  rw [hx, List.mem_singleton] at hu hn
  exact hne (hu.trans hn.symm)

/-- No spider is next to two outputs. -/
theorem Flow.not_shared (o : Obstacle) : ¬Extraction.State.Shared w o := by
  rintro ⟨q, hq, v, t, -, hk, ht, hout, hne⟩
  have hval := hw.simple.valid
  have hvq := hf.next_of_output hw ((hw.mem_outputs _).1 (List.mem_of_getElem? (getElem?_outputs hq)))
    (hval.mem_nearby_comm.1 (hval.mem_nearby_of_link hk))
  have hvt := hf.next_of_output hw hout (hval.mem_nearby_comm.1 ht)
  exact hne (hvt.2.symm.trans hvq.2)

/-! ### Steps -/

/-- Preparing the frontier leaves a flow. -/
theorem Flow.exists_tidying (h : Tidying w w') : ∃ c', w'.Flow c' := by
  have hval := hw.simple.valid
  cases h with
  | hadamard =>
    refine ⟨c, hf.of_fewer (fun _ => .inl rfl) (fun v hv => ?_) fun a b h => ?_⟩
    · rw [hval.joins_setKind]
      exact hf.joined v hv
    · rwa [hval.joins_setKind] at h
  | phase => exact ⟨c, hf.of_fewer (fun _ => .inl rfl) hf.joined fun _ _ h => h⟩
  | @cz u v s t hs ht hu hv hus hvt hk =>
    obtain ⟨-, hus⟩ := hf.next_of_output hw ((hw.mem_outputs s).1 hs)
      (hval.mem_nearby_comm.1 (hval.mem_nearby_of_link hus))
    obtain ⟨-, hvt⟩ := hf.next_of_output hw ((hw.mem_outputs t).1 ht)
      (hval.mem_nearby_comm.1 (hval.mem_nearby_of_link hvt))
    have hle (a b : Vertex) : (w.cut u v).joins a b ≤ w.joins a b := by
      rw [joins, count_cut, count_cut, joins]
      split <;> omega
    refine ⟨c, hf.of_fewer (fun _ => .inl rfl) (fun x hx => ?_) fun a b h => h.trans_le (hle a b)⟩
    -- both spiders come before outputs
    have hpair : ¬SamePair x (c.next x) u v := by
      rintro (⟨rfl, he⟩ | ⟨rfl, he⟩)
      · exact hv.not_isEnd (he ▸ hus ▸ hw.isEnd_of_mem_outputs hs)
      · exact hu.not_isEnd (he ▸ hvt ▸ hw.isEnd_of_mem_outputs ht)
    rw [joins, count_cut, count_cut, if_neg hpair, if_neg hpair]
    exact hf.joined x hx
  | @pad v t i k ht hv hvt hi hk hd =>
    have hne := hval.ne_end hk
    have hend := hw.isEnd_input hi
    obtain ⟨hlead, hnext⟩ := hf.next_of_input hw ((hw.mem_inputs i).1 hi)
      (hval.mem_nearby_comm.1 (hval.mem_nearby_of_link hk))
    have hvn := hval.ne_next hv.has
    have hin := hval.ne_next hend.has
    refine ⟨_, hf.insert hval ⟨hlead, hval.not_has_next, kind_split, rfl, fun a b => ?_⟩⟩
    rw [hnext, joins, hval.count_split hv.has hend.has hne, hval.count_split hv.has hend.has hne, joins]
    simp only [SamePair]
    cases k <;> grind [EdgeKind.opposite]

/-- Taking out a spider that acts as a wire leaves a flow. -/
theorem Flow.exists_bypass (h : w.Relay v t n k) (ht : w.kind t = some .output) :
    ∃ c', (w.bypass v t n k).Flow c' := by
  have hval := hw.simple.valid
  obtain ⟨u, hu, huv, -, hmem⟩ := hf.exists_before hw h.isZ
  obtain rfl : u = n := (h.only u hmem).resolve_left fun he => hu.2 (he ▸ ht)
  refine ⟨_, hf.merge hval ⟨(h.inForm hw).simple.valid, hu, .inl ⟨rfl, huv.symm⟩, h.isZ.not_isEnd, rfl,
    fun a b hab ha hb => ?_⟩⟩
  have hjv (x : Vertex) : w.joins v x = if x = t ∨ x = u then 1 else 0 := by
    have hmem' : x ∈ w.nearby v ↔ x = t ∨ x = u := by
      refine ⟨h.only x, ?_⟩
      rintro (rfl | rfl)
      · exact hval.mem_nearby_of_link h.wired
      · exact hmem
    rw [hval.mem_nearby] at hmem'
    have hsingle := hw.simple.single v x
    split
    · next hx => exact Nat.le_antisymm hsingle (hmem'.2 hx)
    · next hx => exact Nat.eq_zero_of_not_pos fun hpos => hx (hmem'.1 hpos)
  have huv' := (hval.ne_of_mem_nearby hmem).symm
  have hjt : w.joins t u = 0 := by
    rw [joins, hw.count_end h.isEnd h.wired u huv', hw.count_end h.isEnd h.wired u huv']
  rw [h.joins_bypass hw, if_neg (not_or.2 ⟨ha, hb⟩), hjv, hjv]
  simp only [SamePair]
  have := hval.joins_comm u t
  grind

end

/-- Preparing the frontier leaves a flow. -/
theorem Flow.exists_tidier (hf : w.Flow c) (hw : w.InForm) (h : w.Tidier w') :
    w'.InForm ∧ ∃ c', w'.Flow c' := by
  have hsteps := h.steps
  clear h
  induction hsteps with
  | refl => exact ⟨hw, c, hf⟩
  | tail _ hstep ih =>
    obtain ⟨hform, c', hf'⟩ := ih
    obtain ⟨gates, hpeel⟩ := hstep.exists_peel
    exact ⟨(hpeel.keeps hform).form, hf'.exists_tidying hform hstep⟩

/-- Taking out the spiders that act as wires leaves a flow. -/
theorem Flow.exists_dropWires (hf : w.Flow c) (hw : w.InForm) (h : w.Lined frontier) :
    ∃ c', (frontier.foldl dropWire w).Flow c' := by
  induction frontier generalizing w c with
  | nil => exact ⟨c, hf⟩
  | cons p rest ih =>
    have hat := h.atOutput p List.mem_cons_self
    obtain ⟨hnot, hnd⟩ := List.nodup_cons.1 h.nodup
    rw [List.foldl_cons, dropWire]
    by_cases hlen : (w.nearby p.2).length = 2
    · rw [if_pos hlen]
      have hrelay := hat.relay hw hlen
      obtain ⟨c', hf'⟩ := hf.exists_bypass hw hrelay
        ((hw.mem_outputs _).1 (List.mem_of_getElem? (getElem?_outputs hat.lt)))
      exact ih (w := w.bypass p.2 _ _ _) hf' (hrelay.inForm hw) ⟨fun p' hp' =>
        hrelay.atOutput hw (h.atOutput p' (List.mem_cons_of_mem p hp')) fun he =>
          hnot (List.mem_map.2 ⟨p', hp', he⟩), hnd⟩
    · rw [if_neg hlen]
      exact ih hf hw ⟨fun p' hp' => h.atOutput p' (List.mem_cons_of_mem p hp'), hnd⟩

/-- Among the vertices of the course that are not yet in front of an output there is one before a
    spider that acts as a wire. -/
theorem Flow.exists_wire (hf : w.Flow c) (hw : w.InForm)
    (hprep : w.Prepared frontier w.outputs.length) (hne : frontier ≠ []) :
    ∃ p ∈ frontier, (w.nearby p.2).length = 2 := by
  have hval := hw.simple.valid
  -- a spider before an output is on the frontier
  have hfront {y : Vertex} (hy : w.IsZ y) (ho : w.kind (c.next y) = some .output) :
      ∃ p ∈ frontier, p.2 = y :=
    hprep.exists_of_output hw hy ((hw.mem_outputs _).2 ho)
      (hf.next_mem_nearby hw (hf.leads_of_isColoured hy.isColoured))
  -- of the vertices that are two steps or more before an output, one of the highest rank
  obtain ⟨x, ⟨hx, hxo⟩, hmax⟩ : ∃ x, (w.Leads c x ∧ w.kind (c.next x) ≠ some .output) ∧
      ∀ u, w.Leads c u ∧ w.kind (c.next u) ≠ some .output → c.rank u ≤ c.rank x := by
    classical
    have hmem {u : Vertex} : u ∈ (Finset.range w.next).filter
        (fun u => w.Leads c u ∧ w.kind (c.next u) ≠ some .output) ↔
          w.Leads c u ∧ w.kind (c.next u) ≠ some .output := by
      rw [Finset.mem_filter, Finset.mem_range, and_iff_right_iff_imp]
      exact fun hu => hval.lt u (hf.has u hu.1.1)
    obtain ⟨p, hp⟩ := List.exists_mem_of_ne_nil _ hne
    have hz := (hprep.settled p hp).isZ
    obtain ⟨u, hu, hup, -⟩ := hf.exists_before hw hz
    obtain ⟨x, hx, hmax⟩ := Finset.exists_max_image _ c.rank
      ⟨u, hmem.2 ⟨hu, by rw [hup, hz]; simp⟩⟩
    exact ⟨x, hmem.1 hx, fun u hu => hmax u (hmem.2 hu)⟩
  obtain ⟨y, hxy⟩ : ∃ y, c.next x = y := ⟨_, rfl⟩
  have hlt := hf.lt x hx
  have hxmem := hf.next_mem_nearby hw hx
  rw [hxy] at hxo hlt hxmem
  have hlead : w.Leads c y := ⟨hxy ▸ hf.on_next x hx, hxo⟩
  have hy : w.IsZ y := hxy ▸ hf.isZ_next hw hx (hxy ▸ hxo)
  have hout : w.kind (c.next y) = some .output := by
    by_contra hno
    exact Nat.not_lt_of_le (hmax y ⟨hlead, hno⟩) hlt
  obtain ⟨p, hp, rfl⟩ := hfront hy hout
  have hsub : w.nearby p.2 ⊆ [x, c.next p.2] := by
    intro u hu
    by_contra hno
    rw [List.mem_cons, List.mem_singleton, not_or] at hno
    have hlater := hf.lt_other x hx u (hxy ▸ hval.mem_nearby.1 hu) hno.1
    rcases hw.simple.colour u (hval.has_of_mem_nearby hu) with hz | he
    · -- another spider at an output, or a vertex of a higher rank
      by_cases ho : w.kind (c.next u) = some .output
      · obtain ⟨p', hp', rfl⟩ := hfront hz ho
        exact hprep.apart p hp p' hp' hu
      · exact Nat.not_lt_of_le (hmax u ⟨hf.leads_of_isColoured hz.isColoured, ho⟩) hlater
    · rcases hw.mem_of_isEnd he with hin | ho
      · obtain ⟨hul, hun⟩ := hf.next_of_input hw ((hw.mem_inputs u).1 hin)
          (hval.mem_nearby_comm.1 hu)
        exact hno.1 (hf.injective hval hul hx (hun.trans hxy.symm))
      · exact hno.2 (hf.next_of_output hw ((hw.mem_outputs u).1 ho)
          (hval.mem_nearby_comm.1 hu)).2.symm
  refine ⟨p, hp, length_nearby_eq_two hw.simple (hval.mem_nearby_comm.1 hxmem)
    (hf.next_mem_nearby hw hlead) (fun he => ?_) ?_⟩
  · have hyx := hf.lt p.2 hlead
    rw [← he] at hyx
    exact Nat.lt_asymm hlt hyx
  · rw [hw.simple.degree_eq]
    exact (nodup_nearby.subperm hsub).length_le

end Web

/-! ### The program -/

namespace Extraction.State

open Web (Tidier)

variable {w : Web} {s s' : State} {n o v : Vertex} {q : ℕ} {g : Gate}

/-! #### Gates -/

/-- No CNOT gate was taken off. -/
def CnotFree (s : State) : Prop := ∀ g ∈ s.circuit.gates, g.kind ≠ .cnot

namespace CnotFree

section

variable (h : s.CnotFree)
include h

theorem emit (hg : g.kind ≠ .cnot) : (s.emit g).CnotFree := List.forall_mem_cons.2 ⟨hg, h⟩

theorem prepareNeighbor : Leaves (s.prepareNeighbor q o v n) CnotFree := by
  rw [State.prepareNeighbor]
  split
  · exact h
  refine Leaves.after fun b _ => ?_
  split
  · split
    · trivial
    refine Leaves.after fun m _ => ?_
    split
    · refine Meets.lift ?_
      refine Leaves.after fun k _ => Leaves.after fun g₁ _ => Leaves.after fun g₂ _ =>
        Leaves.after fun g₃ _ => h
    · exact h
  split
  · exact Leaves.after fun g _ => emit (s := { s with graph := g }) h GateKind.noConfusion
  · refine Leaves.after fun b _ => ?_
    split
    · exact h
    · trivial

theorem takeHadamard {kind : EdgeKind} : Leaves (s.takeHadamard q o v kind) CnotFree := by
  rw [State.takeHadamard]
  split
  · exact Leaves.after fun g _ => emit (s := { s with graph := g }) h GateKind.noConfusion
  · exact h

theorem takePhase : (s.takePhase q v).CnotFree := by
  rw [State.takePhase]
  split
  · exact h
  · exact emit (s := { s with graph := _ }) h GateKind.noConfusion

theorem prepareOutput : Leaves (s.prepareOutput o q) CnotFree := by
  refine Leaves.after fun edges _ => ?_
  split
  · trivial
  refine Meets.bind (Meets.lift h.takeHadamard) fun s₁ h₁ => Leaves.after fun b hb => ?_
  split
  · exact h₁
  next u kind _ _ hne =>
  have h₂ : ({ s₁ with frontier := s₁.frontier ++ [(q, u)] } : State).CnotFree := h₁
  exact Leaves.after fun us _ => .foldlM h₂.takePhase fun _ _ _ hs => hs.prepareNeighbor

theorem prepare : Leaves s.prepare CnotFree :=
  .foldlM (show ({ s with frontier := [] } : State).CnotFree from h) fun _ _ _ hs =>
    hs.prepareOutput

theorem removeWires : Leaves s.removeWires fun r => ∀ s', r = some s' → s'.CnotFree := by
  refine Leaves.after fun r _ => ?_
  dsimp only
  split
  · intro s' hs'
    cases hs'
  · exact fun s' hs' => Option.some.inj hs' ▸ h

end

/-- The swaps that are put in front are no CNOT gates. -/
theorem routeWires {arrivals qs : List ℕ} {state : List ℕ × List Gate}
    (h : ∀ g ∈ state.2, g.kind ≠ .cnot) :
    ∀ g ∈ (qs.foldl (State.routeWire arrivals) state).2, g.kind ≠ .cnot := by
  induction qs generalizing state with
  | nil => exact h
  | cons q rest ih =>
    refine ih ?_
    rw [State.routeWire]
    split
    · exact h
    split
    · exact h
    intro g hg
    rcases List.mem_append.1 hg with hg | hg
    · exact h g hg
    · rw [List.mem_singleton.1 hg]
      exact GateKind.noConfusion

end CnotFree

/-! #### Rounds -/

/-- An extraction under way along a flow, without CNOT gates up to now. -/
structure InFlow (w : Web) (s : State) : Prop extends s.Reached True w where
  flow : ∃ c, s.web.Flow c
  cnotFree : s.CnotFree

/-- What a round comes to along a flow. -/
def Onward (w : Web) : Round → Prop
  | .finished s => s.InFlow w ∧ s.web.Prepared [] w.outputs.length
  | .next s left => s.InFlow w ∧ left = []

namespace InFlow

section

variable (hw : w.InForm) (h : s.InFlow w)
include hw h

theorem exists_prepare : ∃ s', s.prepare = .ok s' ∧ s'.InFlow w ∧
    s'.web.Prepared s'.frontier w.outputs.length := by
  obtain ⟨c, hf⟩ := h.flow
  have hform := (h.keeps hw).form
  have hmeets := h.prepare hw
  have hfree := h.cnotFree.prepare
  cases hok : s.prepare with
  | error e =>
    rw [hok] at hmeets
    cases e with
    | fault => exact hmeets.elim
    | refused u =>
      obtain ⟨-, hshared, htidier⟩ := hmeets
      obtain ⟨hform', c', hf'⟩ := hf.exists_tidier hform htidier
      exact absurd hshared (hf'.not_shared hform' _)
  | ok s' =>
    rw [hok] at hmeets
    obtain ⟨hs', hprep, htidier⟩ := hmeets
    exact ⟨s', rfl, ⟨hs', (hf.exists_tidier hform htidier).2, hfree.of_ok hok⟩, hprep⟩

/-- A round takes out spiders that act as wires, whether or not rows may be added. -/
theorem exists_round : ∃ r, (∀ options, s.round options [] = .ok r) ∧ Onward w r := by
  obtain ⟨s₁, hok, h₁, hprep⟩ := h.exists_prepare hw
  obtain ⟨c, hf⟩ := h₁.flow
  have hkeeps := h₁.keeps hw
  have hl := hprep.lined hkeeps.form
  by_cases hempty : s₁.frontier = []
  · refine ⟨.finished s₁, fun options => ?_, h₁, hempty ▸ hprep⟩
    rw [State.round, hok]
    change (if s₁.frontier.isEmpty then _ else _) = _
    rw [if_pos (by simp [hempty])]
    rfl
  · have hnone : s₁.removeGadget [] = .ok none := by
      have hmeets := h₁.removeGadget hw hl [] fun h => absurd rfl h
      cases hr : s₁.removeGadget [] with
      | error e =>
        rw [hr] at hmeets
        cases e with
        | fault => exact hmeets.elim
        | refused u => exact absurd rfl hmeets.2
      | ok r =>
        rw [hr] at hmeets
        rw [hmeets.1 rfl]
    obtain ⟨r, hok', hr⟩ := h₁.removeWires hw hl
    obtain ⟨p, hp, hlen⟩ := hf.exists_wire hkeeps.form (hkeeps.outputs ▸ hprep) hempty
    obtain ⟨s₂, rfl, h₂, hweb, -⟩ := hr.resolve_left fun hr => hr.2 p hp hlen
    refine ⟨.next s₂ [], fun options => ?_, ⟨h₂, ?_, h₁.cnotFree.removeWires.of_ok hok' s₂ rfl⟩, rfl⟩
    · rw [State.round, hok]
      change (if s₁.frontier.isEmpty then _ else _) = _
      rw [if_neg (by simp [hempty]), hnone]
      change ((liftM s₁.removeWires : Attempt Unextracted (Option State)) >>= _) = _
      rw [hok']
      rfl
    · rw [hweb]
      exact hf.exists_dropWires hkeeps.form hl

/-- The rounds go on to an empty frontier, if there are enough of them. -/
theorem exists_runWithin (rounds : ℕ) : ∃ x : Attempt Unextracted State,
    (∀ options, s.runWithin options rounds [] = x) ∧
      Meets x (fun s' => s'.InFlow w ∧ s'.web.Prepared [] w.outputs.length)
        (· = .fault .outOfRounds) := by
  induction rounds generalizing s with
  | zero => exact ⟨_, fun _ => rfl, rfl⟩
  | succ rounds ih =>
    obtain ⟨r, hr, honward⟩ := h.exists_round hw
    have hrun (options : Options) : s.runWithin options (rounds + 1) [] =
        s.round options [] >>= fun
          | .finished s => .ok s
          | .next s left => s.runWithin options rounds left := rfl
    cases r with
    | finished s' =>
      refine ⟨.ok s', fun options => ?_, honward⟩
      rw [hrun, hr]
      rfl
    | next s' left =>
      obtain ⟨h', rfl⟩ := honward
      obtain ⟨x, hx, hmeets⟩ := ih h'
      refine ⟨x, fun options => ?_, hmeets⟩
      rw [hrun, hr]
      exact hx options

/-- Each output is wired to an input. -/
theorem exists_permute (hprep : s.web.Prepared [] w.outputs.length) :
    ∃ s', s.permute = .ok s' ∧ s'.graph = s.graph ∧ s'.CnotFree := by
  obtain ⟨c, hf⟩ := h.flow
  have hform := (h.keeps hw).form
  have hmeets := h.permute hw hprep
  cases hok : s.permute with
  | error e =>
    rw [hok] at hmeets
    cases e with
    | fault => exact hmeets.elim
    | refused u =>
      obtain ⟨-, hweb, t, t', ht, ht', hlink⟩ := hmeets
      rw [hweb] at ht ht' hlink
      have hval := hform.simple.valid
      exact absurd ht (hf.next_of_output hform ht'
        (hval.mem_nearby_comm.1 (hval.mem_nearby_of_link hlink))).1.2
  | ok s' =>
    rw [hok] at hmeets
    obtain ⟨arrivals, -, rfl⟩ := hmeets
    refine ⟨_, rfl, rfl, fun g hg => ?_⟩
    rcases List.mem_append.1 hg with hg | hg
    · exact CnotFree.routeWires (fun _ h => absurd h List.not_mem_nil) g hg
    · exact h.cnotFree g hg

end

end InFlow

end Extraction.State

/-! ### The results -/

namespace Extraction

variable {c : Course} {g : GraphLike}

/-- The rounds take out a graph-like diagram with a flow, whether or not rows may be added. -/
theorem State.InFlow.exists_run (hg : g.Coherent) (hw : g.web.InForm) (hf : g.web.Flow c) :
    gadgetCentres g = .ok [] ∧ ∃ s, (∀ options, (State.mk g (.empty g.outputs.length) []).runWithin
      options g.roundLimit [] = .ok s) ∧ s.InFlow g.web ∧
        s.web.Prepared [] g.web.outputs.length := by
  have hcentres := GraphLike.gadgetCentres_of_no_leaf hg hw.simple fun _ => hf.not_isLeaf hw
  have hstart : (State.mk g (.empty g.outputs.length) []).InFlow g.web :=
    ⟨State.reached_start hg, ⟨c, hf⟩, fun g hg => absurd hg List.not_mem_nil⟩
  obtain ⟨x, hx, hmeets⟩ := hstart.exists_runWithin hw g.roundLimit
  rw [← hx ⟨false, false⟩] at hmeets
  obtain ⟨s, hok, hs⟩ := State.exists_ok_runWithin hg hw _ hcentres hmeets
  exact ⟨hcentres, s, fun options => (hx options).trans ((hx _).symm.trans hok), hs⟩

/-- A graph-like diagram with a flow is extracted, in the same way whether or not rows may be added,
    and without CNOT gates. -/
theorem exists_extract_of_flow (hg : g.Coherent) (hw : g.web.InForm) (hf : g.web.Flow c)
    (permute : Bool) : ∃ r, (∀ eliminate, extract ⟨eliminate, permute⟩ g = .ok r) ∧
      ∀ gate ∈ r.2.gates, gate.kind ≠ .cnot := by
  obtain ⟨hcentres, s, hrun, hs, hprep⟩ := State.InFlow.exists_run hg hw hf
  cases permute with
  | false => exact ⟨_, fun _ => extract_of_run hcentres (hrun _) rfl, hs.cnotFree⟩
  | true =>
    obtain ⟨s', hok, -, hfree⟩ := hs.exists_permute hw hprep
    exact ⟨_, fun _ => extract_of_run hcentres (hrun _) hok, hfree⟩

/-- A circuit is extracted from the graph-like form of its diagram, in the same way whether or not
    rows may be added, and without CNOT gates. -/
theorem extract_ofCircuit {circuit : Circuit} (hc : ∀ g ∈ circuit.gates, g.Valid circuit.qubits) :
    ∃ d g, Diagram.ofCircuit circuit = .ok d ∧ GraphLike.ofDiagram d = .ok g ∧
      ∀ permute, ∃ r, (∀ eliminate, extract ⟨eliminate, permute⟩ g = .ok r) ∧
        ∀ gate ∈ r.2.gates, gate.kind ≠ .cnot := by
  obtain ⟨d, bare, hokd, hd, hbare, hputs⟩ := Diagram.exists_ofCircuit hc
  obtain ⟨c, hl⟩ := hputs.exists_laid hbare.drawn hbare.laid
  obtain ⟨g, hokg, hg, hw, c', hf⟩ :=
    GraphLike.exists_ofDiagram_flow hd (hputs.drawn hbare.drawn) hl
  exact ⟨d, g, hokd, hokg, exists_extract_of_flow hg hw hf⟩

/-- Two CNOT gates and a rotation between them. -/
def parityRotation : Circuit :=
  ⟨2, [.plain .cnot [0, 1], ⟨.zPhase, [1], ⟨1, 4, by decide, by decide, by decide⟩⟩, .plain .cnot [0, 1]]⟩

theorem parityRotation_valid : ∀ g ∈ parityRotation.gates, g.Valid parityRotation.qubits := by
  intro g hg
  simp only [parityRotation, List.mem_cons, List.not_mem_nil, or_false] at hg
  rcases hg with rfl | rfl | rfl <;> exact ⟨by decide, by decide, by decide⟩

theorem parityRotation_extracted : (∀ g ∈ parityRotation.gates, g.Valid parityRotation.qubits) ∧
    ∃ d g, Diagram.ofCircuit parityRotation = .ok d ∧ GraphLike.ofDiagram d = .ok g ∧
      ∀ permute, ∃ r, (∀ eliminate, extract ⟨eliminate, permute⟩ g = .ok r) ∧
        ∀ gate ∈ r.2.gates, gate.kind ≠ .cnot :=
  ⟨parityRotation_valid, extract_ofCircuit parityRotation_valid⟩

end Extraction

end ZXRewriting
