import ZXRewriting.Proofs.Extraction.Frontier
import ZXRewriting.Proofs.GraphLike.Identities

/-!
# Gadgets and wires at the frontier

Removing a gadget next to the frontier and removing the frontier spiders that act as wires take
steps of an extraction only (`State.Reached.removeGadget`, `State.Reached.removeWires`). When no
wire is removed, every spider of the frontier has a number of edges other than two.
-/

namespace ZXRewriting

open Function (update update_self update_of_ne)
open Multigraph (SamePair)

namespace GraphLike

variable {g : GraphLike} {t u v n : Vertex} {k : EdgeKind}

open Web

/-! ### Taking out a spider -/

/-- Removing a spider between an output that is wired to it and another vertex. -/
theorem Gives.removeRelay (hg : g.Coherent) (hw : g.web.InForm) (h : g.web.Relay v t n k) :
    Gives (g.removeIdentity v) (g.web.bypass v t n k) g.master := by
  have hval := hw.simple.valid
  have hvalr := hval.remove v
  -- without the spider the two vertices are not joined
  have hzero := h.count_remove hw
  have hjoins : (g.web.remove v).joins t n = 0 := by rw [joins, hzero, hzero]
  have hgives {a b : Vertex} {k₁ k₂ : EdgeKind} (hlist : g.web.incident v = [(a, k₁), (b, k₂)])
      (hab : a ≠ b) (hj : (g.web.remove v).joins a b = 0) :
      Gives (g.removeIdentity v) ((g.web.remove v).addEdges a b (k₁.merge k₂) 1) g.master := by
    have hlink : (g.web.remove v).link a b = none := link_eq_none_iff.2 hj
    have hne {x : Vertex} {k : EdgeKind} (hx : (x, k) ∈ g.web.incident v) : x ≠ v :=
      (hval.ne_of_mem_nearby (mem_incident.1 hx).1).symm
    have hnone : g.web.link a b = none := by
      rwa [link_remove (hne (k := k₁) (by simp [hlist])) (hne (k := k₂) (by simp [hlist]))] at hlink
    have hreduced : (g.web.remove v).addReduced a b (k₁.merge k₂) =
        (g.web.remove v).addEdges a b (k₁.merge k₂) 1 := by
      rw [Web.addReduced, if_neg hab, hlink]
    rw [← hreduced]
    exact .removeIdentity hg hw.simple.noParallel h.isZ.has hlist fun hl => absurd hnone hl
  -- the two edges, in one order or the other
  have hperm : (g.web.nearby v).Perm [t, n] := by
    rw [List.perm_ext_iff_of_nodup nodup_nearby (by simpa using h.ne.symm)]
    refine fun x => ⟨fun hx => by simpa using h.only x hx, fun hx => ?_⟩
    rcases List.mem_cons.1 hx with rfl | hx
    · exact hval.mem_nearby_of_link h.wired
    · rw [List.mem_singleton.1 hx]
      exact hval.mem_nearby_of_link h.link
  obtain ⟨a, b, hab⟩ := List.length_eq_two.1 hperm.length_eq
  rw [hab] at hperm
  have hta : t = a ∨ t = b := by simpa using hperm.mem_iff.2 (List.mem_cons_self (l := [n]))
  have hna : n = a ∨ n = b := by simpa using hperm.mem_iff.2 (List.mem_cons_of_mem t
    (List.mem_singleton_self n))
  rcases hta with rfl | rfl
  · obtain rfl := hna.resolve_left h.ne
    have hlist : g.web.incident v = [(t, .plain), (n, k)] := by
      simp [incident, hab, h.wired, h.link]
    exact hgives hlist h.ne.symm hjoins
  · obtain rfl := hna.resolve_right h.ne
    have hlist : g.web.incident v = [(n, k), (t, .plain)] := by
      simp [incident, hab, h.wired, h.link]
    have hk : k.merge .plain = k := EdgeKind.merge_comm k .plain
    rw [bypass, hvalr.addEdges_comm, ← hk]
    exact hgives hlist h.ne (by rw [hvalr.joins_comm, hjoins])

end GraphLike

namespace Web

variable {w : Web} {t u v n : Vertex} {k : EdgeKind} {q : ℕ} {frontier : List (ℕ × Vertex)}

/-- Different spiders, each at its output. -/
structure Lined (w : Web) (frontier : List (ℕ × Vertex)) : Prop where
  atOutput : ∀ p ∈ frontier, w.AtOutput p.1 p.2
  nodup : (frontier.map (·.2)).Nodup

theorem Prepared.lined {m : ℕ} (h : w.Prepared frontier m) (hw : w.InForm) : w.Lined frontier where
  atOutput p hp := (h.settled p hp).toAtOutput
  nodup := by
    have hnd : frontier.Nodup := h.ascending.imp fun hlt he => by
      rw [he] at hlt
      exact Nat.lt_irrefl _ hlt
    exact List.Nodup.map_on (fun p hp p' hp' he => h.eq_of_spider hw hp hp' he) hnd

/-- The neighbour of a spider at an output other than the output. -/
def farSide (w : Web) (p : ℕ × Vertex) : Vertex :=
  ((w.nearby p.2).filter (· ≠ w.output p.1)).headD 0

/-- Takes out a spider at an output if it acts as a wire. -/
def dropWire (w : Web) (p : ℕ × Vertex) : Web :=
  if (w.nearby p.2).length = 2 then
    w.bypass p.2 (w.output p.1) (w.farSide p) ((w.link p.2 (w.farSide p)).getD .plain)
  else w

/-- A spider at an output with one more edge acts as a wire. -/
theorem AtOutput.relay {p : ℕ × Vertex} (h : w.AtOutput p.1 p.2) (hw : w.InForm)
    (hlen : (w.nearby p.2).length = 2) :
    w.Relay p.2 (w.output p.1) (w.farSide p) ((w.link p.2 (w.farSide p)).getD .plain) := by
  have hval := hw.simple.valid
  have ht := hval.mem_nearby_of_link h.wired
  have hnd : (w.nearby p.2).Nodup := nodup_nearby
  obtain ⟨n, hn, hne, honly⟩ : ∃ n, w.farSide p = n ∧ n ≠ w.output p.1 ∧
      ∀ x, x ∈ w.nearby p.2 ↔ x = w.output p.1 ∨ x = n := by
    obtain ⟨a, b, hab⟩ := List.length_eq_two.1 hlen
    rw [hab] at ht hnd
    have hne : a ≠ b := by simpa using hnd
    rw [farSide, hab]
    rcases List.mem_cons.1 ht with rfl | ht
    · exact ⟨b, by simp [hne.symm], hne.symm, fun x => by simp⟩
    · obtain rfl := List.mem_singleton.1 ht
      exact ⟨a, by simp [hne], hne, fun x => by simp [or_comm]⟩
  rw [hn]
  have hmem : n ∈ w.nearby p.2 := (honly n).2 (.inr rfl)
  obtain ⟨k, hk⟩ := Option.isSome_iff_exists.1 (link_isSome_iff.2 (hval.mem_nearby.1 hmem))
  refine ⟨h.isZ, hw.isEnd_output' h.lt, h.wired, ?_, hne, fun x hx => (honly x).1 hx⟩
  rw [hk]
  rfl

/-- Taking out a spider leaves the others at their outputs. -/
theorem Relay.atOutput (h : w.Relay v (w.output q) n k) (hw : w.InForm) {q' : ℕ} {v' : Vertex}
    (h' : w.AtOutput q' v') (hne : v' ≠ v) : (w.bypass v (w.output q) n k).AtOutput q' v' := by
  have hval := hw.simple.valid
  have hend := hw.isEnd_output' h'.lt
  have hout : w.output q' ≠ w.output q := fun he =>
    hne (hw.eq_of_link (he ▸ hend) (he ▸ h'.wired) h.wired)
  have hov : w.output q' ≠ v := fun he => h.isZ.not_isEnd (he ▸ hend)
  have hvt : v' ≠ w.output q := fun he => h'.isZ.not_isEnd (he ▸ h.isEnd)
  have hcount (k' : EdgeKind) : (w.bypass v (w.output q) n k).count v' (w.output q') k' =
      w.count v' (w.output q') k' := by
    rw [bypass, count_addEdges, if_neg (by rw [SamePair]; tauto)]
    simp [Web.remove, hne, hov]
  refine ⟨h'.lt, ?_, ?_, ?_⟩
  · change (w.remove v).IsZ v'
    rw [IsZ, kind_remove, update_of_ne hne]
    exact h'.isZ
  · change (w.bypass v (w.output q) n k).link v' (w.output q') = some .plain
    rw [Web.link, hcount, hcount]
    exact h'.wired
  · change ((w.remove v).phase v').isZero
    rw [phase_remove, update_of_ne hne]
    exact h'.phase

end Web

/-! ### The program -/

namespace Extraction.State

open Web (Peel Peels)

variable {w : Web} {s : State} {gadgets : Prop}

section

variable (hw : w.InForm)
include hw

/-- Pivoting a gadget next to the frontier away. -/
theorem Reached.removeGadget (h : s.Reached gadgets w) (hl : s.web.Lined s.frontier)
    (centres : List Vertex) (hgadgets : centres ≠ [] → gadgets) :
    Meets (s.removeGadget centres)
      (fun r => (centres = [] → r = none) ∧ ∀ n s', r = some (n, s') → s'.Reached gadgets w ∧
        n ∈ centres ∧ ∃ p ∈ s.frontier, s.web.IsZ n ∧ n ∈ s.web.nearby p.2 ∧
          s'.web = ((s.web.clear p.2).clear n).pivot p.2 n)
      (Stopped gadgets w fun _ _ => centres ≠ []) := by
  have hs := h.keeps hw
  have hnear : s.frontier.mapM (fun (p : ℕ × Vertex) => (do
      return (← s.graph.neighborSet p.2).map fun n => (p.2, n) :
        Attempt Unextracted (List (Vertex × Vertex)))) =
      .ok (s.frontier.map fun p => (s.web.nearby p.2).map fun n => (p.2, n)) :=
    mapM_eq fun p hp => by
      rw [show s.graph.toDiagram.neighborSet p.2 = _ from
        GraphLike.neighborSet_eq h.coherent (hl.atOutput p hp).isZ.has]
      rfl
  rw [State.removeGadget]
  refine Meets.bind (P := fun near => near =
    s.frontier.map fun p => (s.web.nearby p.2).map fun n => (p.2, n))
    (Meets.of_exists ⟨_, hnear, rfl⟩) fun near hnear => ?_
  cases hfind : near.flatten.find? fun x => decide (x.2 ∈ centres) with
  | none => exact ⟨fun _ => rfl, fun _ _ h => by simp at h⟩
  | some x =>
    obtain ⟨v, n⟩ := x
    have hn : n ∈ centres := by simpa using List.find?_some hfind
    have hne : centres ≠ [] := List.ne_nil_of_mem hn
    obtain ⟨l, hlmem, hx⟩ := List.mem_flatten.1 (List.mem_of_find?_eq_some hfind)
    rw [hnear] at hlmem
    obtain ⟨p, hp, rfl⟩ := List.mem_map.1 hlmem
    obtain ⟨n', hn', he⟩ := List.mem_map.1 hx
    obtain ⟨rfl, rfl⟩ := Prod.mk.inj he
    have hv := (hl.atOutput p hp).isZ
    have hu := hs.form.simple.valid.has_of_mem_nearby hn'
    refine Meets.bind (P := fun b => b = true → s.web.IsZ n') (Meets.lift (by
      rw [GraphLike.checkFrontierPivot_eq h.coherent hs.form hv.has hu]
      exact fun hb => (of_decide_eq_true hb).2.2.1)) fun b hb => ?_
    split
    · next hbt =>
      obtain ⟨g, hok, hcoh, hweb, -⟩ :=
        GraphLike.Gives.frontierPivot h.coherent hs.form hv (hb hbt) hn'
      refine Meets.bind (P := fun g' => g' = g) (Meets.lift (by rw [hok]; rfl)) fun g' hg' => ?_
      subst hg'
      refine ⟨fun h => absurd h hne, fun n s' hs' => ?_⟩
      obtain ⟨rfl, rfl⟩ := Prod.mk.inj (Option.some.inj hs')
      refine ⟨⟨hcoh, ?_, h.qubits⟩, hn, p, hp, hb hbt, hn', hweb⟩
      change Peels gadgets w g'.web s.circuit.gates
      rw [hweb]
      exact h.peels.pivot (hgadgets hne) hv (hb hbt) hn'
    · exact ⟨⟨h.coherent, h.peels, h.qubits⟩, hne⟩

/-- Taking out the spiders at the outputs that act as wires. -/
theorem Reached.removeWires (h : s.Reached gadgets w) (hl : s.web.Lined s.frontier) :
    ∃ r, s.removeWires = .ok r ∧
      ((r = none ∧ ∀ p ∈ s.frontier, (s.web.nearby p.2).length ≠ 2) ∨
        ∃ s', r = some s' ∧ s'.Reached gadgets w ∧ s'.web = s.frontier.foldl Web.dropWire s.web ∧
          ∃ p ∈ s.frontier, (s.web.nearby p.2).length = 2) := by
  have hstep := exists_foldlM (f := fun (x : ℕ × GraphLike) (p : ℕ × Vertex) => removeWire x p.2)
    (fun done x => ({ s with graph := x.2 } : State).Reached gadgets w ∧
      x.2.web = done.foldl Web.dropWire s.web ∧
      (∀ p ∈ s.frontier, p ∉ done → x.2.web.AtOutput p.1 p.2) ∧
      (x.1 = 0 → x.2 = s.graph ∧ ∀ p ∈ done, (s.web.nearby p.2).length ≠ 2) ∧
      (x.1 ≠ 0 → ∃ p ∈ done, (s.web.nearby p.2).length = 2)) s.frontier
    (s := (0, s.graph)) ⟨h, rfl, fun p hp _ => hl.atOutput p hp,
      fun _ => ⟨rfl, fun _ h => absurd h List.not_mem_nil⟩, fun h => absurd rfl h⟩
    fun done p rest x hsplit hinv => by
      obtain ⟨hr, hweb, hat, hzero, hpos⟩ := hinv
      have hp : p ∈ s.frontier := by simp [hsplit]
      have hnd : s.frontier.Nodup := List.Nodup.of_map _ hl.nodup
      have hnot : p ∉ done := fun hm => by
        rw [hsplit] at hnd
        exact (List.nodup_append.1 hnd).2.2 p hm p List.mem_cons_self rfl
      have hs := hr.keeps hw
      have hform : x.2.web.InForm := hs.form
      have hat' := hat p hp hnot
      have hcheck : x.2.checkRemoveIdentity p.2 =
          .ok (decide ((x.2.web.nearby p.2).length = 2)) := by
        rw [GraphLike.checkRemoveIdentity_eq hr.coherent hform.simple.noParallel hat'.isZ.has]
        have hphase : (x.2.phase p.2).isZero := hat'.phase
        simp [hat'.isZ, hphase]
      rw [State.removeWire]
      by_cases hlen : (x.2.web.nearby p.2).length = 2
      · have hrelay := hat'.relay hform hlen
        obtain ⟨g, hok, hcoh, hwebg, -⟩ :=
          GraphLike.Gives.removeRelay hr.coherent hform hrelay
        refine ⟨(x.1 + 1, g), ?_, hr.peel (r := { s with graph := g }) (l := []) hcoh ?_ rfl rfl,
          ?_, fun p' hp' hnot' => ?_, fun h0 => absurd h0 (Nat.succ_ne_zero _), fun _ => ?_⟩
        · rw [hcheck, hok]
          simp [hlen]
          rfl
        · change Peel x.2.web g.web []
          rw [hwebg]
          exact .relay (Web.getElem?_outputs hat'.lt) hrelay hat'.phase
        · rw [List.foldl_append, ← hweb, List.foldl_cons, List.foldl_nil, Web.dropWire, if_pos hlen,
            hwebg]
        · rw [List.mem_append, List.mem_singleton, not_or] at hnot'
          have hne : p'.2 ≠ p.2 := fun he =>
            hnot'.2 (List.inj_on_of_nodup_map hl.nodup hp' hp he)
          change g.web.AtOutput p'.1 p'.2
          rw [hwebg]
          exact hrelay.atOutput hform (hat p' hp' hnot'.1) hne
        · by_cases h0 : x.1 = 0
          · refine ⟨p, by simp, ?_⟩
            rw [(hzero h0).1] at hlen
            exact hlen
          · obtain ⟨p', hp', hlen'⟩ := hpos h0
            exact ⟨p', List.mem_append_left _ hp', hlen'⟩
      · refine ⟨x, ?_, hr, ?_, fun p' hp' hnot' => hat p' hp' fun hm =>
          hnot' (List.mem_append_left _ hm), fun h0 => ⟨(hzero h0).1, fun p' hp' => ?_⟩,
          fun h0 => ?_⟩
        · rw [hcheck]
          simp [hlen]
          rfl
        · rw [List.foldl_append, ← hweb, List.foldl_cons, List.foldl_nil, Web.dropWire, if_neg hlen]
        · rcases List.mem_append.1 hp' with hp' | hp'
          · exact (hzero h0).2 p' hp'
          · rw [List.mem_singleton.1 hp']
            rwa [(hzero h0).1] at hlen
        · obtain ⟨p', hp', hlen'⟩ := hpos h0
          exact ⟨p', List.mem_append_left _ hp', hlen'⟩
  obtain ⟨⟨removed, g⟩, hok, hr, hweb, -, hzero, hpos⟩ := hstep
  refine ⟨if removed = 0 then none else some { s with graph := g }, ?_, ?_⟩
  · rw [State.removeWires, List.foldlM_map, hok]
    rfl
  · by_cases h0 : removed = 0
    · exact .inl ⟨if_pos h0, (hzero h0).2⟩
    · exact .inr ⟨_, if_neg h0, hr, hweb, hpos h0⟩

end

end Extraction.State

end ZXRewriting
