import ZXRewriting.Proofs.Diagram.Rules

/-!
# Edits without faults

An edit of a diagram is a fault only if a spider it names is not there, or if it joins a spider to
itself. So whether a program of edits comes to a fault hangs on which spiders there are and on their
kinds, not on the edges between them: `Bears κ d` says that a coherent diagram has at least the
spiders that `κ` gives a kind to, and each edit is shown to lead from such diagrams to such diagrams.
-/

namespace ZXRewriting

open Function (update update_self update_of_ne)

namespace Diagram

variable {d : Diagram} {κ : Vertex → Option SpiderKind} {k : SpiderKind} {p : Phase} {s t v : Vertex}
  {vs : List Vertex}

/-- A coherent diagram with at least the spiders that have a kind by `κ`, each of that kind. -/
structure Bears (κ : Vertex → Option SpiderKind) (d : Diagram) : Prop where
  coherent : d.Coherent
  kind : ∀ v k, κ v = some k → d.web.kind v = some k

theorem Coherent.bears (hd : d.Coherent) : Bears d.web.kind d := ⟨hd, fun _ _ => id⟩

namespace Bears

theorem has (h : Bears κ d) (hv : (κ v).isSome) : d.web.Has v := by
  obtain ⟨k, hk⟩ := Option.isSome_iff_exists.1 hv
  rw [Web.Has, h.kind v k hk]
  rfl

/-- Other data, with the same spiders. -/
theorem of_kinds {d' : Diagram} (h : Bears κ d) (hd' : d'.Coherent) (hkind : d'.web.kind = d.web.kind) :
    Bears κ d' :=
  ⟨hd', fun v k hk => hkind ▸ h.kind v k hk⟩

theorem of_gives {x : Except Fault Diagram} {w : Web} {l : Layout} (h : Bears κ d) (hx : Gives x w l)
    (hkind : w.kind = d.web.kind) : Attains x (Bears κ) := by
  obtain ⟨d', rfl, hd', rfl, -⟩ := hx
  exact .ok (h.of_kinds hd' hkind)

theorem setPhase (h : Bears κ d) (v : Vertex) (p : Phase) : Bears κ (d.setPhase v p) :=
  ⟨⟨h.coherent.wf, h.coherent.has⟩, h.kind⟩

theorem addToPhase (h : Bears κ d) (v : Vertex) (p : Phase) : Bears κ (d.addToPhase v p) :=
  h.setPhase v _

theorem place (h : Bears κ d) (v : Vertex) (qubit column) : Bears κ (d.place v qubit column) :=
  ⟨h.coherent.place v qubit column, h.kind⟩

/-- A spider that is there comes to be of another kind. -/
theorem setKind (h : Bears κ d) (hv : (κ v).isSome) (k : SpiderKind) : (d.setKind v k).Coherent := by
  have hkinds : (d.setKind v k).kinds = d.kinds.insert v k := by
    unfold Diagram.setKind
    split <;> rfl
  have hgraph : (d.setKind v k).graph = d.graph := by
    unfold Diagram.setKind
    split <;> rfl
  refine ⟨hgraph ▸ h.coherent.wf, fun u => ?_⟩
  rw [hgraph, ← h.coherent.has]
  change ((d.setKind v k).kinds[u]?).isSome ↔ _
  rw [hkinds, congrFun (VertexMap.insert_eq d.kinds v k) u, Function.update_apply]
  split
  · next hu => exact iff_of_true rfl (hu ▸ h.has hv)
  · rfl

theorem addWire (h : Bears κ d) (hs : (κ s).isSome) (ht : (κ t).isSome) (hst : s ≠ t) :
    Attains (d.addWire s t) (Bears κ) :=
  h.of_gives (Gives.addWire h.coherent (h.has hs) (h.has ht) hst) rfl

/-- Wires from one spider to others. -/
theorem wireTo (h : Bears κ d) (hv : (κ v).isSome) (hvs : ∀ u ∈ vs, (κ u).isSome ∧ v ≠ u) :
    Attains (vs.foldlM (fun d u => d.addWire v u) d) (Bears κ) :=
  .foldlM h fun u hu _ h => h.addWire hv (hvs u hu).1 (hvs u hu).2

theorem removeWires (h : Bears κ d) (hs : (κ s).isSome) (t : Vertex) (m : ℕ) :
    Attains (d.removeWires s t m) fun r => Bears κ r.2 := by
  obtain ⟨n, d', hok, hd', hweb, -⟩ := Gives.removeWires h.coherent (h.has hs) t m
  exact ⟨(n, d'), hok, h.of_kinds hd' (by rw [hweb]; rfl)⟩

theorem removeSpider (h : Bears κ d) (hv : (κ v).isSome) :
    Attains (d.removeSpider v) (Bears (update κ v none)) := by
  obtain ⟨d', hok, hd', hweb, -⟩ := Gives.removeSpider h.coherent (h.has hv)
  refine ⟨d', hok, hd', fun u k hk => ?_⟩
  rw [hweb, Web.kind_remove]
  rw [Function.update_apply] at hk ⊢
  split at hk
  · cases hk
  · next hu => rw [if_neg hu, h.kind u k hk]

theorem addSpider (h : Bears κ d) (k : SpiderKind) (p : Phase) (hvs : ∀ u ∈ vs, (κ u).isSome) :
    Attains (d.addSpider k p vs) fun r => Bears κ r.2 := by
  obtain ⟨d', hok, hd', hweb, -⟩ := Gives.addSpider h.coherent k p fun u hu => h.has (hvs u hu)
  refine ⟨(d.web.next, d'), hok, hd', fun u k' hk => ?_⟩
  have hold : ∀ (us : List Vertex) (w : Web),
      (us.foldl (fun w u => w.addEdges d.web.next u .plain 1) w).kind = w.kind := fun us => by
    induction us with
    | nil => exact fun w => rfl
    | cons u rest ih => exact fun w => ih _
  have hne : u ≠ d.web.next := h.coherent.valid.ne_next (h.has (by rw [hk]; rfl))
  change d'.web.kind u = some k'
  rw [hweb, hold, Web.kind_addNode, update_of_ne hne, h.kind u k' hk]

theorem addSplits (h : Bears κ d) (hs : (κ s).isSome) (ht : (κ t).isSome) (k : SpiderKind) (p : Phase)
    (m : ℕ) : Attains (d.addSplits s t k p m) fun r => Bears κ r.2 := by
  induction m generalizing d with
  | zero => exact .ok h
  | succ m ih =>
    have hends : ∀ u ∈ [s, t], (κ u).isSome := by simp [hs, ht]
    rw [Diagram.addSplits]
    refine (h.addSpider k p hends).bind fun r hr => ?_
    exact (ih (hr.place r.1 _ _)).bind fun r' hr' => .ok hr'

theorem insertSpider (h : Bears κ d) (hs : (κ s).isSome) (ht : (κ t).isSome) (k : SpiderKind)
    (p : Phase) : Attains (d.insertSpider s t k p) fun r => Bears κ r.2 := by
  obtain ⟨graph, hok, hgraph⟩ :=
    Multigraph.removeKind_spec h.coherent.wf ((h.coherent.has s).1 (h.has hs)) t .plain
  obtain ⟨d', hd', hco, hweb, -⟩ := Gives.rewired h.coherent hgraph
  have hcut : Bears κ d' := h.of_kinds hco (by rw [hweb])
  rw [Diagram.insertSpider, hok]
  rw [← Except.ok.inj hd'] at hcut
  exact hcut.addSplits hs ht k p _

/-- New spiders on the wires between one spider and others. -/
theorem insertAround (h : Bears κ d) (hv : (κ v).isSome) (hvs : ∀ u ∈ vs, (κ u).isSome)
    (k : SpiderKind) (p : Phase) :
    Attains (vs.foldlM (fun d u => return (← d.insertSpider v u k p).2) d) (Bears κ) :=
  .foldlM h fun u hu _ h => (h.insertSpider hv (hvs u hu) k p).bind fun _ hr => .ok hr

end Bears

/-! ### Reading -/

section

variable (hd : d.Coherent)

theorem exists_kind (hv : d.web.Has v) : ∃ k, d.kind v = .ok k ∧ d.web.kind v = some k := by
  obtain ⟨k, hk⟩ := Option.isSome_iff_exists.1 hv
  exact ⟨k, kind_eq hk, hk⟩

include hd

theorem wires_eq (hv : d.web.Has v) (t : Vertex) : d.wires v t = .ok (d.web.count v t .plain) :=
  Multigraph.multiplicity_eq ((hd.has v).1 hv)

/-- What is asked of the neighbours of a spider is asked of spiders. -/
theorem neighborSet_has (hv : d.web.Has v) :
    d.neighborSet v = .ok (d.web.nearby v) ∧ ∀ u ∈ d.web.nearby v, d.web.Has u :=
  ⟨neighborSet_eq hd hv, fun _ => hd.valid.has_of_mem_nearby⟩

theorem mem_spiders : v ∈ d.spiders ↔ d.web.Has v :=
  Multigraph.mem_vertices.trans (hd.has v).symm

theorem all_contains_iff {m : Match} : m.all d.contains = true ↔ ∀ v ∈ m, d.web.Has v := by
  simp only [List.all_eq_true, contains_eq hd, decide_eq_true_iff]

end

end Diagram

end ZXRewriting
