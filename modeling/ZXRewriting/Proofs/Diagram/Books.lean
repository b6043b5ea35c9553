import ZXRewriting.Proofs.Diagram.Circuits
import ZXRewriting.Proofs.Diagram.Sites
import ZXRewriting.Proofs.GraphLike.Stable

/-!
# What is recorded of spiders

Besides its graph, a diagram has tables of the kinds of its spiders, of their phases, of who carries
these, and of where the spiders lie. They go together (`Diagram.Booked`): exactly the spiders have a
phase, exactly the coloured ones are carried, the others have no phase, and what is not there lies
nowhere. Each edit keeps this, and so does each rule at a match that it accepts
(`Booked.leaves_apply`), and putting a gate on (`Booked.leaves_attach`). Edges have no say.
-/

namespace ZXRewriting

open Function (update update_self update_of_ne)

namespace Multigraph

variable {g : Multigraph} {v : Vertex}

theorem leaves_removeVertex : Leaves (g.removeVertex v) fun g' => g'.nextVertex = g.nextVertex := by
  refine Leaves.after fun links _ => ?_
  refine Leaves.foldlM Array.size_setIfInBounds fun l _ g' hg' => ?_
  exact leaves_modifyLinks.bind fun _ h => h.trans hg'

end Multigraph

namespace Diagram

open Web

variable {n m : ℕ} {κ : Vertex → Option SpiderKind} {d : Diagram} {s t u v : Vertex} {p : Phase}
  {kind : SpiderKind} {vs : List Vertex}

/-- A diagram on `n` wires that has the spiders of which `κ` knows the kind, and the tables of which
    go together. -/
structure Booked (n : ℕ) (κ : Vertex → Option SpiderKind) (d : Diagram) : Prop where
  kind : ∀ v k, κ v = some k → d.web.kind v = some k
  lt : ∀ v, d.web.Has v → v < d.web.next
  phased : ∀ v : Vertex, (d.phases[v]?).isSome ↔ d.web.Has v
  carried : ∀ v, (d.web.carrier v).isSome ↔ d.web.IsColoured v
  rest : ∀ v, ¬d.web.IsColoured v → d.web.phase v = .zero
  qubit : ∀ v, (d.qubit? v).isSome → d.web.Has v
  column : ∀ v, (d.column? v).isSome → d.web.Has v
  wires : d.layout.wires = n

/-- Kinds that are known stay so when the same one changes. -/
theorem known_update {f : Vertex → Option SpiderKind} (h : ∀ u k, κ u = some k → f u = some k)
    (v : Vertex) (x : Option SpiderKind) (u : Vertex) (k : SpiderKind)
    (hu : update κ v x u = some k) : update f v x u = some k := by
  rw [Function.update_apply] at hu ⊢
  split at hu
  · next he => rw [if_pos he, hu]
  · next hne => rw [if_neg hne, h u k hu]

namespace Booked

section

variable (h : Booked n κ d)
include h

/-- Less has to be known. -/
theorem mono {κ' : Vertex → Option SpiderKind} (hκ : ∀ v k, κ' v = some k → κ v = some k) :
    Booked n κ' d := { h with kind := fun v k hk => h.kind v k (hκ v k hk) }

theorem forget : Booked n (fun _ => none) d := h.mono nofun

/-- All kinds are known. -/
theorem full : Booked n d.web.kind d := { h with kind := fun _ _ hk => hk }

theorem has (hv : κ v = some kind) : d.web.Has v := by
  rw [Has, h.kind v kind hv]
  rfl

theorem isColoured (hv : κ v = some kind) (hkind : kind.isPhased) : d.web.IsColoured v := by
  rw [IsColoured, h.kind v kind hv]
  exact hkind

/-! ### Edits -/

/-- Other edges. -/
theorem rewire {graph : Multigraph} (hgraph : graph.nextVertex = d.graph.nextVertex) :
    Booked n κ { d with graph } :=
  { h with lt := fun v hv => (h.lt v hv).trans_eq hgraph.symm }

theorem leaves_addWire : Leaves (d.addWire s t) (Booked n κ) :=
  Meets.bind Multigraph.leaves_addEdges fun _ hgraph => h.rewire hgraph

theorem leaves_removeWires : Leaves (d.removeWires s t m) fun r => Booked n κ r.2 :=
  Meets.bind Multigraph.leaves_removeEdges fun _ hgraph => h.rewire hgraph

theorem leaves_wireTo : Leaves (vs.foldlM (fun d u => d.addWire v u) d) (Booked n κ) :=
  Leaves.foldlM h fun _ _ _ h => h.leaves_addWire

/-- A coloured spider gets another phase. -/
theorem setPhase (hv : κ v = some kind) (hkind : kind.isPhased) (p : Phase) :
    Booked n κ (d.setPhase v p) where
  kind := h.kind
  lt := h.lt
  phased u := by
    rw [show (d.setPhase v p).web.Has u ↔ d.web.Has u from .rfl, ← h.phased]
    change ((d.phases.insert v p)[u]?).isSome ↔ _
    rw [congrFun (VertexMap.insert_eq d.phases v p) u, Function.update_apply]
    split
    · next hu => exact iff_of_true rfl ((h.phased u).2 (hu ▸ h.has hv))
    · rfl
  carried := h.carried
  rest u hu := by
    have hne : v ≠ u := fun e => hu (e ▸ h.isColoured hv hkind)
    change (d.setPhase v p).phase u = .zero
    rw [phase_setPhase, if_neg hne]
    exact h.rest u hu
  qubit := h.qubit
  column := h.column
  wires := h.wires

/-- A coloured spider comes to be of another colour. -/
theorem setKind (hv : κ v = some kind) (hkind : kind.isPhased) {kind' : SpiderKind}
    (hkind' : kind'.isPhased) : Booked n (update κ v (some kind')) (d.setKind v kind') := by
  have hset : d.setKind v kind' = { d with
      kinds := d.kinds.insert v kind', carriers := d.carriers.insertIfNew v ⟨v, 1⟩ } := by
    rw [Diagram.setKind, if_pos hkind']
  have hk (u : Vertex) : (d.setKind v kind').web.kind u = update d.web.kind v (some kind') u := by
    rw [hset]
    exact congrFun (VertexMap.insert_eq d.kinds v kind') u
  have hhas (u : Vertex) : (d.setKind v kind').web.Has u ↔ d.web.Has u := by
    rw [Has, hk]
    exact has_paint (h.has hv)
  have hcol (u : Vertex) : (d.setKind v kind').web.IsColoured u ↔ d.web.IsColoured u := by
    rw [IsColoured, hk, Function.update_apply]
    split
    · next hu => exact iff_of_true hkind' (hu ▸ h.isColoured hv hkind)
    · rfl
  exact {
    kind := fun u k hu => by
      rw [hk]
      exact known_update h.kind v _ u k hu
    lt := fun u hu => by
      rw [hset]
      exact h.lt u ((hhas u).1 hu)
    phased := fun u => by
      rw [hhas, hset]
      exact h.phased u
    carried := fun u => by
      rw [hcol, hset, ← h.carried]
      change ((d.carriers.insertIfNew v ⟨v, 1⟩)[u]?).isSome ↔ (d.carriers[u]?).isSome
      rw [Std.ExtTreeMap.getElem?_insertIfNew]
      split
      · next hu =>
        rw [Nat.compare_eq_eq] at hu
        exact iff_of_true rfl ((h.carried u).2 (hu.1 ▸ h.isColoured hv hkind))
      · rfl
    rest := fun u hu => by
      rw [hcol] at hu
      rw [hset]
      exact h.rest u hu
    qubit := fun u hu => (hhas u).2 (h.qubit u (by rwa [hset] at hu))
    column := fun u hu => (hhas u).2 (h.column u (by rwa [hset] at hu))
    wires := by
      rw [hset]
      exact h.wires }

/-- A spider is put somewhere. -/
theorem place (hv : d.web.Has v) (qubit : Option ℕ) (column : Option Floating.Double) :
    Booked n κ (d.place v qubit column) where
  kind := h.kind
  lt := h.lt
  phased := h.phased
  carried := h.carried
  rest := h.rest
  qubit u hu := by
    change ((d.layout.place v qubit column).qubit? u).isSome at hu
    rw [Layout.qubit?_place] at hu
    split at hu
    · next he => exact he ▸ hv
    · exact h.qubit u hu
  column u hu := by
    change ((d.layout.place v qubit column).column? u).isSome at hu
    rw [Layout.column?_place] at hu
    split at hu
    · next he => exact he ▸ hv
    · exact h.column u hu
  wires := (Layout.wires_place _ _ _ _).trans h.wires

theorem leaves_removeSpider : Leaves (d.removeSpider v) (Booked n (update κ v none)) := by
  refine Meets.bind Multigraph.leaves_removeVertex fun graph hgraph => ?_
  have hkinds := VertexMap.erase_eq d.kinds v
  have hphases := VertexMap.erase_eq d.phases v
  have hqubits := VertexMap.erase_eq d.layout.qubits v
  have hcolumns := VertexMap.erase_eq d.layout.columns v
  set d' : Diagram := { d with
    graph
    kinds := d.kinds.erase v
    phases := d.phases.erase v
    carriers := d.carriers.erase v
    layout := d.layout.remove v } with hd'
  have hk : d'.web.kind = update d.web.kind v none := hkinds
  have hhas (u : Vertex) : d'.web.Has u ↔ u ≠ v ∧ d.web.Has u := by
    rw [Has, hk, Function.update_apply]
    split
    · next hu => exact iff_of_false (by simp) fun h => h.1 hu
    · next hu => exact (and_iff_right hu).symm
  have hcol (u : Vertex) : d'.web.IsColoured u ↔ u ≠ v ∧ d.web.IsColoured u := by
    rw [IsColoured, hk, Function.update_apply]
    split
    · next hu => exact iff_of_false (by simp) fun h => h.1 hu
    · next hu => exact (and_iff_right hu).symm
  have herase {α : Type} {m : VertexMap α} {u : Vertex} :
      ((m.erase v)[u]?).isSome ↔ u ≠ v ∧ (m[u]?).isSome := by
    rw [congrFun (VertexMap.erase_eq m v) u, Function.update_apply]
    split
    · next hu => exact iff_of_false (by simp) fun h => h.1 hu
    · next hu => exact (and_iff_right hu).symm
  exact {
    kind := hk ▸ known_update h.kind v none
    lt := fun u hu => (h.lt u ((hhas u).1 hu).2).trans_eq hgraph.symm
    phased := fun u => by
      rw [hhas, ← h.phased]
      exact herase
    carried := fun u => by
      rw [hcol, ← h.carried]
      exact herase
    rest := fun u hu => by
      change ((d.phases.erase v)[u]?).getD .zero = _
      rw [congrFun (VertexMap.erase_eq d.phases v) u, Function.update_apply]
      split
      · rfl
      · next hne => exact h.rest u fun hc => hu ((hcol u).2 ⟨hne, hc⟩)
    qubit := fun u hu => by
      have hu := herase.1 hu
      exact (hhas u).2 ⟨hu.1, h.qubit u hu.2⟩
    column := fun u hu => by
      have hu := herase.1 hu
      exact (hhas u).2 ⟨hu.1, h.column u hu.2⟩
    wires := h.wires }

/-- A new spider with wires. -/
theorem leaves_addSpider : Leaves (d.addSpider kind p vs) fun r =>
    Booked n κ r.2 ∧ r.2.web.Has r.1 := by
  set v := d.graph.nextVertex with hv
  have hnone : ¬d.web.Has v := fun hhas => Nat.lt_irrefl _ (h.lt v hhas)
  -- first the spider alone, with its entries in all maps; then the wires, which leave these
  set d₁ : Diagram := { d with
    graph := d.graph.addVertex.2
    kinds := d.kinds.insert v kind
    phases := d.phases.insert v (if kind.isPhased then p else .zero)
    carriers := if kind.isPhased then d.carriers.insert v ⟨v, 1⟩ else d.carriers } with hd₁
  have hk : d₁.web.kind = update d.web.kind v (some kind) := VertexMap.insert_eq d.kinds v kind
  have hhas (u : Vertex) : d₁.web.Has u ↔ u = v ∨ d.web.Has u := by
    rw [Has, hk, Function.update_apply]
    split
    · next hu => exact iff_of_true rfl (.inl hu)
    · next hu => exact (or_iff_right hu).symm
  have hcol (u : Vertex) : d₁.web.IsColoured u ↔ u = v ∧ kind.isPhased ∨ d.web.IsColoured u := by
    rw [IsColoured, hk, Function.update_apply]
    split
    · next hu =>
      have hnot : ¬d.web.IsColoured u := fun hc => hnone (hu ▸ hc.has)
      rw [or_iff_left hnot, and_iff_right hu]
      rfl
    · next hu => simp [hu, IsColoured]
  have hinsert {α : Type} {m : VertexMap α} {x : α} {u : Vertex} :
      ((m.insert v x)[u]?).isSome ↔ u = v ∨ (m[u]?).isSome := by
    rw [congrFun (VertexMap.insert_eq m v x) u, Function.update_apply]
    split
    · next hu => exact iff_of_true rfl (.inl hu)
    · next hu => exact (or_iff_right hu).symm
  have h₁ : Booked n (update κ v (some kind)) d₁ := {
    kind := hk ▸ known_update h.kind v (some kind)
    lt := fun u hu => by
      rw [show d₁.web.next = v + 1 from Multigraph.nextVertex_addVertex _]
      rcases (hhas u).1 hu with rfl | hu
      · exact Nat.lt_succ_self _
      · exact Nat.lt_succ_of_lt (h.lt u hu)
    phased := fun u => by
      rw [hhas, ← h.phased]
      exact hinsert
    carried := fun u => by
      rw [hcol, ← h.carried]
      change ((d₁.carriers)[u]?).isSome ↔ _
      rw [hd₁]
      dsimp only
      split
      · next hkind => rw [and_iff_left hkind]; exact hinsert
      · next hkind => exact (or_iff_right fun h => hkind h.2).symm
    rest := fun u hu => by
      change ((d.phases.insert v (if kind.isPhased then p else .zero))[u]?).getD .zero = _
      rw [congrFun (VertexMap.insert_eq d.phases v _) u, Function.update_apply]
      rw [hcol, not_or] at hu
      split
      · next he => rw [if_neg fun hkind => hu.1 ⟨he, hkind⟩]; rfl
      · exact h.rest u hu.2
    qubit := fun u hu => (hhas u).2 (.inr (h.qubit u hu))
    column := fun u hu => (hhas u).2 (.inr (h.column u hu))
    wires := h.wires }
  rw [Diagram.addSpider]
  refine Meets.bind h₁.leaves_wireTo fun d' h' => ⟨h'.mono fun u k hu => ?_, h'.has (update_self ..)⟩
  have hne : u ≠ v := by
    rintro rfl
    exact hnone (h.has hu)
  rw [update_of_ne hne, hu]

theorem leaves_addSplits : Leaves (d.addSplits s t kind p m) fun r => Booked n κ r.2 := by
  induction m generalizing d with
  | zero => exact h
  | succ m ih =>
    refine Meets.bind h.leaves_addSpider fun r hr => ?_
    exact Meets.bind (ih (hr.1.place hr.2 _ _)) fun r' hr' => hr'

theorem leaves_insertSpider : Leaves (d.insertSpider s t kind p) fun r => Booked n κ r.2 :=
  Meets.bind Multigraph.leaves_removeKind fun _ hgraph => (h.rewire hgraph).leaves_addSplits

theorem leaves_insertAround :
    Leaves (vs.foldlM (fun d u => return (← d.insertSpider v u kind p).2) d) (Booked n κ) :=
  Leaves.foldlM h fun _ _ _ h => Meets.bind h.leaves_insertSpider fun _ hr => hr

/-! ### Rules -/

theorem leaves_fuse (hv : κ v = some kind) (hkind : kind.isPhased) :
    Leaves (d.fuse v u) (Booked n fun _ => none) := by
  refine Leaves.after fun ns _ => ?_
  refine Meets.bind h.leaves_wireTo fun d₁ h₁ => ?_
  exact (h₁.setPhase hv hkind _).leaves_removeSpider.imp fun _ h' => h'.forget

theorem leaves_hadamard (hv : κ v = some kind) (hkind : kind.isPhased) :
    Leaves (d.hadamard v) (Booked n fun _ => none) := by
  refine Leaves.after fun ns _ => ?_
  exact Meets.bind h.leaves_insertAround fun d₁ h₁ => (h₁.setKind hv hkind rfl).forget

theorem leaves_removeIdentity : Leaves (d.removeIdentity v) (Booked n fun _ => none) := by
  refine Leaves.after fun ns _ => ?_
  refine Meets.bind h.leaves_removeSpider fun d₁ h₁ => ?_
  split
  · exact h₁.forget.leaves_addWire
  · exact trivial

theorem leaves_cancel : Leaves (d.cancel v u) (Booked n fun _ => none) := by
  have hnone := h.forget
  refine Leaves.after fun k _ => ?_
  split
  · refine Leaves.after fun ns _ => Leaves.after fun ns' _ => ?_
    refine Meets.bind (Leaves.foldlM hnone fun x _ d₁ h₁ => ?_) fun d₁ h₁ => ?_
    · exact h₁.leaves_removeSpider.imp fun _ h' => h'.forget
    · split
      · split
        · exact h₁.leaves_addWire
        · exact h₁
      · exact h₁
  · refine Leaves.after fun m _ => ?_
    exact Meets.bind hnone.leaves_removeWires fun _ hr => hr

theorem leaves_piCopy : Leaves (d.piCopy v u) (Booked n fun _ => none) := by
  refine Leaves.after fun k _ => Leaves.after fun ns _ => Leaves.after fun ns' _ => ?_
  refine Meets.bind h.forget.leaves_insertAround fun d₁ h₁ => ?_
  refine Meets.bind h₁.leaves_removeSpider fun d₂ h₂ => ?_
  split
  · exact h₂.forget.leaves_addWire
  · exact h₂.forget

theorem leaves_absorbBox (hs : κ s = none) : Leaves (absorbBox v d s) (Booked n κ) := by
  refine Leaves.after fun ns _ => ?_
  refine Meets.bind h.leaves_removeSpider fun d₁ h₁ => ?_
  rw [← hs, Function.update_eq_self] at h₁
  split
  · exact h₁.leaves_addWire
  · exact h₁

theorem leaves_changeColour (hd : d.Coherent) (hv : κ v = some kind) (hkind : kind.isPhased) :
    Leaves (d.changeColour v) (Booked n fun _ => none) := by
  obtain ⟨hs, hok, -, hne⟩ := attains_boxesAround hd (h.has hv)
  -- all that has to be known until the end is the colour of the spider
  have hv' : update (fun _ => none) v (some kind) v = some kind := update_self ..
  have h₀ : Booked n (update (fun _ => none) v (some kind)) d := h.mono fun u k hu => by
    by_cases he : u = v
    · rw [he, update_self] at hu
      rw [he, hv, hu]
    · rw [update_of_ne he] at hu
      cases hu
  rw [Diagram.changeColour, hok]
  change Leaves (hs.foldlM (absorbBox v) d >>= _) _
  refine Meets.bind (Leaves.foldlM h₀ fun s hs _ h₁ => h₁.leaves_absorbBox ?_) fun d₁ h₁ => ?_
  · rw [update_of_ne (hne s hs).2]
  · rw [kind_eq (h₁.kind v kind hv')]
    exact (h₁.setKind hv' hkind ((SpiderKind.isPhased_opposite _).trans hkind)).forget

/-- Rewriting at a match that is accepted. -/
theorem leaves_apply (hd : d.Coherent) {rule : DiagramRule} {m : Match}
    (hcheck : rule.check d m = .ok true) : Leaves (rule.apply d m) (Booked n fun _ => none) := by
  obtain ⟨hhas, hcheck⟩ := (check_iff hd).1 hcheck
  rw [DiagramRule.checkPresent.eq_def] at hcheck
  split at hcheck
  · next v u _ =>
    obtain ⟨-, ⟨k, hk, -, hphased⟩, -⟩ :=
      (checkFusion_iff hd (hhas v (by simp)) (hhas u (by simp))).1 hcheck
    exact h.full.leaves_fuse hk hphased
  · next v _ =>
    obtain ⟨k, hk, hx⟩ := of_bind_eq_ok hcheck
    obtain rfl : k = .x := eq_of_beq (Except.ok.inj hx)
    exact h.full.leaves_hadamard (kind_of_eq_ok hk) rfl
  · exact h.leaves_removeIdentity
  · exact h.leaves_cancel
  · exact h.leaves_piCopy
  · next v boxes _ =>
    obtain ⟨hcolour, -⟩ := and_eq_true_iff.1 hcheck
    simp only [checkColourChange, and_eq_true_iff] at hcolour
    obtain ⟨k, hk, hphased⟩ := isPhased_of_check hcolour.1
    exact h.full.leaves_changeColour hd hk hphased
  · cases hcheck

/-! ### Gates -/

theorem leaves_splice {side : Side} {q : ℕ} {column : Floating.Double} :
    Leaves (d.splice side q kind p column) fun r => Booked n κ r.2 := by
  refine Leaves.after fun b _ => Leaves.after fun w _ => ?_
  split
  · exact trivial
  · refine Meets.bind h.leaves_removeWires fun r hr => ?_
    exact Meets.bind hr.leaves_addSpider fun r' hr' => hr'.1.place hr'.2 _ _

theorem leaves_crossWires {side : Side} {a b : ℕ} :
    Leaves (d.crossWires side a b) (Booked n κ) := by
  refine Leaves.after fun ba _ => Leaves.after fun bb _ => Leaves.after fun wa _ =>
    Leaves.after fun wb _ => ?_
  refine Meets.bind h.leaves_removeWires fun r₁ h₁ => ?_
  refine Meets.bind h₁.leaves_removeWires fun r₂ h₂ => ?_
  exact h₂.leaves_addWire.bind fun _ h₃ => h₃.leaves_addWire

theorem leaves_attachUnchecked {side : Side} {gate : GateKind} {qubits : List ℕ} :
    Leaves (d.attachUnchecked side gate qubits p) (Booked n κ) := by
  rw [attachUnchecked.eq_def]
  dsimp only
  split
  · exact h.leaves_splice.bind fun _ hr => hr
  · exact h.leaves_splice.bind fun _ hr => hr
  · exact h.leaves_splice.bind fun _ hr => hr
  · refine h.leaves_splice.bind fun r hr => ?_
    exact hr.leaves_splice.bind fun r' hr' => hr'.leaves_addWire
  · refine h.leaves_splice.bind fun r hr => ?_
    refine hr.leaves_splice.bind fun r' hr' => ?_
    exact hr'.leaves_addSpider.bind fun r'' hr'' => hr''.1.place hr''.2 _ _
  · exact h.leaves_crossWires
  · exact trivial

/-- Putting a gate on. -/
theorem leaves_attach {side : Side} {gate : GateKind} {qubits : List ℕ} {angle : Angle}
    {convert : Bool} : Leaves (d.attach side gate qubits angle convert) (Booked n κ) := by
  refine Leaves.after fun _ _ => Leaves.after fun p _ => ?_
  exact Meets.lift (h.leaves_attachUnchecked.mono (fun _ h => h) fun _ _ => trivial)

end

end Booked

end Diagram

end ZXRewriting
