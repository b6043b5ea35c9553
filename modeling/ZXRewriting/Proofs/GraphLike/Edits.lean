import ZXRewriting.Proofs.Diagram.Web

/-!
# Edits of graph-like diagrams

What each way of editing a graph-like diagram does to its web and to its master. `Gives` is the
form of these statements: a program ends with a coherent diagram that has the given web and
master. A sequence of edits is a sequence of functions on webs (`Gives.bind`), and a loop of
edits a fold (`Gives.foldlM`).
-/

namespace ZXRewriting

open Function (update)
open Multigraph (SamePair)

/-! ### Edits of webs -/

namespace Web

variable {w : Web} {s t v : Vertex} {k : EdgeKind}

/-- Adds an edge between two vertices and reduces what becomes of it and of the edge that is
    there. -/
def addReduced (w : Web) (s t : Vertex) (k : EdgeKind) : Web :=
  if s = t then if k = .hadamard then w.addToPhase s .pi else w
  else match w.link s t with
    | none => w.addEdges s t k 1
    | some old => match old, k with
      | .plain, .plain => w
      | .hadamard, .hadamard => w.cut s t
      | .hadamard, .plain => (w.setKind s t .plain).addToPhase s .pi
      | .plain, .hadamard => w.addToPhase s .pi

/-- Whether adding an edge makes a half turn: a Hadamard edge from a vertex to itself does, and an
    edge beside one of the other kind. -/
def MakesTurn (w : Web) (s t : Vertex) (k : EdgeKind) : Prop :=
  if s = t then k = .hadamard else w.link s t = some k.opposite

/-- Adds a Hadamard edge between two Z spiders to those there are, two of which cancel. An edge
    from a spider to itself is a phase of pi. -/
def toggle (w : Web) (s t : Vertex) : Web :=
  if s = t then w.addToPhase s .pi
  else w.setCount s t fun
    | .plain => 0
    | .hadamard => 1 - w.count s t .hadamard

/-- Turns the phase of a spider, and the sign it is carried with, into the opposite. -/
def negatePhase (w : Web) (v : Vertex) : Web :=
  { w.setPhase v (-w.phase v) with
    carrier := update w.carrier v ((w.carrier v).map fun c => ⟨c.spider, -c.sign⟩) }

/-- Has a spider carried in place of another one. -/
def moveCarrier (w : Web) (source target : Vertex) : Web :=
  match w.carrier source with
  | none => w
  | some c => { w with carrier := update (update w.carrier source none) target (some c) }

/-- Has `keep` carried for `gone` too. -/
def mergeCarriers (w : Web) (keep gone : Vertex) : Web :=
  match w.carrier gone with
  | none => w
  | some c =>
    let dropped := update w.carrier gone none
    { w with carrier := match dropped keep with
      | none => update dropped keep (some c)
      | some _ => dropped }

/-- The master after `keep` has come to be carried for `gone` too. -/
def mergedMaster (w : Web) (m : Diagram) (keep gone : Vertex) : Diagram :=
  match w.carrier gone with
  | none => m
  | some c => match update w.carrier gone none keep with
    | none => m
    | some k =>
      if k.spider = c.spider then m else m.fusePhase c.spider k.spider (k.sign * c.sign)

@[simp] theorem makesTurn_self : w.MakesTurn s s k ↔ k = .hadamard := by rw [MakesTurn, if_pos rfl]

theorem makesTurn_iff (hst : s ≠ t) : w.MakesTurn s t k ↔ w.link s t = some k.opposite := by
  rw [MakesTurn, if_neg hst]

/-- What adding an edge comes to, by the edge that is there. -/
theorem addReduced_cases {P : Web → Prop} (hloop : s = t → k = .plain → P w)
    (hturn : s = t → k = .hadamard → P (w.addToPhase s .pi))
    (hnew : s ≠ t → w.link s t = none → P (w.addEdges s t k 1))
    (hplain : s ≠ t → w.link s t = some .plain → k = .plain → P w)
    (hcancel : s ≠ t → w.link s t = some .hadamard → k = .hadamard → P (w.cut s t))
    (hflip : s ≠ t → w.link s t = some .hadamard → k = .plain →
      P ((w.setKind s t .plain).addToPhase s .pi))
    (hbeside : s ≠ t → w.link s t = some .plain → k = .hadamard → P (w.addToPhase s .pi)) :
    P (w.addReduced s t k) := by
  rw [addReduced]
  split
  · next h =>
    cases k
    · exact hloop h rfl
    · exact hturn h rfl
  · next h =>
    cases hl : w.link s t with
    | none => exact hnew h hl
    | some old =>
      cases old <;> cases k
      · exact hplain h hl rfl
      · exact hbeside h hl rfl
      · exact hflip h hl rfl
      · exact hcancel h hl rfl

/-- Without a plain edge, and with at most one Hadamard edge, adding one toggles it. -/
theorem addReduced_hadamard (hplain : w.count s t .plain = 0)
    (hsingle : w.count s t .hadamard ≤ 1) : w.addReduced s t .hadamard = w.toggle s t := by
  have hcount {m : ℕ} (h : 1 - w.count s t .hadamard = m) (hst : s ≠ t) : w.toggle s t =
      w.setCount s t fun | .plain => 0 | .hadamard => m := by
    rw [toggle, if_neg hst, h]
  refine addReduced_cases (P := (· = w.toggle s t)) (fun _ hk => by cases hk)
    (fun h _ => by rw [toggle, if_pos h]) (fun hst hl => ?_) (fun _ _ hk => by cases hk)
    (fun hst hl _ => ?_) (fun _ _ hk => by cases hk) fun _ hl _ => ?_
  · have hzero : w.count s t .hadamard = 0 := by
      by_contra hne
      simp [link, hplain, Nat.pos_of_ne_zero hne] at hl
    rw [hcount (by rw [hzero]) hst, addEdges]
    congr 1
    funext k
    cases k <;> simp [hplain, hzero]
  · have hone : w.count s t .hadamard = 1 := by
      refine Nat.le_antisymm hsingle (Nat.pos_of_ne_zero fun h => ?_)
      simp [link, hplain, h] at hl
    rw [hcount (by rw [hone]) hst, cut]
    congr 1
    funext k
    cases k <;> rfl
  · simp [link, hplain] at hl

/-- Telling who is carried changes the carriers only. -/
theorem exists_mergeCarriers (w : Web) (s t : Vertex) :
    ∃ c, w.mergeCarriers s t = { w with carrier := c } := by
  rw [mergeCarriers]
  split
  · exact ⟨w.carrier, rfl⟩
  · exact ⟨_, rfl⟩

theorem Valid.toggle (hw : w.Valid) (hs : w.Has s) (ht : w.Has t) : (w.toggle s t).Valid := by
  rw [Web.toggle]
  split
  · exact hw.setPhase s _
  · next h => exact hw.setCount hs ht h _

@[simp] theorem next_toggle : (w.toggle s t).next = w.next := by
  rw [toggle]
  split <;> rfl

@[simp] theorem kind_toggle : (w.toggle s t).kind = w.kind := by
  rw [toggle]
  split <;> rfl

@[simp] theorem kind_negatePhase : (w.negatePhase v).kind = w.kind := rfl

@[simp] theorem kind_moveCarrier : (w.moveCarrier s t).kind = w.kind := by
  rw [moveCarrier]
  split <;> rfl

@[simp] theorem kind_mergeCarriers : (w.mergeCarriers s t).kind = w.kind := by
  rw [mergeCarriers]
  split <;> rfl

end Web

namespace GraphLike

variable {g g' : GraphLike} {w w' : Web} {m m' : Diagram} {s t v : Vertex} {p : Phase}
  {kind : EdgeKind}

/-- A program ends with a coherent diagram that has the given web and master. -/
def Gives (x : Except Fault GraphLike) (w : Web) (m : Diagram) : Prop :=
  ∃ g, x = .ok g ∧ g.Coherent ∧ g.web = w ∧ g.master = m

namespace Gives

theorem ok (h : g.Coherent) : Gives (.ok g) g.web g.master := ⟨g, rfl, h, rfl, rfl⟩

theorem pure (h : g.Coherent) (hw : g.web = w) (hm : g.master = m) : Gives (.ok g) w m :=
  ⟨g, rfl, h, hw, hm⟩

/-- A sequence of two edits. -/
theorem bind {x : Except Fault GraphLike} {f : GraphLike → Except Fault GraphLike}
    (h : Gives x w m)
    (hf : ∀ g, g.Coherent → g.web = w → g.master = m → Gives (f g) w' m') :
    Gives (x >>= f) w' m' := by
  obtain ⟨g, rfl, hg, hw, hm⟩ := h
  exact hf g hg hw hm

/-- A loop of edits, each of which can be made on the webs that satisfy `P` and leaves such. -/
theorem foldlM {α : Type} {f : GraphLike → α → Except Fault GraphLike} {F : Web → α → Web}
    (P : Web → Prop) (l : List α) (hg : g.Coherent) (hP : P g.web)
    (step : ∀ a ∈ l, ∀ g, g.Coherent → P g.web →
      Gives (f g a) (F g.web a) g.master ∧ P (F g.web a)) :
    Gives (l.foldlM f g) (l.foldl F g.web) g.master ∧ P (l.foldl F g.web) := by
  induction l generalizing g with
  | nil => exact ⟨.ok hg, hP⟩
  | cons a rest ih =>
    obtain ⟨⟨g₁, h₁, hg₁, hw₁, hm₁⟩, hP₁⟩ := step a List.mem_cons_self g hg hP
    rw [List.foldlM_cons, h₁, List.foldl_cons, ← hw₁, ← hm₁]
    exact ih hg₁ (hw₁ ▸ hP₁) fun b hb => step b (List.mem_cons_of_mem a hb)

end Gives

/-! ### Phases and carriers -/

theorem web_setPhase : (g.setPhase v p).web = g.web.setPhase v p := by
  refine Web.ext rfl rfl (funext fun u => ?_) rfl rfl rfl rfl
  rw [Web.phase_setPhase, Function.update_apply]
  refine (Diagram.phase_setPhase _ _ _ _).trans ?_
  simp only [eq_comm]
  rfl

theorem web_addToPhase : (g.addToPhase v p).web = g.web.addToPhase v p := web_setPhase

theorem Coherent.setPhase (hg : g.Coherent) (v : Vertex) (p : Phase) :
    (g.setPhase v p).Coherent := ⟨hg.wf, hg.has⟩

theorem Coherent.addToPhase (hg : g.Coherent) (v : Vertex) (p : Phase) :
    (g.addToPhase v p).Coherent := ⟨hg.wf, hg.has⟩

theorem web_negatePhase : (g.negatePhase v).web = g.web.negatePhase v := by
  have hphase : (g.setPhase v (-g.phase v)).web.phase = update g.phase v (-g.phase v) := by
    rw [web_setPhase]
    rfl
  rw [negatePhase, Web.negatePhase, show g.web.carrier v = g.carriers[v]? from rfl,
    show (g.setPhase v (-g.phase v)).carriers[v]? = g.carriers[v]? from rfl]
  cases h : g.carriers[v]? with
  | none =>
    have hsame : update g.web.carrier v none = g.web.carrier := by
      rw [show (none : Option Carrier) = g.web.carrier v from h.symm, Function.update_eq_self]
    exact Web.ext rfl rfl hphase rfl rfl rfl hsame.symm
  | some c => exact Web.ext rfl rfl hphase rfl rfl rfl (VertexMap.insert_eq g.carriers v _)

theorem Coherent.negatePhase (hg : g.Coherent) (v : Vertex) : (g.negatePhase v).Coherent := by
  rw [GraphLike.negatePhase]
  split <;> exact ⟨hg.wf, hg.has⟩

@[simp] theorem master_negatePhase : (g.negatePhase v).master = g.master := by
  rw [negatePhase]
  split <;> rfl

theorem web_moveCarrier : (g.moveCarrier s t).web = g.web.moveCarrier s t := by
  rw [moveCarrier, Web.moveCarrier, show g.web.carrier s = g.carriers[s]? from rfl]
  cases g.carriers[s]? with
  | none => rfl
  | some c =>
    refine Web.ext rfl rfl rfl rfl rfl rfl ?_
    exact (VertexMap.insert_eq (g.carriers.erase s) t c).trans
      (congrArg (update · t (some c)) (VertexMap.erase_eq g.carriers s))

theorem Coherent.moveCarrier (hg : g.Coherent) (s t : Vertex) : (g.moveCarrier s t).Coherent := by
  rw [GraphLike.moveCarrier]
  split <;> exact ⟨hg.wf, hg.has⟩

@[simp] theorem master_moveCarrier : (g.moveCarrier s t).master = g.master := by
  rw [moveCarrier]
  split <;> rfl

theorem Coherent.mergeCarriers (hg : g.Coherent) (s t : Vertex) :
    (g.mergeCarriers s t).Coherent := by
  rw [GraphLike.mergeCarriers]
  split
  · exact hg
  · dsimp only
    split
    · exact ⟨hg.wf, hg.has⟩
    · split <;> exact ⟨hg.wf, hg.has⟩

private theorem getElem?_erase_carriers (keep gone : Vertex) :
    (g.carriers.erase gone)[keep]? = update g.web.carrier gone none keep :=
  congrFun (VertexMap.erase_eq g.carriers gone) keep

theorem web_mergeCarriers : (g.mergeCarriers s t).web = g.web.mergeCarriers s t := by
  rw [mergeCarriers, Web.mergeCarriers, show g.web.carrier t = g.carriers[t]? from rfl]
  cases g.carriers[t]? with
  | none => rfl
  | some c =>
    dsimp only
    rw [getElem?_erase_carriers]
    cases update g.web.carrier t none s with
    | none =>
      refine Web.ext rfl rfl rfl rfl rfl rfl ?_
      exact (VertexMap.insert_eq (g.carriers.erase t) s c).trans
        (congrArg (update · s (some c)) (VertexMap.erase_eq g.carriers t))
    | some k =>
      dsimp only
      split <;> exact Web.ext rfl rfl rfl rfl rfl rfl (VertexMap.erase_eq g.carriers t)

theorem master_mergeCarriers :
    (g.mergeCarriers s t).master = g.web.mergedMaster g.master s t := by
  rw [mergeCarriers, Web.mergedMaster, show g.web.carrier t = g.carriers[t]? from rfl]
  cases g.carriers[t]? with
  | none => rfl
  | some c =>
    dsimp only
    rw [getElem?_erase_carriers]
    cases update g.web.carrier t none s with
    | none => rfl
    | some k =>
      dsimp only
      split <;> rfl

/-! ### Spiders -/

theorem web_addSpider {q c} (g : GraphLike) (p : Phase) :
    (g.addSpider p q c).2.web = g.web.addSpider p := by
  refine Web.ext (Multigraph.nextVertex_addVertex _) (funext fun u => ?_) (funext fun u => ?_)
    (funext fun a => funext fun b => funext fun k => Multigraph.count_addVertex _ _ _ _) rfl rfl rfl
  · exact congrFun (VertexMap.insert_eq g.kinds g.graph.nextVertex .z) u
  · change ((g.phases.insert g.graph.nextVertex p)[u]?).getD .zero = _
    rw [congrFun (VertexMap.insert_eq g.phases g.graph.nextVertex p) u, Web.phase_addSpider,
      Function.update_apply, Function.update_apply]
    change _ = if u = g.graph.nextVertex then p else g.phase u
    split <;> rfl

@[simp] theorem fst_addSpider {qubit column} : (g.addSpider p qubit column).1 = g.web.next := rfl

@[simp] theorem master_addSpider {qubit column} :
    (g.addSpider p qubit column).2.master = g.master := rfl

theorem Coherent.addSpider {q c} (hg : g.Coherent) (p : Phase) :
    (g.addSpider p q c).2.Coherent := by
  refine ⟨hg.wf.addVertex, fun u => ?_⟩
  rw [web_addSpider]
  change _ ↔ g.graph.addVertex.2.contains u
  rw [Multigraph.contains_addVertex, Web.Has, Web.kind_addSpider]
  by_cases h : u = g.graph.nextVertex
  · simp [h, Diagram.web]
  · rw [Function.update_of_ne (show u ≠ g.web.next from h), decide_eq_false h, Bool.false_or]
    exact hg.has u

theorem Gives.removeSpider (hg : g.Coherent) (hv : g.web.Has v) :
    Gives (g.removeSpider v) (g.web.remove v) g.master := by
  obtain ⟨graph, hok, h⟩ := Multigraph.removeVertex_spec hg.wf ((hg.has v).1 hv)
  have hkinds (u : Vertex) : (g.kinds.erase v)[u]? = update g.web.kind v none u :=
    congrFun (VertexMap.erase_eq g.kinds v) u
  refine ⟨{ g with toDiagram := { g.toDiagram with
    graph
    kinds := g.kinds.erase v
    phases := g.phases.erase v
    carriers := g.carriers.erase v
    layout := g.layout.remove v } }, ?_, ⟨h.wf, fun u => ?_⟩, ?_, rfl⟩
  · rw [GraphLike.removeSpider, Diagram.removeSpider, hok]
    rfl
  · change ((g.kinds.erase v)[u]?).isSome ↔ graph.contains u
    rw [hkinds, h.contains, Bool.and_eq_true, ← hg.has, Web.Has]
    by_cases hu : u = v <;> simp [hu]
  · refine Web.ext h.next (funext hkinds) (funext fun u => ?_)
      (funext fun a => funext fun b => funext fun k => h.count a b k) rfl rfl
      (VertexMap.erase_eq g.carriers v)
    change ((g.phases.erase v)[u]?).getD .zero = _
    rw [congrFun (VertexMap.erase_eq g.phases v) u, Web.phase_remove, Function.update_apply,
      Function.update_apply]
    split <;> rfl

/-! ### Edges -/

/-- Other edges between the same spiders. -/
theorem Gives.rewired {graph : Multigraph} {c : Vertex → Vertex → EdgeKind → ℕ} (hg : g.Coherent)
    (h : Multigraph.Rewired g.graph graph c) :
    Gives (.ok { g with toDiagram := { g.toDiagram with graph } }) { g.web with count := c }
      g.master := by
  refine ⟨_, rfl, ⟨h.wf, fun u => ?_⟩, ?_, rfl⟩
  · rw [h.contains, ← hg.has]
    rfl
  · exact Web.ext h.next rfl rfl
      (funext fun a => funext fun b => funext fun k => h.count a b k) rfl rfl rfl

theorem Gives.addEdges (hg : g.Coherent) (hs : g.web.Has s) (ht : g.web.Has t) (hst : s ≠ t)
    (kind : EdgeKind) (m : ℕ) : Gives (do return { g with graph := ← g.graph.addEdges s t kind m })
      (g.web.addEdges s t kind m) g.master := by
  obtain ⟨graph, hok, h⟩ :=
    Multigraph.addEdges_spec hg.wf ((hg.has s).1 hs) ((hg.has t).1 ht) hst kind m
  obtain ⟨g', hg', hco, hw, hm⟩ := Gives.rewired hg h
  refine ⟨g', ?_, hco, hw.trans (Web.withCount_eq (fun k => ?_) (fun k => ?_) fun a b k hab => ?_), hm⟩
  · rw [hok]
    exact hg'
  · simp [SamePair, Diagram.web]
  · simp [SamePair, Diagram.web, hg.wf.symm t s]
  · simp [hab, Diagram.web]

theorem Gives.addEdge (hg : g.Coherent) (hs : g.web.Has s) (ht : g.web.Has t) (hst : s ≠ t)
    (kind : EdgeKind) : Gives (g.addEdge s t kind) (g.web.addEdges s t kind 1) g.master :=
  Gives.addEdges hg hs ht hst kind 1

theorem Gives.removeEdge (hg : g.Coherent) (hs : g.web.Has s) (t : Vertex) :
    Gives (g.removeEdge s t) (g.web.cut s t) g.master := by
  obtain ⟨graph, hok, h⟩ := Multigraph.disconnect_spec hg.wf ((hg.has s).1 hs) t
  obtain ⟨g', hg', hco, hw, hm⟩ := Gives.rewired hg h
  refine ⟨g', ?_, hco, hw.trans (Web.withCount_eq (fun k => ?_) (fun k => ?_) fun a b k hab => ?_), hm⟩
  · rw [GraphLike.removeEdge, hok]
    exact hg'
  · simp [SamePair]
  · simp [SamePair]
  · simp [hab, Diagram.web]

theorem Gives.setEdgeKind (hg : g.Coherent) (hs : g.web.Has s) (ht : g.web.Has t) (hst : s ≠ t)
    (kind : EdgeKind) : Gives (g.setEdgeKind s t kind) (g.web.setKind s t kind) g.master := by
  obtain ⟨graph, hok, h⟩ :=
    Multigraph.setEdgeKind_spec hg.wf ((hg.has s).1 hs) ((hg.has t).1 ht) hst kind
  obtain ⟨g', hg', hco, hw, hm⟩ := Gives.rewired hg h
  refine ⟨g', ?_, hco, hw.trans (Web.withCount_eq (fun k => ?_) (fun k => ?_) fun a b k hab => ?_), hm⟩
  · rw [GraphLike.setEdgeKind, hok]
    exact hg'
  · simp [SamePair, Diagram.web, Web.joins, Multigraph.joins]
  · simp [SamePair, Diagram.web, Web.joins, Multigraph.joins]
  · simp [hab, Diagram.web]

/-- Adding an edge never fails unless there is one already, to the end of a wire. -/
theorem Gives.addReduced (hg : g.Coherent) (hs : g.web.Has s) (ht : g.web.Has t)
    (hends : g.web.link s t ≠ none → ¬g.web.IsEnd s ∧ ¬g.web.IsEnd t) (kind : EdgeKind) :
    Gives (g.addEdgeReduced s t kind) (g.web.addReduced s t kind) g.master := by
  rw [GraphLike.addEdgeReduced, Web.addReduced]
  split
  · next hst =>
    split
    · rw [← web_addToPhase]
      exact .ok (Coherent.addToPhase hg s .pi)
    · exact .ok hg
  · next hst =>
    have hkind : g.edgeKind? s t = .ok (g.web.link s t) := Diagram.edgeKind?_eq hg hs
    rw [hkind]
    cases hl : g.web.link s t with
    | none => exact .addEdge hg hs ht hst kind
    | some old =>
      obtain ⟨hse, hte⟩ := hends (by simp [hl])
      simp only [Diagram.isBoundary_eq hs, Diagram.isBoundary_eq ht, decide_eq_false hse,
        decide_eq_false hte]
      cases old <;> cases kind
      · exact .ok hg
      · change Gives (.ok (g.addToPhase s .pi)) _ _
        rw [← web_addToPhase]
        exact .ok (Coherent.addToPhase hg s .pi)
      · refine (Gives.setEdgeKind hg hs ht hst .plain).bind fun g' hg' hw' hm' => ?_
        rw [← hw', ← hm', ← web_addToPhase]
        exact .ok (Coherent.addToPhase hg' s .pi)
      · exact .removeEdge hg hs t

/-- Between Z spiders without a plain edge, adding a Hadamard edge toggles it. -/
theorem Gives.addEdgeReduced (hg : g.Coherent) (hs : g.web.IsZ s) (ht : g.web.IsZ t)
    (hplain : g.web.count s t .plain = 0) (hsingle : g.web.count s t .hadamard ≤ 1) :
    Gives (g.addEdgeReduced s t .hadamard) (g.web.toggle s t) g.master := by
  rw [← Web.addReduced_hadamard hplain hsingle]
  exact .addReduced hg hs.has ht.has (fun _ => ⟨hs.not_isEnd, ht.not_isEnd⟩) .hadamard

end GraphLike

end ZXRewriting
