import ZXRewriting.Proofs.Diagram.NonClifford
import ZXRewriting.Proofs.GraphLike.OfDiagram
import ZXRewriting.Proofs.GraphLike.Stable
import ZXRewriting.Proofs.Rewriting.Rule

/-!
# What the master is told

While a graph-like diagram is made and rewritten, its spiders pass on the names that they have of
spiders of the master (`Renamed`), and the master is only ever told to move the phase of one named
spider onto another one. What both keep (`Bookkeeping`) holds of the names and of the master throughout
(`Bookkeeping.teleported`), whatever becomes of the phases of the graph-like diagram itself, and
whatever the signs are and however phases are rounded.

So the spiders and wires of the master stay as they were, its T-count does not grow
(`GraphLike.Held`), and whoever is named in it is carried by itself (`GraphLike.Entitled`).
-/

namespace ZXRewriting

open Function (update update_self update_of_ne)

/-- Only the spiders and the edges are asked for. -/
theorem Diagram.Coherent.of_frame {d m : Diagram} (hd : d.Coherent)
    (hframe : ∃ phases carriers, m = { d with phases, carriers }) : m.Coherent := by
  obtain ⟨phases, carriers, rfl⟩ := hframe
  exact ⟨hd.wf, hd.has⟩

namespace GraphLike

open Web

variable {g g' : GraphLike} {d m : Diagram} {n : ℕ} {p : Phase} {b c h s t u v keep gone : Vertex}
  {k : EdgeKind} {cs cs' : Vertex → Option Carrier}
  {I J : (Vertex → Option Carrier) → Diagram → Prop}

/-- Names that are passed on: nobody else has them, and the sign may be the opposite one. -/
def Renamed (cs cs' : Vertex → Option Carrier) : Prop :=
  ∃ f : Vertex → Vertex,
    (∀ u c, cs' u = some c → ∃ c₀, cs (f u) = some c₀ ∧ c.spider = c₀.spider ∧
      (c.sign = c₀.sign ∨ c.sign = -c₀.sign)) ∧
    ∀ u v, (cs' u).isSome → (cs' v).isSome → f u = f v → u = v

theorem Renamed.refl (cs : Vertex → Option Carrier) : Renamed cs cs :=
  ⟨id, fun _ c hu => ⟨c, hu, rfl, .inl rfl⟩, fun _ _ _ _ h => h⟩

theorem renamed_erase (cs : Vertex → Option Carrier) (v : Vertex) :
    Renamed cs (update cs v none) := by
  refine ⟨id, fun u c hu => ?_, fun _ _ _ _ h => h⟩
  rw [Function.update_apply] at hu
  split at hu
  · cases hu
  · exact ⟨c, hu, rfl, .inl rfl⟩

theorem renamed_negate {c : Carrier} (hc : cs v = some c) :
    Renamed cs (update cs v (some ⟨c.spider, -c.sign⟩)) := by
  refine ⟨id, fun u c' hu => ?_, fun _ _ _ _ h => h⟩
  rw [Function.update_apply] at hu
  split at hu
  · next he => exact ⟨c, he ▸ hc, (Option.some.inj hu) ▸ rfl, .inr ((Option.some.inj hu) ▸ rfl)⟩
  · exact ⟨c', hu, rfl, .inl rfl⟩

theorem renamed_move {c : Carrier} (hc : cs s = some c) (t : Vertex) :
    Renamed cs (update (update cs s none) t (some c)) := by
  have hold {u : Vertex} (hut : u ≠ t) (hu : (update (update cs s none) t (some c) u).isSome) :
      u ≠ s := by
    rintro rfl
    rw [update_of_ne hut, update_self] at hu
    cases hu
  refine ⟨fun u => if u = t then s else u, fun u c' hu => ?_, fun u v hu hv he => ?_⟩
  · have hus := fun hut => hold (u := u) hut (hu ▸ rfl)
    dsimp only
    split
    · next he =>
      rw [he, update_self] at hu
      exact ⟨c, hc, (Option.some.inj hu) ▸ rfl, .inl ((Option.some.inj hu) ▸ rfl)⟩
    · next hne =>
      rw [update_of_ne hne, update_of_ne (hus hne)] at hu
      exact ⟨c', hu, rfl, .inl rfl⟩
  · dsimp only at he
    split at he <;> split at he
    · next hut hvt => rw [hut, hvt]
    · next _ hvt => exact absurd he.symm (hold hvt hv)
    · next hut _ => exact absurd he (hold hut hu)
    · exact he

/-- A property of the names that spiders have and of the master, which is kept when names are passed
    on, and when the name of one spider goes and the master moves the phase onto that of another. -/
structure Bookkeeping (I : (Vertex → Option Carrier) → Diagram → Prop) : Prop where
  rename : ∀ {cs cs' m}, I cs m → Renamed cs cs' → I cs' m
  fuse : ∀ {cs m keep gone} {k c : Carrier}, I cs m → cs gone = some c → keep ≠ gone →
    cs keep = some k → k.spider ≠ c.spider →
      I (update cs gone none) (m.fusePhase c.spider k.spider (k.sign * c.sign))

theorem Bookkeeping.and (hI : Bookkeeping I) (hJ : Bookkeeping J) :
    Bookkeeping fun cs m => I cs m ∧ J cs m where
  rename h hr := ⟨hI.rename h.1 hr, hJ.rename h.2 hr⟩
  fuse h hc hne hk hdiff := ⟨hI.fuse h.1 hc hne hk hdiff, hJ.fuse h.2 hc hne hk hdiff⟩

/-- Such a property holds of the names and the master of a graph-like diagram. -/
structure Booked (I : (Vertex → Option Carrier) → Diagram → Prop) (g : GraphLike) : Prop where
  keeping : Bookkeeping I
  holds : I g.web.carrier g.master

namespace Booked

section

variable (hg : Booked I g)
include hg

/-- Names that are passed on. -/
theorem of_renamed (hr : Renamed g.web.carrier g'.web.carrier) (hm : g'.master = g.master) :
    Booked I g' :=
  ⟨hg.keeping, hm ▸ hg.keeping.rename hg.holds hr⟩

/-- Edits that have nothing to do with carriers. -/
theorem congr (hc : g'.carriers = g.carriers) (hm : g'.master = g.master) : Booked I g' :=
  ⟨hg.keeping, by
    rw [hm, show g'.web.carrier = g.web.carrier from
      funext fun v => congrArg (fun cs : VertexMap Carrier => cs[v]?) hc]
    exact hg.holds⟩

theorem negatePhase : Booked I (g.negatePhase v) := by
  refine hg.of_renamed ?_ master_negatePhase
  rw [web_negatePhase, Web.negatePhase]
  dsimp only
  cases hc : g.web.carrier v with
  | none => exact renamed_erase _ v
  | some c => exact renamed_negate hc

theorem moveCarrier : Booked I (g.moveCarrier s t) := by
  refine hg.of_renamed ?_ master_moveCarrier
  rw [web_moveCarrier, Web.moveCarrier]
  split
  · exact .refl _
  · next c hc => exact renamed_move hc t

/-- The master moves the phase of a spider onto another one, if both are named. -/
theorem mergeCarriers : Booked I (g.mergeCarriers keep gone) := by
  refine ⟨hg.keeping, ?_⟩
  rw [web_mergeCarriers, master_mergeCarriers, Web.mergeCarriers, mergedMaster]
  cases hc : g.web.carrier gone with
  | none => exact hg.holds
  | some c =>
    dsimp only
    cases hk : update g.web.carrier gone none keep with
    | none => exact hg.keeping.rename hg.holds (renamed_move hc keep)
    | some k =>
      dsimp only
      split
      · exact hg.keeping.rename hg.holds (renamed_erase _ gone)
      · next hdiff =>
        have hne : keep ≠ gone := by
          rintro rfl
          rw [update_self] at hk
          cases hk
        rw [update_of_ne hne] at hk
        exact hg.keeping.fuse hg.holds hc hne hk hdiff

theorem removeSpider : Leaves (g.removeSpider v) (Booked I) :=
  leaves_removeSpider.imp fun g' hinv => by
    obtain ⟨-, -, hc, hm⟩ := hinv
    exact hg.of_renamed (hc ▸ renamed_erase _ v) hm

theorem clearCentre : Booked I (g.clearCentre c t) := by
  rw [GraphLike.clearCentre]
  split
  · exact Booked.negatePhase (hg.congr rfl rfl)
  · exact hg

end

end Booked

theorem stable_booked : Stable (fun _ _ => True) (Booked I) where
  rewire _ _ _ h := h.congr rfl rfl
  addToPhase _ _ _ _ h := h.congr rfl rfl
  addSpider _ _ _ h := h.congr rfl rfl

namespace Booked

section

variable (hg : Booked I g)
include hg

/-! ### Rules -/

theorem pivot : Leaves (g.pivot v u) (Booked I) :=
  stable_booked.leaves_pivot hg (fun _ _ h => h.removeSpider) (fun _ _ h => h.removeSpider)
    (fun _ _ _ _ => ⟨trivial, trivial⟩) fun _ _ _ _ => trivial

theorem shiftPhase : Leaves (g.shiftPhase v) (Booked I) := by
  rw [GraphLike.shiftPhase]
  split
  · exact hg
  refine Meets.bind (stable_booked.leaves_addEdge (Booked.congr hg rfl rfl)) fun g₁ h₁ => ?_
  exact Meets.bind (P := Booked I) (stable_booked.leaves_addEdge h₁) fun g₂ h₂ => Booked.moveCarrier h₂

theorem pushThrough : Leaves (g.pushThrough v gone) (Booked I) :=
  Leaves.after fun _ _ => stable_booked.addToPhases hg.negatePhase fun _ _ => trivial

/-- The last part of fusing neighbours. -/
theorem takeOver : Leaves (do
    let g := g.addToPhase keep (g.phase gone)
    let edges := (← g.incidentEdges gone).filter (·.1 ≠ v)
    let g ← edges.foldlM (fun g (n, kind) => g.addEdgeReduced keep n kind) g
    (← (g.mergeCarriers keep gone).removeSpider v).removeSpider gone) (Booked I) := by
  refine Leaves.after fun edges _ => ?_
  refine Meets.bind (Leaves.foldlM (stable_booked.addToPhase g keep _ trivial hg) fun e _ g₁ h₁ =>
    stable_booked.leaves_addEdgeReduced h₁ trivial) fun g₁ h₁ => ?_
  exact Meets.bind h₁.mergeCarriers.removeSpider fun g₂ h₂ => h₂.removeSpider

theorem fuseNeighbors : Leaves (g.fuseNeighbors v) (Booked I) := by
  refine Leaves.after fun ends _ => ?_
  split
  · exact hg
  dsimp only
  split
  · exact Meets.bind hg.pushThrough fun g₁ h₁ => h₁.takeOver
  · exact hg.takeOver

theorem fuseGadgets : Leaves (g.fuseGadgets c u) (Booked I) := by
  refine Leaves.after fun l _ => Leaves.after fun m _ => ?_
  split
  · refine Meets.bind (Booked.removeSpider (Booked.mergeCarriers ?_)) fun g₁ h₁ => h₁.removeSpider
    exact stable_booked.addToPhase _ _ _ trivial hg.clearCentre.clearCentre
  · exact hg

end

end Booked

/-- Every rule keeps it. -/
theorem keeps_booked (rule : GraphRule) : Rule.Keeps rule (Booked I) := by
  intro g m hg _
  have hpivot {x : Except Fault GraphLike} {v u : Vertex} (hx : Leaves x (Booked I)) :
      Leaves (x >>= fun g => g.pivot v u) (Booked I) := Meets.bind hx fun g₁ h₁ => h₁.pivot
  change Leaves (rule.apply g m) (Booked I)
  rw [GraphRule.apply.eq_def]
  split
  · exact stable_booked.leaves_localComplement hg (fun _ _ h => h.removeSpider)
      fun _ _ _ _ => ⟨trivial, trivial⟩
  · exact hg.pivot
  · exact hpivot (stable_booked.leaves_shiftBoundaries hg)
  · exact hpivot hg.shiftPhase
  · exact Meets.bind (stable_booked.leaves_shiftBoundaries hg) fun g₁ h₁ => hpivot h₁.shiftPhase
  · exact hg.fuseNeighbors
  · exact hg.fuseGadgets
  · trivial

/-! ### Conversion -/

namespace Booked

section

variable (hg : Booked I g)
include hg

theorem addSpider {qubit : Option ℕ} {column : Option Floating.Double} :
    Booked I (g.addSpider p qubit column).2 := hg.congr rfl rfl

theorem addLegs {qubit : Option ℕ} {column : Option Floating.Double}
    (ends : List (Vertex × EdgeKind)) :
    Leaves (g.addLegs qubit column ends) fun r => Booked I r.2 := by
  induction ends generalizing g with
  | nil => exact hg
  | cons e rest ih =>
    obtain ⟨w, k⟩ := e
    refine Meets.bind (stable_booked.leaves_addEdge hg.addSpider) fun g₁ h₁ => ?_
    exact Meets.bind (ih h₁) fun r hr => hr

theorem addParity {b : BoxLegs} {bits : ℕ} : Leaves (addParity b g bits) (Booked I) := by
  rw [GraphLike.addParity]
  dsimp only
  split
  · exact stable_booked.addToPhase _ _ _ trivial hg
  · exact Meets.bind (stable_booked.leaves_addEdge hg.addSpider.addSpider) fun g₁ h₁ =>
      Leaves.foldlM h₁ fun _ _ _ h => stable_booked.leaves_addEdge h

theorem removeBox : Leaves (g.removeBox h) (Booked I) := by
  refine Leaves.after fun links _ => ?_
  dsimp only
  split
  · exact hg.removeSpider
  · exact hg.congr rfl rfl
  · refine Meets.bind hg.removeSpider fun g₁ h₁ => ?_
    split
    · split
      · exact stable_booked.addToPhase _ _ _ trivial h₁
      · exact h₁
    · exact stable_booked.leaves_addEdge h₁
  · refine Meets.bind hg.removeSpider fun g₁ h₁ => Meets.bind (h₁.addLegs _) fun r hr => ?_
    exact Leaves.foldlM hr fun _ _ _ h => h.addParity

theorem removeBoxes : Leaves g.removeBoxes (Booked I) :=
  Leaves.after fun _ _ => .foldlM hg fun _ _ _ h => h.removeBox

theorem recolour : Leaves (g.recolour v) (Booked I) := by
  refine Leaves.after fun κ _ => ?_
  split
  · exact Leaves.after fun links _ => Leaves.after fun cut _ => Leaves.after fun graph _ =>
      hg.congr rfl rfl
  · exact hg

theorem moveLink {l : Link} : Leaves (moveLink v g l) (Booked I) := by
  rw [GraphLike.moveLink]
  split
  · exact stable_booked.leaves_rewire hg Multigraph.leaves_addEdges
  · split
    · exact stable_booked.addToPhase _ _ _ trivial hg
    · exact hg

theorem fuseInto : Leaves (g.fuseInto v u) (Booked I) :=
  Leaves.after fun _ _ => (Leaves.foldlM (stable_booked.addToPhase _ _ _ trivial hg) fun _ _ _ h =>
    h.moveLink).bind fun _ h₁ => h₁.mergeCarriers.removeSpider

theorem fuseAround (spiders : ℕ) : Leaves (fuseAround v spiders g) (Booked I) := by
  induction spiders generalizing g with
  | zero => exact hg
  | succ spiders ih =>
    refine Leaves.after fun links _ => Leaves.after fun next _ => ?_
    split
    · exact hg
    · exact Meets.bind hg.fuseInto fun g₁ h₁ => ih h₁

theorem fuseAt : Leaves (g.fuseAt v) (Booked I) := by
  rw [GraphLike.fuseAt]
  split
  · refine Leaves.after fun b _ => ?_
    split
    · exact hg.fuseAround _
    · exact hg
  · exact hg

theorem reduceEdge {l : Link} : Leaves (g.reduceEdge s l) (Booked I) := by
  rw [GraphLike.reduceEdge]
  split
  · exact Leaves.after fun r _ => hg.congr rfl rfl
  · exact hg

end

/-- At first, every coloured spider names itself. -/
theorem start (hI : Bookkeeping I) (hd : d.Coherent) (h : I d.web.ownNames d) :
    Leaves (start d) (Booked I) := by
  obtain ⟨g, hok, -, -, -, -, -, -, -, -, hm, hc⟩ := exists_start hd
  rw [hok]
  exact ⟨hI, by rwa [hm, show g.web.carrier = d.web.ownNames from funext hc]⟩

/-- So it is once the graph-like form is made. -/
theorem ofDiagram (hI : Bookkeeping I) (hd : d.Coherent) (h : I d.web.ownNames d) :
    Leaves (ofDiagram d) (Booked I) :=
  Meets.bind (start hI hd h) fun _ h₁ => Meets.bind h₁.removeBoxes fun _ h₂ =>
    Meets.bind (Leaves.foldlM h₂ fun _ _ _ h => h.recolour) fun _ h₃ =>
      Meets.bind (Leaves.foldlM h₃ fun _ _ _ h => h.fuseAt) fun _ h₄ =>
        Leaves.foldlM h₄ fun _ _ _ h => h.reduceEdge

end Booked

/-- What holds at first, holds of the names and the master that phase teleportation ends with. -/
theorem Bookkeeping.teleported (hI : Bookkeeping I) (hd : d.Coherent) (h : I d.web.ownNames d)
    (hok : ofDiagram d = .ok g) {rounds : ℕ} (hrounds : teleportWithin rounds g = .ok g') :
    I g'.web.carrier g'.master :=
  ((leaves_teleportWithin keeps_booked ((Booked.ofDiagram hI hd h).of_ok hok) rounds).of_ok
    hrounds).holds

/-! ### What is kept -/

/-- The master is a diagram but for its phases. -/
theorem bookkeeping_frame (d : Diagram) :
    Bookkeeping fun _ m => ∃ phases carriers, m = { d with phases, carriers } where
  rename h _ := h
  fuse h _ _ _ _ := by
    obtain ⟨phases, carriers, rfl⟩ := h
    exact ⟨_, _, rfl⟩

/-- At most `n` phases of the master are no multiples of a quarter turn, and only coloured spiders
    of it are named. -/
structure Held (n : ℕ) (cs : Vertex → Option Carrier) (m : Diagram) : Prop where
  tCountLe : m.web.TCountLe n
  named : ∀ (u : Vertex) (c : Carrier), cs u = some c → m.web.IsColoured c.spider

theorem Held.start (hn : d.web.TCountLe n) : Held n d.web.ownNames d := by
  refine ⟨hn, fun u c hu => ?_⟩
  obtain ⟨hcol, rfl⟩ := ownNames_eq_some hu
  exact hcol

theorem bookkeeping_held (n : ℕ) : Bookkeeping (Held n) where
  rename h hr := by
    obtain ⟨f, hf, -⟩ := hr
    refine ⟨h.tCountLe, fun u c hu => ?_⟩
    obtain ⟨c₀, hc₀, he, -⟩ := hf u c hu
    exact he ▸ h.named (f u) c₀ hc₀
  fuse {cs m keep gone k c} h hc _ _ hdiff := by
    have hkind : (m.fusePhase c.spider k.spider (k.sign * c.sign)).web.kind = m.web.kind := rfl
    refine ⟨?_, fun u c' hu => ?_⟩
    · rw [Diagram.web_fusePhase]
      exact h.tCountLe.fusePhase (h.named gone c hc) hdiff.symm _
    · rw [Function.update_apply] at hu
      split at hu
      · cases hu
      · rw [IsColoured, hkind]
        exact h.named u c' hu

/-- Who is named is carried by itself in the master and named once, and the names in the master are
    in order. -/
structure Entitled (K : Vertex → Prop) (cs : Vertex → Option Carrier) (m : Diagram) : Prop where
  named : m.web.Named K
  sign : ∀ u c, cs u = some c → c.sign = 1 ∨ c.sign = -1
  own : ∀ u c, cs u = some c → m.web.IsOwn c.spider
  distinct : ∀ u u' c c', cs u = some c → cs u' = some c' → c.spider = c'.spider → u = u'

theorem Entitled.start (hown : d.web.carrier = d.web.ownNames) :
    Entitled d.web.IsColoured d.web.ownNames d := by
  have hnamed : d.web.Named d.web.IsColoured := .start hown
  refine ⟨hnamed, fun u c hu => hnamed.sign u c (hown ▸ hu), fun u c hu => hnamed.own u c (hown ▸ hu),
    fun u u' c c' hu hu' he => ?_⟩
  rwa [(ownNames_eq_some hu).2, (ownNames_eq_some hu').2] at he

theorem bookkeeping_entitled (K : Vertex → Prop) : Bookkeeping (Entitled K) where
  rename h hr := by
    obtain ⟨f, hf, hinj⟩ := hr
    refine ⟨h.named, fun u c hu => ?_, fun u c hu => ?_, fun u u' c c' hu hu' he => ?_⟩
    · obtain ⟨c₀, hc₀, -, hs⟩ := hf u c hu
      rcases h.sign _ c₀ hc₀ with h₀ | h₀ <;> rcases hs with hs | hs <;> simp [hs, h₀]
    · obtain ⟨c₀, hc₀, hspider, -⟩ := hf u c hu
      exact hspider ▸ h.own _ c₀ hc₀
    · obtain ⟨c₀, hc₀, hspider, -⟩ := hf u c hu
      obtain ⟨c₁, hc₁, hspider', -⟩ := hf u' c' hu'
      refine hinj u u' (hu ▸ rfl) (hu' ▸ rfl) (h.distinct _ _ c₀ c₁ hc₀ hc₁ ?_)
      rw [← hspider, ← hspider', he]
  fuse {cs m keep gone k c} h hc hne hk hdiff := by
    have hs := h.own gone c hc
    have ht := h.own keep k hk
    have hσ : k.sign * c.sign = 1 ∨ k.sign * c.sign = -1 := by
      rcases h.sign keep k hk with h₁ | h₁ <;> rcases h.sign gone c hc with h₂ | h₂ <;>
        simp [h₁, h₂]
    have hrest {u : Vertex} {c' : Carrier} (hu : update cs gone none u = some c') :
        u ≠ gone ∧ cs u = some c' := by
      rw [Function.update_apply] at hu
      split at hu
      · cases hu
      · next hug => exact ⟨hug, hu⟩
    refine ⟨?_, fun u c' hu => h.sign u c' (hrest hu).2, fun u c' hu => ?_,
      fun u u' c' c'' hu hu' => h.distinct u u' c' c'' (hrest hu).2 (hrest hu').2⟩
    · rw [Diagram.web_fusePhase]
      exact h.named.fusePhase hs ht hdiff.symm hσ
    · rw [Diagram.web_fusePhase, isOwn_fusePhase hs ht hdiff.symm]
      exact ⟨h.own u c' (hrest hu).2, fun he => (hrest hu).1 (h.distinct u gone c' c (hrest hu).2 hc he)⟩

end GraphLike

end ZXRewriting
