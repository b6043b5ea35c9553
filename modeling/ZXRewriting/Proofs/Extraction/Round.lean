import ZXRewriting.Proofs.Extraction.RowStep

/-!
# The rounds of an extraction

After the frontier is prepared, a round pivots a gadget away or takes wires out, if need be after
adding rows (`Web.Advance`). So it takes steps of an extraction only (`State.Reached.round`), and so
does the loop (`State.Reached.runWithin`). The loop ends with an empty frontier: each output is wired to the end
of another wire. It stops short only at one of three obstacles: a spider next to two outputs, a
gadget, or a frontier of which no sum of rows has a single one (`State.Blocked`).
-/

namespace ZXRewriting

/-- What a round makes of a diagram with a prepared frontier, and of the gadget centres. -/
inductive Web.Advance (w : Web) (frontier : List (ℕ × Vertex)) (centres : List Vertex) :
    Web → List Vertex → Prop
  /-- A gadget next to the frontier is pivoted away. -/
  | pivot {p : ℕ × Vertex} {n : Vertex} (hp : p ∈ frontier) (hn : n ∈ centres) (hz : w.IsZ n)
      (hj : n ∈ w.nearby p.2) :
      w.Advance frontier centres (((w.clear p.2).clear n).pivot p.2 n) (centres.filter (· ≠ n))
  /-- The spiders that act as wires are taken out. -/
  | wires (hwire : ∃ p ∈ frontier, (w.nearby p.2).length = 2) :
      w.Advance frontier centres (frontier.foldl dropWire w) centres
  /-- Rows are added to another one before. -/
  | rows {t : ℕ × Vertex} {rows : List (ℕ × Vertex)}
      (hnone : ∀ p ∈ frontier, (w.nearby p.2).length ≠ 2) (ht : t ∈ frontier)
      (hrows : ∀ p ∈ rows, p ∈ frontier) (hnot : t ∉ rows)
      (hwire : ∃ p ∈ frontier, ((w.addRows t.2 rows).nearby p.2).length = 2) :
      w.Advance frontier centres (frontier.foldl dropWire (w.addRows t.2 rows)) centres

/-- No gadget centres come up. -/
theorem Web.Advance.subset {w w' : Web} {frontier : List (ℕ × Vertex)} {centres left : List Vertex}
    (h : w.Advance frontier centres w' left) : left ⊆ centres := by
  cases h with
  | pivot => exact List.filter_subset_self _
  | wires => exact List.Subset.refl _
  | rows => exact List.Subset.refl _

namespace Extraction.State

variable {w : Web} {s : State} {gadgets : Prop}

/-- A frontier from which nothing can be taken out. -/
structure Stuck (eliminate : Bool) (w : Web) (frontier : List (ℕ × Vertex)) : Prop
    extends w.Prepared frontier w.outputs.length where
  nonempty : frontier ≠ []
  noWire : ∀ p ∈ frontier, (w.nearby p.2).length ≠ 2
  noUnit : eliminate = true → ∀ c, (fun j => if j = c then (1 : ZMod 2) else 0) ∉
    (w.edgeMatrix frontier (w.inward frontier)).rowSpan frontier.length

/-- Why the rounds stop. -/
def Blocked (eliminate : Bool) (centres : List Vertex) (w : Web) (o : Obstacle) : Prop :=
  Shared w o ∨ centres ≠ [] ∨ ∃ frontier, Stuck eliminate w frontier

/-- What a round comes to by steps, from the diagram `w₀` and the gadget centres. -/
def Ahead (gadgets : Prop) (w w₀ : Web) (centres : List Vertex) : Round → Prop
  | .finished s => s.Reached gadgets w ∧ s.web.Prepared [] w.outputs.length
  | .next s left => s.Reached gadgets w ∧ ∃ w₁ frontier, w₀.Tidier w₁ ∧
      w₁.Prepared frontier w.outputs.length ∧ w₁.Advance frontier centres s.web left

section

variable (hw : w.InForm)
include hw

/-- The last part of a round, in which wires are taken out once more. -/
theorem Reached.retry (h : s.Reached gadgets w) (hl : s.web.Lined s.frontier)
    {w₀ : Web} {centres : List Vertex} {P : Web → Obstacle → Prop}
    (hwire : (∃ p ∈ s.frontier, (s.web.nearby p.2).length = 2) → ∃ w₁ frontier, w₀.Tidier w₁ ∧
      w₁.Prepared frontier w.outputs.length ∧
        w₁.Advance frontier centres (s.frontier.foldl Web.dropWire s.web) centres)
    (hstuck : (∀ p ∈ s.frontier, (s.web.nearby p.2).length ≠ 2) → P s.web .stuck) :
    Meets (do
      match ← s.removeWires with
      | some s => return .next s centres
      | none => s.stop .stuck : Attempt Unextracted Round)
      (Ahead gadgets w w₀ centres) (Stopped gadgets w P) := by
  obtain ⟨r, hok, hr⟩ := h.removeWires hw hl
  refine Meets.bind (P := fun r' => r' = r) (Meets.lift (Meets.of_exists ⟨r, hok, rfl⟩))
    fun r' hr' => ?_
  subst hr'
  rcases hr with ⟨rfl, hnone⟩ | ⟨s', rfl, hs', hweb, hsome⟩
  · exact ⟨⟨h.coherent, h.peels, h.qubits⟩, hstuck hnone⟩
  · exact ⟨hs', hweb ▸ hwire hsome⟩

/-- A round takes steps of an extraction only. -/
theorem Reached.round (options : Options) (h : s.Reached gadgets w) {centres : List Vertex}
    (hgadgets : centres ≠ [] → gadgets) :
    Meets (s.round options centres) (Ahead gadgets w s.web centres)
      (Stopped gadgets w (Blocked options.eliminate centres)) := by
  rw [State.round]
  refine Meets.bind ((h.prepare hw).mono (fun _ hs => hs)
    (Stopped.mono fun _ _ hs => .inl hs.1)) fun s₁ hinv => ?_
  obtain ⟨h₁, hprep, htidier⟩ := hinv
  have hform := (h₁.keeps hw).form
  have hlen := (h₁.keeps hw).outputs
  have hl := hprep.lined hform
  by_cases hempty : s₁.frontier = []
  · rw [if_pos (by simp [hempty])]
    exact ⟨h₁, hempty ▸ hprep⟩
  rw [if_neg (by simp [hempty])]
  refine Meets.bind ((h₁.removeGadget hw hl centres hgadgets).mono (fun _ hs => hs)
    (Stopped.mono fun _ _ hs => .inr (.inl hs))) fun r hinv => ?_
  obtain ⟨_, hr⟩ := hinv
  cases r with
  | some x =>
    obtain ⟨hx, hn, p, hp, hz, hj, hweb⟩ := hr x.1 x.2 rfl
    exact ⟨hx, s₁.web, s₁.frontier, htidier, hprep, hweb ▸ .pivot hp hn hz hj⟩
  | none =>
    obtain ⟨r, hok, hr⟩ := h₁.removeWires hw hl
    refine Meets.bind (P := fun r' => r' = r) (Meets.lift (Meets.of_exists ⟨r, hok, rfl⟩))
      fun r' hr' => ?_
    subst hr'
    rcases hr with ⟨rfl, hnone⟩ | ⟨s', rfl, hs', hweb, hwire⟩
    · have hopen := hprep.isOpen hform hnone
      by_cases he : options.eliminate = true
      · obtain ⟨s₂, hok₂, h₂, hf₂, ⟨t, ht, rows, hrows, hnot, hweb⟩, hunit⟩ :=
          h₁.rowStep hw hopen hempty
        have hopen₂ := hopen.addRows hform ht hrows hnot
        dsimp only
        rw [if_pos he]
        refine Meets.bind (P := fun s' => s' = s₂)
          (Meets.lift (Meets.of_exists ⟨s₂, hok₂, rfl⟩)) fun s' hs' => ?_
        subst hs'
        refine h₂.retry hw (by rw [hf₂, hweb]; exact hopen₂.toLined) (fun hwire => ?_)
          fun hnone₂ => ?_
        · rw [hf₂, hweb] at hwire ⊢
          exact ⟨s₁.web, s₁.frontier, htidier, hprep, .rows hnone ht hrows hnot hwire⟩
        · rcases hunit with ⟨p, hp, hlen⟩ | ⟨rfl, hunit⟩
          · exact absurd hlen (hnone₂ p (hf₂.symm ▸ hp))
          · exact .inr (.inr ⟨s'.frontier, ⟨hlen.symm ▸ hprep, hempty, hnone, fun _ => hunit⟩⟩)
      · dsimp only
        rw [if_neg he]
        refine Meets.bind (P := fun s' => s' = s₁) rfl fun s' hs' => ?_
        subst hs'
        refine h₁.retry hw hl (fun hp => hp.elim fun p hp => absurd hp.2 (hnone p hp.1)) fun _ =>
          .inr (.inr ⟨s'.frontier, ⟨hlen.symm ▸ hprep, hempty, hnone, fun h => absurd h he⟩⟩)
    · exact ⟨hs', s₁.web, s₁.frontier, htidier, hprep, hweb ▸ .wires hwire⟩

/-- Where the rounds stop short. -/
def Ended (gadgets : Prop) (w : Web) : Failure Unextracted → Prop
  | .fault f => f = .outOfRounds
  | .refused u => (State.mk u.rest u.circuit []).Reached gadgets w

/-- The rounds take steps of an extraction only, until the frontier is empty. -/
theorem Reached.runWithin (options : Options) (rounds : ℕ) (h : s.Reached gadgets w)
    {centres : List Vertex} (hgadgets : centres ≠ [] → gadgets) :
    Meets (s.runWithin options rounds centres)
      (fun s' => s'.Reached gadgets w ∧ s'.web.Prepared [] w.outputs.length)
      (Ended gadgets w) := by
  induction rounds generalizing s centres with
  | zero => exact rfl
  | succ rounds ih =>
    rw [State.runWithin]
    refine Meets.bind ((h.round hw options hgadgets).mono (fun _ hr => hr) fun e he => ?_)
      fun r hr => ?_
    · cases e with
      | fault => exact he.elim
      | refused u => exact he.1
    · cases r with
      | finished s' => exact hr
      | next s' left =>
        obtain ⟨hs', w₁, frontier, -, -, hadv⟩ := hr
        exact ih hs' fun hne => hgadgets fun he => hne (List.subset_nil.1 (he ▸ hadv.subset))

end

end Extraction.State

end ZXRewriting
