import ZXRewriting.Proofs.Diagram.Drawn
import ZXRewriting.Proofs.Diagram.Ledger

/-!
# The diagram of a circuit

Putting a gate at the outputs of a diagram as a function on webs (`Web.Put`). It succeeds for every
gate with the arity of its κ on distinct qubits that are there (`Diagram.exists_push`), and acts on
what is denoted as the gate does (`Put.amplitude`). So the diagram of a circuit is there and denotes its
unitary, up to a scalar (`Diagram.exists_ofCircuit`).
-/

namespace ZXRewriting

open Function (update update_self update_of_ne)
open Multigraph (SamePair)

namespace Web

/-- A gate put at the outputs. -/
inductive Put (w : Web) : Gate → Web → Prop
  | z {q : ℕ} {o u : Vertex} (hq : w.outputs[q]? = some o) (ht : w.Tied o u) (p : Phase) :
    Put w ⟨.zPhase, [q], p⟩ (w.splice o u .z p)
  | x {q : ℕ} {o u : Vertex} (hq : w.outputs[q]? = some o) (ht : w.Tied o u) (p : Phase) :
    Put w ⟨.xPhase, [q], p⟩ (w.splice o u .x p)
  | hadamard {q : ℕ} {o u : Vertex} (hq : w.outputs[q]? = some o) (ht : w.Tied o u) (p : Phase) :
    Put w ⟨.hadamard, [q], p⟩ (w.splice o u .box .zero)
  | cnot {q r : ℕ} {o o' u u' : Vertex} (hq : w.outputs[q]? = some o)
    (hr : w.outputs[r]? = some o') (hne : o ≠ o') (ht : w.Tied o u)
    (ht' : (w.splice o u .z .zero).Tied o' u') (p : Phase) :
    Put w ⟨.cnot, [q, r], p⟩ (((w.splice o u .z .zero).splice o' u' .x .zero).addEdges w.next
      (w.next + 1) .plain 1)
  | cz {q r : ℕ} {o o' u u' : Vertex} (hq : w.outputs[q]? = some o)
    (hr : w.outputs[r]? = some o') (hne : o ≠ o') (ht : w.Tied o u)
    (ht' : (w.splice o u .z .zero).Tied o' u') (p : Phase) :
    Put w ⟨.cz, [q, r], p⟩ (((w.splice o u .z .zero).splice o' u' .z .zero).addBetween w.next
      (w.next + 1) .box .zero)
  | swap {q r : ℕ} {o o' u u' : Vertex} (hq : w.outputs[q]? = some o)
    (hr : w.outputs[r]? = some o') (hne : o ≠ o') (ht : w.Tied o u) (ht' : w.Tied o' u')
    (p : Phase) : Put w ⟨.swap, [q, r], p⟩ (w.cross o o' u u')

variable {w w' : Web} {o o' u u' u₁ v : Vertex} {q r : ℕ} {κ : SpiderKind} {p : Phase} {g : Gate}
  {τ : Vertex → ℂ} {D : ℕ}

theorem next_splice : (w.splice o u κ p).next = w.next + 1 := rfl

theorem Drawn.kind_output (hw : w.Drawn) (hq : w.outputs[q]? = some o) : w.kind o = some .output :=
  (hw.mem_outputs o).1 (List.mem_of_getElem? hq)

/-! ### Spiders on wires -/

section Wire

variable (hw : w.Valid) (ho : w.IsEnd o) (ht : w.Tied o u)
include hw ho ht

theorem Tied.amplitude_z (p : Phase) (τ : Vertex → ℂ) : ((w.splice o u .z p).tensors τ).amplitude =
    fun b => (if b o then p.unit * τ w.next else 1) * (w.tensors τ).amplitude b := by
  rw [ht.amplitude_splice hw ho rfl]
  exact funext (SpiderKind.act_z _ _ _)

theorem Tied.amplitude_x (p : Phase) (τ : Vertex → ℂ) : ((w.splice o u .x p).tensors τ).amplitude =
    SpiderKind.x.act (p.unit * τ w.next) o (w.tensors τ).amplitude :=
  ht.amplitude_splice hw ho rfl p

theorem Tied.amplitude_hadamard (p : Phase) :
    ((w.splice o u .box p).tensors 1).amplitude = hadamardAt o (w.tensors 1).amplitude := by
  rw [ht.amplitude_splice hw ho rfl, Pi.one_apply, mul_one, SpiderKind.factor_box]
  exact SpiderKind.act_box _ _

end Wire

/-- The twists of other vertices do not matter. -/
theorem amplitude_twist_congr {σ : Vertex → ℂ} (h : ∀ v ∈ (w.tensors τ).inner, τ v = σ v) :
    (w.tensors τ).amplitude = (w.tensors σ).amplitude := by
  have hinner : (w.tensors σ).inner = (w.tensors τ).inner := tensors_inner_congr rfl rfl
  have hspin (b : Bits) : ∀ v ∈ (w.tensors τ).inner,
      (w.tensors τ).spin b v = (w.tensors σ).spin b v := fun v hv => by
    change (if b v then (w.kindAt v).factor (w.phase v) * τ v else 1) =
      if b v then (w.kindAt v).factor (w.phase v) * σ v else 1
    rw [h v hv]
  funext b
  rw [Network.amplitude, Network.amplitude, hinner]
  refine sumOver_congr fun b' _ => ?_
  rw [Network.weight, Network.weight, hinner, Finset.prod_congr rfl (hspin b')]
  rfl

/-! ### Spiders on two wires -/

/-- Another end is still one when a spider is put onto a wire. -/
theorem IsEnd.splice (hw : w.Valid) (ho' : w.IsEnd o') : (w.splice o u κ p).IsEnd o' := by
  rw [IsEnd, kind_splice, update_of_ne (hw.ne_next ho'.has)]
  exact ho'

/-- A Z spider on one wire and a spider on another one. -/
def spliceTwo (w : Web) (o u o' u' : Vertex) (κ : SpiderKind) : Web :=
  (w.splice o u .z .zero).splice o' u' κ .zero

theorem kind_spliceTwo : (w.spliceTwo o u o' u' κ).kind =
    update (update w.kind w.next (some .z)) (w.next + 1) (some κ) := rfl

theorem kind_spliceTwo_first : (w.spliceTwo o u o' u' κ).kind w.next = some .z := by
  rw [kind_spliceTwo, update_of_ne (Nat.ne_of_lt (Nat.lt_succ_self w.next)), update_self]

theorem kind_spliceTwo_second : (w.spliceTwo o u o' u' κ).kind (w.next + 1) = some κ := by
  rw [kind_spliceTwo, update_self]

section Pair

variable (hw : w.Valid) (ho' : w.IsEnd o') (hne : o ≠ o') (ht : w.Tied o u)
  (ht' : (w.splice o u .z .zero).Tied o' u')
include hw ht ht'

theorem Tied.valid_spliceTwo : (w.spliceTwo o u o' u' κ).Valid :=
  ht'.valid_splice (ht.valid_splice hw)

theorem Tied.tied_spliceTwo_second : (w.spliceTwo o u o' u' κ).Tied o' (w.next + 1) :=
  ht'.splice (ht.valid_splice hw)

include ho' hne

theorem Tied.tied_spliceTwo_first : (w.spliceTwo o u o' u' κ).Tied o w.next :=
  ht'.splice_other (ht.valid_splice hw) (ht.splice hw) hne (hw.ne_next ho'.has).symm

/-- A controlled NOT: the wire to the control is a factor of the target, which turns its bit over. -/
theorem Tied.amplitude_cnot (ho : w.IsEnd o) (b : Bits) :
    (((w.spliceTwo o u o' u' .x).addEdges w.next (w.next + 1) .plain 1).tensors 1).amplitude b =
      2 * (w.tensors 1).amplitude (update b o' (b o' ^^ b o)) := by
  have hval : (w.splice o u .z .zero).Valid := ht.valid_splice hw
  rw [(ht.tied_spliceTwo_first hw ho' hne ht').amplitude_control (ht.valid_spliceTwo hw ht')
    ((ho.splice hw).splice hval) kind_spliceTwo_first kind_spliceTwo_second, spliceTwo,
    ht'.amplitude_x hval (ho'.splice hw), amplitude_twist_congr (σ := 1)
      fun v hv => update_of_ne (Nat.ne_of_lt (mem_tensors_inner.1 hv).1.1) _ _,
    ht.amplitude_z hw ho]
  simp only [next_splice, update_self, Phase.unit_zero, one_mul, Pi.one_apply, ite_self]
  exact SpiderKind.act_flip _ _ _ b

/-- A controlled Z: the box between the two spiders says which bits bring a sign. -/
theorem Tied.amplitude_cz (ho : w.IsEnd o) (b : Bits) :
    (((w.spliceTwo o u o' u' .z).addBetween w.next (w.next + 1) .box .zero).tensors 1).amplitude b =
      EdgeKind.hadamard.value (b o) (b o') * (w.tensors 1).amplitude b := by
  have hval : (w.splice o u .z .zero).Valid := ht.valid_splice hw
  rw [(ht.tied_spliceTwo_first hw ho' hne ht').amplitude_link (ht.valid_spliceTwo hw ht')
    ((ho.splice hw).splice hval) kind_spliceTwo_first ((ho'.splice hw).splice hval)
    (ht.tied_spliceTwo_second hw ht') kind_spliceTwo_second rfl, spliceTwo,
    ht'.amplitude_z hval (ho'.splice hw), ht.amplitude_z hw ho]
  simp only [Phase.unit_zero, one_mul, Pi.one_apply, ite_self]

end Pair

/-- The web with a Z spider on one wire and a spider on another one. -/
theorem Drawn.splice_splice (hw : w.Drawn) (ho : w.kind o = some .output)
    (ho' : w.kind o' = some .output) (hne : o ≠ o') (ht : w.Tied o u)
    (ht' : (w.splice o u .z .zero).Tied o' u') (hkind : κ.isPhased = true) :
    ((w.splice o u .z .zero).splice o' u' κ .zero).Drawn ∧
      ((w.splice o u .z .zero).splice o' u' κ .zero).kind w.next = some .z ∧
      ((w.splice o u .z .zero).splice o' u' κ .zero).kind (w.next + 1) = some κ ∧
      ((w.splice o u .z .zero).splice o' u' κ .zero).Tied o w.next ∧
      ((w.splice o u .z .zero).splice o' u' κ .zero).Tied o' (w.next + 1) := by
  have hk : (w.splice o u .z .zero).kind o' = some .output := by
    rw [kind_splice, update_of_ne (hw.valid.ne_next (has_of_kind ho')), ho']
  exact ⟨(hw.splice ho ht rfl).splice hk ht' (SpiderKind.isBoundary_of_isPhased hkind),
    kind_spliceTwo_first, kind_spliceTwo_second,
    ht.tied_spliceTwo_first hw.valid (isEnd_of_output ho') hne ht',
    ht.tied_spliceTwo_second hw.valid ht'⟩

/-! ### What putting a gate does -/

theorem Put.ends (h : w.Put g w') : w'.inputs = w.inputs ∧ w'.outputs = w.outputs := by
  cases h <;> exact ⟨rfl, rfl⟩

theorem Put.drawn (h : w.Put g w') (hw : w.Drawn) : w'.Drawn := by
  cases h with
  | z hq ht p => exact hw.splice (hw.kind_output hq) ht rfl
  | x hq ht p => exact hw.splice (hw.kind_output hq) ht rfl
  | hadamard hq ht p => exact hw.splice (hw.kind_output hq) ht rfl
  | cnot hq hr hne ht ht' p =>
    obtain ⟨h₂, hz, hx, -, -⟩ := hw.splice_splice (hw.kind_output hq) (hw.kind_output hr) hne ht ht'
      (κ := .x) rfl
    refine h₂.addEdges ?_ (has_of_kind hz) ?_ (has_of_kind hx) (Nat.ne_of_lt (Nat.lt_succ_self _))
    · rw [kindAt_eq hz]
      rfl
    · rw [kindAt_eq hx]
      rfl
  | cz hq hr hne ht ht' p =>
    obtain ⟨h₂, hz, hz', -, -⟩ := hw.splice_splice (hw.kind_output hq) (hw.kind_output hr) hne ht ht'
      (κ := .z) rfl
    refine h₂.addBox ?_ (has_of_kind hz) ?_ (has_of_kind hz') (Nat.ne_of_lt (Nat.lt_succ_self _))
    · rw [kindAt_eq hz]
      rfl
    · rw [kindAt_eq hz']
      rfl
  | swap hq hr hne ht ht' p =>
    obtain ⟨u, hu, hout⟩ := hw.exists_output (hw.kind_output hq)
    obtain ⟨u', hu', hout'⟩ := hw.exists_output (hw.kind_output hr)
    obtain rfl := ht.unique hu
    obtain rfl := ht'.unique hu'
    exact hw.cross (hw.kind_output hq) ht hout (hw.kind_output hr) ht' hout' hne

theorem OnGrid.addBetween (hw : w.OnGrid D) (hp : p.OnGrid D) :
    (w.addBetween o u κ p).OnGrid D := by
  intro v
  change (update w.phase w.next (if κ.isPhased then p else .zero) v).OnGrid D
  rw [Function.update_apply]
  split_ifs
  · exact hp
  · exact Phase.onGrid_zero
  · exact hw v

theorem OnGrid.splice (hw : w.OnGrid D) (hp : p.OnGrid D) : (w.splice o u κ p).OnGrid D :=
  OnGrid.addBetween (w := w.cut o u) hw hp

theorem Put.onGrid (h : w.Put g w') (hw : w.OnGrid D) (hp : g.kind.hasPhase → g.phase.OnGrid D) :
    w'.OnGrid D := by
  cases h with
  | z hq ht p => exact hw.splice (hp rfl)
  | x hq ht p => exact hw.splice (hp rfl)
  | hadamard hq ht p => exact hw.splice Phase.onGrid_zero
  | cnot hq hr hne ht ht' p => exact (hw.splice Phase.onGrid_zero).splice Phase.onGrid_zero
  | cz hq hr hne ht ht' p =>
    exact ((hw.splice Phase.onGrid_zero).splice Phase.onGrid_zero).addBetween Phase.onGrid_zero
  | swap hq hr hne ht ht' p => exact hw

/-- A new spider is carried by itself, if it is coloured. -/
theorem Valid.ownNames_addNode (hw : w.Valid) (h : w.carrier = w.ownNames) (κ : SpiderKind)
    (p : Phase) :
    (w.addNode κ p).carrier = (w.addNode κ p).ownNames := by
  have hnew : w.ownNames w.next = none := if_neg fun hv => hw.not_has_next hv.has
  funext v
  change (if κ.isPhased then update w.carrier w.next (some ⟨w.next, 1⟩) else w.carrier) v =
    if (update w.kind w.next (some κ) v).any (·.isPhased) = true then some ⟨v, 1⟩ else none
  rw [h]
  by_cases hv : v = w.next
  · subst hv
    rw [update_self]
    cases hκ : κ.isPhased <;> simp [hκ, hnew]
  · rw [update_of_ne hv]
    cases κ.isPhased
    · rfl
    · exact update_of_ne hv _ _

theorem Valid.ownNames_addBetween (hw : w.Valid) (h : w.carrier = w.ownNames) :
    (w.addBetween o u κ p).carrier = (w.addBetween o u κ p).ownNames :=
  hw.ownNames_addNode h κ p

theorem Tied.ownNames_splice (hw : w.Valid) (ht : w.Tied o u) (h : w.carrier = w.ownNames) :
    (w.splice o u κ p).carrier = (w.splice o u κ p).ownNames :=
  (ht.valid_cut hw).ownNames_addBetween h

theorem Put.ownNames (h : w.Put g w') (hw : w.Valid) (hown : w.carrier = w.ownNames) :
    w'.carrier = w'.ownNames := by
  cases h with
  | z hq ht p => exact ht.ownNames_splice hw hown
  | x hq ht p => exact ht.ownNames_splice hw hown
  | hadamard hq ht p => exact ht.ownNames_splice hw hown
  | cnot hq hr hne ht ht' p =>
    exact ht'.ownNames_splice (κ := .x) (p := .zero) (ht.valid_splice hw)
      (ht.ownNames_splice hw hown)
  | cz hq hr hne ht ht' p =>
    exact (ht'.valid_splice (ht.valid_splice hw)).ownNames_addBetween
      (ht'.ownNames_splice (ht.valid_splice hw) (ht.ownNames_splice hw hown))
  | swap hq hr hne ht ht' p => exact hown

/-- Putting a gate acts on what is denoted as the gate does. -/
theorem Put.amplitude (h : w.Put g w') (hw : w.Drawn) :
    Proportional (w'.tensors 1).amplitude (g.act w.output (w.tensors 1).amplitude) := by
  have hend {q : ℕ} {o : Vertex} (hq : w.outputs[q]? = some o) : w.IsEnd o :=
    isEnd_of_output (hw.kind_output hq)
  cases h with
  | z hq ht p =>
    obtain rfl := output_eq hq
    refine .of_eq fun b => ?_
    rw [ht.amplitude_z hw.valid (hend hq)]
    simp only [Pi.one_apply, mul_one]
    rfl
  | x hq ht p =>
    obtain rfl := output_eq hq
    refine .of_eq fun b => ?_
    rw [ht.amplitude_x hw.valid (hend hq), SpiderKind.act_x]
    simp only [Pi.one_apply, mul_one]
    rfl
  | hadamard hq ht p =>
    obtain rfl := output_eq hq
    exact .of_eq fun b => congrFun (ht.amplitude_hadamard hw.valid (hend hq) _) b
  | cnot hq hr hne ht ht' p =>
    obtain rfl := output_eq hq
    obtain rfl := output_eq hr
    exact ⟨2, two_ne_zero, ht.amplitude_cnot hw.valid (hend hr) hne ht' (hend hq)⟩
  | cz hq hr hne ht ht' p =>
    obtain rfl := output_eq hq
    obtain rfl := output_eq hr
    exact .of_eq (ht.amplitude_cz hw.valid (hend hr) hne ht' (hend hq))
  | swap hq hr hne ht ht' p =>
    have ho := hw.kind_output hq
    have ho' := hw.kind_output hr
    obtain ⟨u, hu, hout⟩ := hw.exists_output ho
    obtain ⟨u', hu', hout'⟩ := hw.exists_output ho'
    obtain rfl := ht.unique hu
    obtain rfl := ht'.unique hu'
    obtain rfl := output_eq hq
    obtain rfl := output_eq hr
    exact .of_eq fun b => ht.amplitude_cross hw.valid (hend hq) (hend hr) ht'
      hne (fun e => hout (e ▸ ho')) (fun e => hout' (e ▸ ho)) b

/-! ### Several gates -/

/-- Gates put at the outputs one after the other. -/
inductive Puts (w : Web) : List Gate → Web → Prop
  | nil : Puts w [] w
  | snoc {gates : List Gate} {w' w'' : Web} {g : Gate} (h : Puts w gates w') (hg : Put w' g w'') :
    Puts w (gates ++ [g]) w''

variable {gates : List Gate}

theorem Puts.ends (h : w.Puts gates w') : w'.inputs = w.inputs ∧ w'.outputs = w.outputs := by
  induction h with
  | nil => exact ⟨rfl, rfl⟩
  | snoc h hg ih => exact ⟨hg.ends.1.trans ih.1, hg.ends.2.trans ih.2⟩

theorem Puts.drawn (h : w.Puts gates w') (hw : w.Drawn) : w'.Drawn := by
  induction h with
  | nil => exact hw
  | snoc h hg ih => exact hg.drawn ih

theorem Puts.onGrid (h : w.Puts gates w') (hw : w.OnGrid D)
    (hp : ∀ g ∈ gates, g.kind.hasPhase → g.phase.OnGrid D) : w'.OnGrid D := by
  induction h with
  | nil => exact hw
  | snoc h hg ih =>
    refine hg.onGrid (ih fun g hg => hp g (List.mem_append_left _ hg)) (hp _ ?_)
    exact List.mem_append_right _ (List.mem_singleton_self _)

theorem Puts.ownNames (h : w.Puts gates w') (hw : w.Drawn) (hown : w.carrier = w.ownNames) :
    w'.carrier = w'.ownNames := by
  induction h with
  | nil => exact hown
  | snoc h hg ih => exact hg.ownNames (h.drawn hw).valid ih

/-- Putting gates acts on what is denoted as the gates do. -/
theorem Puts.amplitude (h : w.Puts gates w') (hw : w.Drawn) :
    Proportional (w'.tensors 1).amplitude (actAll w.output gates (w.tensors 1).amplitude) := by
  induction h with
  | nil => exact .refl _
  | snoc h hg ih =>
    have hout := h.ends.2
    have hstep := hg.amplitude (h.drawn hw)
    rw [show Web.output _ = w.output from funext fun q => by rw [output, hout, output]] at hstep
    rw [actAll_append]
    exact hstep.trans (ih.act _ _)

end Web

/-! ### The program -/

@[simp] theorem Layout.wires_place (l : Layout) (v : Vertex) (qubit column) :
    (l.place v qubit column).wires = l.wires := by
  cases qubit <;> cases column <;> rfl

/-- A computation that gives a result goes on with it. -/
theorem liftM_ok_bind {ε α β : Type} (a : α) (f : α → Attempt ε β) :
    (liftM (Except.ok a : Except Fault α) >>= f : Attempt ε β) = f a := rfl

namespace Diagram

variable {d : Diagram} {o o' u u' : Vertex} {q r n : ℕ} {κ : SpiderKind} {p : Phase} {g : Gate}
  {D : ℕ}

open Web

/-- A list of qubits passes the check if they are distinct and there. -/
theorem badQubit?_eq_none_iff {wires : ℕ} {before qubits : List ℕ} :
    badQubit? wires before qubits = none ↔
      qubits.Nodup ∧ ∀ q ∈ qubits, q < wires ∧ q ∉ before := by
  induction qubits generalizing before with
  | nil => simp [badQubit?]
  | cons q rest ih =>
    rw [badQubit?, List.nodup_cons, List.forall_mem_cons]
    by_cases hq : wires ≤ q ∨ q ∈ before
    · rw [if_pos hq]
      refine iff_of_false (by simp) ?_
      rintro ⟨-, ⟨hlt, hnew⟩, -⟩
      exact hq.elim (Nat.not_le_of_lt hlt) hnew
    · rw [if_neg hq, ih]
      obtain ⟨hlt, hnew⟩ := not_or.1 hq
      have hmem : (∀ r ∈ rest, r < wires ∧ r ∉ q :: before) ↔
          q ∉ rest ∧ ∀ r ∈ rest, r < wires ∧ r ∉ before := by
        grind
      rw [hmem]
      have := Nat.lt_of_not_le hlt
      tauto

theorem boundary_back (hq : d.web.outputs[q]? = some o) : d.boundary .back q = .ok o := by
  unfold boundary
  rw [show d.outputs[q]? = some o from hq]

theorem boundary_front (hq : d.web.inputs[q]? = some o) : d.boundary .front q = .ok o := by
  unfold boundary
  rw [show d.inputs[q]? = some o from hq]

/-- An end that is tied has a single edge. -/
theorem degree_of_tied (hd : d.Coherent) (ht : d.web.Tied o u) : d.degree o = .ok 1 := by
  obtain ⟨ho, hu⟩ := ht.has hd.valid
  rw [Diagram.degree, degree_eq hd ho, Web.degree, Finset.sum_congr rfl fun x _ => ht.joins x,
    Finset.sum_ite_eq' _ u fun _ => 1, if_pos (Finset.mem_range.2 (hd.valid.lt u hu))]

/-- The phase of a gate that is given exactly. -/
theorem gatePhase_exact (kind : GateKind) (p : Phase) (convert : Bool) :
    gatePhase kind (.exact p) convert = .ok (if kind.hasPhase then p else .zero) := by
  rw [gatePhase]
  split <;> rfl

theorem checkEnds_eq (hd : d.Coherent) (ho : d.boundary .back q = .ok o)
    (hi : d.boundary .front q = .ok o') (ht : d.web.Tied o u) (ht' : d.web.Tied o' u') :
    d.checkEnds q = .ok () := by
  rw [checkEnds, ho, hi]
  simp only [liftM_ok_bind, degree_of_tied hd ht, degree_of_tied hd ht', ne_eq, not_true,
    if_false]
  rfl

theorem checkEnds_of_drawn (hd : d.Coherent) (hw : d.web.Drawn) (hq : q < d.outputs.length)
    (hq' : q < d.inputs.length) : d.checkEnds q = .ok () := by
  have ho := getElem?_outputs (w := d.web) hq
  have hi := getElem?_inputs (w := d.web) hq'
  obtain ⟨u, ht, -⟩ := hw.ends _ (isEnd_of_output (hw.kind_output ho))
  obtain ⟨u', ht', -⟩ := hw.ends _
    (isEnd_of_input ((hw.mem_inputs _).1 (List.mem_of_getElem? hi)))
  exact checkEnds_eq hd (boundary_back ho) (boundary_front hi) ht ht'

theorem checkQubits_eq (hends : ∀ q < n, d.checkEnds q = .ok ()) (hwires : d.layout.wires = n)
    (hg : g.Valid n) : d.checkQubits g.kind g.qubits = .ok () := by
  have hall : ∀ qs : List ℕ, (∀ q ∈ qs, q < n) → qs.forM d.checkEnds = .ok () := by
    intro qs
    induction qs with
    | nil => exact fun _ => rfl
    | cons q rest ih =>
      intro h
      change (d.checkEnds q >>= fun _ => rest.forM d.checkEnds) = _
      rw [hends q (h q List.mem_cons_self)]
      exact ih fun r hr => h r (List.mem_cons_of_mem q hr)
  rw [checkQubits, if_neg (not_not.2 hg.arity), badQubit?_eq_none_iff.2
    ⟨hg.nodup, fun q hq => ⟨hwires ▸ hg.lt q hq, List.not_mem_nil⟩⟩]
  exact hall g.qubits hg.lt

theorem exists_splice {side : Side} (hd : d.Coherent) (hq : d.boundary side q = .ok o)
    (ht : d.web.Tied o u) (column : Floating.Double) :
    ∃ d', d.splice side q κ p column = .ok (d.web.next, d') ∧ d'.Coherent ∧
      d'.web = d.web.splice o u κ p ∧
      d'.layout = d.layout.place d.web.next (some q) (some column) := by
  obtain ⟨ho, hu⟩ := ht.has hd.valid
  obtain ⟨m, d₁, hok₁, hd₁, hw₁, hl₁⟩ := Gives.removeWires hd ho u 1
  have hcut : d₁.web = d.web.cut o u := by
    rw [hw₁]
    refine takeEdges_eq_cut ?_ fun k hk => ?_
    · rw [ht, if_pos ⟨rfl, rfl⟩]
    · rw [ht, if_neg fun h => hk h.2]
  obtain ⟨d₂, hok₂, hd₂, hw₂, hl₂⟩ := Gives.addSpider hd₁ κ p (l := [u, o]) fun x hx => by
    rw [hcut]
    rcases List.mem_pair.1 hx with rfl | rfl
    · exact hu
    · exact ho
  have hnext : d₁.web.next = d.web.next := by rw [hcut]; rfl
  refine ⟨d₂.place d.web.next (some q) (some column), ?_, hd₂.place _ _ _, ?_, ?_⟩
  · rw [Diagram.splice, hq]
    change (d.firstNeighbor? o >>= fun w => _) = _
    rw [firstNeighbor?_eq hd ho ht.joins]
    change (d.removeWires o u 1 >>= fun r => _) = _
    rw [hok₁]
    change (d₁.addSpider κ p [u, o] >>= fun r => _) = _
    rw [hok₂, hnext]
    rfl
  · rw [web_place, hw₂, hcut]
    rfl
  · rw [Diagram.place, hl₂, hl₁]

/-- A spider on a wire. -/
theorem exists_spider {side : Side} (hd : d.Coherent) (hq : d.boundary side q = .ok o)
    (ht : d.web.Tied o u) (κ : SpiderKind) (p : Phase) (column : Floating.Double) : ∃ d',
      (do return (← d.splice side q κ p column).2) = .ok d' ∧ d'.Coherent ∧
      d'.web = d.web.splice o u κ p ∧ d'.layout.wires = d.layout.wires := by
  obtain ⟨d', hok, hd', hw', hl'⟩ := exists_splice (κ := κ) (p := p) hd hq ht column
  refine ⟨d', ?_, hd', hw', by rw [hl', Layout.wires_place]⟩
  rw [hok]
  rfl

theorem boundary_congr {d' : Diagram} {side : Side} (hin : d'.inputs = d.inputs)
    (hout : d'.outputs = d.outputs) : d'.boundary side q = d.boundary side q := by
  cases side
  · simp only [boundary, hin]
  · simp only [boundary, hout]

section Pair

variable {side : Side} (hd : d.Coherent) (hq : d.boundary side q = .ok o)
  (hr : d.boundary side r = .ok o') (ht : d.web.Tied o u)
  (ht' : (d.web.splice o u .z .zero).Tied o' u')
include hd hq hr ht ht'

/-- A Z spider on one wire and a spider on another one. -/
theorem exists_splices (κ : SpiderKind) (column : Floating.Double) : ∃ d₁ d₂,
    d.splice side q .z .zero column = .ok (d.web.next, d₁) ∧
      d₁.splice side r κ .zero column = .ok (d.web.next + 1, d₂) ∧ d₂.Coherent ∧
      d₂.web = d.web.spliceTwo o u o' u' κ ∧ d₂.layout.wires = d.layout.wires := by
  obtain ⟨d₁, hok₁, hd₁, hw₁, hl₁⟩ := exists_splice (κ := .z) (p := .zero) hd hq ht column
  have hr' : d₁.boundary side r = .ok o' :=
    (boundary_congr (congrArg Web.inputs hw₁) (congrArg Web.outputs hw₁)).trans hr
  obtain ⟨d₂, hok₂, hd₂, hw₂, hl₂⟩ := exists_splice (κ := κ) (p := .zero) hd₁ hr' (hw₁ ▸ ht') column
  refine ⟨d₁, d₂, hok₁, ?_, hd₂, ?_, ?_⟩
  · rw [hok₂, hw₁]
    rfl
  · rw [hw₂, hw₁]
    rfl
  · rw [hl₂, Layout.wires_place, hl₁, Layout.wires_place]

/-- A controlled NOT. -/
theorem exists_cnot : ∃ d', d.attachUnchecked side .cnot [q, r] .zero = .ok d' ∧ d'.Coherent ∧
    d'.web = (d.web.spliceTwo o u o' u' .x).addEdges d.web.next (d.web.next + 1) .plain 1 ∧
    d'.layout.wires = d.layout.wires := by
  obtain ⟨d₁, d₂, hok₁, hok₂, hd₂, hw₂, hl₂⟩ := exists_splices hd hq hr ht ht' .x (d.freshColumn side)
  obtain ⟨d₃, hok₃, hd₃, hw₃, hl₃⟩ := Gives.addWire hd₂ (hw₂ ▸ has_of_kind kind_spliceTwo_first)
    (hw₂ ▸ has_of_kind kind_spliceTwo_second) (Nat.ne_of_lt (Nat.lt_succ_self d.web.next))
  refine ⟨d₃, ?_, hd₃, by rw [hw₃, hw₂], by rw [hl₃, hl₂]⟩
  change (d.splice side q .z .zero _ >>= fun c => c.2.splice side r .x .zero _ >>= fun t =>
    t.2.addWire c.1 t.1) = _
  rw [hok₁]
  change (d₁.splice side r .x .zero _ >>= fun t => t.2.addWire d.web.next t.1) = _
  rw [hok₂]
  exact hok₃

/-- A controlled Z. -/
theorem exists_cz : ∃ d', d.attachUnchecked side .cz [q, r] .zero = .ok d' ∧ d'.Coherent ∧
    d'.web = (d.web.spliceTwo o u o' u' .z).addBetween d.web.next (d.web.next + 1) .box .zero ∧
    d'.layout.wires = d.layout.wires := by
  obtain ⟨d₁, d₂, hok₁, hok₂, hd₂, hw₂, hl₂⟩ := exists_splices hd hq hr ht ht' .z (d.freshColumn side)
  obtain ⟨d₃, hok₃, hd₃, hw₃, hl₃⟩ := Gives.addSpider hd₂ .box .zero
    (l := [d.web.next, d.web.next + 1]) fun x hx => by
      rw [hw₂]
      rcases List.mem_pair.1 hx with rfl | rfl
      · exact has_of_kind kind_spliceTwo_first
      · exact has_of_kind kind_spliceTwo_second
  refine ⟨d₃.place d₂.web.next none (some (d.freshColumn side)), ?_, hd₃.place _ _ _, ?_, ?_⟩
  · change (d.splice side q .z .zero _ >>= fun a => a.2.splice side r .z .zero _ >>= fun b =>
      b.2.addSpider .box .zero [a.1, b.1] >>= fun h => .ok (h.2.place h.1 none _)) = _
    rw [hok₁]
    change (d₁.splice side r .z .zero _ >>= fun b =>
      b.2.addSpider .box .zero [d.web.next, b.1] >>= fun h => .ok (h.2.place h.1 none _)) = _
    rw [hok₂]
    change (d₂.addSpider .box .zero [d.web.next, d.web.next + 1] >>= fun h =>
      .ok (h.2.place h.1 none _)) = _
    rw [hok₃]
    rfl
  · rw [web_place, hw₃, hw₂]
    rfl
  · rw [Diagram.place, Layout.wires_place, hl₃, hl₂]

end Pair

/-- Taking away the edge at an end. -/
theorem exists_cut (hd : d.Coherent) (ht : d.web.Tied o u) : ∃ m d', d.removeWires o u 1 = .ok (m, d') ∧
    d'.Coherent ∧ d'.web = d.web.cut o u ∧ d'.layout = d.layout := by
  obtain ⟨m, d', hok, hd', hw', hl'⟩ := Gives.removeWires hd (ht.has hd.valid).1 u 1
  refine ⟨m, d', hok, hd', hw'.trans (takeEdges_eq_cut ?_ fun k hk => ?_), hl'⟩
  · rw [ht, if_pos ⟨rfl, rfl⟩]
  · rw [ht, if_neg fun h => hk h.2]

/-- Letting two wires cross. -/
theorem exists_crossWires {side : Side} (hd : d.Coherent) (hq : d.boundary side q = .ok o)
    (hr : d.boundary side r = .ok o') (hne : o ≠ o') (ht : d.web.Tied o u) (hu : u ≠ o')
    (ht' : d.web.Tied o' u') (hu' : u' ≠ o) : ∃ d', d.crossWires side q r = .ok d' ∧ d'.Coherent ∧
      d'.web = d.web.cross o o' u u' ∧ d'.layout = d.layout := by
  obtain ⟨ho, huh⟩ := ht.has hd.valid
  obtain ⟨ho', huh'⟩ := ht'.has hd.valid
  obtain ⟨m₁, d₁, hok₁, hd₁, hw₁, hl₁⟩ := exists_cut hd ht
  have htied : d₁.web.Tied o' u' := fun x k => by
    rw [hw₁]
    refine (if_neg ?_).trans (ht' x k)
    rintro (⟨h, -⟩ | ⟨h, -⟩)
    · exact hne h.symm
    · exact hu h.symm
  obtain ⟨m₂, d₂, hok₂, hd₂, hw₂, hl₂⟩ := exists_cut hd₁ htied
  have hweb : d₂.web = (d.web.cut o u).cut o' u' := by rw [hw₂, hw₁]
  obtain ⟨d₃, hok₃, hd₃, hw₃, hl₃⟩ := Gives.addWire hd₂ (s := o) (t := u') (hweb ▸ ho)
    (hweb ▸ huh') hu'.symm
  have hhas {v : Vertex} (hv : d.web.Has v) : d₃.web.Has v := by
    rw [hw₃, hweb]
    exact hv
  obtain ⟨d₄, hok₄, hd₄, hw₄, hl₄⟩ := Gives.addWire hd₃ (hhas ho') (hhas huh) hu.symm
  refine ⟨d₄, ?_, hd₄, by rw [hw₄, hw₃, hweb]; rfl, by rw [hl₄, hl₃, hl₂, hl₁]⟩
  rw [crossWires, hq, hr]
  change (d.firstNeighbor? o >>= fun wa => _) = _
  rw [firstNeighbor?_eq hd ho ht.joins]
  change (d.firstNeighbor? o' >>= fun wb => _) = _
  rw [firstNeighbor?_eq hd ho' ht'.joins]
  change (d.removeWires o u 1 >>= fun r => _) = _
  rw [hok₁]
  change (d₁.removeWires o' u' 1 >>= fun r => _) = _
  rw [hok₂]
  change (d₂.addWire o u' >>= fun d => _) = _
  rw [hok₃]
  exact hok₄

/-- Putting a gate on the wires succeeds. -/
theorem exists_attach (hd : d.Coherent) (hw : d.web.Drawn) (hg : g.Valid n)
    (hout : d.outputs.length = n) :
    ∃ d', d.attachUnchecked .back g.kind g.qubits (if g.kind.hasPhase then g.phase else .zero) =
      .ok d' ∧ d'.Coherent ∧ d.web.Put g d'.web ∧ d'.layout.wires = d.layout.wires := by
  have hget {q : ℕ} (hq : q < n) : d.web.outputs[q]? = some (d.web.output q) :=
    getElem?_outputs (w := d.web) (hout.symm ▸ hq)
  have hkind {q : ℕ} (hq : q < n) := hw.kind_output (hget hq)
  have one := hg.exists_one
  have two (h : g.kind.arity = 2) : ∃ q r, g.qubits = [q, r] ∧ q < n ∧ r < n ∧
      d.web.output q ≠ d.web.output r := by
    obtain ⟨q, r, hqubits, hq, hr, hqr⟩ := hg.exists_two h
    refine ⟨q, r, hqubits, hq, hr, fun h => hqr ?_⟩
    refine (List.getElem?_inj (hout.symm ▸ hq : q < d.web.outputs.length) hw.outputs_nodup).1 ?_
    exact (hget hq).trans (h ▸ (hget hr).symm)
  -- the second wire after a spider has been put onto the first
  have htwo {q r : ℕ} (hq : q < n) (hr : r < n) {u : Vertex} (ht : d.web.Tied (d.web.output q) u) :
      ∃ u', (d.web.splice (d.web.output q) u .z .zero).Tied (d.web.output r) u' := by
    have hdrawn := hw.splice (κ := .z) (p := .zero) (hkind hq) ht rfl
    obtain ⟨u', ht', -⟩ := hdrawn.exists_output (hdrawn.kind_output (q := r) (hget hr))
    exact ⟨u', ht'⟩
  obtain ⟨κ, qubits, phase⟩ := g
  cases κ with
  | zPhase =>
    obtain ⟨q, rfl, hq⟩ := one rfl
    obtain ⟨u, ht, -⟩ := hw.exists_output (hkind hq)
    obtain ⟨d', hok, hd', hw', hl'⟩ := exists_spider hd (boundary_back (hget hq)) ht .z phase
      (d.freshColumn .back)
    exact ⟨d', hok, hd', hw' ▸ .z (hget hq) ht phase, hl'⟩
  | xPhase =>
    obtain ⟨q, rfl, hq⟩ := one rfl
    obtain ⟨u, ht, -⟩ := hw.exists_output (hkind hq)
    obtain ⟨d', hok, hd', hw', hl'⟩ := exists_spider hd (boundary_back (hget hq)) ht .x phase
      (d.freshColumn .back)
    exact ⟨d', hok, hd', hw' ▸ .x (hget hq) ht phase, hl'⟩
  | hadamard =>
    obtain ⟨q, rfl, hq⟩ := one rfl
    obtain ⟨u, ht, -⟩ := hw.exists_output (hkind hq)
    obtain ⟨d', hok, hd', hw', hl'⟩ := exists_spider hd (boundary_back (hget hq)) ht .box .zero
      (d.freshColumn .back)
    exact ⟨d', hok, hd', hw' ▸ .hadamard (hget hq) ht phase, hl'⟩
  | cnot =>
    obtain ⟨q, r, rfl, hq, hr, hne⟩ := two rfl
    obtain ⟨u, ht, -⟩ := hw.exists_output (hkind hq)
    obtain ⟨u', ht'⟩ := htwo hq hr ht
    obtain ⟨d', hok, hd', hw', hl'⟩ := exists_cnot hd (boundary_back (hget hq))
      (boundary_back (hget hr)) ht ht'
    exact ⟨d', hok, hd', hw' ▸ .cnot (hget hq) (hget hr) hne ht ht' phase, hl'⟩
  | cz =>
    obtain ⟨q, r, rfl, hq, hr, hne⟩ := two rfl
    obtain ⟨u, ht, -⟩ := hw.exists_output (hkind hq)
    obtain ⟨u', ht'⟩ := htwo hq hr ht
    obtain ⟨d', hok, hd', hw', hl'⟩ := exists_cz hd (boundary_back (hget hq))
      (boundary_back (hget hr)) ht ht'
    exact ⟨d', hok, hd', hw' ▸ .cz (hget hq) (hget hr) hne ht ht' phase, hl'⟩
  | swap =>
    obtain ⟨q, r, rfl, hq, hr, hne⟩ := two rfl
    obtain ⟨u, ht, hu⟩ := hw.exists_output (hkind hq)
    obtain ⟨u', ht', hu'⟩ := hw.exists_output (hkind hr)
    obtain ⟨d', hok, hd', hw', hl'⟩ := exists_crossWires hd (boundary_back (hget hq))
      (boundary_back (hget hr)) hne ht (fun e => hu (e ▸ hkind hr)) ht'
      fun e => hu' (e ▸ hkind hq)
    exact ⟨d', hok, hd', hw' ▸ .swap (hget hq) (hget hr) hne ht ht' phase, hl' ▸ rfl⟩

/-- Putting a gate at the outputs succeeds. -/
theorem exists_push (hd : d.Coherent) (hw : d.web.Drawn) (hg : g.Valid n)
    (hout : d.outputs.length = n) (hin : d.inputs.length = n) (hwires : d.layout.wires = n) :
    ∃ d', d.push g = .ok d' ∧ d'.Coherent ∧ d.web.Put g d'.web ∧ d'.layout.wires = n := by
  obtain ⟨d', hok, hd', hput, hl'⟩ := exists_attach hd hw hg hout
  refine ⟨d', ?_, hd', hput, hl'.trans hwires⟩
  have hends : ∀ q < n, d.checkEnds q = .ok () := fun q hq =>
    checkEnds_of_drawn hd hw (hout ▸ hq) (hin ▸ hq)
  rw [push, attach, checkQubits_eq hends hwires hg]
  change (gatePhase g.kind (.exact g.phase) true >>= fun p => _) = _
  rw [gatePhase_exact]
  change (liftM (d.attachUnchecked .back g.kind g.qubits _) : Attempt Refusal Diagram) = _
  rw [hok]
  rfl

/-! ### Circuits -/

/-- A bare wire. -/
theorem exists_addBareWire (hd : d.Coherent) (q : ℕ) : ∃ d', d.addBareWire q = .ok d' ∧
    d'.Coherent ∧ d'.web = d.web.addWire ∧ d'.layout =
      (d.layout.place d.web.next (some q) none).place (d.web.next + 1) (some q) none := by
  obtain ⟨d₁, hok₁, hd₁, hw₁, hl₁⟩ := Gives.addSpider hd .input .zero (l := [])
    fun _ h => absurd h List.not_mem_nil
  obtain ⟨d₂, hok₂, hd₂, hw₂, hl₂⟩ := Gives.addSpider hd₁ .output .zero (l := [d.web.next])
    fun v hv => by
      rw [List.mem_singleton.1 hv, hw₁]
      exact has_addNode_next
  have hnext : d₁.web.next = d.web.next + 1 := by rw [hw₁]; rfl
  have hweb : d₂.web = ((d.web.addNode .input .zero).addNode .output .zero).addEdges (d.web.next + 1)
      d.web.next .plain 1 := by
    rw [hw₂, hw₁]
    rfl
  refine ⟨{ (d₂.place d.web.next (some q) none).place d₁.web.next (some q) none with
    inputs := d₂.inputs ++ [d.web.next], outputs := d₂.outputs ++ [d₁.web.next] }, ?_,
    ⟨hd₂.wf, hd₂.has⟩, ?_, ?_⟩
  · rw [addBareWire]
    change (d.addSpider .input .zero [] >>= fun r => _) = _
    rw [hok₁]
    change (d₁.addSpider .output .zero [d.web.next] >>= fun r => _) = _
    rw [hok₂]
    rfl
  · have hin : d₂.inputs = d.inputs := congrArg Web.inputs hweb
    have hout : d₂.outputs = d.outputs := congrArg Web.outputs hweb
    have hset (d : Diagram) (is os : List Vertex) : { d with inputs := is, outputs := os }.web =
        { d.web with inputs := is, outputs := os } := rfl
    rw [hset, web_place, web_place, hweb, hin, hout, hnext]
    rfl
  · simp only [Diagram.place, hl₂, hl₁, hnext]

/-- A diagram of bare wires. -/
structure Bare (n : ℕ) (d : Diagram) : Prop where
  coherent : d.Coherent
  drawn : d.web.Drawn
  next : d.web.next = 2 * n
  inputs : d.web.inputs = (List.range n).map (2 * ·)
  outputs : d.web.outputs = (List.range n).map (2 * · + 1)
  phase : d.web.phase = fun _ => .zero
  own : d.web.carrier = d.web.ownNames
  tied : ∀ q < n, d.web.Tied (2 * q) (2 * q + 1) ∧ d.web.Tied (2 * q + 1) (2 * q)
  column : ∀ v, d.column? v = none
  first : d.layout.first = 0
  last : d.layout.last = 0
  amplitude : ∀ τ b, (d.web.tensors τ).amplitude b =
    wiring (2 * · + 1) (2 * ·) (List.range n) b

theorem coherent_blank (n : ℕ) : (blank n).Coherent := by
  have hnone (v : Vertex) : Multigraph.empty.links? v = none := by
    simp [Multigraph.empty, Multigraph.links?]
  refine ⟨⟨fun h => ?_, fun h => ?_, fun s t k => ?_, rfl⟩, fun v => ?_⟩
  · cases (hnone _).symm.trans h
  · cases (hnone _).symm.trans h
  · change Multigraph.empty.count s t k = Multigraph.empty.count t s k
    rw [Multigraph.count, Multigraph.count, hnone, hnone]
    rfl
  · change ((∅ : VertexMap SpiderKind)[v]?).isSome = true ↔ Multigraph.empty.contains v = true
    rw [Multigraph.contains, hnone]
    simp

theorem bare_blank (n : ℕ) : Bare 0 (blank n) where
  coherent := coherent_blank n
  drawn := by
    have hnone (v : Vertex) : (blank n).web.kind v = none := by simp [web, blank]
    have hcount (s t : Vertex) (k : EdgeKind) : (blank n).web.count s t k = 0 := by
      simp [web, blank, Multigraph.count, Multigraph.links?, Multigraph.empty, Links.count]
    refine ⟨(coherent_blank n).valid, fun s t => hcount s t _, List.nodup_nil, List.nodup_nil,
      fun v => ?_, fun v => ?_, fun t he => ?_, fun h hb => ?_⟩
    · rw [hnone]
      exact ⟨fun h => absurd h List.not_mem_nil, fun h => by cases h⟩
    · rw [hnone]
      exact ⟨fun h => absurd h List.not_mem_nil, fun h => by cases h⟩
    · rw [IsEnd, hnone] at he
      cases he
    · rw [hnone] at hb
      cases hb
  next := rfl
  inputs := rfl
  outputs := rfl
  phase := by
    funext v
    simp [web, blank, Diagram.phase]
  own := by
    funext v
    simp [web, blank, ownNames, IsColoured]
  tied _ h := absurd h (Nat.not_lt_zero _)
  column v := by simp [blank, Diagram.column?, Layout.new, Layout.column?]
  first := rfl
  last := rfl
  amplitude τ b := by
    have hinner : ((blank n).web.tensors τ).inner = ∅ := rfl
    rw [Network.amplitude, hinner, sumOver_empty, Network.weight, hinner, Finset.prod_empty, one_mul,
      wiring, if_pos (by simp)]
    rfl

/-- One more wire that leads straight on. -/
theorem wiring_range_succ {o i : ℕ → Vertex} {b : Bits} :
    wiring o i (List.range (n + 1)) b =
      wiring o i (List.range n) b * if b (o n) = b (i n) then 1 else 0 := by
  have hrange (m : ℕ) : (∀ q r, (List.range m)[q]? = some r → b (o q) = b (i r)) ↔
      ∀ q < m, b (o q) = b (i q) := by
    refine ⟨fun h q hq => h q q (List.getElem?_range hq), fun h q r hqr => ?_⟩
    obtain ⟨hq, rfl⟩ := List.getElem?_eq_some_iff.1 hqr
    rw [List.getElem_range]
    exact h q (by simpa using hq)
  classical
  rw [wiring, wiring, ite_zero_mul_ite_zero, one_mul]
  refine if_congr ?_ rfl rfl
  rw [hrange, hrange, Nat.forall_lt_succ_right]

theorem Bare.addWire (h : Bare n d) {d' : Diagram} (hd' : d'.Coherent)
    (hw' : d'.web = d.web.addWire) (hl' : d'.layout =
      (d.layout.place d.web.next (some q) none).place (d.web.next + 1) (some q) none) :
    Bare (n + 1) d' where
  coherent := hd'
  drawn := hw' ▸ h.drawn.addWire
  next := by
    rw [hw']
    change d.web.next + 2 = _
    rw [h.next]
    omega
  inputs := by
    rw [hw']
    change d.web.inputs ++ [d.web.next] = _
    rw [h.inputs, h.next, List.range_succ, List.map_append]
    rfl
  outputs := by
    rw [hw']
    change d.web.outputs ++ [d.web.next + 1] = _
    rw [h.outputs, h.next, List.range_succ, List.map_append]
    rfl
  phase := by
    rw [hw']
    change update (update d.web.phase _ .zero) _ .zero = _
    rw [h.phase]
    funext v
    simp [Function.update_apply]
  own := by
    have hw := h.drawn.valid
    rw [hw']
    exact (hw.addNode .input .zero).ownNames_addNode (hw.ownNames_addNode h.own .input .zero)
      .output .zero
  tied r hr := by
    rw [hw']
    rcases Nat.lt_succ_iff_lt_or_eq.1 hr with hr | rfl
    · obtain ⟨hin, hout⟩ := h.tied r hr
      exact ⟨hin.addWire h.drawn.valid, hout.addWire h.drawn.valid⟩
    · exact h.next ▸ h.drawn.valid.tied_addWire
  column v := by
    rw [column?, hl', Layout.column?_place, Layout.column?_place, ← column?, h.column]
    simp
  first := by rw [hl', Layout.place, Layout.place, h.first]
  last := by rw [hl', Layout.place, Layout.place, h.last]
  amplitude τ b := by
    rw [hw', h.drawn.amplitude_addWire, h.amplitude, h.next, wiring_range_succ]

/-- The diagram of a circuit without gates. -/
theorem exists_ofWires (n : ℕ) : ∃ d, ofWires n = .ok d ∧ Bare n d ∧ d.layout.wires = n := by
  obtain ⟨d, hok, hd, hl⟩ := exists_foldlM (f := addBareWire)
    (fun done d => Bare done.length d ∧ d.layout.wires = n) (List.range n) (s := blank n)
    ⟨bare_blank n, rfl⟩ fun done q rest d _ hinv => by
      obtain ⟨hd, hl⟩ := hinv
      obtain ⟨d', hok, hco, hweb, hl'⟩ := exists_addBareWire hd.coherent q
      refine ⟨d', hok, ?_, by rw [hl', Layout.wires_place, Layout.wires_place, hl]⟩
      rw [List.length_append]
      exact hd.addWire hco hweb hl'
  rw [List.length_range] at hd
  exact ⟨d, hok, hd, hl⟩

/-- The diagram of a circuit is there. -/
theorem exists_ofCircuit {c : Circuit} (hc : ∀ g ∈ c.gates, g.Valid c.qubits) :
    ∃ d bare, ofCircuit c = .ok d ∧ d.Coherent ∧ Bare c.qubits bare ∧
      bare.web.Puts c.gates d.web := by
  obtain ⟨bare, hok, hbare, hl⟩ := exists_ofWires c.qubits
  have hlen : bare.web.inputs.length = c.qubits ∧ bare.web.outputs.length = c.qubits := by
    rw [hbare.inputs, hbare.outputs]
    simp
  obtain ⟨d, hok', hd, hputs, -⟩ := exists_foldlM (f := push)
    (fun done d => d.Coherent ∧ bare.web.Puts done d.web ∧ d.layout.wires = c.qubits) c.gates
    (s := bare) ⟨hbare.coherent, .nil, hl⟩ fun done g rest d hgates hinv => by
      obtain ⟨hd, hputs, hl⟩ := hinv
      have hg : g.Valid c.qubits := hc g (hgates ▸ List.mem_append_right _ List.mem_cons_self)
      obtain ⟨hin, hout⟩ := hputs.ends
      obtain ⟨d', hok, hd', hput, hl'⟩ := exists_push hd (hputs.drawn hbare.drawn) hg
        ((congrArg List.length hout).trans hlen.2) ((congrArg List.length hin).trans hlen.1) hl
      exact ⟨d', hok, hd', hputs.snoc hput, hl'⟩
  refine ⟨d, bare, ?_, hd, hbare, hputs⟩
  rw [ofCircuit, hok]
  exact hok'

/-- The matrix of bare wires, whatever the factors of spiders. -/
theorem Bare.toMatrix_eq_one (h : Bare n d) (τ : Vertex → ℂ) :
    toMatrix n n d.web.outputs d.web.inputs (d.web.tensors τ).amplitude = 1 := by
  have hwires : (d.web.tensors τ).amplitude = wiring (2 * · + 1) (2 * ·) (List.range n) :=
    funext fun b => h.amplitude τ b
  have hin : d.web.inputs.length = n := by rw [h.inputs]; simp
  have hout : d.web.outputs.length = n := by rw [h.outputs]; simp
  rw [hwires]
  refine toMatrix_wiring h.drawn.outputs_nodup h.drawn.inputs_nodup (fun v hv hv' => ?_) hout hin
    (fun q hq => ?_) fun q hq => ?_
  · rw [h.drawn.mem_inputs] at hv
    rw [h.drawn.mem_outputs, hv] at hv'
    cases hv'
  · rw [hout] at hq
    rw [h.outputs]
    simp [hq]
  · rw [hin] at hq
    rw [h.inputs]
    simp [hq]

/-- The matrix of a circuit is that of its diagram, up to a scalar. -/
theorem Bare.unitary {c : Circuit} (hc : ∀ g ∈ c.gates, g.Valid c.qubits) {bare : Diagram}
    (hbare : Bare c.qubits bare) {w : Web} (h : bare.web.Puts c.gates w) :
    w.inputs.length = c.qubits ∧ w.outputs.length = c.qubits ∧ ∃ k : ℂ, k ≠ 0 ∧
      toMatrix c.qubits c.qubits w.outputs w.inputs (w.tensors 1).amplitude =
        k • c.unitary c.qubits := by
  obtain ⟨hin, hout⟩ := h.ends
  have hinlen : w.inputs.length = c.qubits := by rw [hin, hbare.inputs]; simp
  have houtlen : w.outputs.length = c.qubits := by rw [hout, hbare.outputs]; simp
  have hnd : w.outputs.Nodup := hout ▸ hbare.drawn.outputs_nodup
  have hget : ∀ q < w.outputs.length, w.outputs[q]? = some (bare.web.output q) := by
    rw [hout]
    exact fun q hq => getElem?_outputs hq
  obtain ⟨k, hk, hamp⟩ := h.amplitude hbare.drawn
  obtain ⟨l, hl, hmat⟩ := gatesMatrix_mul_toMatrix c.qubits w.inputs hnd houtlen hget hc
    (bare.web.tensors 1).amplitude
  have hone : toMatrix c.qubits c.qubits w.outputs w.inputs (bare.web.tensors 1).amplitude = 1 := by
    rw [hin, hout]
    exact hbare.toMatrix_eq_one 1
  rw [hone, Matrix.mul_one] at hmat
  refine ⟨hinlen, houtlen, k * l, mul_ne_zero hk hl, ?_⟩
  rw [mul_smul, Circuit.unitary, ← hmat]
  ext y x
  exact hamp _

end Diagram

end ZXRewriting
