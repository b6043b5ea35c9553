import ZXRewriting.Proofs.Semantics.Wires

/-!
# Diagrams drawn from circuits

The diagrams that gates are put onto (`Web.Drawn`): all edges are plain, every end of a wire has one,
and every box has two, to different spiders. Putting a gate onto the ends of wires keeps this.

The other end of a box is either the one that was there before it, or no older box, so that boxes
never form a ring.
-/

namespace ZXRewriting

open Function (update update_self update_of_ne)
open Multigraph (SamePair)

namespace Web

variable {w : Web} {s t u u' v o o' : Vertex} {k : EdgeKind} {p : Phase} {κ : SpiderKind}

/-- A web as it is drawn from a circuit. -/
structure Drawn (w : Web) : Prop where
  valid : w.Valid
  plain : ∀ s t, w.count s t .hadamard = 0
  inputs_nodup : w.inputs.Nodup
  outputs_nodup : w.outputs.Nodup
  mem_inputs : ∀ v, v ∈ w.inputs ↔ w.kind v = some .input
  mem_outputs : ∀ v, v ∈ w.outputs ↔ w.kind v = some .output
  ends : ∀ t, w.IsEnd t → ∃ u, w.Tied t u ∧ (w.kind t = some .output → w.kind u ≠ some .output)
  box : ∀ h, w.kind h = some .box → ∃ a c, a ≠ c ∧ (w.kind c = some .box → h < c) ∧
    ∀ x k, w.count h x k = if (x = a ∨ x = c) ∧ k = .plain then 1 else 0

theorem isEnd_of_output (ho : w.kind o = some .output) : w.IsEnd o := by
  rw [IsEnd, ho]
  rfl

theorem isEnd_of_input (ho : w.kind o = some .input) : w.IsEnd o := by
  rw [IsEnd, ho]
  rfl

theorem has_of_kind (hk : w.kind v = some κ) : w.Has v := by
  rw [Has, hk]
  rfl

theorem not_isEnd_of_kind (hk : w.kind v = some κ) (h : κ.isBoundary = false) :
    ¬w.IsEnd v := by
  rw [IsEnd, hk]
  simp [h]

/-- The end of a wire is not coloured. -/
theorem IsEnd.isPhased_kindAt (he : w.IsEnd v) : (w.kindAt v).isPhased = false := by
  have hkind := (isEnd_iff_kindAt he.has).1 he
  cases hk : w.kindAt v with
  | input | output | box => rfl
  | z | x => rw [hk] at hkind; cases hkind

theorem Drawn.exists_output (hw : w.Drawn) (ho : w.kind o = some .output) :
    ∃ u, w.Tied o u ∧ w.kind u ≠ some .output := by
  obtain ⟨u, hu, hout⟩ := hw.ends o (isEnd_of_output ho)
  exact ⟨u, hu, hout ho⟩

/-! ### A spider on a wire -/

/-- The numbers of edges with a new spider on the wire at an end. -/
theorem Tied.count_splice (hw : w.Valid) (ht : w.Tied o u) (a b : Vertex) (k : EdgeKind) :
    (w.splice o u κ p).count a b k =
      if SamePair a b w.next u ∨ SamePair a b w.next o then if k = .plain then 1 else 0
      else if SamePair a b o u then 0 else w.count a b k :=
  (ht.valid_cut hw).count_addBetween (ht.has hw).2 (ht.has hw).1 (ht.ne hw).symm a b k

theorem kind_splice : (w.splice o u κ p).kind = update w.kind w.next (some κ) := rfl

theorem Tied.splice (hw : w.Valid) (ht : w.Tied o u) : (w.splice o u κ p).Tied o w.next := by
  obtain ⟨ho, hu⟩ := ht.has hw
  have hon := hw.ne_next ho
  have hun := hw.ne_next hu
  have hou := ht.ne hw
  intro x k
  have := ht x k
  rw [ht.count_splice hw]
  simp only [SamePair]
  grind

/-- The other ends keep their neighbours, apart from one at the other side of a bare wire. -/
theorem Tied.splice_other (hw : w.Valid) (ht : w.Tied o u) {x : Vertex} (h : w.Tied t x)
    (hto : t ≠ o) (hx : x ≠ o) : (w.splice o u κ p).Tied t x := by
  obtain ⟨ho, hu⟩ := ht.has hw
  obtain ⟨ht', hx'⟩ := h.has hw
  have htn := hw.ne_next ht'
  have hxn := hw.ne_next hx'
  have htu : t ≠ u := by
    rintro rfl
    have h₁ := ht t .plain
    have h₂ := h o .plain
    rw [if_pos ⟨rfl, rfl⟩] at h₁
    rw [hw.symm, h₁, if_neg fun hc => hx hc.1.symm] at h₂
    exact absurd h₂ Nat.one_ne_zero
  intro y k
  have := h y k
  rw [ht.count_splice hw]
  simp only [SamePair]
  grind

section Splice

variable (hw : w.Drawn) (ho : w.kind o = some .output) (ht : w.Tied o u)
include hw ho ht

omit ho in
/-- The ends, with a new spider on the wire at one of them. -/
theorem Drawn.ends_splice (hkind : κ.isBoundary = false)
    (he : (w.splice o u κ p).IsEnd t) : ∃ u', (w.splice o u κ p).Tied t u' ∧
      ((w.splice o u κ p).kind t = some .output →
        (w.splice o u κ p).kind u' ≠ some .output) := by
  have hcount := ht.count_splice hw.valid (κ := κ) (p := p)
  have hold {v : Vertex} (hv : v ≠ w.next) : (w.splice o u κ p).kind v = w.kind v := by
    rw [kind_splice, update_of_ne hv]
  have hnew : (w.splice o u κ p).kind w.next = some κ := by rw [kind_splice, update_self]
  have htn : t ≠ w.next := by
    rintro rfl
    exact not_isEnd_of_kind hnew hkind he
  have he' : w.IsEnd t := by rwa [IsEnd, hold htn] at he
  obtain ⟨x, hx, hout⟩ := hw.ends t he'
  have hnext : (w.splice o u κ p).kind w.next ≠ some .output := by
    rw [hnew]
    rintro h
    cases h
    cases hkind
  by_cases hto : t = o
  · exact ⟨w.next, by rw [hto]; exact ht.splice hw.valid, fun _ => hnext⟩
  by_cases hxo : x = o
  · -- the other end of a bare wire
    rw [hxo] at hx hout
    obtain rfl : t = u := by
      by_contra hne
      have h₁ := hx o .plain
      rw [hw.valid.symm, ht, if_neg fun hc => hne hc.1, if_pos ⟨rfl, rfl⟩] at h₁
      exact absurd h₁ Nat.zero_ne_one
    obtain ⟨ho', hu'⟩ := ht.has hw.valid
    have hon := hw.valid.ne_next ho'
    have hou := ht.ne hw.valid
    refine ⟨w.next, fun x k => ?_, fun _ => hnext⟩
    have := hx x k
    simp only [hcount, SamePair]
    grind
  · refine ⟨x, ht.splice_other hw.valid hx hto hxo, ?_⟩
    rw [hold htn, hold (hw.valid.ne_next (hx.has hw.valid).2)]
    exact hout

/-- The boxes, with a new spider on the wire at an output. -/
theorem Drawn.box_splice {h : Vertex} (hb : (w.splice o u κ p).kind h = some .box) :
    ∃ a c, a ≠ c ∧ ((w.splice o u κ p).kind c = some .box → h < c) ∧
      ∀ x k, (w.splice o u κ p).count h x k = if (x = a ∨ x = c) ∧ k = .plain then 1 else 0 := by
  obtain ⟨ho', hu'⟩ := ht.has hw.valid
  have hon := hw.valid.ne_next ho'
  have hun := hw.valid.ne_next hu'
  have hou := ht.ne hw.valid
  have hcount := ht.count_splice hw.valid (κ := κ) (p := p)
  have hold {v : Vertex} (hv : v ≠ w.next) : (w.splice o u κ p).kind v = w.kind v := by
    rw [kind_splice, update_of_ne hv]
  by_cases hh : h = w.next
  · refine ⟨u, o, hou.symm, fun h' => ?_, fun x k => ?_⟩
    · rw [hold hon, ho] at h'
      cases h'
    · have hnone := hw.valid.count_next x k
      rw [hh]
      simp only [hcount, SamePair]
      grind
  · rw [hold hh] at hb
    have hlt := hw.valid.lt h (has_of_kind hb)
    obtain ⟨a, c, hac, hc, hcounts⟩ := hw.box h hb
    have hends {x : Vertex} (hx : x = a ∨ x = c) : x ≠ w.next := by
      refine hw.valid.ne_next (hw.valid.has x h .plain ?_)
      rw [hw.valid.symm, hcounts, if_pos ⟨hx, rfl⟩]
      exact Nat.one_pos
    have han := hends (.inl rfl)
    have hcn := hends (.inr rfl)
    have hho : h ≠ o := by
      rintro rfl
      rw [hb] at ho
      cases ho
    by_cases hhu : h = u
    · -- the new spider takes the place of the end at the box
      have hor : a = o ∨ c = o := by
        have h₁ := hcounts o .plain
        rw [hw.valid.symm, hhu, ht, if_pos ⟨rfl, rfl⟩] at h₁
        by_contra hne
        rw [if_neg fun hx => hne (hx.1.imp Eq.symm Eq.symm)] at h₁
        exact absurd h₁ Nat.one_ne_zero
      rcases hor with rfl | rfl
      · refine ⟨w.next, c, hcn.symm, fun h' => hc (hold hcn ▸ h'), fun x k => ?_⟩
        have := hcounts x k
        simp only [hcount, SamePair]
        grind
      · refine ⟨a, w.next, han, fun _ => hlt, fun x k => ?_⟩
        have := hcounts x k
        simp only [hcount, SamePair]
        grind
    · refine ⟨a, c, hac, fun h' => hc (hold hcn ▸ h'), fun x k => ?_⟩
      have := hcounts x k
      simp only [hcount, SamePair]
      grind

theorem Drawn.splice (hkind : κ.isBoundary = false) : (w.splice o u κ p).Drawn where
  valid := ht.valid_splice hw.valid
  plain s t := by
    rw [ht.count_splice hw.valid]
    split
    · rfl
    · split
      · rfl
      · exact hw.plain s t
  inputs_nodup := hw.inputs_nodup
  outputs_nodup := hw.outputs_nodup
  mem_inputs v := by
    refine (hw.mem_inputs v).trans ?_
    rw [kind_splice, Function.update_apply]
    split
    · next h =>
      subst h
      refine ⟨fun h => absurd (has_of_kind h) hw.valid.not_has_next, fun h => ?_⟩
      cases h
      cases hkind
    · rfl
  mem_outputs v := by
    refine (hw.mem_outputs v).trans ?_
    rw [kind_splice, Function.update_apply]
    split
    · next h =>
      subst h
      refine ⟨fun h => absurd (has_of_kind h) hw.valid.not_has_next, fun h => ?_⟩
      cases h
      cases hkind
    · rfl
  ends _ he := hw.ends_splice ht hkind he
  box _ hb := hw.box_splice ho ht hb

end Splice

/-! ### Between spiders on wires -/

/-- A wire between two coloured spiders. -/
theorem Drawn.addEdges (hw : w.Drawn) (hs : (w.kindAt s).isPhased = true) (hs' : w.Has s)
    (ht : (w.kindAt t).isPhased = true) (ht' : w.Has t) (hst : s ≠ t) :
    (w.addEdges s t .plain 1).Drawn := by
  -- no edge changes at a spider that is not coloured
  have hcount {v : Vertex} (hv : (w.kindAt v).isPhased = false) (x : Vertex) (k : EdgeKind) :
      (w.addEdges s t .plain 1).count v x k = w.count v x k := by
    refine if_neg ?_
    rintro (⟨rfl, -⟩ | ⟨rfl, -⟩)
    · rw [hs] at hv
      cases hv
    · rw [ht] at hv
      cases hv
  refine ⟨hw.valid.setCount hs' ht' hst _, fun a b => ?_, hw.inputs_nodup, hw.outputs_nodup,
    hw.mem_inputs, hw.mem_outputs, fun v he => ?_, fun h hb => ?_⟩
  · simp only [Web.addEdges, Web.setCount]
    split
    · rw [hw.plain, if_neg (by decide)]
    · exact hw.plain a b
  · have hv : (w.kindAt v).isPhased = false := IsEnd.isPhased_kindAt (w := w) he
    obtain ⟨u, hu, hout⟩ := hw.ends v he
    exact ⟨u, fun x k => (hcount hv x k).trans (hu x k), hout⟩
  · have hv : (w.kindAt h).isPhased = false := by
      rw [kindAt_eq (w := w) hb]
      rfl
    obtain ⟨a, c, hac, hc, hcounts⟩ := hw.box h hb
    exact ⟨a, c, hac, hc, fun x k => (hcount hv x k).trans (hcounts x k)⟩

/-- A box between two coloured spiders. -/
theorem Drawn.addBox (hw : w.Drawn) (hs : (w.kindAt s).isPhased = true) (hs' : w.Has s)
    (ht : (w.kindAt t).isPhased = true) (ht' : w.Has t) (hst : s ≠ t) :
    (w.addBetween s t .box .zero).Drawn := by
  have hcount (a b : Vertex) (k : EdgeKind) : (w.addBetween s t .box .zero).count a b k = _ :=
    hw.valid.count_addBetween hs' ht' hst a b k
  have hsn := hw.valid.ne_next hs'
  have htn := hw.valid.ne_next ht'
  have hold {v : Vertex} (hv : v ≠ w.next) : (w.addBetween s t .box .zero).kind v = w.kind v := by
    rw [kind_addBetween, update_of_ne hv]
  have hnew : (w.addBetween s t .box .zero).kind w.next = some .box := by
    rw [kind_addBetween, update_self]
  -- only the two coloured spiders and the box have other edges than before
  have hsame {v : Vertex} (hv : (w.kindAt v).isPhased = false) (hvn : v ≠ w.next) (x : Vertex)
      (k : EdgeKind) : (w.addBetween s t .box .zero).count v x k = w.count v x k := by
    rw [hcount, if_neg]
    rintro ((⟨h, -⟩ | ⟨h, -⟩) | (⟨h, -⟩ | ⟨h, -⟩))
    · exact hvn h
    · rw [h, hs] at hv
      cases hv
    · exact hvn h
    · rw [h, ht] at hv
      cases hv
  have hmem (v : Vertex) {κ : SpiderKind} (hkind : κ ≠ .box) :
      w.kind v = some κ ↔ (w.addBetween s t .box .zero).kind v = some κ := by
    by_cases hv : v = w.next
    · rw [hv, hnew]
      refine ⟨fun h => absurd (has_of_kind h) hw.valid.not_has_next, fun h => ?_⟩
      exact absurd (Option.some.inj h).symm hkind
    · rw [hold hv]
  refine ⟨hw.valid.addBetween hs' ht', fun a b => ?_, hw.inputs_nodup, hw.outputs_nodup,
    fun v => (hw.mem_inputs v).trans (hmem v (by decide)),
    fun v => (hw.mem_outputs v).trans (hmem v (by decide)), fun v he => ?_, fun h hb => ?_⟩
  · rw [hcount]
    split
    · rfl
    · exact hw.plain a b
  · have hvn : v ≠ w.next := by
      rintro rfl
      exact not_isEnd_of_kind hnew rfl he
    have he' : w.IsEnd v := by rwa [IsEnd, hold hvn] at he
    have hv := he'.isPhased_kindAt
    obtain ⟨u, hu, hout⟩ := hw.ends v he'
    refine ⟨u, fun x k => (hsame hv hvn x k).trans (hu x k), ?_⟩
    rw [hold hvn, hold (hw.valid.ne_next (hu.has hw.valid).2)]
    exact hout
  · by_cases hh : h = w.next
    · refine ⟨s, t, hst, fun h' => ?_, fun x k => ?_⟩
      · rw [hold htn] at h'
        rw [kindAt_eq h'] at ht
        cases ht
      · have hnone := hw.valid.count_next x k
        rw [hh, hcount]
        simp only [SamePair]
        grind
    · rw [hold hh] at hb
      have hv : (w.kindAt h).isPhased = false := by
        rw [kindAt_eq hb]
        rfl
      obtain ⟨a, c, hac, hc, hcounts⟩ := hw.box h hb
      refine ⟨a, c, hac, fun h' => ?_, fun x k => (hsame hv hh x k).trans (hcounts x k)⟩
      by_cases hcn : c = w.next
      · rw [hcn]
        exact hw.valid.lt h (has_of_kind hb)
      · exact hc (hold hcn ▸ h')

/-! ### Two wires that cross -/

section Valid

variable (hw : w.Valid) (ht : w.Tied o u) (hu : u ≠ o') (ht' : w.Tied o' u') (hu' : u' ≠ o)
  (hne : o ≠ o')
include hw ht hu ht' hu' hne

/-- The two ends take each other's place. -/
theorem Valid.count_cross (a b : Vertex) (k : EdgeKind) : (w.cross o o' u u').count a b k =
    w.count (Equiv.swap o o' a) (Equiv.swap o o' b) k := by
  have huo : u ≠ o := (ht.ne hw).symm
  have huo' : u' ≠ o' := (ht'.ne hw).symm
  have h₁ := ht
  have h₂ := ht'
  have h₃ (x : Vertex) (k : EdgeKind) : w.count x o k = w.count o x k := hw.symm x o k
  have h₄ (x : Vertex) (k : EdgeKind) : w.count x o' k = w.count o' x k := hw.symm x o' k
  rw [Equiv.swap_apply_def, Equiv.swap_apply_def]
  simp only [Web.cross, Web.addEdges, Web.cut, Web.setCount, SamePair]
  unfold Tied at h₁ h₂
  cases k <;> grind

theorem Valid.cross : (w.cross o o' u u').Valid := by
  have hcount := hw.count_cross ht hu ht' hu' hne
  refine ⟨hw.lt, fun s t k => ?_, fun v k => ?_, fun s t k h => ?_⟩
  · rw [hcount, hcount, hw.symm]
  · rw [hcount, hw.self]
  · rw [hcount] at h
    have hhas := hw.has _ _ k h
    rw [Equiv.swap_apply_def] at hhas
    split_ifs at hhas with hs hs
    · exact hs ▸ (ht.has hw).1
    · exact hs ▸ (ht'.has hw).1
    · exact hhas

end Valid

section Cross

variable (hw : w.Drawn) (ho : w.kind o = some .output) (ht : w.Tied o u)
  (hu : w.kind u ≠ some .output) (ho' : w.kind o' = some .output) (ht' : w.Tied o' u')
  (hu' : w.kind u' ≠ some .output) (hne : o ≠ o')
include hw ho ht hu ho' ht' hu' hne

omit hw ht hu ht' hu' hne in
theorem kind_swap (v : Vertex) : w.kind (Equiv.swap o o' v) = w.kind v := by
  rw [Equiv.swap_apply_def]
  split_ifs with h h
  · rw [h, ho, ho']
  · rw [h, ho, ho']
  · rfl

theorem Drawn.cross : (w.cross o o' u u').Drawn := by
  have huo : u ≠ o' := fun h => hu (h ▸ ho')
  have huo' : u' ≠ o := fun h => hu' (h ▸ ho)
  have hcount := hw.valid.count_cross ht huo ht' huo' hne
  have hkind (v : Vertex) : w.kind (Equiv.swap o o' v) = w.kind v := kind_swap ho ho' v
  have heq (x y : Vertex) : Equiv.swap o o' x = y ↔ x = Equiv.swap o o' y := by
    rw [Equiv.swap_apply_eq_iff]
  refine ⟨hw.valid.cross ht huo ht' huo' hne, fun s t => ?_, hw.inputs_nodup, hw.outputs_nodup,
    hw.mem_inputs, hw.mem_outputs, fun t he => ?_, fun h hb => ?_⟩
  · rw [hcount, hw.plain]
  · have he' : w.IsEnd (Equiv.swap o o' t) := by
      rw [IsEnd, hkind]
      exact he
    obtain ⟨x, hx, hout⟩ := hw.ends _ he'
    refine ⟨Equiv.swap o o' x, fun y k => ?_, fun h => ?_⟩
    · rw [hcount, hx]
      simp only [heq]
    · change w.kind _ ≠ _
      rw [hkind]
      exact hout ((hkind t).trans h)
  · have hho : h ≠ o := fun e => by
      rw [e] at hb
      exact absurd (ho.symm.trans hb) (by decide)
    have hho' : h ≠ o' := fun e => by
      rw [e] at hb
      exact absurd (ho'.symm.trans hb) (by decide)
    obtain ⟨a, c, hac, hc, hcounts⟩ := hw.box h hb
    refine ⟨Equiv.swap o o' a, Equiv.swap o o' c, fun he => hac ((Equiv.swap o o').injective he),
      fun hbox => ?_, fun x k => ?_⟩
    · have hk : w.kind c = some .box := (hkind c).symm.trans hbox
      -- a box is none of the two ends
      rw [Equiv.swap_apply_of_ne_of_ne]
      · exact hc hk
      · intro e
        exact absurd (ho.symm.trans (e ▸ hk)) (by decide)
      · intro e
        exact absurd (ho'.symm.trans (e ▸ hk)) (by decide)
    · rw [hcount, Equiv.swap_apply_of_ne_of_ne hho hho', hcounts]
      simp only [heq]

end Cross

/-! ### Bare wires -/

/-- One more bare wire. -/
def addWire (w : Web) : Web :=
  { ((w.addNode .input .zero).addNode .output .zero).addEdges (w.next + 1) w.next .plain 1 with
    inputs := w.inputs ++ [w.next]
    outputs := w.outputs ++ [w.next + 1] }

theorem kind_addWire (w : Web) (v : Vertex) : w.addWire.kind v =
    if v = w.next + 1 then some .output else if v = w.next then some .input else w.kind v := by
  change update (update w.kind w.next (some .input)) (w.next + 1) (some .output) v = _
  rw [Function.update_apply, Function.update_apply]

theorem Valid.addWire (hw : w.Valid) : w.addWire.Valid := by
  have h₁ : (w.addNode .input .zero).Valid := hw.addNode _ _
  have h₂ : ((w.addNode .input .zero).addNode .output .zero).Valid := h₁.addNode _ _
  have h₃ := h₂.setCount (s := w.next + 1) (t := w.next) has_addNode_next
    (h₁.has_addNode has_addNode_next) (Nat.succ_ne_self _) fun k' => (w.count (w.next + 1) w.next k') +
      if EdgeKind.plain = k' then 1 else 0
  exact ⟨h₃.lt, h₃.symm, h₃.self, h₃.has⟩

theorem Valid.count_addWire (hw : w.Valid) (a b : Vertex) (k : EdgeKind) :
    w.addWire.count a b k = if SamePair a b (w.next + 1) w.next then if k = .plain then 1 else 0
      else w.count a b k := by
  have hnone := hw.count_next
  have hnone' (x : Vertex) (k : EdgeKind) : w.count x w.next k = 0 :=
    (hw.symm _ _ _).trans (hnone x k)
  simp only [Web.addWire, Web.addEdges, Web.setCount, count_addNode, SamePair]
  grind

/-- The old vertices keep their kinds and their edges, -/
theorem Valid.kind_addWire_of_has (hw : w.Valid) (hv : w.Has v) : w.addWire.kind v = w.kind v := by
  have hlt := hw.lt v hv
  rw [kind_addWire, if_neg (Nat.ne_of_lt (Nat.lt_succ_of_lt hlt)), if_neg (Nat.ne_of_lt hlt)]

theorem Valid.count_addWire_of_has (hw : w.Valid) (hv : w.Has v) (x : Vertex) (k : EdgeKind) :
    w.addWire.count v x k = w.count v x k := by
  rw [hw.count_addWire, if_neg]
  rintro (⟨h, -⟩ | ⟨h, -⟩)
  · exact absurd (h ▸ hw.lt v hv) (Nat.not_lt_of_le (Nat.le_succ _))
  · exact hw.ne_next hv h

theorem Tied.addWire (ht : w.Tied t u) (hw : w.Valid) : w.addWire.Tied t u := fun x k =>
  (hw.count_addWire_of_has (ht.has hw).1 x k).trans (ht x k)

/-- and the ends of the wire are tied to each other. -/
theorem Valid.tied_addWire (hw : w.Valid) :
    w.addWire.Tied w.next (w.next + 1) ∧ w.addWire.Tied (w.next + 1) w.next := by
  have hnone {v : Vertex} (hv : w.next ≤ v) (x : Vertex) (k : EdgeKind) : w.count v x k = 0 :=
    Nat.eq_zero_of_not_pos fun hpos => Nat.not_lt_of_le hv (hw.lt v (hw.has v x k hpos))
  refine ⟨fun x k => ?_, fun x k => ?_⟩
  · rw [hw.count_addWire, hnone (Nat.le_refl _)]
    simp only [SamePair]
    grind
  · rw [hw.count_addWire, hnone (Nat.le_succ _)]
    simp only [SamePair]
    grind

theorem Drawn.addWire (hw : w.Drawn) : w.addWire.Drawn := by
  have hnone (k : SpiderKind) : w.kind w.next ≠ some k := fun h =>
    hw.valid.not_has_next (has_of_kind h)
  have hnone' (k : SpiderKind) : w.kind (w.next + 1) ≠ some k := fun h =>
    absurd (hw.valid.lt _ (has_of_kind h)) (Nat.not_lt_of_le (Nat.le_succ _))
  refine ⟨hw.valid.addWire, fun a b => ?_, ?_, ?_, fun v => ?_, fun v => ?_, fun t he => ?_,
    fun h hb => ?_⟩
  · rw [hw.valid.count_addWire]
    split
    · rfl
    · exact hw.plain a b
  · refine List.nodup_append'.2 ⟨hw.inputs_nodup, List.nodup_singleton _, ?_⟩
    exact List.disjoint_singleton.2 fun h => hnone _ ((hw.mem_inputs _).1 h)
  · refine List.nodup_append'.2 ⟨hw.outputs_nodup, List.nodup_singleton _, ?_⟩
    exact List.disjoint_singleton.2 fun h => hnone' _ ((hw.mem_outputs _).1 h)
  · change v ∈ w.inputs ++ [w.next] ↔ _
    rw [kind_addWire, List.mem_append, hw.mem_inputs, List.mem_singleton]
    have := hnone' .input
    by_cases h₁ : v = w.next + 1 <;> by_cases h₂ : v = w.next <;> simp_all
  · change v ∈ w.outputs ++ [w.next + 1] ↔ _
    rw [kind_addWire, List.mem_append, hw.mem_outputs, List.mem_singleton]
    have := hnone' .output
    by_cases h₁ : v = w.next + 1 <;> by_cases h₂ : v = w.next <;> simp_all
  · by_cases h₁ : t = w.next + 1
    · refine ⟨w.next, h₁ ▸ hw.valid.tied_addWire.2, fun _ => ?_⟩
      rw [kind_addWire]
      simp
    by_cases h₂ : t = w.next
    · refine ⟨w.next + 1, h₂ ▸ hw.valid.tied_addWire.1, fun h => ?_⟩
      rw [kind_addWire, if_neg h₁, if_pos h₂] at h
      cases h
    have hkt : w.addWire.kind t = w.kind t := by rw [kind_addWire, if_neg h₁, if_neg h₂]
    obtain ⟨u, hu, hout⟩ := hw.ends t (by rwa [IsEnd, hkt] at he)
    refine ⟨u, hu.addWire hw.valid, fun h => ?_⟩
    rw [hw.valid.kind_addWire_of_has (hu.has hw.valid).2]
    exact hout (hkt ▸ h)
  · have hb' : w.kind h = some .box := by
      rw [kind_addWire] at hb
      split at hb
      · cases hb
      · split at hb
        · cases hb
        · exact hb
    obtain ⟨a, c, hac, hc, hcounts⟩ := hw.box h hb'
    have hhas : w.Has c := by
      refine hw.valid.has c h .plain ?_
      rw [hw.valid.symm, hcounts, if_pos ⟨.inr rfl, rfl⟩]
      exact Nat.one_pos
    refine ⟨a, c, hac, fun h' => hc ?_, fun x k =>
      (hw.valid.count_addWire_of_has (has_of_kind hb') x k).trans (hcounts x k)⟩
    exact (hw.valid.kind_addWire_of_has hhas).symm.trans h'

/-- A bare wire says that the bits at its ends are the same. -/
theorem Drawn.amplitude_addWire (hw : w.Drawn) (τ : Vertex → ℂ) (b : Bits) :
    (w.addWire.tensors τ).amplitude b =
      (w.tensors τ).amplitude b * if b (w.next + 1) = b w.next then 1 else 0 := by
  have h₁ : (w.addNode .input .zero).Valid := hw.valid.addNode _ _
  have h₂ : ((w.addNode .input .zero).addNode .output .zero).Valid := h₁.addNode _ _
  set w₂ := (w.addNode .input .zero).addNode .output .zero with hw₂
  have hin : w₂.kind w.next = some .input := by
    rw [hw₂, kind_addNode, kind_addNode]
    exact (update_of_ne (Nat.ne_of_lt (Nat.lt_succ_self _)) _ _).trans (update_self _ _ _)
  have hout : w₂.kind (w.next + 1) = some .output := update_self _ _ _
  have hsame : w.addWire.tensors τ = (w₂.addEdges (w.next + 1) w.next .plain 1).tensors τ :=
    tensors_congr rfl rfl rfl rfl
  have hinner : ((w₂.addEdges (w.next + 1) w.next .plain 1).tensors τ).inner = (w.tensors τ).inner :=
    Eq.trans (b := (w₂.tensors τ).inner) (tensors_inner_congr rfl rfl)
      ((h₁.tensors_inner_addEnd rfl _).trans (hw.valid.tensors_inner_addEnd rfl _))
  have hnot : ∀ x ∈ (w.tensors τ).inner, x < w.next := fun x hx => (mem_tensors_inner.1 hx).1.1
  rw [hsame, Network.amplitude, hinner, Network.amplitude, mul_comm, ← sumOver_mul_left]
  refine sumOver_congr fun b' hb' => ?_
  rw [h₂.tensors_addEdges (has_of_kind hout) (has_of_kind hin) (Nat.succ_ne_self _), pow_one,
    h₁.tensors_addEnd rfl, hw.valid.tensors_addEnd rfl,
    leg_of_isEnd (isEnd_of_output hout), leg_of_isEnd (isEnd_of_input hin), EdgeKind.joint_copy,
    hb' _ fun h => Nat.lt_irrefl _ (hnot _ h),
    hb' _ fun h => Nat.lt_irrefl _ ((Nat.lt_succ_self _).trans (hnot _ h)), mul_comm,
    EdgeKind.value_comm]
  rfl

end Web

end ZXRewriting
