import ZXRewriting.Proofs.Diagram.Cells

/-!
# Diagrams of gate streams

Gates put onto bare wires one after another, at either side (`Diagram.ofRequests`), are a stream:
those put on at the outputs come at its end, and those put on at the inputs at its start
(`Diagram.stream`). The diagram takes on just the gates that are valid
(`Written.exists_request`, `Written.valid_of_request`), and shows the cells of the stream, in which wires are
followed from the inputs (`Recorded`).
-/

namespace ZXRewriting

open Equiv (Perm)
open Function (update update_self update_of_ne)
open Floating.Number (ofInteger)

namespace Gate

variable {g : Gate} {n : ℕ}

/-- The gate as a diagram takes it on: nothing but a rotation has a phase. -/
def taken (g : Gate) : Gate := { g with phase := if g.kind.hasPhase then g.phase else .zero }

@[simp] theorem isIdle_taken (g : Gate) : g.taken.isIdle = g.isIdle := by
  obtain ⟨kind, qubits, p⟩ := g
  cases kind <;> rfl

theorem Valid.taken (hg : g.Valid n) : g.taken.Valid n := ⟨hg.arity, hg.nodup, hg.lt⟩

theorem matrix_taken : g.taken.matrix n = g.matrix n := by
  obtain ⟨kind, qubits, p⟩ := g
  rcases qubits with _ | ⟨q, _ | ⟨r, _ | _⟩⟩ <;> cases kind <;> rfl

/-- Wires that change places twice lie as before. -/
theorem crossing_mul_self : g.crossing * g.crossing = 1 := by
  unfold crossing
  split
  · exact Equiv.swap_mul_self _ _
  · rfl

end Gate

theorem gatesMatrix_map_taken (n : ℕ) (gs : List Gate) :
    gatesMatrix n (gs.map Gate.taken) = gatesMatrix n gs := by
  induction gs with
  | nil => rfl
  | cons g gs ih => rw [List.map_cons, gatesMatrix_cons, gatesMatrix_cons, ih, Gate.matrix_taken]

/-- One more gate at a side. -/
theorem follow_join {lines : Diagram.Side → Perm ℕ} {gs fs : List Gate} (side : Diagram.Side) (g : Gate)
    (h : follow (lines .front) gs = (fs, lines .back)) :
    follow (update lines side (lines side * g.crossing) .front) (side.join [g] gs) =
      (side.join (if g.kind = .swap then [] else [g.relabel (lines side)]) fs,
        update lines side (lines side * g.crossing) .back) := by
  cases side with
  | front =>
    rw [update_self, update_of_ne (by decide)]
    by_cases hg : g.kind = .swap
    · rw [Diagram.Side.join, List.singleton_append, follow_swap hg, mul_assoc,
        Gate.crossing_mul_self, mul_one, h, if_pos hg]
      rfl
    · rw [Diagram.Side.join, List.singleton_append, Gate.crossing_of_ne hg, mul_one, follow_other hg,
        h, if_neg hg]
      rfl
  | back =>
    rw [update_self, update_of_ne (by decide), Diagram.Side.join, follow_append, h]
    by_cases hg : g.kind = .swap
    · rw [follow_swap hg, if_pos hg]
      rfl
    · rw [follow_other hg, if_neg hg, Gate.crossing_of_ne hg, mul_one]
      rfl

namespace Diagram

/-- Puts a gate onto the wires at a side. -/
def request (d : Diagram) : Side × Gate → Attempt Refusal Diagram
  | (.front, g) => d.pushFront g
  | (.back, g) => d.push g

/-- The diagram of bare wires that gates were put onto one after another. -/
def ofRequests (n : ℕ) (rs : List (Side × Gate)) : Attempt Refusal Diagram := do
  let bare ← ofWires n
  rs.foldlM request bare

/-- The stream of the gates. -/
def stream (n : ℕ) (rs : List (Side × Gate)) : Circuit :=
  rs.foldl (fun c r => match r.1 with | .front => c.pushFront r.2 | .back => c.push r.2) (.empty n)

variable {d d' : Diagram} {n : ℕ} {lines : Side → Perm ℕ} {beside : Vertex → List Vertex}
  {cells : List (ℤ × Cell)} {first last : ℤ} {g : Gate} {side : Side} {rs : List (Side × Gate)}
  {gs : List Gate}

@[simp] theorem qubits_stream : (stream n rs).qubits = n := by
  suffices h : ∀ c : Circuit, (rs.foldl (fun c r => match r.1 with
      | .front => c.pushFront r.2 | .back => c.push r.2) c).qubits = c.qubits from h _
  induction rs with
  | nil => exact fun _ => rfl
  | cons r rs ih =>
    intro c
    obtain ⟨_ | _, g⟩ := r <;> exact ih _

theorem stream_append (r : Side × Gate) :
    stream n (rs ++ [r]) = ⟨n, r.1.join [r.2] (stream n rs).gates⟩ := by
  obtain ⟨side, g⟩ := r
  rw [stream, List.foldl_append, ← stream]
  cases side <;> exact congrArg (Circuit.mk · _) qubits_stream

theorem mem_stream : g ∈ (stream n rs).gates ↔ ∃ r ∈ rs, r.2 = g := by
  induction rs using List.reverseRecOn with
  | nil => simp [stream, Circuit.empty]
  | append_singleton rs r ih =>
    rw [stream_append, Side.mem_join, ih, List.mem_singleton]
    simp only [List.mem_append, List.mem_singleton, or_and_right, exists_or, exists_eq_left]
    rw [or_comm, eq_comm]

theorem length_stream : (stream n rs).gates.length = rs.length := by
  induction rs using List.reverseRecOn with
  | nil => rfl
  | append_singleton rs r ih =>
    rw [stream_append, List.length_append, ← ih]
    obtain ⟨_ | _, g⟩ := r <;> simp [Side.join, Nat.add_comm]

theorem request_eq (r : Side × Gate) :
    d.request r = d.attach r.1 r.2.kind r.2.qubits (.exact r.2.phase) true := by
  obtain ⟨_ | _, g⟩ := r <;> rfl

/-! ### The gates that are taken on -/

/-- The qubits that pass the check are those of a valid gate. -/
theorem valid_of_checkQubits (h : d.checkQubits g.kind g.qubits = .ok ()) :
    g.Valid d.layout.wires := by
  rw [checkQubits] at h
  split at h
  · cases h
  · next harity =>
    split at h
    · cases h
    · next hnone =>
      obtain ⟨hnodup, hlt⟩ := badQubit?_eq_none_iff.1 hnone
      exact ⟨not_not.1 harity, hnodup, fun q hq => (hlt q hq).1⟩

/-- After its check a gate is put on as it is taken on. -/
theorem request_of_checkQubits {r : Side × Gate}
    (h : d.checkQubits r.2.kind r.2.qubits = .ok ()) : d.request r =
      liftM (d.attachUnchecked r.1 r.2.taken.kind r.2.taken.qubits r.2.taken.phase) := by
  rw [request_eq, attach, h]
  change (gatePhase r.2.kind (.exact r.2.phase) true >>= fun p => _) = _
  rw [gatePhase_exact]
  rfl

section

variable (h : d.Written n lines beside cells first last)
include h

theorem Written.checkQubits_iff : d.checkQubits g.kind g.qubits = .ok () ↔ g.Valid n := by
  refine ⟨fun hok => h.wires ▸ valid_of_checkQubits hok, checkQubits_eq (fun q hq => ?_) h.wires⟩
  obtain ⟨u, ht, -⟩ := h.threaded.exists_tied .back hq
  obtain ⟨u', ht', -⟩ := h.threaded.exists_tied .front hq
  exact checkEnds_eq h.coherent (boundary_eq .back h.threaded hq)
    (boundary_eq .front h.threaded hq) ht ht'

/-- Nothing but a valid gate is put on. -/
theorem Written.valid_of_request {r : Side × Gate} (hok : d.request r = .ok d') : r.2.Valid n := by
  rw [request_eq, attach] at hok
  obtain ⟨_, hcheck, -⟩ := of_bind_eq_ok hok
  exact h.checkQubits_iff.1 hcheck

end

/-! ### The cells of a stream -/

/-- The diagram shows the gates of a stream in its cells, on their threads. -/
structure Recorded (d : Diagram) (n : ℕ) (gs : List Gate) (lines : Side → Perm ℕ)
    (beside : Vertex → List Vertex) (cells : List (ℤ × Cell)) (first last : ℤ) : Prop extends
    d.Written n lines beside cells first last where
  valid : ∀ g ∈ gs, g.Valid n
  width : last - first ≤ gs.length
  follows : follow (lines .front) (gs.map Gate.taken) = (cells.map (·.2.gate), lines .back)
  still : ∀ c ∈ cells, c.2.Still

/-- Bare wires have no cells. -/
theorem Bare.recorded (h : Bare n d) (hwires : d.layout.wires = n) :
    d.Recorded n [] (fun _ => 1) (fun _ => []) [] 0 0 := by
  have hzero : (0 : Floating.Double) = ofInteger 0 :=
    Floating.Number.ofNat_eq Floating.Format.double_hasIntegers (by decide)
  have hinput {q : ℕ} (hq : q < n) : d.web.input q = 2 * q := by
    simp [Web.input, h.inputs, List.getD_eq_getElem?_getD, hq]
  have houtput {q : ℕ} (hq : q < n) : d.web.output q = 2 * q + 1 := by
    simp [Web.output, h.outputs, List.getD_eq_getElem?_getD, hq]
  -- every vertex is an end
  have hend {v : Vertex} (hv : d.web.Has v) : d.web.IsEnd v := by
    have hlt := h.drawn.valid.lt v hv
    rw [h.next] at hlt
    rcases Nat.even_or_odd' v with ⟨q, rfl | rfl⟩
    · refine Web.isEnd_of_input ((h.drawn.mem_inputs _).1 ?_)
      rw [h.inputs]
      exact List.mem_map.2 ⟨q, List.mem_range.2 (Nat.lt_of_mul_lt_mul_left hlt), rfl⟩
    · refine Web.isEnd_of_output ((h.drawn.mem_outputs _).1 ?_)
      rw [h.outputs]
      exact List.mem_map.2 ⟨q, List.mem_range.2
        (Nat.lt_of_mul_lt_mul_left ((Nat.lt_succ_self _).trans hlt)), rfl⟩
  exact {
    coherent := h.coherent
    wires := hwires
    threaded := {
      valid := h.drawn.valid
      length := fun side => by
        cases side
        · exact (congrArg List.length h.inputs).trans (by simp)
        · exact (congrArg List.length h.outputs).trans (by simp)
      nodup := fun side => by
        cases side
        · exact h.drawn.inputs_nodup
        · exact h.drawn.outputs_nodup
      inputs := h.drawn.mem_inputs
      outputs := h.drawn.mem_outputs
      keeps := fun _ => .one
      spider := fun s hs => absurd hs List.not_mem_nil
      beside_spider := fun v x hx => absurd hx List.not_mem_nil
      loose := fun v hv he => absurd (hend hv) he
      start := fun q hq => ⟨_, .inr ⟨q, hq, rfl, rfl⟩, by
        rw [hinput hq, houtput hq]
        exact (h.tied q hq).1⟩
      runs := fun q hq => by
        change d.web.Tied (d.web.output q) (d.web.input q)
        rw [hinput hq, houtput hq]
        exact (h.tied q hq).2 }
    shown := fun c hc => absurd hc List.not_mem_nil
    inside := fun v => iff_of_false (fun hv => hv.2 (hend hv.1)) List.not_mem_nil
    nodup := List.nodup_nil
    sorted := fun c hc => absurd hc List.not_mem_nil
    column := fun c hc => absurd hc List.not_mem_nil
    column_output := fun v _ => h.column v
    ordered := .nil
    range := fun c hc => absurd hc List.not_mem_nil
    first_eq := h.first.trans hzero
    last_eq := h.last.trans hzero
    first_le := Int.le_refl 0
    le_last := Int.le_refl 0
    valid := fun g hg => absurd hg List.not_mem_nil
    width := Int.le_refl 0
    follows := rfl
    still := fun c hc => absurd hc List.not_mem_nil }

/-- One more gate is shown as it should be. -/
theorem Recorded.exists_request (h : d.Recorded n gs lines beside cells first last)
    (hsize : gs.length + 1 < 2 ^ 53) {r : Side × Gate} (hg : r.2.Valid n) :
    ∃ d' lines' beside' cells' first' last', d.request r = .ok d' ∧
      d'.Recorded n (r.1.join [r.2] gs) lines' beside' cells' first' last' := by
  obtain ⟨side, g⟩ := r
  have hwidth := h.width
  obtain ⟨d', beside', cells', first', last', hok, hd', hwidth', hcells, hstill⟩ :=
    h.toWritten.exists_attach side (by omega) hg.taken fun hkind => by
      rw [Gate.taken, if_neg (by simpa [Gate.taken] using hkind)]
  have hlen : (side.join [g] gs).length = gs.length + 1 := by
    cases side <;> simp [Side.join]
  refine ⟨d', _, beside', cells', first', last', ?_, hd', fun g' hg' => ?_, ?_, ?_,
    fun c hc => (hstill c hc).elim (h.still c) id⟩
  · rw [request_of_checkQubits (h.checkQubits_iff.2 hg), hok]
    rfl
  · rcases Side.mem_join.1 hg' with hg' | hg'
    · exact List.mem_singleton.1 hg' ▸ hg
    · exact h.valid g' hg'
  · rw [hlen]
    push_cast
    omega
  · have hmap : (side.join [g] gs).map Gate.taken = side.join [g.taken] (gs.map Gate.taken) := by
      cases side <;> simp [Side.join]
    rw [hmap, follow_join side g.taken h.follows, hcells]

/-- The diagram of a stream shows its gates, which are valid. -/
theorem recorded_of_ofRequests (hsize : rs.length < 2 ^ 53) (hok : ofRequests n rs = .ok d) :
    ∃ lines beside cells first last,
      d.Recorded n (stream n rs).gates lines beside cells first last := by
  obtain ⟨bare, hbare, h, hwires⟩ := exists_ofWires n
  have hmeets := Meets.foldlM (f := request) (E := fun _ => True) (fun done d =>
    ∃ lines beside cells first last,
      d.Recorded n (stream n done).gates lines beside cells first last) rs
    (s := bare) ⟨_, _, _, _, _, h.recorded hwires⟩
    fun done r rest d hrs hinv => by
      obtain ⟨lines, beside, cells, first, last, hd⟩ := hinv
      cases hr : d.request r with
      | error e => trivial
      | ok d' =>
        have hlen : done.length + 1 ≤ rs.length := by simp [hrs]
        obtain ⟨d', lines', beside', cells', first', last', hok, hd'⟩ :=
          hd.exists_request (by rw [length_stream]; omega) (hd.valid_of_request hr)
        obtain rfl := Except.ok.inj (hr.symm.trans hok)
        rw [Meets.ok_iff, stream_append]
        exact ⟨_, _, _, _, _, hd'⟩
  rw [ofRequests, hbare] at hok
  change rs.foldlM request bare = .ok d at hok
  rwa [hok] at hmeets

/-- A stream can be put onto bare wires if its gates are valid, and only then. -/
theorem exists_ofRequests_iff (hsize : rs.length < 2 ^ 53) :
    (∃ d, ofRequests n rs = .ok d) ↔ ∀ r ∈ rs, r.2.Valid n := by
  constructor
  · rintro ⟨d, hok⟩ r hr
    obtain ⟨lines, beside, cells, first, last, hd⟩ := recorded_of_ofRequests hsize hok
    exact hd.valid _ (mem_stream.2 ⟨r, hr, rfl⟩)
  · intro hvalid
    obtain ⟨bare, hbare, h, hwires⟩ := exists_ofWires n
    obtain ⟨d, hok, -⟩ := exists_foldlM (f := request) (fun done d =>
      ∃ lines beside cells first last,
        d.Recorded n (stream n done).gates lines beside cells first last) rs
      (s := bare) ⟨_, _, _, _, _, h.recorded hwires⟩
      fun done r rest d hrs hinv => by
        obtain ⟨lines, beside, cells, first, last, hd⟩ := hinv
        have hlen : done.length + 1 ≤ rs.length := by simp [hrs]
        obtain ⟨d', lines', beside', cells', first', last', hok, hd'⟩ := hd.exists_request (r := r)
          (by rw [length_stream]; omega) (hvalid r (by simp [hrs]))
        rw [stream_append]
        exact ⟨d', hok, _, _, _, _, _, hd'⟩
    refine ⟨d, ?_⟩
    rw [ofRequests, hbare]
    exact hok

/-- The diagram of a circuit is that of its gates put onto bare wires at the outputs. -/
theorem ofCircuit_eq (c : Circuit) :
    ofCircuit c = ofRequests c.qubits (c.gates.map (Side.back, ·)) := by
  simp only [ofCircuit, ofRequests, List.foldlM_map]
  rfl

theorem stream_back (n : ℕ) (gs : List Gate) :
    (stream n (gs.map (Side.back, ·))).gates = gs := by
  induction gs using List.reverseRecOn with
  | nil => rfl
  | append_singleton gs g ih =>
    rw [List.map_append, List.map_singleton, stream_append, ih]
    rfl

end Diagram

end ZXRewriting
