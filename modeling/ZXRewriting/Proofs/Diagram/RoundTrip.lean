import ZXRewriting.Proofs.Diagram.ReadBack

/-!
# Round trips

What is read back from the diagram of a stream is the stream with its gates on the wires they lie on,
but without rotations by nothing, and then swaps that let the wires lie as they do in the end
(`toCircuit_ofRequests`). It has the unitary of the stream; and where no swap and no rotation by
nothing was put on, it is the stream.
-/

namespace ZXRewriting

open Equiv (Perm)
open Function (update update_self update_of_ne)

namespace Diagram

variable {d : Diagram} {n : ℕ} {lines : Side → Perm ℕ} {beside : Vertex → List Vertex}
  {cells : List (ℤ × Cell)} {first last : ℤ} {tip : ℕ → Vertex} {r : Reading} {σ τ : Perm ℕ}
  {j k : ℕ} {swaps : List Gate} {rs : List (Side × Gate)}

/-! ### The wires at the outputs -/

/-- The wires that arrive at the outputs are those of the threads that end there. -/
theorem Reads.arrivals (h : d.Written n lines beside cells first last)
    (hr : d.Reads n lines beside cells [] tip r) : d.outputs.mapM (d.arriving r.front) =
      .ok ((List.range n).map ((lines .front).symm * lines .back)) := by
  have houtputs : d.outputs = (List.range n).map d.web.output := by
    refine List.ext_getElem? fun q => ?_
    by_cases hq : q < n
    · rw [List.getElem?_map, List.getElem?_range hq]
      exact h.threaded.getElem?_terminals .back hq
    · have hlen : d.outputs.length = n := h.threaded.length .back
      rw [List.getElem?_eq_none (by omega), List.getElem?_eq_none (by simp; omega)]
  rw [houtputs, List.mapM_map]
  refine mapM_eq fun q hq => ?_
  have hq : q < n := List.mem_range.1 hq
  have ht := hr.runs q hq
  have hlt := ((h.threaded.keeps .front).symm _).2 ((h.threaded.keeps .back q).2 hq)
  rw [Function.comp_apply, arriving, firstNeighbor?_eq h.coherent (ht.has h.coherent.valid).1 ht.joins,
    liftM_ok_bind]
  have hget : r.front[tip (lines .back q)]? = some ((lines .front).symm (lines .back q)) :=
    (hr.front _ _).2 ⟨hlt, by rw [Equiv.apply_symm_apply]⟩
  simp only [Option.bind_some, hget]
  rfl

/-! ### Swaps at the end -/

theorem exchange_map_range (hj : j < n) (hk : k < n) :
    exchange ((List.range n).map τ) j k = (List.range n).map (τ * Equiv.swap j k) := by
  rw [exchange, List.getElem?_map, List.getElem?_map, List.getElem?_range hj,
    List.getElem?_range hk]
  refine List.ext_getElem? fun i => ?_
  simp only [Option.map_some, List.getElem?_set, List.getElem?_map, List.length_set, List.length_map,
    List.length_range]
  by_cases hi : i < n
  · rw [List.getElem?_range hi, Option.map_some, Option.map_some, Equiv.Perm.mul_apply,
      Equiv.swap_apply_def]
    grind
  · rw [List.getElem?_eq_none (by simp; omega)]
    grind

/-- The swaps so far let the wires lie as `τ` says, and those before `j` are in their places. -/
structure Routed (n j : ℕ) (σ τ : Perm ℕ) (swaps : List Gate) : Prop where
  valid : ∀ g ∈ swaps, g.Valid n ∧ g.kind = .swap
  follows : follow 1 swaps = ([], τ)
  settled : ∀ i < j, τ i = σ i
  none : σ = 1 → swaps = []

/-- The wire of one more output is brought to its place. -/
theorem Routed.exists_routeOutput (h : Routed n j σ τ swaps) (hσ : KeepsPlaces n σ) (hj : j < n)
    (hout : d.outputs.length = n) : ∃ (τ' : Perm ℕ) (swaps' : List Gate),
      d.routeOutput ((List.range n).map σ) ((List.range n).map τ, swaps) j =
        .ok ((List.range n).map τ', swaps') ∧ Routed n (j + 1) σ τ' swaps' := by
  have hτ : KeepsPlaces n τ := by
    have hkeeps := (KeepsPlaces.one.follow fun g hg => (h.valid g hg).1).1
    rwa [h.follows] at hkeeps
  obtain ⟨k, hk⟩ := τ.surjective (σ j)
  have hkn : k < n := by rw [← hτ, hk, hσ]; exact hj
  have hfind : ((List.range n).map τ).findIdx? (· == σ j) = some k := by
    rw [List.findIdx?_eq_some_iff_getElem]
    refine ⟨by simpa using hkn, by simpa using hk, fun i hi => ?_⟩
    have hne : τ i ≠ σ j := fun he => Nat.ne_of_lt hi (τ.injective (he.trans hk.symm))
    simpa using hne
  have hroute : d.routeOutput ((List.range n).map σ) ((List.range n).map τ, swaps) j =
      if k = j then .ok ((List.range n).map τ, swaps)
      else .ok (exchange ((List.range n).map τ) j k, swaps ++ [.plain .swap [j, k]]) := by
    rw [routeOutput, List.getElem?_map, List.getElem?_range hj,
      List.getElem?_eq_getElem (hout ▸ hj)]
    simp only [Option.map_some, hfind]
    rfl
  rw [hroute]
  by_cases hkj : k = j
  · rw [if_pos hkj]
    refine ⟨τ, swaps, rfl, h.valid, h.follows, fun i hi => ?_, h.none⟩
    rcases Nat.lt_succ_iff_lt_or_eq.1 hi with hi | rfl
    · exact h.settled i hi
    · exact hkj ▸ hk
  · rw [if_neg hkj, exchange_map_range hj hkn]
    refine ⟨τ * Equiv.swap j k, _, rfl, fun g hg => ?_, ?_, fun i hi => ?_, fun hone => ?_⟩
    · rcases List.mem_append.1 hg with hg | hg
      · exact h.valid g hg
      · rw [List.mem_singleton.1 hg]
        refine ⟨⟨rfl, by simpa [Gate.plain] using Ne.symm hkj, fun q hq => ?_⟩, rfl⟩
        rcases List.mem_pair.1 hq with rfl | rfl <;> assumption
    · rw [follow_append, h.follows]
      rfl
    · rcases Nat.lt_succ_iff_lt_or_eq.1 hi with hi | rfl
      · have hik : i ≠ k := fun he => Nat.ne_of_lt hi (σ.injective (by
          rw [← h.settled i hi, he, hk]))
        rw [Equiv.Perm.mul_apply, Equiv.swap_apply_of_ne_of_ne (Nat.ne_of_lt hi) hik]
        exact h.settled i hi
      · rw [Equiv.Perm.mul_apply, Equiv.swap_apply_left, hk]
    · -- there is nothing to exchange where the wires lie in order
      have hnil := h.follows
      rw [h.none hone, follow_nil] at hnil
      have hτ : τ = 1 := (congrArg Prod.snd hnil).symm
      rw [hτ, hone] at hk
      exact absurd hk hkj

/-- All wires are brought to their places. -/
theorem exists_routeOutputs (hσ : KeepsPlaces n σ) (hfix : ∀ q, n ≤ q → σ q = q)
    (hout : d.outputs.length = n) : ∃ lines swaps,
      (List.range n).foldlM (d.routeOutput ((List.range n).map σ)) (List.range n, []) =
        .ok (lines, swaps) ∧ (∀ g ∈ swaps, g.Valid n ∧ g.kind = .swap) ∧
        follow 1 swaps = ([], σ) ∧ (σ = 1 → swaps = []) := by
  obtain ⟨⟨lines, swaps⟩, hok, τ, -, h⟩ := exists_foldlM
    (f := d.routeOutput ((List.range n).map σ)) (fun done s => ∃ τ : Perm ℕ,
      s.1 = (List.range n).map τ ∧ Routed n done.length σ τ s.2) (List.range n)
    (s := (List.range n, []))
    ⟨1, by simp, by simp, rfl, fun i hi => absurd hi (Nat.not_lt_zero i), fun _ => rfl⟩
    fun done j rest s hrange hinv => by
      obtain ⟨τ, hs, h⟩ := hinv
      obtain ⟨l, swaps⟩ := s
      obtain rfl : l = (List.range n).map τ := hs
      have hj : j = done.length := by
        have hget := congrArg (·[done.length]?) hrange
        simp only [List.getElem?_append_right (Nat.le_refl _), Nat.sub_self,
          List.getElem?_cons_zero] at hget
        obtain ⟨hlt, he⟩ := List.getElem?_eq_some_iff.1 hget
        rw [← he, List.getElem_range]
      have hjn : j < n := List.mem_range.1 (hrange ▸ by simp)
      obtain ⟨τ', swaps', hok, h'⟩ := (hj ▸ h).exists_routeOutput hσ hjn hout
      refine ⟨_, hok, τ', rfl, ?_⟩
      rwa [List.length_append, ← hj]
  refine ⟨lines, swaps, hok, h.valid, ?_, h.none⟩
  rw [h.follows]
  refine congrArg _ (Equiv.ext fun q => ?_)
  by_cases hq : q < n
  · exact h.settled q (by rwa [List.length_range])
  · have hq := Nat.le_of_not_lt hq
    have hτ := follow_apply (σ := 1) (fun g hg => (h.valid g hg).1) hq
    rw [h.follows] at hτ
    rw [hτ, hfix q hq, Equiv.Perm.one_apply]

/-! ### Round trips -/

/-- A diagram with cells is read as their gates, on the wires of the inputs, without rotations by
    nothing, and then swaps for the order in which wires arrive. -/
theorem Written.toCircuit_eq (h : d.Written n lines beside cells first last)
    (hsize : last - first < 2 ^ 53) (hσ : (lines .front).symm * lines .back = σ)
    {s : List ℕ × List Gate} (hroute : (List.range n).foldlM
      (d.routeOutput ((List.range n).map σ)) (List.range n, []) = .ok s) :
    d.toCircuit = .ok ⟨n, ((cells.flatMap (·.2.gates)).map
      (Gate.relabel (lines .front).symm)).filter (!·.isIdle) ++ s.2⟩ := by
  obtain ⟨is, his, hsort⟩ := h.exists_interior hsize
  obtain ⟨r, tip, hread, hr⟩ := h.reads.exists_all h rfl
  have harrivals := hr.arrivals h
  rw [hσ] at harrivals
  rw [toCircuit, h.wires, his]
  change ((is.mergeSort columnOrder).foldlM (fun r x => d.readSpider r x.1 x.2) _ >>= fun read => _) = _
  rw [hsort, hread]
  change (d.outputs.mapM (d.arriving r.front) >>= fun arrivals => _) = _
  rw [harrivals]
  change ((List.range n).foldlM (d.routeOutput ((List.range n).map σ)) _ >>= fun s => _) = _
  rw [hroute]
  exact congrArg (fun gates => Except.ok (⟨n, gates ++ s.2⟩ : Circuit)) hr.gates

/-- Among gates that no rotation after a gate is one of are the gates of the cells only. -/
theorem filter_gates {p : Gate → Bool} (hp : ∀ c ∈ cells, ∀ g ∈ c.2.rotations, p g = false) :
    (cells.flatMap (·.2.gates)).filter p = (cells.map (·.2.gate)).filter p := by
  induction cells with
  | nil => rfl
  | cons c cells ih =>
    obtain ⟨hc, hrest⟩ := List.forall_mem_cons.1 hp
    have hnone : c.2.rotations.filter p = [] := List.filter_eq_nil_iff.2 fun g hg => by simp [hc g hg]
    rw [List.flatMap_cons, Cell.gates, List.cons_append, List.filter_cons, List.filter_append, hnone,
      List.nil_append, ih hrest, List.map_cons, List.filter_cons]

section

variable {gs : List Gate} (h : d.Recorded n gs lines beside cells first last)
include h

/-- The wires are numbered by the inputs, and threads begin at the inputs `lines .front`. -/
theorem Recorded.follow_eq :
    (cells.map (·.2.gate)).map (Gate.relabel (lines .front).symm) =
      (follow 1 (gs.map Gate.taken)).1 ∧
    (lines .front).symm * lines .back = (follow 1 (gs.map Gate.taken)).2 := by
  have hfollow : follow (lines .front * 1) (gs.map Gate.taken) = _ := follow_mul
  rw [mul_one, h.follows, Prod.mk.injEq] at hfollow
  obtain ⟨hgates, hlines⟩ := hfollow
  refine ⟨?_, by rw [hlines]; exact Equiv.ext fun q => (lines .front).symm_apply_apply _⟩
  rw [hgates, List.map_map]
  refine (List.map_congr_left fun g _ => ?_).trans (List.map_id _)
  rw [Function.comp_apply, Gate.relabel_relabel,
    show (lines .front).symm * lines .front = 1 from Equiv.ext (lines .front).symm_apply_apply,
    Gate.relabel_one]
  rfl

theorem Recorded.valid_taken : ∀ g ∈ gs.map Gate.taken, g.Valid n :=
  List.forall_mem_map.2 fun g hg => (h.valid g hg).taken

/-- The wires can be brought to their places. -/
theorem Recorded.exists_routed : ∃ s : List ℕ × List Gate,
    (List.range n).foldlM (d.routeOutput ((List.range n).map
      ((lines .front).symm * lines .back : Perm ℕ))) (List.range n, []) = .ok s ∧
    (∀ g ∈ s.2, g.Valid n ∧ g.kind = .swap) ∧
    follow 1 s.2 = ([], (follow 1 (gs.map Gate.taken)).2) ∧
    ((follow 1 (gs.map Gate.taken)).2 = 1 → s.2 = []) := by
  rw [h.follow_eq.2]
  obtain ⟨at?, swaps, hroute, hswaps⟩ := exists_routeOutputs (d := d)
    (KeepsPlaces.one.follow h.valid_taken).1 (fun q hq => follow_apply h.valid_taken hq)
    (h.threaded.length .back)
  exact ⟨(at?, swaps), hroute, hswaps⟩

/-- What is read back from the diagram of a stream. -/
theorem Recorded.exists_toCircuit (hsize : gs.length < 2 ^ 53) :
    ∃ swaps, (∀ g ∈ swaps, g.Valid n ∧ g.kind = .swap) ∧
      follow 1 swaps = ([], (follow 1 (gs.map Gate.taken)).2) ∧
      ((follow 1 (gs.map Gate.taken)).2 = 1 → swaps = []) ∧ d.toCircuit =
        .ok ⟨n, (follow 1 (gs.map Gate.taken)).1.filter (!·.isIdle) ++ swaps⟩ := by
  have hwidth := h.width
  have hidle : (fun g : Gate => !g.isIdle) ∘ Gate.relabel (lines .front).symm = (!·.isIdle) :=
    funext fun g => by simp
  obtain ⟨s, hroute, hswaps, hfollows, hnone⟩ := h.exists_routed
  refine ⟨s.2, hswaps, hfollows, hnone, ?_⟩
  rw [h.toCircuit_eq (by omega) rfl hroute, ← h.follow_eq.1, List.filter_map, List.filter_map, hidle,
    filter_gates fun c hc g hg => by rw [h.still c hc g hg]; rfl]

end

/-- Reading back undoes putting on. The gates that are read lie on the wires of those of the stream, as
    they are numbered by the inputs; rotations by nothing are gone, and swaps at the end put the
    wires into their places. The unitary is that of the stream. Where neither a swap nor a rotation
    by nothing was put on, the gates are those of the stream. -/
theorem toCircuit_ofRequests (hsize : rs.length < 2 ^ 53) (hok : ofRequests n rs = .ok d) :
    ∃ c swaps, d.toCircuit = .ok c ∧
      c = ⟨n, (follow 1 ((stream n rs).gates.map Gate.taken)).1.filter (!·.isIdle) ++ swaps⟩ ∧
      (∀ g ∈ swaps, g.Valid n ∧ g.kind = .swap) ∧
      follow 1 swaps = ([], (follow 1 ((stream n rs).gates.map Gate.taken)).2) ∧
      c.unitary n = (stream n rs).unitary n ∧
      ((∀ r ∈ rs, r.2.kind ≠ .swap ∧ r.2.isIdle = false) →
        c = ⟨n, (stream n rs).gates.map Gate.taken⟩) := by
  obtain ⟨lines, beside, cells, first, last, h⟩ := recorded_of_ofRequests hsize hok
  obtain ⟨swaps, hswaps, hfollows, hnone, hread⟩ :=
    h.exists_toCircuit (length_stream (n := n) ▸ hsize)
  have hvalid : ∀ g ∈ (stream n rs).gates.map Gate.taken, g.Valid n :=
    List.forall_mem_map.2 fun g hg => (h.valid g hg).taken
  refine ⟨_, swaps, hread, rfl, hswaps, hfollows, ?_, fun hplain => ?_⟩
  · change gatesMatrix n _ = gatesMatrix n _
    rw [gatesMatrix_follow_append hvalid (fun g hg => (hswaps g hg).1) hfollows,
      gatesMatrix_map_taken]
  · have hgates : ∀ g ∈ (stream n rs).gates.map Gate.taken, g.kind ≠ .swap ∧ g.isIdle = false := by
      refine List.forall_mem_map.2 fun g hg => ?_
      obtain ⟨r, hr, rfl⟩ := mem_stream.1 hg
      obtain ⟨hkind, hidle⟩ := hplain r hr
      exact ⟨hkind, by rw [Gate.isIdle_taken, hidle]⟩
    have hone := follow_of_ne fun g hg => (hgates g hg).1
    rw [hnone (by rw [hone]), hone, List.append_nil, List.filter_eq_self.2 fun g hg => by
      rw [(hgates g hg).2]; rfl]

/-- Gates at both ends, with a swap among them. -/
def crossed : List (Side × Gate) :=
  [(.back, .plain .cnot [0, 1]), (.back, .plain .swap [0, 1]), (.front, ⟨.zPhase, [1], .pi⟩),
    (.back, .plain .hadamard [0])]

theorem crossed_toCircuit : ∃ d swaps, ofRequests 2 crossed = .ok d ∧
    (∀ g ∈ swaps, g.Valid 2 ∧ g.kind = .swap) ∧ d.toCircuit = .ok ⟨2,
      [⟨.zPhase, [1], .pi⟩, .plain .cnot [0, 1], .plain .hadamard [1]] ++ swaps⟩ := by
  have hsize : crossed.length < 2 ^ 53 := by decide
  obtain ⟨d, hok⟩ := (exists_ofRequests_iff (n := 2) hsize).2 fun r hr => by
    simp only [crossed, List.mem_cons, List.not_mem_nil, or_false] at hr
    rcases hr with rfl | rfl | rfl | rfl <;> exact ⟨by decide, by decide, by decide⟩
  obtain ⟨c, swaps, hread, rfl, hswaps, -⟩ := toCircuit_ofRequests hsize hok
  exact ⟨d, swaps, hok, hswaps, hread⟩

end Diagram

end ZXRewriting
