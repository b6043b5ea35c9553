import ZXRewriting.Proofs.Extraction.Extract
import ZXRewriting.Proofs.Extraction.Slack
import ZXRewriting.Proofs.GraphLike.Ending

/-!
# Extraction comes to an end

Each round that goes on leaves less to do (`Web.Advance.remaining_lt`): what is left to extract
(`Web.slack`) does not grow while the frontier is prepared and rows are added, and is less after
wires are taken out. A pivot may make it grow, but only by so much, and takes a gadget centre off
the list, which never gets longer. The rounds that an extraction is given are more than it takes, so
that it comes to a circuit or is refused, on whatever graph-like diagram (`Extraction.extract_ends`).
-/

namespace ZXRewriting

open Function (update update_self update_of_ne)

namespace Web

variable {w w' w'' : Web} {t u v : Vertex} {k : EdgeKind} {n m : ℕ} {frontier : List (ℕ × Vertex)}
  {centres left : List Vertex}

/-! ### Preparing the frontier -/

/-- A step of preparing the frontier is one of an extraction. -/
theorem Tidying.exists_peel (h : Tidying w w') : ∃ gates, Peel w w' gates := by
  have hget {t : Vertex} (ht : t ∈ w.outputs) : ∃ q, w.outputs[q]? = some t :=
    List.getElem?_of_mem ht
  cases h with
  | hadamard ht hk =>
    obtain ⟨q, hq⟩ := hget ht
    exact ⟨_, .hadamard hq hk⟩
  | phase ht hv hk =>
    obtain ⟨q, hq⟩ := hget ht
    exact ⟨_, .phase hq hv hk⟩
  | cz hs ht hu hv hus hvt hk =>
    obtain ⟨q, hq⟩ := hget hs
    obtain ⟨r, hr⟩ := hget ht
    exact ⟨_, .cz hq hr hu hv hus hvt hk⟩
  | pad _ hv _ hi hk _ => exact ⟨_, .pad hv hi hk⟩

theorem Tidying.slack_le (h : Tidying w w') (hw : w.InForm) : w'.slack ≤ w.slack := by
  have hval := hw.simple.valid
  cases h with
  | @hadamard v t ht hk =>
    exact Sparser.slack_le ⟨rfl, rfl, rfl, rfl, fun a b h => hval.joins_setKind a b ▸ h,
      fun a b _ h => (hval.joins_setKind a b).symm ▸ h⟩ hw
  | phase => exact Sparser.slack_le ⟨rfl, rfl, rfl, rfl, fun _ _ h => h, fun _ _ _ h => h⟩ hw
  | cz _ _ hu hv =>
    refine Sparser.slack_le ⟨rfl, rfl, rfl, rfl, fun a b h => ?_, fun a b he h => ?_⟩ hw
    · rw [joins, count_cut, count_cut] at h
      split at h
      · exact absurd h (Nat.lt_irrefl 0)
      · exact h
    · rw [joins, count_cut, count_cut, if_neg, if_neg]
      · exact h
      all_goals
        rintro (⟨rfl, rfl⟩ | ⟨rfl, rfl⟩)
        · exact he.elim hu.not_isEnd hv.not_isEnd
        · exact he.elim hv.not_isEnd hu.not_isEnd
  | pad ht hv hvt hi hk hd =>
    have hjoin := hval.mem_nearby.1 (hval.mem_nearby_of_link hvt)
    exact hw.slack_split_le ⟨hv, _, ht, hjoin⟩ hi hk hd

/-- Preparing the frontier does not make more of what is left. -/
theorem Tidier.slack_le (h : Tidier w w') (hw : w.InForm) :
    w'.InForm ∧ w'.slack ≤ w.slack := by
  have hsteps := h.steps
  clear h
  induction hsteps with
  | refl => exact ⟨hw, le_rfl⟩
  | tail _ hstep ih =>
    obtain ⟨gates, hpeel⟩ := hstep.exists_peel
    exact ⟨(hpeel.keeps ih.1).form, (hstep.slack_le ih.1).trans ih.2⟩

/-! ### Taking out wires -/

/-- Taking out the spiders that act as wires leaves less, if there are any. -/
theorem Lined.slack_dropWires (h : w.Lined frontier) (hw : w.InForm) :
    (frontier.foldl dropWire w).InForm ∧ (frontier.foldl dropWire w).slack ≤ w.slack ∧
      ((∃ p ∈ frontier, (w.nearby p.2).length = 2) →
        (frontier.foldl dropWire w).slack < w.slack) := by
  induction frontier generalizing w with
  | nil => exact ⟨hw, le_rfl, fun hp => hp.elim fun p hp => absurd hp.1 List.not_mem_nil⟩
  | cons p rest ih =>
    have hat := h.atOutput p List.mem_cons_self
    obtain ⟨hnot, hnd⟩ := List.nodup_cons.1 h.nodup
    rw [List.foldl_cons, dropWire]
    by_cases hlen : (w.nearby p.2).length = 2
    · rw [if_pos hlen]
      have hrelay := hat.relay hw hlen
      have hlt := hrelay.slack_lt hw (List.mem_of_getElem? (getElem?_outputs hat.lt))
      obtain ⟨hform, hle, -⟩ := ih (w := w.bypass p.2 _ _ _) ⟨fun p' hp' =>
        hrelay.atOutput hw (h.atOutput p' (List.mem_cons_of_mem p hp')) fun he =>
          hnot (List.mem_map.2 ⟨p', hp', he⟩), hnd⟩ (hrelay.inForm hw)
      exact ⟨hform, (hle.trans_lt hlt).le, fun _ => hle.trans_lt hlt⟩
    · rw [if_neg hlen]
      obtain ⟨hform, hle, hlt⟩ :=
        ih ⟨fun p' hp' => h.atOutput p' (List.mem_cons_of_mem p hp'), hnd⟩ hw
      refine ⟨hform, hle, ?_⟩
      rintro ⟨p', hp', hlen'⟩
      refine hlt ⟨p', ?_, hlen'⟩
      exact (List.mem_cons.1 hp').resolve_left fun he => hlen (he ▸ hlen')

/-! ### Pivoting a gadget away -/

/-- No more than `n` spiders came up. -/
structure Grows (n : ℕ) (w w' : Web) : Prop where
  next : w'.next ≤ w.next + n
  has : ∀ x < w.next, w'.Has x → w.Has x

namespace Grows

theorem refl (w : Web) : Grows 0 w w := ⟨le_rfl, fun _ _ h => h⟩

theorem trans (h : Grows n w w') (h' : Grows m w' w'') (hle : w.next ≤ w'.next) :
    Grows (n + m) w w'' where
  next := by
    have := h.next
    have := h'.next
    omega
  has x hx hx' := h.has x hx (h'.has x (hx.trans_le hle) hx')

theorem mono (h : Grows n w w') (hle : n ≤ m) : Grows m w w' :=
  ⟨h.next.trans (Nat.add_le_add_left hle _), h.has⟩

theorem card_spiders_le (h : Grows n w w') : w'.spiders.card ≤ w.spiders.card + n := by
  have hsub : w'.spiders ⊆ w.spiders ∪ Finset.Ico w.next (w.next + n) := fun x hx => by
    rw [mem_spiders] at hx
    rw [Finset.mem_union, mem_spiders, Finset.mem_Ico]
    by_cases hlt : x < w.next
    · exact .inl ⟨hlt, h.has x hlt hx.2⟩
    · exact .inr ⟨Nat.le_of_not_lt hlt, hx.1.trans_le h.next⟩
  refine (Finset.card_le_card hsub).trans ((Finset.card_union_le _ _).trans ?_)
  rw [Nat.card_Ico, Nat.add_sub_cancel_left]

theorem shiftBoundary : Grows 1 w (Web.shiftBoundary v w t) := by
  rw [Web.shiftBoundary]
  split
  · exact (refl w).mono (Nat.zero_le 1)
  · refine ⟨le_rfl, fun x hx h => ?_⟩
    rwa [Has, kind_split, update_of_ne (Nat.ne_of_lt hx)] at h

theorem shiftBoundaries (hw : w.InForm) (hv : w.IsZ v) :
    Grows (w.ends v).length w (w.shiftBoundaries v) := by
  suffices h : ∀ ts : List Vertex, (∀ t ∈ ts, w.IsEnd t) →
      Grows ts.length w (ts.foldl (Web.shiftBoundary v) w) from
    h _ fun t ht => by simpa using (List.mem_filter.1 ht).2
  intro ts
  induction ts generalizing w with
  | nil => exact fun _ => refl w
  | cons t rest ih =>
    intro hts
    obtain ⟨hform, hframe, -⟩ := hw.shiftBoundary hv (hts t List.mem_cons_self)
    have hrest := ih hform (hframe.isZ hv) fun u hu =>
      hframe.isEnd (hts u (List.mem_cons_of_mem t hu))
    rw [List.length_cons, Nat.add_comm]
    exact shiftBoundary.trans hrest hframe.next

theorem shiftPhase : Grows 2 w (w.shiftPhase v) := by
  rw [Web.shiftPhase]
  split
  · exact (refl w).mono (Nat.zero_le 2)
  · obtain ⟨hnext, hkind, -⟩ := ((((((w.addSpider .zero).addSpider (w.phase v)).setPhase v
      .zero).addEdges v w.next .hadamard 1).addEdges w.next (w.next + 1) .hadamard
      1)).moveCarrier_fields v (w.next + 1)
    refine ⟨hnext.le, fun x hx h => ?_⟩
    rw [Has, hkind] at h
    have hne : x ≠ w.next := Nat.ne_of_lt hx
    have hne' : x ≠ w.next + 1 := Nat.ne_of_lt (Nat.lt_succ_of_lt hx)
    have hsame : update (update w.kind w.next (some .z)) (w.next + 1) (some .z) x = w.kind x := by
      rw [update_of_ne hne', update_of_ne hne]
    rw [Has, ← hsame]
    exact h

end Grows

/-- There are no more ends next to a spider than there are ends. -/
theorem InForm.length_ends_le (hw : w.InForm) (v : Vertex) :
    (w.ends v).length ≤ w.inputs.length + w.outputs.length := by
  rw [← List.length_append]
  refine List.Subperm.length_le ((nodup_nearby.filter _).subperm fun t ht => ?_)
  exact List.mem_append.2 (hw.mem_of_isEnd (by simpa using (List.mem_filter.1 ht).2))

/-- Clearing a spider puts in two spiders for its phase, and one in front of each end. -/
theorem InForm.grows_clear (hw : w.InForm) (hv : w.IsZ v) :
    Grows (2 + (w.inputs.length + w.outputs.length)) w (w.clear v) := by
  obtain ⟨hform, hframe, -⟩ := hw.shiftPhase hv
  have hle := hform.length_ends_le v
  rw [hframe.inputs, hframe.outputs] at hle
  exact Grows.shiftPhase.trans ((Grows.shiftBoundaries hform (hframe.isZ hv)).mono hle) hframe.next

/-- The most that clearing two spiders puts in, and that inputs may ask for then. -/
def burden (w : Web) : ℕ := 4 + 4 * w.inputs.length + 2 * w.outputs.length

theorem sum_level_le (w : Web) : ∑ i ∈ w.inputs.toFinset, w.level i ≤ 2 * w.inputs.length := by
  refine (Finset.sum_le_card_nsmul _ _ 2 fun i _ => w.level_le_two i).trans ?_
  rw [smul_eq_mul, Nat.mul_comm]
  exact Nat.mul_le_mul_left 2 (List.toFinset_card_le _)

/-- A pivot makes no more than a fixed amount of what is left. -/
theorem InForm.slack_pivot_le (hw : w.InForm) (hv : w.IsZ v) (hu : w.IsZ u)
    (hj : u ∈ w.nearby v) : (((w.clear v).clear u).pivot v u).slack ≤ w.slack + w.burden := by
  obtain ⟨hkeeps, hform₁, hu₁, -, -, hform₂, -⟩ := hw.keeps_frontierPivot hv hu hj
  obtain ⟨-, hframe, -⟩ := hw.keeps_clear hv
  have hgrows := (hw.grows_clear hv).trans (hform₁.grows_clear hu₁) hframe.next
  have hpivot : Grows 0 ((w.clear v).clear u) (((w.clear v).clear u).pivot v u) := by
    refine ⟨?_, fun x _ hx => (has_pivot.1 hx).2.2⟩
    rw [Web.pivot, next_remove, next_remove, next_addToPhases, next_joinAll, Nat.add_zero]
  have hcard := hgrows.card_spiders_le
  have hcard' := hpivot.card_spiders_le
  have hlevels := sum_level_le (((w.clear v).clear u).pivot v u)
  rw [hframe.inputs, hframe.outputs] at hcard
  rw [hkeeps.inputs] at hlevels
  rw [slack, slack, burden, hkeeps.inputs]
  omega

/-! ### Rounds -/

/-- What is left to extract, and what the pivots of the gadget centres can make of it. -/
noncomputable def remaining (w : Web) (centres : List Vertex) : ℕ :=
  w.slack + (w.burden + 1) * centres.length

theorem burden_congr (hi : w'.inputs = w.inputs) (ho : w'.outputs = w.outputs) :
    w'.burden = w.burden := by
  rw [burden, burden, hi, ho]

/-- After a round there is less left to do. -/
theorem Advance.remaining_lt (h : w.Advance frontier centres w' left) (hw : w.InForm)
    (hprep : w.Prepared frontier w.outputs.length) (hkeeps : Keeps w w') :
    w'.remaining left < w.remaining centres := by
  have hburden := burden_congr hkeeps.inputs hkeeps.outputs
  have hlined := hprep.lined hw
  cases h with
  | @pivot p n hp hn hz hj =>
    have hslack := hw.slack_pivot_le (hprep.settled p hp).isZ hz hj
    have hlt : (centres.filter (· ≠ n)).length < centres.length :=
      List.length_filter_lt_length_iff_exists.2 ⟨n, hn, by simp⟩
    have hmul := Nat.mul_le_mul_left (w.burden + 1) (Nat.succ_le_of_lt hlt)
    rw [Nat.mul_succ] at hmul
    rw [remaining, remaining, hburden]
    omega
  | wires hwire =>
    rw [remaining, remaining, hburden]
    exact Nat.add_lt_add_right ((hlined.slack_dropWires hw).2.2 hwire) _
  | @rows t rows hnone ht hrows hnot hwire =>
    obtain ⟨hform, hsep, hwithin, -, hcount, -⟩ := (hprep.isSeparate hw).addRows hw ht hrows hnot
    have hle := hprep.slack_le hw hnone hwithin (fun a b k hne => by
      obtain ⟨p, hp, n, hn, hpair⟩ := hcount a b k hne
      exact ⟨t, ht, n, mem_inward.2 ⟨⟨p, hrows p hp, (mem_reach.1 hn).1⟩, isZ_reach n hn⟩, hpair⟩)
      hform
    have hlt := (hsep.toLined.slack_dropWires hform).2.2 hwire
    rw [remaining, remaining, hburden]
    exact Nat.add_lt_add_right (hlt.trans_le hle) _

end Web

namespace Extraction

namespace State

variable {w : Web} {s : State} {centres : List Vertex}

/-- A failure that is no fault. -/
def NoFault : Failure Unextracted → Prop
  | .fault _ => False
  | .refused _ => True

theorem Stopped.noFault {gadgets : Prop} {P : Web → Obstacle → Prop} (e : Failure Unextracted)
    (he : Stopped gadgets w P e) : NoFault e := by
  cases e with
  | fault => exact he
  | refused => trivial

/-- The rounds end with a frontier that is empty or with a refusal. More rounds than there is left
    to do make no difference. -/
theorem Reached.exists_runWithin (hw : w.InForm) (options : Options) (centres : List Vertex)
    (h : s.Reached True w) :
    ∃ r : Attempt Unextracted State,
      Meets r (fun s' => s'.Reached True w ∧ s'.web.Prepared [] w.outputs.length) NoFault ∧
      ∀ rounds, s.web.remaining centres < rounds → s.runWithin options rounds centres = r := by
  -- a round that goes on leaves less to do
  induction hn : s.web.remaining centres using Nat.strongRecOn generalizing s centres with
  | ind n ih =>
  have hround := h.round hw options (fun _ : centres ≠ [] => trivial)
  cases hr : s.round options centres with
  | error e =>
    rw [hr] at hround
    refine ⟨.error e, Stopped.noFault e hround, fun rounds hlt => ?_⟩
    obtain ⟨rounds, rfl⟩ := Nat.exists_eq_succ_of_ne_zero (Nat.ne_zero_of_lt hlt)
    rw [State.runWithin, hr]
    rfl
  | ok r =>
    rw [hr] at hround
    cases r with
    | finished s' =>
      refine ⟨.ok s', hround, fun rounds hlt => ?_⟩
      obtain ⟨rounds, rfl⟩ := Nat.exists_eq_succ_of_ne_zero (Nat.ne_zero_of_lt hlt)
      rw [State.runWithin, hr]
      rfl
    | next s' left =>
      obtain ⟨hs', w₁, frontier, htidier, hprep, hadv⟩ := hround
      have hs := h.keeps hw
      obtain ⟨hform, hle⟩ := htidier.slack_le hs.form
      have hkeeps := hs'.keeps hw
      have hin := htidier.inputs.trans hs.inputs
      have hout := htidier.outputs.trans hs.outputs
      have hlt := hadv.remaining_lt hform (hout ▸ hprep)
        ⟨hkeeps.form, hkeeps.inputs.trans hin.symm, hkeeps.outputs.trans hout.symm⟩
      have hburden := Web.burden_congr htidier.inputs htidier.outputs
      have hless : s'.web.remaining left < n := by
        refine hlt.trans_le ?_
        rw [← hn, Web.remaining, Web.remaining, hburden]
        exact Nat.add_le_add_right hle _
      obtain ⟨r, hr', hrounds⟩ := ih _ hless left hs' rfl
      refine ⟨r, hr', fun rounds hlt => ?_⟩
      obtain ⟨rounds, rfl⟩ := Nat.exists_eq_succ_of_ne_zero (Nat.ne_zero_of_lt hlt)
      rw [State.runWithin, hr]
      exact hrounds rounds (by omega)

end State

end Extraction

/-! ### The rounds that are given -/

namespace GraphLike

variable {g : GraphLike}

open Web

/-- There are no more gadget centres than spiders. -/
theorem length_gadgetCentres_le (hg : g.Coherent) (hw : g.web.Simple) {centres : List Vertex}
    (h : Extraction.gadgetCentres g = .ok centres) : centres.length ≤ g.web.next := by
  rw [gadgetCentres_eq hg hw] at h
  obtain rfl := Except.ok.inj h
  have hone : ∀ l ∈ (g.spiders.filter fun v => g.web.IsLeaf v).map g.web.nearby, l.length = 1 := by
    intro l hl
    obtain ⟨v, hv, rfl⟩ := List.mem_map.1 hl
    have hleaf : g.web.IsLeaf v := by simpa using (List.mem_filter.1 hv).2
    rw [← hw.degree_eq]
    exact hleaf.2.1
  rw [List.length_flatten, List.map_eq_replicate_iff.2 hone, List.sum_replicate, List.length_map,
    smul_eq_mul, Nat.mul_one]
  refine (List.length_filter_le _ _).trans ?_
  rw [Diagram.spiders_eq hg]
  exact (List.length_filter_le _ _).trans (List.length_range ..).le

theorem length_ends_le (hw : g.web.InForm) :
    g.web.inputs.length + g.web.outputs.length ≤ g.web.next := by
  have hval := hw.simple.valid
  have hnd : (g.web.inputs ++ g.web.outputs).Nodup := by
    refine List.nodup_append.2 ⟨hw.inputs_nodup, hw.outputs_nodup, fun a ha b hb he => ?_⟩
    rw [he, hw.mem_inputs, (hw.mem_outputs b).1 hb] at ha
    simp at ha
  have hsub : g.web.inputs ++ g.web.outputs ⊆ List.range g.web.next := fun t ht => by
    refine List.mem_range.2 (hval.lt t ?_)
    rcases List.mem_append.1 ht with ht | ht
    · exact (hw.isEnd_input ht).has
    · exact (hw.isEnd_of_mem_outputs ht).has
  have hle := (hnd.subperm hsub).length_le
  rwa [List.length_append, List.length_range] at hle

/-- There are more rounds than there is left to do. -/
theorem remaining_lt_roundLimit (hg : g.Coherent) (hw : g.web.InForm) {centres : List Vertex}
    (h : Extraction.gadgetCentres g = .ok centres) :
    g.web.remaining centres < g.roundLimit := by
  have hcentres := length_gadgetCentres_le hg hw.simple h
  have hends := length_ends_le hw
  have hlevels := sum_level_le g.web
  have hspiders := Finset.card_filter_le (Finset.range g.web.next) g.web.Has
  rw [Finset.card_range] at hspiders
  set n := g.web.next with hn
  have hremaining : g.web.remaining centres ≤ 4 * (n * n) + 8 * n := by
    have hmul : (g.web.burden + 1) * centres.length ≤ (4 * n + 5) * n :=
      Nat.mul_le_mul (by rw [burden]; omega) hcentres
    have hring : (4 * n + 5) * n = 4 * (n * n) + 5 * n := by ring
    rw [remaining, slack, spiders, ← hn]
    omega
  -- half of the number is less than the root of its power of two
  have hsquare : n * n ≤ 4 * 2 ^ n := by
    have hhalf : n ≤ 2 * 2 ^ (n / 2) := by
      have := (n / 2).lt_two_pow_self
      omega
    calc n * n ≤ 2 * 2 ^ (n / 2) * (2 * 2 ^ (n / 2)) := Nat.mul_le_mul hhalf hhalf
      _ = 4 * 2 ^ (n / 2 * 2) := by ring
      _ ≤ 4 * 2 ^ n := Nat.mul_le_mul_left 4
        (Nat.pow_le_pow_right (by decide) (Nat.div_mul_le_self n 2))
  have hpow := n.lt_two_pow_self
  have hmono : 2 ^ (64 + n) ≤ 2 ^ (64 + n + g.graph.edgeCount) :=
    Nat.pow_le_pow_right (by decide) (Nat.le_add_right _ _)
  rw [Nat.pow_add] at hmono
  rw [Diagram.roundLimit, Nat.one_shiftLeft, show g.graph.nextVertex = n from rfl]
  omega

end GraphLike

namespace Extraction

/-- Rounds that stop only when there are no more of them come to an empty frontier. -/
theorem State.exists_ok_runWithin {g : GraphLike} (hg : g.Coherent) (hw : g.web.InForm)
    (options : Options) {centres : List Vertex} (hcentres : gadgetCentres g = .ok centres)
    {P : State → Prop} (h : Meets ((State.mk g (.empty g.outputs.length) []).runWithin options
      g.roundLimit centres) P (· = .fault .outOfRounds)) :
    ∃ s, (State.mk g (.empty g.outputs.length) []).runWithin options g.roundLimit centres = .ok s ∧
      P s := by
  obtain ⟨r, hr, hrounds⟩ := (State.reached_start hg).exists_runWithin hw options centres
  rw [hrounds _ (GraphLike.remaining_lt_roundLimit hg hw hcentres)] at h ⊢
  cases r with
  | ok s => exact ⟨s, rfl, h⟩
  | error e =>
    obtain rfl : e = .fault .outOfRounds := h
    exact hr.elim

/-- Extraction comes to an end on every graph-like diagram, with a circuit or a refusal, whether or
    not there is a circuit for it. The rounds that it is given are more than it takes: any more of
    them make no difference. -/
theorem extract_ends {g : GraphLike} (hg : g.Coherent) (hw : g.web.InForm) (options : Options) :
    ((∃ r, extract options g = .ok r) ∨ ∃ u, extract options g = .error (.refused u)) ∧
    ∃ centres n, gadgetCentres g = .ok centres ∧ n < g.roundLimit ∧ ∀ rounds, n < rounds →
      (State.mk g (.empty g.outputs.length) []).runWithin options rounds centres =
        (State.mk g (.empty g.outputs.length) []).runWithin options g.roundLimit centres := by
  have hcentres := GraphLike.gadgetCentres_eq hg hw.simple
  set centres := ((g.spiders.filter fun v => g.web.IsLeaf v).map g.web.nearby).flatten
  have hlt := GraphLike.remaining_lt_roundLimit hg hw hcentres
  obtain ⟨r, hr, hrounds⟩ := (State.reached_start hg).exists_runWithin hw options centres
  refine ⟨?_, centres, g.web.remaining centres, hcentres, hlt, fun rounds h =>
    (hrounds rounds h).trans (hrounds _ hlt).symm⟩
  have hmeets : Meets (extract options g) (fun _ => True) State.NoFault := by
    rw [extract]
    refine Meets.bind (P := fun l => l = centres)
      (Meets.lift (Meets.of_exists ⟨_, hcentres, rfl⟩)) fun l hl => ?_
    subst hl
    rw [hrounds _ hlt]
    refine Meets.bind hr fun s hinv => ?_
    obtain ⟨hs, hprep⟩ := hinv
    dsimp only
    split
    · exact Meets.bind ((hs.permute hw hprep).mono (fun _ _ => trivial) State.Stopped.noFault)
        fun _ _ => Meets.pure_iff.2 trivial
    · exact Meets.pure_iff.2 trivial
  cases h : extract options g with
  | ok r => exact .inl ⟨r, rfl⟩
  | error e =>
    rw [h] at hmeets
    cases e with
    | fault => exact hmeets.elim
    | refused u => exact .inr ⟨u, rfl⟩

/-- Extracting three spiders on a wire ends. -/
theorem quarterTurn_ends : GraphLike.quarterTurn.Coherent ∧ GraphLike.quarterTurn.web.InForm ∧
    ((∃ r, extract ⟨false, true⟩ GraphLike.quarterTurn = .ok r) ∨
      ∃ u, extract ⟨false, true⟩ GraphLike.quarterTurn = .error (.refused u)) :=
  ⟨GraphLike.quarterTurn_inForm.1, GraphLike.quarterTurn_inForm.2,
    (extract_ends GraphLike.quarterTurn_inForm.1 GraphLike.quarterTurn_inForm.2 ⟨false, true⟩).1⟩

end Extraction

end ZXRewriting
