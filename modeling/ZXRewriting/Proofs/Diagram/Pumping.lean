import ZXRewriting.Proofs.Diagram.Ending
import ZXRewriting.Proofs.Listings

/-!
# Copying half turns need not come to an end

A half turn that is pushed through a spider comes out on all other wires of it. Where such a wire leads
to an earlier column, the copy lies between the two, so that it comes before the spider and is pushed
through in its turn. Two such wires are enough for this to go on for ever: while the half turn on one
of them is pushed through, a copy comes out on the other one (`Diagram.Pumping`), and the copies on the
wires that lead on to later columns pile up.

Simplifying by this rule then runs out of rounds, however many there are
(`Diagram.Pumping.simplifyWithin_eq`). A diagram of this kind comes of a few gates on two wires after a
single fusion (`Diagram.exists_endless`).
-/

namespace ZXRewriting

open Function (update update_self update_of_ne)
open Multigraph (SamePair)
open Floating (Double)

namespace Diagram

open Web

variable {d d' : Diagram} {k : SpiderKind} {c f p q s t u v x : Vertex} {done us : List Vertex}
  {ν : Vertex → Vertex}

/-! ### Copies on single wires -/

/-- A half turn on the only wire between two spiders. -/
theorem exists_insertSpider (hd : d.Coherent) (hplain : d.web.Plain) (hs : d.web.Has s)
    (ht : d.web.Has t) (hone : d.web.count s t .plain = 1) (k : SpiderKind) :
    ∃ d', d.insertSpider s t k .pi = .ok ([d.web.next], d') ∧ d'.Coherent ∧
      d'.web = (d.web.cut s t).addBetween s t k .pi ∧
      ∀ x, d'.column? x = if d.web.next = x then d.columnBetween s t else d.column? x := by
  obtain ⟨graph, hok, d₀, hd₀, hco, hcut, hl₀⟩ := exists_removeKind hd hs (hplain s t)
  have hwired : ∀ x ∈ [s, t], d₀.web.Has x := fun x hx => by
    rw [hcut]
    rcases List.mem_pair.1 hx with rfl | rfl
    · exact hs
    · exact ht
  obtain ⟨d₁, hok₁, hd₁, hw₁, hl₁⟩ := Gives.addSpider hco k .pi hwired
  have hcolumn (x : Vertex) : d₀.column? x = d.column? x := by
    rw [column?, column?, hl₀]
  have hnext : d₀.web.next = d.web.next := by rw [hcut]; rfl
  refine ⟨d₁.place d₀.web.next (d₀.qubit? s <|> d₀.qubit? t) (d₀.columnBetween s t), ?_,
    hd₁.place _ _ _, ?_, fun x => ?_⟩
  · rw [insertSpider, hok]
    change Diagram.addSplits _ s t k .pi (d.web.count s t .plain) = _
    rw [Except.ok.inj hd₀, hone, addSplits, hok₁, ← hnext]
    rfl
  · change d₁.web = _
    rw [hw₁, hcut]
    rfl
  · change (d₁.layout.place _ _ _).column? x = _
    rw [Layout.column?_place, hnext, hl₁, columnBetween, columnBetween, hcolumn, hcolumn]
    exact if_congr Iff.rfl rfl (hcolumn x)

/-- A half turn on what was the wire between two spiders of a diagram. -/
structure Copied (k : SpiderKind) (c u x : Vertex) (d d' : Diagram) : Prop where
  fresh : d.web.next ≤ x
  kind : d'.web.kind x = some k
  phase : d'.web.phase x = .pi
  column : d'.column? x = d.columnBetween c u
  ends : d'.web.EndsAre x [(c, .plain), (u, .plain)]

/-- Half turns on the wires between a spider and some of its neighbours, and nothing else that is new:
    `ν` says which one belongs to which neighbour. -/
structure Copies (k : SpiderKind) (c : Vertex) (done : List Vertex) (ν : Vertex → Vertex)
    (d d' : Diagram) : Prop where
  coherent : d'.Coherent
  plain : d'.web.Plain
  next_le : d.web.next ≤ d'.web.next
  kind : ∀ x < d.web.next, d'.web.kind x = d.web.kind x
  phase : ∀ x < d.web.next, d'.web.phase x = d.web.phase x
  column : ∀ x < d.web.next, d'.column? x = d.column? x
  near : ∀ x < d.web.next,
    d'.web.count c x .plain = if x ∈ done then 0 else d.web.count c x .plain
  away : ∀ x y, x < d.web.next → y < d.web.next → x ≠ c → y ≠ c →
    d'.web.count x y .plain = d.web.count x y .plain
  copied : ∀ u ∈ done, d.Copied k c u (ν u) d'
  new : ∀ x, d.web.next ≤ x → d'.web.Has x → ∃ u ∈ done, x = ν u

namespace Copies

theorem refl (hd : d.Coherent) (hplain : d.web.Plain) (k : SpiderKind) (c : Vertex) :
    Copies k c [] id d d where
  coherent := hd
  plain := hplain
  next_le := le_refl _
  kind _ _ := rfl
  phase _ _ := rfl
  column _ _ := rfl
  near _ _ := rfl
  away _ _ _ _ _ _ := rfl
  copied := by simp
  new x hx hhas := absurd (hd.valid.lt x hhas) (Nat.not_lt_of_le hx)

theorem has (h : Copies k c done ν d d') (hd : d.Coherent) (hu : d.web.Has u) : d'.web.Has u := by
  rw [Has, h.kind u (hd.valid.lt u hu)]
  exact hu

theorem columnBetween_eq (h : Copies k c done ν d d') (hc : c < d.web.next) (hu : u < d.web.next) :
    d'.columnBetween c u = d.columnBetween c u := by
  rw [columnBetween, columnBetween, h.column c hc, h.column u hu]

/-- One more half turn. -/
theorem exists_insert (h : Copies k c done ν d d') (hd : d.Coherent) (hk : k.isPhased = true)
    (hc : d.web.Has c) (hu : d.web.Has u) (hcu : c ≠ u) (hone : d.web.count c u .plain = 1)
    (hnotin : u ∉ done) :
    ∃ ν' d'', d'.insertSpider c u k .pi = .ok ([d'.web.next], d'') ∧
      Copies k c (done ++ [u]) ν' d d'' := by
  have hw := hd.valid
  have hw' := h.coherent.valid
  have hc' := h.has hd hc
  have hu' := h.has hd hu
  have hcut := hw'.cut hc' hu' hcu
  have hlt := hw.lt
  have hold {x : Vertex} (hx : x < d.web.next) : x ≠ d'.web.next :=
    Nat.ne_of_lt (Nat.lt_of_lt_of_le hx h.next_le)
  have hone' : d'.web.count c u .plain = 1 := by rw [h.near u (hlt u hu), if_neg hnotin, hone]
  obtain ⟨d'', hok, hd'', hweb, hcolumn⟩ := exists_insertSpider h.coherent h.plain hc' hu' hone' k
  have hcount (x y : Vertex) (e : EdgeKind) : d''.web.count x y e =
      if SamePair x y d'.web.next c ∨ SamePair x y d'.web.next u then if e = .plain then 1 else 0
      else if SamePair x y c u then 0 else d'.web.count x y e := by
    rw [hweb, hcut.count_addBetween hc' hu' hcu]
    rfl
  have hkind (x : Vertex) : d''.web.kind x = update d'.web.kind d'.web.next (some k) x := by
    rw [hweb]
    rfl
  have hphase (x : Vertex) : d''.web.phase x = update d'.web.phase d'.web.next .pi x := by
    rw [hweb]
    change update d'.web.phase d'.web.next (if k.isPhased then .pi else .zero) x = _
    rw [if_pos hk]
  have hcopied : ∀ x ∈ done, ν x ≠ d'.web.next := fun x hx =>
    hw'.ne_next (has_of_kind (h.copied x hx).kind)
  refine ⟨update ν u d'.web.next, d'', hok, {
    coherent := hd''
    plain := hweb ▸ Plain.addSplits (m := 1) h.plain.cut
    next_le := hweb ▸ Nat.le_succ_of_le h.next_le
    kind := fun x hx => by rw [hkind, update_of_ne (hold hx), h.kind x hx]
    phase := fun x hx => by rw [hphase, update_of_ne (hold hx), h.phase x hx]
    column := fun x hx => by rw [hcolumn, if_neg (hold hx).symm, h.column x hx]
    near := fun x hx => ?_
    away := fun x y hx hy hxc hyc => ?_
    copied := fun x hx => ?_
    new := fun x hx hhas => ?_ }⟩
  · have hcn := hold (hlt c hc)
    have hxn := hold hx
    have hun := hold (hlt u hu)
    rw [hcount, if_neg (by simp only [SamePair]; tauto), h.near x hx]
    by_cases hxu : x = u
    · rw [if_pos (.inl ⟨rfl, hxu⟩), if_pos (by simp [hxu])]
    · rw [if_neg (by simp only [SamePair]; grind)]
      simp [hxu]
  · have hxn := hold hx
    have hyn := hold hy
    rw [hcount, if_neg (by simp only [SamePair]; tauto), if_neg (by simp only [SamePair]; tauto),
      h.away x y hx hy hxc hyc]
  · rcases List.mem_append.1 hx with hx | hx
    · -- an earlier copy is on a wire that is left alone
      have hxu : x ≠ u := fun e => hnotin (e ▸ hx)
      obtain ⟨hfresh, hkx, hpx, hcx, hends⟩ := h.copied x hx
      have hn := hcopied x hx
      have hνc : ν x ≠ c := fun e => absurd (hlt c hc) (Nat.not_lt_of_le (e ▸ hfresh))
      have hνu : ν x ≠ u := fun e => absurd (hlt u hu) (Nat.not_lt_of_le (e ▸ hfresh))
      rw [update_of_ne hxu]
      refine ⟨hfresh, by rw [hkind, update_of_ne hn, hkx], by rw [hphase, update_of_ne hn, hpx],
        by rw [hcolumn, if_neg hn.symm, hcx], fun y e => ?_⟩
      rw [hcount, if_neg (by simp only [SamePair]; tauto), if_neg (by simp only [SamePair]; tauto),
        hends]
    · rw [List.mem_singleton.1 hx, update_self]
      refine ⟨h.next_le, by rw [hkind, update_self], by rw [hphase, update_self], ?_,
        endsAre_pair.2 fun y e => ?_⟩
      · rw [hcolumn, if_pos rfl, h.columnBetween_eq (hlt c hc) (hlt u hu)]
      · have hcn := hold (hlt c hc)
        have hun := hold (hlt u hu)
        rw [hcount, hw'.count_next]
        simp only [SamePair]
        grind
  · by_cases hxn : x = d'.web.next
    · exact ⟨u, by simp, by rw [hxn, update_self]⟩
    · rw [Has, hkind, update_of_ne hxn] at hhas
      obtain ⟨y, hy, rfl⟩ := h.new x hx hhas
      have hyu : y ≠ u := fun e => hnotin (e ▸ hy)
      exact ⟨y, List.mem_append_left _ hy, (update_of_ne hyu _ _).symm⟩

end Copies

/-- Half turns on single wires of a spider. -/
theorem exists_copies (hd : d.Coherent) (hplain : d.web.Plain) (hk : k.isPhased = true)
    (hc : d.web.Has c) (hnodup : us.Nodup)
    (hus : ∀ u ∈ us, d.web.Has u ∧ c ≠ u ∧ d.web.count c u .plain = 1) :
    ∃ ν d', us.foldlM (fun d u => return (← d.insertSpider c u k .pi).2) d = .ok d' ∧
      Copies k c us ν d d' := by
  obtain ⟨d', hok, ν, h⟩ := exists_foldlM (f := fun d u => return (← d.insertSpider c u k .pi).2)
    (fun done d' => ∃ ν, Copies k c done ν d d') us ⟨id, .refl hd hplain k c⟩
    fun done u rest d' hsplit hinv => by
      obtain ⟨ν, h⟩ := hinv
      obtain ⟨hu, hcu, hone⟩ := hus u (hsplit ▸ by simp)
      have hnotin : u ∉ done := fun hmem => by
        rw [hsplit] at hnodup
        exact (List.nodup_append.1 hnodup).2.2 u hmem u List.mem_cons_self rfl
      obtain ⟨ν', d'', hok, h'⟩ := h.exists_insert hd hk hc hu hcu hone hnotin
      exact ⟨d'', by rw [hok]; rfl, ν', h'⟩
  exact ⟨ν, d', hok, h⟩

/-! ### Going back and forth -/

/-- The first column is not before itself. -/
theorem not_less_one : (1 : Double).less 1 = false := by decide +kernel

/-- Between the first column and itself there is no other. -/
theorem half_two : ((1 : Double) + 1) / 2 = 1 := by decide +kernel

/-- A spider from which a half turn on a wire to `c` would lie in a column before the first one. It is
    neither of colour Z nor a half turn itself. -/
structure Behind (d : Diagram) (c u : Vertex) : Prop where
  kind : d.web.kind u ≠ some .z
  phase : (d.web.phase u).isPi = false
  column : (d.columnBetween c u).any (·.less 1) = true

/-- A spider from which a half turn on a wire to `c` would lie in the first column. It is not of
    colour Z. -/
structure Beside (d : Diagram) (c u : Vertex) : Prop where
  kind : d.web.kind u ≠ some .z
  column : d.columnBetween c u = some 1

/-- No neighbour of colour Z is further along. -/
def Stays (d : Diagram) (v : Vertex) : Prop :=
  ∀ u < d.web.next, 0 < d.web.count v u .plain → d.web.kind u = some .z → d.precedes v u = false

/-- What is around the spider `c` in the first column is on single wires and, but for `p` and `q`, beside
    that column; and no half turn but `p` can be pushed on. -/
structure Calm (c p q : Vertex) (d : Diagram) : Prop where
  single : ∀ u < d.web.next, d.web.count c u .plain ≤ 1
  beside : ∀ u < d.web.next, 0 < d.web.count c u .plain → u ≠ p → u ≠ q → d.Beside c u
  turns : ∀ v < d.web.next, d.web.kind v = some .z → (d.web.phase v).isPi = false
  idle : ∀ v < d.web.next, v ≠ p → d.web.kind v = some .x → (d.web.phase v).isPi = true →
    d.Stays v

/-- A half turn `p` can be pushed through the spider `c` in the first column, out of the wire to `f` and
    into the wire to `q`, both of which come from before that column; and no other one can be. -/
structure Pumping (c p q f : Vertex) (d : Diagram) : Prop extends d.Calm c p q where
  coherent : d.Coherent
  plain : d.web.Plain
  hub : d.web.kind c = some .z
  still : d.web.phase c = .zero
  column : d.column? c = some 1
  turn : d.web.kind p = some .x
  phase : (d.web.phase p).isPi = true
  before : (d.column? p).any (·.less 1) = true
  ends : d.web.EndsAre p [(c, .plain), (f, .plain)]
  far_ne : f ≠ c
  near : 0 < d.web.count c q .plain
  near_ne : q ≠ p
  apart : d.web.count c f .plain = 0
  far : d.Behind c f
  behind : d.Behind c q

/-- What there is when a half turn `p` has been pushed through `c`, out of the wire to `f`: that is now a
    wire between the two, and all other wires of `c` have copies on them, as `ν` says. -/
structure Pushed (c p f : Vertex) (ν : Vertex → Vertex) (d d' : Diagram) : Prop where
  coherent : d'.Coherent
  plain : d'.web.Plain
  gone : d'.web.kind p = none
  kind : ∀ x < d.web.next, x ≠ p → d'.web.kind x = d.web.kind x
  phase : ∀ x < d.web.next, x ≠ p → d'.web.phase x = d.web.phase x
  column : ∀ x < d.web.next, x ≠ p → d'.column? x = d.column? x
  near : ∀ x < d.web.next, d'.web.count c x .plain = if x = f then 1 else 0
  away : ∀ x y, x < d.web.next → y < d.web.next → x ≠ c → y ≠ c → x ≠ p → y ≠ p →
    d'.web.count x y .plain = d.web.count x y .plain
  copied : ∀ u, 0 < d.web.count c u .plain → u ≠ p → d.Copied .x c u (ν u) d'
  new : ∀ x, d.web.next ≤ x → d'.web.Has x →
    ∃ u, 0 < d.web.count c u .plain ∧ u ≠ p ∧ x = ν u

namespace Pumping

variable (h : d.Pumping c p q f)
include h

theorem has : d.web.Has c ∧ d.web.Has p ∧ d.web.Has q ∧ d.web.Has f := by
  have hw := h.coherent.valid
  have hf : 0 < d.web.count p f .plain := by
    rw [h.ends]
    exact List.count_pos_iff.2 (by simp)
  rw [hw.symm] at hf
  have hq := h.near
  rw [hw.symm] at hq
  exact ⟨has_of_kind h.hub, has_of_kind h.turn, hw.has q c _ hq, hw.has f p _ hf⟩

theorem ne : p ≠ c ∧ p ≠ f := by
  have hw := h.coherent.valid
  refine ⟨fun e => ?_, fun e => ?_⟩
  · exact absurd ((e ▸ h.turn).symm.trans h.hub) (by decide)
  · have hself := h.ends p .plain
    rw [hw.self, eq_comm, List.count_eq_zero] at hself
    exact hself (by simp [e])

/-- The other neighbours of the spider in the first column. -/
theorem mem_others : u ∈ (d.web.nearby c).filter (· ≠ p) ↔ 0 < d.web.count c u .plain ∧ u ≠ p := by
  rw [List.mem_filter, h.coherent.valid.mem_nearby, h.plain.joins, decide_eq_true_iff]

/-- The half turn is pushed through: copies come out on the other wires, and it goes. -/
theorem exists_piCopy : ∃ ν d₁ d', Copies .x c ((d.web.nearby c).filter (· ≠ p)) ν d d₁ ∧
    d.piCopy p c = .ok d' ∧ d'.Coherent ∧ d'.web = (d₁.web.remove p).addEdges f c .plain 1 ∧
    ∀ x, d'.column? x = if x = p then none else d₁.column? x := by
  have hd := h.coherent
  have hw := hd.valid
  obtain ⟨hc, hp, -, hf⟩ := h.has
  obtain ⟨hpc, hpf⟩ := h.ne
  have hnodup : ((d.web.nearby c).filter (· ≠ p)).Nodup := nodup_nearby.filter _
  obtain ⟨ν, d₁, hok₁, h₁⟩ := exists_copies hd h.plain (k := .x) rfl hc hnodup
    fun u hu => by
      obtain ⟨hpos, -⟩ := h.mem_others.1 hu
      have hhas := hw.has u c .plain (hw.symm c u _ ▸ hpos)
      refine ⟨hhas, fun e => ?_, Nat.le_antisymm (h.single u (hw.lt u hhas)) hpos⟩
      rw [e, hw.self] at hpos
      exact Nat.lt_irrefl 0 hpos
  obtain ⟨d₂, hok₂, hd₂, hw₂, hl₂⟩ := Gives.removeSpider h₁.coherent (h₁.has hd hp)
  have hkept {x : Vertex} (hx : d.web.Has x) (hxp : x ≠ p) : d₂.web.Has x := by
    rw [hw₂]
    exact has_remove.2 ⟨hxp, h₁.has hd hx⟩
  obtain ⟨d', hok', hd', hw', hl'⟩ :=
    Gives.addWire hd₂ (hkept hf hpf.symm) (hkept hc hpc.symm) h.far_ne
  refine ⟨ν, d₁, d', h₁, ?_, hd', hw'.trans (by rw [hw₂]), fun x => ?_⟩
  · rw [piCopy, kind_eq h.turn, neighborSet, neighborSet, neighborSet_eq hd hp,
      neighborSet_eq hd hc]
    change (((d.web.nearby c).filter (· ≠ p)).foldlM
      (fun d u => return (← d.insertSpider c u .x .pi).2) d >>= _) = _
    rw [hok₁, hw.find_nearby h.far_ne h.ends]
    change (d₁.removeSpider p >>= fun d => d.addWire f c) = _
    rw [hok₂]
    exact hok'
  · rw [column?, hl', hl₂]
    refine (congrFun (VertexMap.erase_eq d₁.layout.columns p) x).trans ?_
    rw [Function.update_apply]
    rfl

/-- What a diagram is like after the push. -/
theorem exists_pushed : ∃ ν d', d.piCopy p c = .ok d' ∧ Pushed c p f ν d d' := by
  obtain ⟨ν, d₁, d', h₁, hok, hd', hweb, hcolumn⟩ := h.exists_piCopy
  have hw := h.coherent.valid
  have hw₁ := h₁.coherent.valid
  obtain ⟨hc, hp, -, hf⟩ := h.has
  obtain ⟨hpc, hpf⟩ := h.ne
  have hlt := hw.lt
  have hcount (x y : Vertex) (e : EdgeKind) : d'.web.count x y e =
      (if x = p ∨ y = p then 0 else d₁.web.count x y e) +
        if SamePair x y f c ∧ .plain = e then 1 else 0 := by
    rw [hweb, (hw₁.remove p).count_addEdges_eq]
    rfl
  refine ⟨ν, d', hok, {
    coherent := hd'
    plain := hweb ▸ h₁.plain.remove.addEdges
    gone := by rw [hweb]; exact update_self _ _ _
    kind := fun x hx hxp => by
      rw [hweb, ← h₁.kind x hx]
      exact update_of_ne hxp _ _
    phase := fun x hx hxp => by
      rw [hweb, ← h₁.phase x hx]
      exact update_of_ne hxp _ _
    column := fun x hx hxp => by rw [hcolumn, if_neg hxp, h₁.column x hx]
    near := fun x hx => ?_
    away := fun x y hx hy hxc hyc hxp hyp => ?_
    copied := fun u hpos hup => ?_
    new := fun x hx hhas => ?_ }⟩
  · -- all old wires of `c` are gone or have a copy on them
    have hold : (if c = p ∨ x = p then 0 else
        if x ∈ (d.web.nearby c).filter (· ≠ p) then 0 else d.web.count c x .plain) = 0 := by
      split
      · rfl
      next hne =>
      split
      · rfl
      next hno =>
      exact Nat.eq_zero_of_not_pos fun hpos => hno (h.mem_others.2 ⟨hpos, fun e => hne (.inr e)⟩)
    have hsame : SamePair c x f c ↔ x = f := by
      have := h.far_ne
      simp only [SamePair]
      tauto
    rw [hcount, h₁.near x hx, hold, Nat.zero_add]
    simp only [hsame, and_true]
  · rw [hcount, if_neg (not_or.2 ⟨hxp, hyp⟩), if_neg, Nat.add_zero, h₁.away x y hx hy hxc hyc]
    simp only [SamePair]
    tauto
  · obtain ⟨hfresh, hk, hph, hcol, hends⟩ := h₁.copied u (h.mem_others.2 ⟨hpos, hup⟩)
    have hne {x : Vertex} (hx : x < d.web.next) : ν u ≠ x := fun e =>
      absurd hx (Nat.not_lt_of_le (e ▸ hfresh))
    have hνp := hne (hlt p hp)
    refine ⟨hfresh, ?_, ?_, by rw [hcolumn, if_neg hνp, hcol], fun y e => ?_⟩
    · rw [hweb, ← hk]
      exact update_of_ne hνp _ _
    · rw [hweb, ← hph]
      exact update_of_ne hνp _ _
    · have hνf := hne (hlt f hf)
      have hνc := hne (hlt c hc)
      have hoff : ¬(SamePair (ν u) y f c ∧ EdgeKind.plain = e) := by
        simp only [SamePair]
        tauto
      rw [hcount, if_neg hoff, Nat.add_zero, ← hends y e]
      split
      · next hyp =>
        obtain rfl := hyp.resolve_left hνp
        rw [hends, List.count_eq_zero.2]
        simp [hpc, hup.symm]
      · rfl
  · rw [hweb] at hhas
    obtain ⟨-, hhas⟩ := has_remove.1 hhas
    obtain ⟨u, hu, rfl⟩ := h₁.new x hx hhas
    obtain ⟨hpos, hup⟩ := h.mem_others.1 hu
    exact ⟨u, hpos, hup, rfl⟩

end Pumping

namespace Pushed

variable (h' : Pushed c p f ν d d')
include h'

theorem columnBetween_eq (hc : c < d.web.next) (hcp : c ≠ p) (hu : u < d.web.next) (hup : u ≠ p) :
    d'.columnBetween c u = d.columnBetween c u := by
  rw [columnBetween, columnBetween, h'.column c hc hcp, h'.column u hu hup]

theorem behind (hu : d.Behind c u) (hc : c < d.web.next) (hcp : c ≠ p) (hlt : u < d.web.next)
    (hup : u ≠ p) : d'.Behind c u where
  kind := by rw [h'.kind u hlt hup]; exact hu.kind
  phase := by rw [h'.phase u hlt hup]; exact hu.phase
  column := by rw [h'.columnBetween_eq hc hcp hlt hup]; exact hu.column

/-- A copy of what is beside the first column is in that column. -/
theorem column_copy (hu : d.Beside c u) (hpos : 0 < d.web.count c u .plain) (hup : u ≠ p) :
    d'.column? (ν u) = some 1 := (h'.copied u hpos hup).column.trans hu.column

end Pushed

namespace Pumping

variable (h : d.Pumping c p q f) (h' : Pushed c p f ν d d')
include h h'

/-- The copies on the other wires do not move on. -/
theorem stays_pushed (hv : v ≠ ν q) (hx : d'.web.kind v = some .x)
    (hphase : (d'.web.phase v).isPi = true) : d'.Stays v := by
  intro u _ hpos hz
  have hw := h.coherent.valid
  have hw' := h'.coherent.valid
  obtain ⟨hc, hp, hq, hf⟩ := h.has
  obtain ⟨hpc, hpf⟩ := h.ne
  have hlt := hw.lt
  have hcz : d'.web.kind c = some .z := (h'.kind c (hlt c hc) hpc.symm).trans h.hub
  have hvp : v ≠ p := fun e => by
    rw [e, h'.gone] at hx
    cases hx
  have hup : u ≠ p := fun e => by
    rw [e, h'.gone] at hz
    cases hz
  have hvc : v ≠ c := fun e => by
    rw [e, hcz] at hx
    cases hx
  have hcolumn : d'.column? c = some 1 := (h'.column c (hlt c hc) hpc.symm).trans h.column
  -- nothing that is next to a copy but `c` is of colour Z
  have hcopy {x : Vertex} (hxpos : 0 < d.web.count c x .plain) (hxp : x ≠ p) {y : Vertex}
      (hy : 0 < d'.web.count (ν x) y .plain) : y = c ∨ y = x ∧ d'.web.kind y ≠ some .z := by
    have hmem := List.count_pos_iff.1 ((h'.copied x hxpos hxp).ends y .plain ▸ hy)
    simp only [List.mem_cons, List.not_mem_nil, or_false, Prod.mk.injEq, and_true] at hmem
    refine hmem.imp id fun e => ⟨e, ?_⟩
    have hxlt := hlt x (hw.has x c .plain (hw.symm c x _ ▸ hxpos))
    rw [e, h'.kind x hxlt hxp]
    by_cases hxq : x = q
    · exact hxq ▸ h.behind.kind
    · exact (h.beside x hxlt hxpos hxp hxq).kind
  rcases Nat.lt_or_ge v d.web.next with hvlt | hvge
  · rcases Nat.lt_or_ge u d.web.next with hult | huge
    · by_cases huc : u = c
      · -- the only old neighbour of `c` is no half turn
        rw [huc, hw'.symm, h'.near v hvlt] at hpos
        have hvf : v = f := by
          by_contra hne
          rw [if_neg hne] at hpos
          exact Nat.lt_irrefl 0 hpos
        rw [hvf, h'.phase f (hlt f hf) hpf.symm, h.far.phase] at hphase
        cases hphase
      · rw [h'.away v u hvlt hult hvc huc hvp hup] at hpos
        rw [h'.kind v hvlt hvp] at hx
        rw [h'.phase v hvlt hvp] at hphase
        rw [h'.kind u hult hup] at hz
        rw [precedes, h'.column v hvlt hvp, h'.column u hult hup]
        exact h.idle v hvlt hvp hx hphase u hult hpos hz
    · obtain ⟨x, hxpos, hxp, rfl⟩ := h'.new u huge (has_of_kind hz)
      rw [(h'.copied x hxpos hxp).kind] at hz
      cases hz
  · obtain ⟨x, hxpos, hxp, rfl⟩ := h'.new v hvge (has_of_kind hx)
    have hxq : x ≠ q := fun e => hv (by rw [e])
    rcases hcopy hxpos hxp hpos with rfl | ⟨-, hnot⟩
    · have hbeside := h.beside x (hlt x (hw.has x u .plain (hw.symm u x _ ▸ hxpos))) hxpos hxp hxq
      rw [precedes, h'.column_copy hbeside hxpos hxp, hcolumn]
      exact not_less_one
    · exact absurd hz hnot

/-- The copy on the wire to `q` can be pushed through next, out of that wire and into the one to `f`. -/
theorem pumping_pushed : d'.Pumping c (ν q) f q := by
  have hw := h.coherent.valid
  have hw' := h'.coherent.valid
  obtain ⟨hc, hp, hq, hf⟩ := h.has
  obtain ⟨hpc, hpf⟩ := h.ne
  have hlt := hw.lt
  have hclt := hlt c hc
  have hqf : q ≠ f := fun e => by
    have hnear := h.near
    rw [e, h.apart] at hnear
    exact Nat.lt_irrefl 0 hnear
  have hqc : q ≠ c := fun e => by
    have hnear := h.near
    rw [e, hw.self] at hnear
    exact Nat.lt_irrefl 0 hnear
  have hcq := h'.copied q h.near h.near_ne
  have hold {x : Vertex} (hx : x < d.web.next) : x ≠ ν q := fun e =>
    absurd hx (Nat.not_lt_of_le (e ▸ hcq.fresh))
  -- a new neighbour of `c` is a copy, with a single wire
  have hnew {x : Vertex} (hx : d.web.next ≤ x) (hpos : 0 < d'.web.count c x .plain) :
      ∃ y, 0 < d.web.count c y .plain ∧ y ≠ p ∧ x = ν y :=
    h'.new x hx (hw'.has x c .plain (hw'.symm c x _ ▸ hpos))
  have hcolumn : d'.column? c = some 1 := (h'.column c hclt hpc.symm).trans h.column
  exact {
    coherent := h'.coherent
    plain := h'.plain
    hub := (h'.kind c hclt hpc.symm).trans h.hub
    still := (h'.phase c hclt hpc.symm).trans h.still
    column := hcolumn
    turn := hcq.kind
    phase := by rw [hcq.phase]; decide
    before := by rw [hcq.column]; exact h.behind.column
    ends := hcq.ends
    far_ne := hqc
    near := by
      rw [h'.near f (hlt f hf), if_pos rfl]
      exact Nat.one_pos
    near_ne := hold (hlt f hf)
    apart := by rw [h'.near q (hlt q hq), if_neg hqf]
    far := h'.behind h.behind hclt hpc.symm (hlt q hq) h.near_ne
    behind := h'.behind h.far hclt hpc.symm (hlt f hf) hpf.symm
    single := fun u _ => by
      rcases Nat.lt_or_ge u d.web.next with hu | hu
      · rw [h'.near u hu]
        split <;> omega
      · by_contra hmany
        obtain ⟨y, hy, hyp, rfl⟩ := hnew hu (by omega)
        have hyc : y ≠ c := fun e => by
          rw [e, hw.self] at hy
          exact Nat.lt_irrefl 0 hy
        rw [hw'.symm, (h'.copied y hy hyp).ends] at hmany
        simp [hyc] at hmany
    beside := fun u _ hpos huq huf => by
      rcases Nat.lt_or_ge u d.web.next with hu | hu
      · rw [h'.near u hu, if_neg huf] at hpos
        exact absurd hpos (Nat.lt_irrefl 0)
      · obtain ⟨y, hy, hyp, rfl⟩ := hnew hu hpos
        have hyq : y ≠ q := fun e => huq (by rw [e])
        have hbeside := h.beside y (hlt y (hw.has y c .plain (hw.symm c y _ ▸ hy))) hy hyp hyq
        refine ⟨by rw [(h'.copied y hy hyp).kind]; decide, ?_⟩
        rw [columnBetween, hcolumn, h'.column_copy hbeside hy hyp]
        exact congrArg some half_two
    turns := fun v _ hz => by
      have hvp : v ≠ p := fun e => by
        rw [e, h'.gone] at hz
        cases hz
      rcases Nat.lt_or_ge v d.web.next with hv | hv
      · rw [h'.kind v hv hvp] at hz
        rw [h'.phase v hv hvp]
        exact h.turns v hv hz
      · obtain ⟨y, hy, hyp, rfl⟩ := h'.new v hv (has_of_kind hz)
        rw [(h'.copied y hy hyp).kind] at hz
        cases hz
    idle := fun v _ hv hx hphase => h.stays_pushed h' hv hx hphase }

end Pumping

/-! ### Rounds without end -/

namespace Pumping

variable (h : d.Pumping c p q f)
include h

theorem check_eq : DiagramRule.piCopy.check d [p, c] = .ok true := by
  have hd := h.coherent
  have hw := hd.valid
  obtain ⟨hc, hp, -, -⟩ := h.has
  have hnear : (d.web.nearby p).Perm [c, f] := by
    refine (List.perm_ext_iff_of_nodup nodup_nearby (by simpa using h.far_ne.symm)).2 fun x => ?_
    rw [hw.mem_nearby, h.ends.joins_pos_iff]
    simp
  have hone : d.web.count p c .plain = 1 := by
    rw [h.ends, List.count_cons_self, List.count_eq_zero.2 (by simpa using h.far_ne.symm)]
  have hprecedes : ((d.phase c).isPauli && d.precedes p c) = true := by
    obtain ⟨a, ha, hless⟩ := (Option.any_eq_true _ _).1 h.before
    rw [show d.phase c = .zero from h.still, precedes, ha, h.column]
    exact hless
  refine (check_iff hd).2 ⟨fun x hx => ?_, ?_⟩
  · rcases List.mem_pair.1 hx with rfl | rfl
    · exact hp
    · exact hc
  · have hkind : d.kind p = pure .x := kind_eq h.turn
    rw [DiagramRule.checkPresent, checkPiCopy, hkind, pure_bind]
    simp only [and_eq_true_iff]
    refine ⟨rfl, congrArg Except.ok h.phase, ?_, ?_, ?_, ?_, congrArg Except.ok hprecedes⟩
    · rw [Diagram.degree, degree_eq hd hp, h.ends.degree_eq hw]
      rfl
    · rw [(neighborSet_has hd hp).1]
      exact congrArg (fun n => Except.ok (n == 2)) hnear.length_eq
    · rw [wires_eq hd hp, hone]
      rfl
    · rw [kind_eq h.hub]
      rfl

/-- No other match is accepted. -/
theorem eq_of_check {m : Match} (hm : DiagramRule.piCopy.check d m = .ok true) : m = [p, c] := by
  have hd := h.coherent
  have hw := hd.valid
  obtain ⟨hhas, hm⟩ := (check_iff hd).1 hm
  rw [DiagramRule.checkPresent.eq_def] at hm
  split at hm <;> try contradiction
  next v u _ _ =>
  have hv := hhas v (by simp)
  have hu := hhas u (by simp)
  obtain ⟨k, hk, hcheck⟩ := of_bind_eq_ok hm
  simp only [and_eq_true_iff] at hcheck
  obtain ⟨hphased, hpi, -, -, hwire, hopp, hlast⟩ := hcheck
  obtain ⟨k', hk'⟩ := Option.isSome_iff_exists.1 hu
  rw [kind_eq hk'] at hopp
  obtain rfl : k' = k.opposite := eq_of_beq (Except.ok.inj hopp)
  have hk := kind_of_eq_ok hk
  have hphase : (d.web.phase v).isPi = true := Except.ok.inj hpi
  have hprecedes : d.precedes v u = true := (Bool.and_eq_true_iff.1 (Except.ok.inj hlast)).2
  have hpos : 0 < d.web.count v u .plain := by
    rw [wires_eq hd hv] at hwire
    rw [eq_of_beq (Except.ok.inj hwire)]
    exact Nat.one_pos
  -- a half turn is of colour X, and `p` is the only one to come before a Z spider
  have hx : k = .x := by
    cases k with
    | x => rfl
    | z => exact absurd hphase (by rw [h.turns v (hw.lt v hv) hk]; decide)
    | _ => exact absurd (Except.ok.inj hphased) (by decide)
  subst hx
  have hvp : v = p := by
    by_contra hne
    have hidle := h.idle v (hw.lt v hv) hne hk hphase u (hw.lt u hu) hpos hk'
    rw [hprecedes] at hidle
    cases hidle
  subst hvp
  rw [h.ends, List.count_pos_iff] at hpos
  simp only [List.mem_cons, List.not_mem_nil, or_false, Prod.mk.injEq, and_true] at hpos
  rcases hpos with rfl | rfl
  · rfl
  · exact absurd hk' h.far.kind

/-- The half turn is the only match listed. -/
theorem sites_eq : DiagramRule.piCopy.sites d = .ok [[p, c]] := by
  obtain ⟨ms, hok, haccepted, hnone⟩ := lists_sites h.coherent .piCopy
  have hall : ∀ m ∈ ms, m = [p, c] := fun m hm => h.eq_of_check (haccepted m hm)
  obtain ⟨hapart, -⟩ := (apart_sites .piCopy d).of_ok hok
  rw [hok]
  rcases ms with - | ⟨m, - | ⟨m', rest⟩⟩
  · exact absurd h.check_eq (hnone rfl [p, c])
  · rw [hall m (by simp)]
  · -- a second match would share both spiders with the first one
    have hdisjoint := List.rel_of_pairwise_cons hapart (List.mem_cons_self (a := m'))
    rw [hall m (by simp), hall m' (by simp)] at hdisjoint
    exact absurd (List.mem_cons_self (a := p)) (hdisjoint List.mem_cons_self)

/-- A round pushes the half turn through, and there is one to push through again. -/
theorem exists_rewrite : ∃ p' d', Rule.rewrite DiagramRule.piCopy d [[p, c]] = .ok (1, d') ∧
    d'.Pumping c p' f q := by
  obtain ⟨ν, d', hok, hpushed⟩ := h.exists_pushed
  refine ⟨ν q, d', ?_, h.pumping_pushed hpushed⟩
  have hcheck : Rule.check DiagramRule.piCopy d [p, c] = .ok true := h.check_eq
  have happly : Rule.apply DiagramRule.piCopy d [p, c] = .ok d' := hok
  have hstep : Rule.step DiagramRule.piCopy ⟨d, [], 0⟩ [p, c] = .ok ⟨d', [p, c] ++ [], 0 + 1⟩ := by
    rw [Rule.step, if_neg (by simp), hcheck]
    change (Rule.apply DiagramRule.piCopy d [p, c] >>= fun d => _) = _
    rw [happly]
    rfl
  rw [Rule.rewrite, List.foldlM_cons, hstep]
  rfl

/-- However many rounds there are, they run out. -/
theorem simplifyWithin_eq (rounds : ℕ) :
    Rule.simplifyWithin DiagramRule.piCopy rounds d = .error .outOfRounds := by
  induction rounds generalizing d p q f with
  | zero => rfl
  | succ rounds ih =>
    obtain ⟨p', d', hok, h'⟩ := h.exists_rewrite
    have hsites : Rule.sites DiagramRule.piCopy d = .ok [[p, c]] := h.sites_eq
    rw [Rule.simplifyWithin, hsites]
    change (Rule.rewrite DiagramRule.piCopy d [[p, c]] >>= fun r => _) = _
    rw [hok]
    change (Rule.simplifyWithin DiagramRule.piCopy rounds d' >>= fun r => _) = _
    rw [ih h']
    rfl

end Pumping

/-! ### A diagram that comes of gates -/

instance : Decidable (d.Behind c u) :=
  decidable_of_iff (d.web.kind u ≠ some .z ∧ (d.web.phase u).isPi = false ∧
      (d.columnBetween c u).any (·.less 1) = true)
    ⟨fun h => ⟨h.1, h.2.1, h.2.2⟩, fun h => ⟨h.kind, h.phase, h.column⟩⟩

instance : Decidable (d.Stays v) := Nat.decidableBallLT _ _

instance : Decidable (d.Beside c u) :=
  decidable_of_iff (d.web.kind u ≠ some .z ∧ d.columnBetween c u = some 1)
    ⟨fun h => ⟨h.1, h.2⟩, fun h => ⟨h.kind, h.column⟩⟩

instance : Decidable (d.Calm c p q) :=
  decidable_of_iff ((∀ u < d.web.next, d.web.count c u .plain ≤ 1) ∧
      (∀ u < d.web.next, 0 < d.web.count c u .plain → u ≠ p → u ≠ q → d.Beside c u) ∧
      (∀ v < d.web.next, d.web.kind v = some .z → (d.web.phase v).isPi = false) ∧
      ∀ v < d.web.next, v ≠ p → d.web.kind v = some .x → (d.web.phase v).isPi = true → d.Stays v)
    ⟨fun h => ⟨h.1, h.2.1, h.2.2.1, h.2.2.2⟩, fun h => ⟨h.single, h.beside, h.turns, h.idle⟩⟩

/-- What has to be looked at to see that a half turn goes back and forth. -/
theorem pumping_iff : d.Pumping c p q f ↔ (d.Coherent ∧ d.web.Plain) ∧
    (d.web.kind c = some .z ∧ d.web.phase c = .zero ∧ d.column? c = some 1) ∧
    (d.web.kind p = some .x ∧ (d.web.phase p).isPi = true ∧ (d.column? p).any (·.less 1) = true ∧
      f < d.web.next ∧ ∀ u < d.web.next, d.web.count p u .plain = [c, f].count u) ∧
    (f ≠ c ∧ 0 < d.web.count c q .plain ∧ q ≠ p ∧ d.web.count c f .plain = 0 ∧ d.Behind c f ∧
      d.Behind c q) ∧ d.Calm c p q := by
  have hpair (u : Vertex) (a b : Vertex) :
      [(a, EdgeKind.plain), (b, .plain)].count (u, .plain) = [a, b].count u := by
    simp [List.count_cons]
  constructor
  · intro h
    have hw := h.coherent.valid
    refine ⟨⟨h.coherent, h.plain⟩, ⟨h.hub, h.still, h.column⟩, ⟨h.turn, h.phase, h.before,
      hw.lt f h.has.2.2.2, fun u _ => ?_⟩, ⟨h.far_ne, h.near, h.near_ne, h.apart, h.far, h.behind⟩,
      h.toCalm⟩
    rw [h.ends, hpair]
  · rintro ⟨⟨hd, hplain⟩, ⟨hub, hstill, hcolumn⟩, ⟨hturn, hphase, hbefore, hf, hends⟩,
      ⟨hfc, hnear, hqp, hapart, hfar, hbehind⟩, hcalm⟩
    have hw := hd.valid
    have hcount (u : Vertex) : [c, f].count u = d.web.joins p u := by
      rw [hplain.joins]
      rcases Nat.lt_or_ge u d.web.next with hu | hu
      · exact (hends u hu).symm
      · -- what is not there has no wires
        have hc := hw.lt c (has_of_kind hub)
        have hzero : d.web.count p u .plain = 0 := Nat.eq_zero_of_not_pos fun hpos =>
          Nat.not_lt_of_le hu (hw.lt u (hw.has u p .plain (hw.symm p u _ ▸ hpos)))
        rw [hzero, List.count_eq_zero]
        simp only [List.mem_cons, List.not_mem_nil, or_false, not_or]
        exact ⟨fun e => Nat.not_lt_of_le hu (e ▸ hc), fun e => Nat.not_lt_of_le hu (e ▸ hf)⟩
    exact ⟨hcalm, hd, hplain, hub, hstill, hcolumn, hturn, hphase, hbefore, hplain.endsAre hcount,
      hfc, hnear, hqp, hapart, hfar, hbehind⟩

instance : Decidable (d.Pumping c p q f) := decidable_of_iff _ pumping_iff.symm

/-- A controlled gate at the outputs and one at the inputs, then a half turn and a box before them at
    the inputs. The two Z spiders are fused. -/
def windUp : List Action :=
  [.ask ⟨.back, .cnot, [0, 1], .exact .zero, false⟩,
    .ask ⟨.front, .cnot, [0, 1], .exact .zero, false⟩,
    .ask ⟨.front, .xPhase, [0], .exact .pi, false⟩,
    .ask ⟨.front, .hadamard, [0], .exact .zero, false⟩,
    .rewrite .fusion [4, 6]]

/-- Copying half turns does not come to an end on whatever comes of bare wires. -/
theorem exists_endless : ∃ d, develop 2 windUp = .ok d ∧
    ∀ rounds, Rule.simplifyWithin DiagramRule.piCopy rounds d = .error .outOfRounds := by
  have hrun : (do return decide ((← develop 2 windUp).Pumping 4 8 7 9) : Except Fault Bool) =
      .ok true := by decide +kernel
  obtain ⟨d, hok, h⟩ := of_bind_eq_ok hrun
  exact ⟨d, hok, Pumping.simplifyWithin_eq (of_decide_eq_true (Except.ok.inj h))⟩

end Diagram

end ZXRewriting
