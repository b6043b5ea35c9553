import ZXRewriting.Proofs.Diagram.Ends

/-!
# Strings of boxes

A box with two wires becomes an edge when it is taken out, and so boxes with two wires in a row become
one edge. If this edge led from a box back to the same box there would be no place for it: that no
string of boxes does is `Web.Unlooped`. It stays so when boxes are taken out: an edge in place of a
box makes a shorter string (`Web.Unlooped.unbox`), and where Z spiders come in its place there are
strings less (`Web.Loosened.unlooped`).
-/

namespace ZXRewriting

open Multigraph (SamePair)

namespace Web

variable {w w' w'' : Web} {a b c h x y : Vertex} {k : EdgeKind} {e e' : Vertex × Vertex}

/-- A vertex with two edges, which lead to the given ones. -/
def Between (w : Web) (h a b : Vertex) : Prop :=
  ∀ x, w.joins h x = (if x = a then 1 else 0) + if x = b then 1 else 0

/-- Goes on along a string of boxes: from an edge between boxes through one with two edges to the other
    of these. -/
inductive Passes (w : Web) : Vertex × Vertex → Vertex × Vertex → Prop
  | through {a h b : Vertex} (ha : w.kind a = some .box) (hh : w.kind h = some .box)
    (hb : w.kind b = some .box) (hends : w.Between h a b) : Passes w (a, h) (h, b)

/-- No string of boxes with two edges each leads from a box back to it. -/
def Unlooped (w : Web) : Prop := ∀ a h h', ¬Relation.TransGen w.Passes (a, h) (h', a)

theorem Between.symm (hends : w.Between h a b) : w.Between h b a := fun x => by
  rw [hends, Nat.add_comm]

theorem Between.eq_or_eq (hends : w.Between h a b) (hx : 0 < w.joins h x) : x = a ∨ x = b := by
  rw [hends] at hx
  by_contra hne
  rw [not_or] at hne
  simp [hne] at hx

theorem Between.joins_pos (hends : w.Between h a b) : 0 < w.joins h a ∧ 0 < w.joins h b := by
  rw [hends, hends]
  simp

/-- The two edges of a box in a string do not lead to the same box. -/
theorem Unlooped.ne (hu : w.Unlooped) (hh : w.kind h = some .box) (hends : w.Between h a b)
    (ha : w.kind a = some .box) : a ≠ b := by
  rintro rfl
  exact hu a h h (.single (.through ha hh ha hends))

theorem Between.degree (hends : w.Between h a b) (ha : a < w.next) (hb : b < w.next) :
    w.degree h = 2 := by
  rw [Web.degree, Finset.sum_congr rfl fun x _ => hends x, Finset.sum_add_distrib,
    Finset.sum_ite_eq', Finset.sum_ite_eq', if_pos (Finset.mem_range.2 ha),
    if_pos (Finset.mem_range.2 hb)]

/-- Two edges that are known are all the edges of a vertex of degree two. -/
theorem Valid.between (hw : w.Valid) (hdeg : w.degree h = 2) (ha : a < w.next) (hb : b < w.next)
    (hjoins : ∀ x, x = a ∨ x = b → w.joins h x = (if x = a then 1 else 0) + if x = b then 1 else 0) :
    w.Between h a b := fun x => by
  have hle : ∀ x ∈ Finset.range w.next,
      (if x = a then 1 else 0) + (if x = b then 1 else 0) ≤ w.joins h x := fun x _ => by
    by_cases hx : x = a ∨ x = b
    · rw [hjoins x hx]
    · rw [not_or] at hx
      simp [hx]
  have hsum : ∑ x ∈ Finset.range w.next, ((if x = a then 1 else 0) + if x = b then 1 else 0) =
      ∑ x ∈ Finset.range w.next, w.joins h x := by
    rw [← Web.degree, hdeg, Finset.sum_add_distrib, Finset.sum_ite_eq', Finset.sum_ite_eq',
      if_pos (Finset.mem_range.2 ha), if_pos (Finset.mem_range.2 hb)]
  by_cases hx : x < w.next
  · exact ((Finset.sum_eq_sum_iff_of_le hle).1 hsum x (Finset.mem_range.2 hx)).symm
  · have hnone : w.joins h x = 0 := by
      by_contra hne
      exact hx (hw.lt x (hw.has_of_joins (Nat.pos_of_ne_zero hne)).2)
    rw [hnone, if_neg fun he : x = a => hx (he ▸ ha), if_neg fun he : x = b => hx (he ▸ hb)]

/-- Where there are no other ways on, there are no more strings. -/
theorem Unlooped.of_passes (hu : w.Unlooped) (h : ∀ e e', w'.Passes e e' → w.Passes e e') :
    w'.Unlooped := fun a h₁ h₂ hp => hu a h₁ h₂ (Relation.TransGen.mono h _ _ hp)

theorem Unlooped.congr (hu : w.Unlooped) (hk : w'.kind = w.kind) (hc : w'.count = w.count) :
    w'.Unlooped := hu.of_passes fun _ _ hp => by
  obtain ⟨ha, hh, hb, hends⟩ := hp
  rw [hk] at ha hh hb
  refine .through ha hh hb fun x => ?_
  rw [← hends, joins, joins, hc]

/-- There are no strings where each box with two edges has one that leads to no box. -/
theorem Valid.unlooped_of_open (hw : w.Valid) (hopen : ∀ h, w.kind h = some .box → w.degree h = 2 →
    ∃ x, 0 < w.joins h x ∧ w.kind x ≠ some .box) : w.Unlooped := fun a h₁ h₂ hp => by
  obtain ⟨_, -, ⟨ha, hh, hb, hends⟩⟩ := Relation.TransGen.tail'_iff.1 hp
  obtain ⟨x, hpos, hx⟩ := hopen _ hh
    (hends.degree (hw.lt _ (has_of_kind ha)) (hw.lt _ (has_of_kind hb)))
  rcases hends.eq_or_eq hpos with rfl | rfl
  · exact hx ha
  · exact hx hb

/-! ### Taking out other boxes -/

/-- A web without one of the boxes, the other ones of which have as many edges as before, and the same
    ones among each other. -/
structure Loosened (w : Web) (h : Vertex) (w' : Web) : Prop where
  box : ∀ v, w'.kind v = some .box ↔ w.kind v = some .box ∧ v ≠ h
  degree : ∀ c, w'.kind c = some .box → w'.degree c = w.degree c
  joins : ∀ c x, w'.kind c = some .box → w'.kind x = some .box → w'.joins c x = w.joins c x

theorem Loosened.unlooped (hl : Loosened w h w') (hw : w.Valid) (hw' : w'.Valid)
    (hu : w.Unlooped) : w'.Unlooped := hu.of_passes fun _ _ hp => by
  obtain ⟨ha, hc, hb, hends⟩ := hp
  have hlt {x : Vertex} (hx : w'.kind x = some .box) : x < w'.next ∧ x < w.next :=
    ⟨hw'.lt x (has_of_kind hx), hw.lt x (has_of_kind ((hl.box x).1 hx).1)⟩
  refine .through ((hl.box _).1 ha).1 ((hl.box _).1 hc).1 ((hl.box _).1 hb).1 ?_
  refine hw.between ?_ (hlt ha).2 (hlt hb).2 fun x hx => ?_
  · rw [← hl.degree _ hc, hends.degree (hlt ha).1 (hlt hb).1]
  · have hbox : w'.kind x = some .box := by
      rcases hx with rfl | rfl
      · exact ha
      · exact hb
    rw [← hl.joins _ x hc hbox, hends]

theorem Loosened.congr (hl : Loosened w h w') (hn : w''.next = w'.next) (hk : w''.kind = w'.kind)
    (hc : w''.count = w'.count) : Loosened w h w'' where
  box v := by rw [hk, hl.box]
  degree c hbox := by
    rw [Web.degree, hn, ← hl.degree c (hk ▸ hbox), Web.degree]
    simp only [Web.joins, hc]
  joins c x hbox hbox' := by
    rw [← hl.joins c x (hk ▸ hbox) (hk ▸ hbox'), Web.joins, Web.joins, hc]

/-- A box without edges to other ones. -/
theorem Valid.loosened_remove (hw : w.Valid)
    (hfree : ∀ c, w.kind c = some .box → w.joins h c = 0) : Loosened w h (w.remove h) where
  box _ := isBox_remove
  degree c hc := by
    obtain ⟨hc, hne⟩ := isBox_remove.1 hc
    rw [← hw.degree_remove (v := h) hne, hw.joins_comm, hfree c hc, Nat.add_zero]
  joins c x hc hx := by
    rw [joins_remove, if_neg (not_or.2 ⟨(isBox_remove.1 hc).2, (isBox_remove.1 hx).2⟩)]

/-! ### Taking out a box of a string -/

/-- The edges of a vertex before, given those after an edge has come in place of a box. -/
theorem Between.of_unbox (hw : w.Valid) (hends : w.Between h a b) (hab : a ≠ b) (hc : c ≠ h)
    (hafter : (w.unbox h a b k).Between c x y) : (¬(c = a ∨ c = b) ∧ w.Between c x y) ∨
      (SamePair c x a b ∧ w.Between c h y) ∨ (SamePair c y a b ∧ w.Between c x h) := by
  have hjoins (d : Vertex) : (if d = h then 0 else w.joins c d) +
      (if SamePair c d a b then 1 else 0) = (if d = x then 1 else 0) + if d = y then 1 else 0 := by
    rw [← hafter d, hw.joins_unbox]
    simp only [hc, false_or, hab, ne_eq, not_false_eq_true, true_and]
  have hto : w.joins c h = (if c = a then 1 else 0) + if c = b then 1 else 0 := by
    rw [hw.joins_comm, hends]
  have hself : w.joins h h = 0 := by rw [joins, hw.self, hw.self]
  rw [hends] at hself
  have hah : h ≠ a ∧ h ≠ b := by
    constructor <;> rintro rfl <;> simp at hself
  have hxh : h ≠ x ∧ h ≠ y := by
    have := hjoins h
    grind [SamePair]
  -- an edge to the other side has come in place of the one to the box
  by_cases hother : c = a ∨ c = b
  · obtain ⟨o, ho⟩ : ∃ o, ∀ d, SamePair c d a b ↔ d = o :=
      ⟨if c = a then b else a, fun d => by grind [SamePair]⟩
    simp only [ho] at hjoins ⊢
    have hone : w.joins c h = 1 := by grind
    have hoh : o ≠ h := fun he => by
      have := (ho o).2 rfl
      grind [SamePair]
    have hpos := hjoins o
    rw [if_neg hoh, if_pos rfl] at hpos
    by_cases hx : x = o
    · refine .inr (.inl ⟨hx, fun d => ?_⟩)
      have := hjoins d
      grind
    · refine .inr (.inr ⟨by grind, fun d => ?_⟩)
      have := hjoins d
      grind
  · refine .inl ⟨hother, fun d => ?_⟩
    have hnone : ¬SamePair c d a b := fun hs => hother (hs.imp And.left And.left)
    have := hjoins d
    grind

/-- A string goes along edges. -/
theorem joins_pos_of_transGen (hp : Relation.TransGen w.Passes e e') : 0 < w.joins e'.1 e'.2 := by
  cases hp with
  | single hp =>
    cases hp with
    | through _ _ _ hends => exact hends.joins_pos.2
  | tail _ hp =>
    cases hp with
    | through _ _ _ hends => exact hends.joins_pos.2

section Unbox

variable (hw : w.Valid) (hbox : w.kind h = some .box) (hends : w.Between h a b) (hab : a ≠ b)
include hw hbox hends hab

/-- Where an edge has come in place of a box, strings of boxes went through the box before. -/
theorem exists_before (hp : Relation.TransGen (w.unbox h a b k).Passes e e') : ∃ h₁ c₁,
    Relation.TransGen w.Passes (e.1, h₁) (c₁, e'.2) ∧
      (c₁ = e'.1 ∨ c₁ = h ∧ SamePair e'.1 e'.2 a b) := by
  have hkind {x : Vertex} (hx : (w.unbox h a b k).kind x = some .box) :
      w.kind x = some .box ∧ x ≠ h := isBox_unbox.1 hx
  -- the box leads from either end of the new edge to the other one
  have hacross {x y : Vertex} (hxy : SamePair x y a b) : w.Between h x y := by
    rcases hxy with ⟨rfl, rfl⟩ | ⟨rfl, rfl⟩
    · exact hends
    · exact hends.symm
  have hsame {x y z : Vertex} (hxy : SamePair x y a b) (hxz : SamePair y z a b) : x = z := by
    grind [SamePair]
  induction hp with
  | single hp =>
    obtain ⟨hx, hc, hy, hafter⟩ := hp
    obtain ⟨hx, -⟩ := hkind hx
    obtain ⟨hc, hch⟩ := hkind hc
    obtain ⟨hy, -⟩ := hkind hy
    rcases hends.of_unbox hw hab hch hafter with
      ⟨-, hbefore⟩ | ⟨hpair, hbefore⟩ | ⟨hpair, hbefore⟩
    · exact ⟨_, _, .single (.through hx hc hy hbefore), .inl rfl⟩
    · have hfirst := Passes.through hx hbox hc (hacross (SamePair.swap_iff.1 hpair))
      exact ⟨_, _, .tail (.single hfirst) (.through hbox hc hy hbefore), .inl rfl⟩
    · have hfirst := Passes.through hx hc hbox hbefore
      exact ⟨_, _, .tail (.single hfirst) (.through hc hbox hy (hacross hpair)),
        .inr ⟨rfl, hpair⟩⟩
  | tail _ hp ih =>
    obtain ⟨hc, hy, hz, hafter⟩ := hp
    obtain ⟨h₁, c₁, hbefore, hlast⟩ := ih
    dsimp only at hbefore hlast ⊢
    obtain ⟨hc, hch⟩ := hkind hc
    obtain ⟨hy, hyh⟩ := hkind hy
    obtain ⟨hz, -⟩ := hkind hz
    rcases hends.of_unbox hw hab hyh hafter with
      ⟨hother, hnext⟩ | ⟨hpair, hnext⟩ | ⟨hpair, hnext⟩
    · obtain rfl : c₁ = _ := hlast.resolve_right fun hl => hother (by grind [SamePair])
      exact ⟨_, _, .tail hbefore (.through hc hy hz hnext), .inl rfl⟩
    · rcases hlast with rfl | ⟨hc₁, -⟩
      · -- there was another edge to the box before, and the string goes the other way round
        have hpos := joins_pos_of_transGen hbefore
        rw [hw.joins_comm] at hpos
        obtain rfl := (hnext.eq_or_eq hpos).resolve_left hch
        exact ⟨_, _, .tail (.tail hbefore (.through hc hy hbox hnext.symm))
          (.through hy hbox hz (hacross hpair)), .inr ⟨rfl, hpair⟩⟩
      · rw [hc₁] at hbefore
        exact ⟨_, _, .tail hbefore (.through hbox hy hz hnext), .inl rfl⟩
    · rcases hlast with rfl | ⟨hc₁, hlast⟩
      · exact ⟨_, _, .tail (.tail hbefore (.through hc hy hbox hnext))
          (.through hy hbox hz (hacross hpair)), .inr ⟨rfl, hpair⟩⟩
      · rw [hc₁] at hbefore
        obtain rfl := hsame hlast hpair
        exact ⟨_, _, .tail hbefore (.through hbox hy hz hnext.symm), .inl rfl⟩

/-- A box of a string goes, and an edge comes in its place. -/
theorem Unlooped.unbox (hu : w.Unlooped) : (w.unbox h a b k).Unlooped := fun v _ _ hp => by
  obtain ⟨h₁, c₁, hbefore, -⟩ := exists_before hw hbox hends hab hp
  exact hu v h₁ c₁ hbefore

end Unbox

end Web

end ZXRewriting
