import ZXRewriting.Proofs.Diagram.Web

/-!
# Causal flow

A *course* goes along the wires of a diagram: it tells which vertex comes after each one, and gives
the vertices ranks. It is a flow of the diagram (`Web.Flow`) when the rank of a vertex is below that
of the next one and below those of all other neighbours of the next one. So the last vertex that is
not yet behind is the only one before its successor.

Putting a vertex on an edge of the course (`Flow.insert`) and merging two vertices one after the
other (`Flow.merge`) leave a flow. What such an edit does to a diagram is told by a structure
(`Web.Inserted`, `Web.Merged`), and there is a lemma for each thing that a flow asks for.
-/

namespace ZXRewriting

open Function (update update_self update_of_ne)
open Multigraph (SamePair)

/-- Some vertices one after the other, with ranks. -/
structure Course where
  on : Vertex → Prop
  next : Vertex → Vertex
  rank : Vertex → ℕ

namespace Course

variable (c : Course) {e m n p gone x : Vertex}

/-- Puts a vertex after another one. -/
def insert (p n : Vertex) : Course where
  on x := c.on x ∨ x = n
  next := update (update c.next p n) n (c.next p)
  rank := update (fun x => 2 * c.rank x) n (2 * c.rank p + 1)

/-- Lets `m`, which is `e` or the vertex after it, stand for both, and leaves out the other one. -/
def merge (e m gone : Vertex) : Course where
  on x := c.on x ∧ x ≠ gone
  next x := if x = m then c.next (c.next e) else if c.next x = e then m else c.next x
  rank := update c.rank m (c.rank (c.next e))

theorem next_insert_self : (c.insert p n).next n = c.next p := update_self _ _ _

theorem next_insert_before (hpn : p ≠ n) : (c.insert p n).next p = n := by
  simp [insert, hpn]

theorem next_insert_of_ne (hxn : x ≠ n) (hxp : x ≠ p) : (c.insert p n).next x = c.next x := by
  simp [insert, hxn, hxp]

theorem rank_insert_self : (c.insert p n).rank n = 2 * c.rank p + 1 := by
  simp [insert]

theorem rank_insert_of_ne (hxn : x ≠ n) : (c.insert p n).rank x = 2 * c.rank x := by
  simp [insert, hxn]

theorem next_merge_self : (c.merge e m gone).next m = c.next (c.next e) := if_pos rfl

theorem next_merge_before (hxm : x ≠ m) (hxe : c.next x = e) : (c.merge e m gone).next x = m := by
  simp [merge, hxm, hxe]

theorem next_merge_of_ne (hxm : x ≠ m) (hxe : c.next x ≠ e) :
    (c.merge e m gone).next x = c.next x := by
  simp [merge, hxm, hxe]

theorem rank_merge_self : (c.merge e m gone).rank m = c.rank (c.next e) := update_self _ _ _

theorem rank_merge_of_ne (hxm : x ≠ m) : (c.merge e m gone).rank x = c.rank x :=
  update_of_ne hxm _ _

end Course

namespace Web

variable {w w' : Web} {c : Course} {a b e m n o p u v x gone : Vertex} {κ : SpiderKind}

/-- A vertex on a course has one after it unless it is an output. -/
def Leads (w : Web) (c : Course) (v : Vertex) : Prop := c.on v ∧ w.kind v ≠ some .output

/-- A course through all vertices but boxes beside it, from the inputs to the outputs, on which each
    vertex is the only one before the next one. -/
structure Flow (w : Web) (c : Course) : Prop where
  has : ∀ v, c.on v → w.Has v
  all : ∀ v, w.Has v → c.on v ∨ w.kind v = some .box
  on_next : ∀ v, w.Leads c v → c.on (c.next v)
  joined : ∀ v, w.Leads c v → w.joins v (c.next v) = 1
  lt : ∀ v, w.Leads c v → c.rank v < c.rank (c.next v)
  lt_other : ∀ v, w.Leads c v → ∀ u, 0 < w.joins (c.next v) u → u ≠ v → c.rank v < c.rank u
  onto : ∀ v, c.on v → w.kind v ≠ some .input → ∃ u, w.Leads c u ∧ c.next u = v

namespace Flow

variable (h : w.Flow c) (hw : w.Valid)
include h

theorem ne_next (hv : w.Leads c v) : c.next v ≠ v := fun he => by
  have := h.lt v hv
  rw [he] at this
  exact Nat.lt_irrefl _ this

/-- A vertex is not joined to those after the next one. -/
theorem joins_eq_zero (hv : w.Leads c v) (hlt : c.rank u ≤ c.rank v) (hne : u ≠ v) :
    w.joins (c.next v) u = 0 :=
  Nat.eq_zero_of_not_pos fun hpos => Nat.not_lt_of_le hlt (h.lt_other v hv u hpos hne)

/-- Other edges beside the course, and other ranks. -/
theorem congr {c' : Course} (hon : c'.on = c.on) (hnext : c'.next = c.next)
    (hkind : ∀ v, c.on v → w'.kind v = w.kind v ∨ w.IsColoured v ∧ w'.IsColoured v)
    (hall : ∀ v, w'.Has v → c.on v ∨ w'.kind v = some .box)
    (hjoined : ∀ v, w.Leads c v → w'.joins v (c.next v) = 1)
    (hlt : ∀ v, w.Leads c v → c'.rank v < c'.rank (c.next v))
    (hother : ∀ v, w.Leads c v → ∀ u, 0 < w'.joins (c.next v) u → u ≠ v → c'.rank v < c'.rank u) :
    w'.Flow c' := by
  have hsame {v : Vertex} (hv : c.on v) {κ : SpiderKind} (hκ : κ.isPhased = false) :
      w'.kind v = some κ ↔ w.kind v = some κ := by
    rcases hkind v hv with he | ⟨h₁, h₂⟩
    · rw [he]
    · refine iff_of_false (fun hk => ?_) fun hk => ?_
      · rw [IsColoured, hk] at h₂
        exact absurd (h₂.symm.trans hκ) (by decide)
      · rw [IsColoured, hk] at h₁
        exact absurd (h₁.symm.trans hκ) (by decide)
  have hleads {v : Vertex} : w'.Leads c' v ↔ w.Leads c v := by
    rw [Leads, Leads, hon]
    exact and_congr_right fun hv => not_congr (hsame hv rfl)
  refine ⟨fun v hv => ?_, fun v hv => hon ▸ hall v hv, fun v hv => ?_, fun v hv => ?_, fun v hv => ?_,
    fun v hv u hu huv => ?_, fun v hv hin => ?_⟩
  · rw [hon] at hv
    rcases hkind v hv with he | ⟨-, h₂⟩
    · rw [Has, he]
      exact h.has v hv
    · exact h₂.has
  · rw [hon, hnext]
    exact h.on_next v (hleads.1 hv)
  · rw [hnext]
    exact hjoined v (hleads.1 hv)
  · rw [hnext]
    exact hlt v (hleads.1 hv)
  · rw [hnext] at hu
    exact hother v (hleads.1 hv) u hu huv
  · rw [hon] at hv
    obtain ⟨u, hu, huv⟩ := h.onto v hv fun hk => hin ((hsame hv rfl).2 hk)
    exact ⟨u, hleads.2 hu, hnext ▸ huv⟩

/-- Fewer edges beside the course. -/
theorem of_fewer (hkind : ∀ v, w'.kind v = w.kind v ∨ w.IsColoured v ∧ w'.IsColoured v)
    (hjoined : ∀ v, w.Leads c v → w'.joins v (c.next v) = 1)
    (hjoins : ∀ u v, 0 < w'.joins u v → 0 < w.joins u v) : w'.Flow c := by
  refine h.congr rfl rfl (fun v _ => hkind v) (fun v hv => ?_) hjoined h.lt
    fun v hv u hu => h.lt_other v hv u (hjoins _ _ hu)
  rcases hkind v with he | ⟨h₁, -⟩
  · rw [Has, he] at hv
    rw [he]
    exact h.all v hv
  · refine .inl ((h.all v h₁.has).resolve_right fun hk => ?_)
    rw [IsColoured, hk] at h₁
    cases h₁

include hw

/-- No two vertices have the same one after them. -/
theorem injective (hu : w.Leads c u) (hv : w.Leads c v) (he : c.next u = c.next v) : u = v := by
  by_contra hne
  have h₁ : 0 < w.joins (c.next u) v := by
    rw [he, hw.joins_comm, h.joined v hv]
    exact Nat.one_pos
  have h₂ : 0 < w.joins (c.next v) u := by
    rw [← he, hw.joins_comm, h.joined u hu]
    exact Nat.one_pos
  exact Nat.lt_asymm (h.lt_other u hu v h₁ (Ne.symm hne)) (h.lt_other v hv u h₂ hne)

end Flow

/-! ### A vertex put on an edge -/

/-- A new vertex on the edge from a vertex to the one after it. -/
structure Inserted (w w' : Web) (c : Course) (p n : Vertex) (κ : SpiderKind) : Prop where
  leads : w.Leads c p
  fresh : ¬w.Has n
  kind_eq : w'.kind = update w.kind n (some κ)
  not_isBoundary : κ.isBoundary = false
  joins_eq : ∀ a b, w'.joins a b = if SamePair a b p n ∨ SamePair a b n (c.next p) then 1
    else if SamePair a b p (c.next p) then 0 else w.joins a b

namespace Inserted

variable (hi : w.Inserted w' c p n κ) (h : w.Flow c) (hw : w.Valid)

section

include hi

theorem kind_new : w'.kind n = some κ := by rw [hi.kind_eq, update_self]

theorem kind_of_ne (hx : x ≠ n) : w'.kind x = w.kind x := by rw [hi.kind_eq, update_of_ne hx]

theorem joins_before : w'.joins p n = 1 := by
  rw [hi.joins_eq, if_pos (.inl (.inl ⟨rfl, rfl⟩))]

theorem joins_after : w'.joins n (c.next p) = 1 := by
  rw [hi.joins_eq, if_pos (.inr (.inl ⟨rfl, rfl⟩))]

theorem joins_of_ne (ha : a ≠ n) (hb : b ≠ n) (hab : ¬SamePair a b p (c.next p)) :
    w'.joins a b = w.joins a b := by
  rw [hi.joins_eq, if_neg, if_neg hab]
  rw [SamePair, SamePair]
  tauto

theorem joins_cut (hp : p ≠ n) (hn : c.next p ≠ n) : w'.joins (c.next p) p = 0 := by
  rw [hi.joins_eq, if_neg, if_pos (.inr ⟨rfl, rfl⟩)]
  rw [SamePair, SamePair]
  tauto

/-- The new vertex has two neighbours. -/
theorem eq_of_joins (hw : w.Valid) (hu : 0 < w'.joins u n) : u = p ∨ u = c.next p := by
  rw [hi.joins_eq] at hu
  by_contra hne
  rw [not_or] at hne
  have hun : ¬SamePair u n p n ∧ ¬SamePair u n n (c.next p) ∧ ¬SamePair u n p (c.next p) := by
    refine ⟨?_, ?_, ?_⟩ <;> rintro (⟨he, he'⟩ | ⟨he, he'⟩)
    · exact hne.1 he
    · exact hne.1 (he.trans he')
    · exact hne.2 (he.trans he')
    · exact hne.2 he
    · exact hne.1 he
    · exact hne.2 he
  rw [if_neg (not_or.2 ⟨hun.1, hun.2.1⟩), if_neg hun.2.2, hw.joins_comm] at hu
  exact hi.fresh (hw.has_of_joins hu).1

/-- The vertices with one after them, case by case. -/
theorem cases_leads (hx : w'.Leads (c.insert p n) x) :
    x = n ∨ x = p ∨ x ≠ n ∧ x ≠ p ∧ w.Leads c x := by
  by_cases hxn : x = n
  · exact .inl hxn
  by_cases hxp : x = p
  · exact .inr (.inl hxp)
  refine .inr (.inr ⟨hxn, hxp, hx.1.resolve_right hxn, ?_⟩)
  rw [← hi.kind_of_ne hxn]
  exact hx.2

theorem joins_comm (hw : w.Valid) : w'.joins a b = w'.joins b a := by
  simp only [hi.joins_eq, hw.joins_comm a b, SamePair.swap_iff (a := a) (b := b)]

end

include hi h

theorem ne_new (hx : c.on x) : x ≠ n := fun he => hi.fresh (he ▸ h.has x hx)

theorem keeps_leads (hx : w.Leads c x) : w'.Leads (c.insert p n) x := by
  refine ⟨.inl hx.1, ?_⟩
  rw [hi.kind_of_ne (hi.ne_new h hx.1)]
  exact hx.2

theorem on_next (hx : w'.Leads (c.insert p n) x) : (c.insert p n).on ((c.insert p n).next x) := by
  rcases hi.cases_leads hx with rfl | rfl | ⟨hxn, hxp, hx⟩
  · rw [c.next_insert_self]
    exact .inl (h.on_next p hi.leads)
  · rw [c.next_insert_before (hi.ne_new h hi.leads.1)]
    exact .inr rfl
  · rw [c.next_insert_of_ne hxn hxp]
    exact .inl (h.on_next x hx)

theorem joined (hx : w'.Leads (c.insert p n) x) : w'.joins x ((c.insert p n).next x) = 1 := by
  rcases hi.cases_leads hx with rfl | rfl | ⟨hxn, hxp, hx⟩
  · rw [c.next_insert_self, hi.joins_after]
  · rw [c.next_insert_before (hi.ne_new h hi.leads.1), hi.joins_before]
  · rw [c.next_insert_of_ne hxn hxp, hi.joins_of_ne hxn (hi.ne_new h (h.on_next x hx)), h.joined x hx]
    rintro (⟨he, -⟩ | ⟨he, he'⟩)
    · exact hxp he
    · have hlt := h.lt x hx
      rw [he', he] at hlt
      exact Nat.lt_asymm (h.lt p hi.leads) hlt

theorem lt (hx : w'.Leads (c.insert p n) x) :
    (c.insert p n).rank x < (c.insert p n).rank ((c.insert p n).next x) := by
  have hpn := hi.ne_new h hi.leads.1
  have hlt := h.lt p hi.leads
  rcases hi.cases_leads hx with rfl | rfl | ⟨hxn, hxp, hx⟩
  · rw [c.next_insert_self, c.rank_insert_self,
      c.rank_insert_of_ne (hi.ne_new h (h.on_next p hi.leads))]
    omega
  · rw [c.next_insert_before hpn, c.rank_insert_self, c.rank_insert_of_ne hpn]
    omega
  · have := h.lt x hx
    rw [c.next_insert_of_ne hxn hxp, c.rank_insert_of_ne hxn,
      c.rank_insert_of_ne (hi.ne_new h (h.on_next x hx))]
    omega

theorem onto (hx : (c.insert p n).on x) (hin : w'.kind x ≠ some .input) :
    ∃ u, w'.Leads (c.insert p n) u ∧ (c.insert p n).next u = x := by
  by_cases hxn : x = n
  · subst hxn
    exact ⟨p, hi.keeps_leads h hi.leads, c.next_insert_before (hi.ne_new h hi.leads.1)⟩
  obtain ⟨y, hy, hyx⟩ := h.onto x (hx.resolve_right hxn) (hi.kind_of_ne hxn ▸ hin)
  by_cases hyp : y = p
  · refine ⟨n, ⟨.inr rfl, fun hk => ?_⟩, ?_⟩
    · have hκ := hi.not_isBoundary
      rw [hi.kind_new] at hk
      rw [Option.some.inj hk] at hκ
      cases hκ
    · rw [c.next_insert_self, ← hyp, hyx]
  · exact ⟨y, hi.keeps_leads h hy, (c.next_insert_of_ne (hi.ne_new h hy.1) hyp).trans hyx⟩

include hw

theorem lt_other (hx : w'.Leads (c.insert p n) x) (hu : 0 < w'.joins ((c.insert p n).next x) u)
    (hux : u ≠ x) : (c.insert p n).rank x < (c.insert p n).rank u := by
  have hpn := hi.ne_new h hi.leads.1
  have hon := hi.ne_new h (h.on_next p hi.leads)
  have hlt := h.lt p hi.leads
  rcases hi.cases_leads hx with rfl | rfl | ⟨hxn, hxp, hx⟩
  · -- the edge there was is gone, so that those next to the one after are further on
    rw [c.next_insert_self] at hu
    have hup : u ≠ p := by
      rintro rfl
      rw [hi.joins_cut hpn hon] at hu
      exact Nat.lt_irrefl 0 hu
    rw [hi.joins_of_ne hon hux fun hs => ?_] at hu
    · have := h.lt_other p hi.leads u hu hup
      rw [c.rank_insert_self, c.rank_insert_of_ne hux]
      omega
    · rcases hs with ⟨he, -⟩ | ⟨-, he⟩
      · exact h.ne_next hi.leads he
      · exact hup he
  · rw [c.next_insert_before hpn, hi.joins_comm hw] at hu
    obtain rfl := (hi.eq_of_joins hw hu).resolve_left hux
    rw [c.rank_insert_of_ne hpn, c.rank_insert_of_ne hon]
    omega
  · have hyn := hi.ne_new h (h.on_next x hx)
    have hyo : c.next x ≠ c.next p := fun he => hxp (h.injective hw hx hi.leads he)
    rw [c.next_insert_of_ne hxn hxp] at hu
    rw [c.rank_insert_of_ne hxn]
    by_cases hun : u = n
    · rw [hun] at hu ⊢
      have hltx := h.lt x hx
      rw [(hi.eq_of_joins hw hu).resolve_right hyo] at hltx
      rw [c.rank_insert_self]
      omega
    · rw [c.rank_insert_of_ne hun]
      have hold : 0 < w.joins (c.next x) u := by
        by_cases hs : SamePair (c.next x) u p (c.next p)
        · obtain ⟨he, rfl⟩ := hs.resolve_right fun hs => hyo hs.1
          rw [he, hi.joins_comm hw, hi.joins_cut hpn hon] at hu
          exact absurd hu (Nat.lt_irrefl 0)
        · rwa [hi.joins_of_ne hyn hun hs] at hu
      have := h.lt_other x hx u hold hux
      omega

end Inserted

namespace Flow

variable (h : w.Flow c) (hw : w.Valid)
include h hw

/-- A new vertex on an edge of the course. -/
theorem insert (hi : w.Inserted w' c p n κ) : w'.Flow (c.insert p n) := by
  refine ⟨fun x hx => ?_, fun x hx => ?_, fun x hx => hi.on_next h hx, fun x hx => hi.joined h hx,
    fun x hx => hi.lt h hx, fun x hx u hu hux => hi.lt_other h hw hx hu hux,
    fun x hx hin => hi.onto h hx hin⟩
  · rcases hx with hx | rfl
    · rw [Has, hi.kind_of_ne (hi.ne_new h hx)]
      exact h.has x hx
    · rw [Has, hi.kind_new]
      rfl
  · by_cases hxn : x = n
    · exact .inl (.inr hxn)
    · rw [Has, hi.kind_of_ne hxn] at hx
      rw [hi.kind_of_ne hxn]
      exact (h.all x hx).imp_left .inl

/-- What comes after a vertex when two are merged. -/
theorem next_merge (he : w.Leads c e)
    (hm : m = e ∧ gone = c.next e ∨ m = c.next e ∧ gone = e) (hv : w.Leads c v) (hve : v ≠ e) :
    (c.merge e m gone).next (if v = gone then m else v) =
      if c.next v = gone then m else c.next v := by
  have hlt := h.lt e he
  have hltv := h.lt v hv
  have hinj : c.next v ≠ c.next e := fun hne => hve (h.injective hw hv he hne)
  simp only [Course.merge]
  rcases hm with ⟨rfl, rfl⟩ | ⟨rfl, rfl⟩
  · by_cases hvl : v = c.next m
    · subst hvl
      simp [hinj]
    · simpa [hvl, hve, hinj] using fun he' : c.next v = m => he'.symm
  · by_cases hvl : v = c.next gone
    · subst hvl
      have hne : c.next (c.next gone) ≠ gone := fun he' => by
        rw [he'] at hltv
        exact Nat.lt_asymm hlt hltv
      simp [hve, hne]
    · simp [hvl, hve]

end Flow

/-! ### Two vertices that become one -/

/-- A diagram in which `m`, which is `e` or the vertex after it, stands for both, and the other one is
    left out. -/
structure Merged (w w' : Web) (c : Course) (e m gone : Vertex) : Prop where
  valid : w'.Valid
  leads : w.Leads c e
  either : m = e ∧ gone = c.next e ∨ m = c.next e ∧ gone = e
  not_isEnd : ¬w.IsEnd gone
  kind_eq : w'.kind = update w.kind gone none
  joins_eq : ∀ a b, a ≠ b → a ≠ gone → b ≠ gone → w'.joins a b = w.joins a b +
    (if a = m then w.joins gone b else 0) + if b = m then w.joins gone a else 0

namespace Merged

variable (hm : w.Merged w' c e m gone) (h : w.Flow c) (hw : w.Valid)

section

include hm

theorem kind_of_ne (hx : x ≠ gone) : w'.kind x = w.kind x := by rw [hm.kind_eq, update_of_ne hx]

theorem not_has_gone : ¬w'.Has gone := fun hx => by
  rw [Has, hm.kind_eq, update_self] at hx
  cases hx

/-- The others are neither of the two. -/
theorem ne_both (hx : x ≠ gone) (hxm : x ≠ m) : x ≠ e ∧ x ≠ c.next e := by
  rcases hm.either with ⟨rfl, rfl⟩ | ⟨rfl, rfl⟩
  · exact ⟨hxm, hx⟩
  · exact ⟨hx, hxm⟩

theorem of_ne_both (hxe : x ≠ e) (hxl : x ≠ c.next e) : x ≠ gone ∧ x ≠ m := by
  rcases hm.either with ⟨rfl, rfl⟩ | ⟨rfl, rfl⟩
  · exact ⟨hxl, hxe⟩
  · exact ⟨hxe, hxl⟩

theorem joins_of_ne (hab : a ≠ b) (ha : a ≠ gone) (ham : a ≠ m) (hb : b ≠ gone) (hbm : b ≠ m) :
    w'.joins a b = w.joins a b := by
  rw [hm.joins_eq a b hab ha hb, if_neg ham, if_neg hbm, Nat.add_zero]

theorem leads_iff : w'.Leads (c.merge e m gone) x ↔ w.Leads c x ∧ x ≠ gone := by
  refine ⟨fun hx => ⟨⟨hx.1.1, ?_⟩, hx.1.2⟩, fun hx => ⟨⟨hx.1.1, hx.2⟩, ?_⟩⟩
  · rw [← hm.kind_of_ne hx.1.2]
    exact hx.2
  · rw [hm.kind_of_ne hx.2]
    exact hx.1.2

end

include hm h

theorem kept_ne : m ≠ gone := by
  have hne := h.ne_next hm.leads
  rcases hm.either with ⟨rfl, rfl⟩ | ⟨rfl, rfl⟩
  · exact hne.symm
  · exact hne

theorem on_kept : c.on m := by
  rcases hm.either with ⟨rfl, -⟩ | ⟨rfl, -⟩
  · exact hm.leads.1
  · exact h.on_next e hm.leads

/-- The one that stays is joined to what either was joined to. -/
theorem joins_kept (hx : x ≠ gone) (hxm : x ≠ m) :
    w'.joins m x = w.joins e x + w.joins (c.next e) x := by
  rw [hm.joins_eq m x (Ne.symm hxm) (hm.kept_ne h) hx, if_pos rfl, if_neg hxm, Nat.add_zero]
  rcases hm.either with ⟨rfl, rfl⟩ | ⟨rfl, rfl⟩
  · rfl
  · exact Nat.add_comm _ _

/-- The later one of the two has one after it if the one that stays has. -/
theorem leads_last (hx : w'.Leads (c.merge e m gone) m) : w.Leads c (c.next e) := by
  refine ⟨h.on_next e hm.leads, fun hk => ?_⟩
  rcases hm.either with ⟨-, rfl⟩ | ⟨rfl, -⟩
  · exact hm.not_isEnd (by rw [IsEnd, hk]; rfl)
  · exact (hm.leads_iff.1 hx).1.2 hk

/-- What comes after the later one is neither of them. -/
theorem next_last (hl : w.Leads c (c.next e)) :
    c.next (c.next e) ≠ gone ∧ c.next (c.next e) ≠ m := by
  refine hm.of_ne_both (fun he => ?_) (h.ne_next hl)
  have hlt := h.lt (c.next e) hl
  rw [he] at hlt
  exact Nat.lt_asymm (h.lt e hm.leads) hlt

/-- The earlier one is not joined to what comes after the later one. -/
theorem joins_next_last (hl : w.Leads c (c.next e)) : w.joins (c.next (c.next e)) e = 0 :=
  h.joins_eq_zero hl (h.lt e hm.leads).le (h.ne_next hm.leads).symm

include hw

/-- The vertices with one after them: the one that stays, the one before it, and the others. -/
theorem cases_leads (hx : w'.Leads (c.merge e m gone) x) :
    x = m ∧ w.Leads c (c.next e) ∨ w.Leads c x ∧ x ≠ gone ∧ x ≠ m ∧
      (c.next x = e ∨ c.next x ≠ e ∧ c.next x ≠ gone ∧ c.next x ≠ m) := by
  by_cases hxm : x = m
  · subst hxm
    exact .inl ⟨rfl, hm.leads_last h hx⟩
  obtain ⟨hx', hxg⟩ := hm.leads_iff.1 hx
  refine .inr ⟨hx', hxg, hxm, or_iff_not_imp_left.2 fun hxe => ⟨hxe, hm.of_ne_both hxe fun hxl => ?_⟩⟩
  exact (hm.ne_both hxg hxm).1 (h.injective hw hx' hm.leads hxl)

theorem on_next (hx : w'.Leads (c.merge e m gone) x) :
    (c.merge e m gone).on ((c.merge e m gone).next x) := by
  rcases hm.cases_leads h hw hx with ⟨rfl, hl⟩ | ⟨hx', hxg, hxm, hxe | ⟨hxe, hyg, -⟩⟩
  · rw [c.next_merge_self]
    exact ⟨h.on_next _ hl, (hm.next_last h hl).1⟩
  · rw [c.next_merge_before hxm hxe]
    exact ⟨hm.on_kept h, hm.kept_ne h⟩
  · rw [c.next_merge_of_ne hxm hxe]
    exact ⟨h.on_next x hx', hyg⟩

theorem joined (hx : w'.Leads (c.merge e m gone) x) :
    w'.joins x ((c.merge e m gone).next x) = 1 := by
  rcases hm.cases_leads h hw hx with ⟨rfl, hl⟩ | ⟨hx', hxg, hxm, hxe | ⟨hxe, hyg, hym⟩⟩
  · obtain ⟨hzg, hzm⟩ := hm.next_last h hl
    rw [c.next_merge_self, hm.joins_kept h hzg hzm, hw.joins_comm e, hm.joins_next_last h hl,
      h.joined _ hl]
  · -- only the earlier one of the two is joined to the one before it
    have hzero : w.joins (c.next e) x = 0 :=
      h.joins_eq_zero hm.leads (hxe ▸ h.lt x hx').le (hm.ne_both hxg hxm).1
    have hone := h.joined x hx'
    rw [hxe, hw.joins_comm] at hone
    rw [c.next_merge_before hxm hxe, hm.valid.joins_comm, hm.joins_kept h hxg hxm, hone, hzero]
  · rw [c.next_merge_of_ne hxm hxe, hm.joins_of_ne (h.ne_next hx').symm hxg hxm hyg hym,
      h.joined x hx']

theorem lt (hx : w'.Leads (c.merge e m gone) x) :
    (c.merge e m gone).rank x < (c.merge e m gone).rank ((c.merge e m gone).next x) := by
  rcases hm.cases_leads h hw hx with ⟨rfl, hl⟩ | ⟨hx', hxg, hxm, hxe | ⟨hxe, hyg, hym⟩⟩
  · rw [c.next_merge_self, c.rank_merge_self, c.rank_merge_of_ne (hm.next_last h hl).2]
    exact h.lt _ hl
  · rw [c.next_merge_before hxm hxe, c.rank_merge_self, c.rank_merge_of_ne hxm]
    exact (hxe ▸ h.lt x hx').trans (h.lt e hm.leads)
  · rw [c.next_merge_of_ne hxm hxe, c.rank_merge_of_ne hxm, c.rank_merge_of_ne hym]
    exact h.lt x hx'

theorem lt_other (hx : w'.Leads (c.merge e m gone) x)
    (hu : 0 < w'.joins ((c.merge e m gone).next x) u) (hux : u ≠ x) :
    (c.merge e m gone).rank x < (c.merge e m gone).rank u := by
  have hug : u ≠ gone := fun he => hm.not_has_gone (he ▸ (hm.valid.has_of_joins hu).2)
  have hne : (c.merge e m gone).next x ≠ u := fun he => by
    rw [he, hm.valid.joins_self] at hu
    exact Nat.lt_irrefl 0 hu
  rcases hm.cases_leads h hw hx with ⟨rfl, hl⟩ | ⟨hx', hxg, hxm, hxe | ⟨hxe, hyg, hym⟩⟩
  · obtain ⟨hzg, hzm⟩ := hm.next_last h hl
    rw [c.next_merge_self] at hu hne
    rw [hm.joins_of_ne hne hzg hzm hug hux] at hu
    rw [c.rank_merge_self, c.rank_merge_of_ne hux]
    exact h.lt_other _ hl u hu (hm.ne_both hug hux).2
  · rw [c.next_merge_before hxm hxe] at hu hne
    rw [hm.joins_kept h hug hne.symm] at hu
    rw [c.rank_merge_of_ne hxm, c.rank_merge_of_ne hne.symm]
    rcases Nat.eq_zero_or_pos (w.joins e u) with hzero | hpos
    · rw [hzero, Nat.zero_add] at hu
      exact (hxe ▸ h.lt x hx').trans (h.lt_other e hm.leads u hu (hm.ne_both hug hne.symm).1)
    · exact h.lt_other x hx' u (hxe ▸ hpos) hux
  · rw [c.next_merge_of_ne hxm hxe] at hu hne
    rw [c.rank_merge_of_ne hxm]
    by_cases hum : u = m
    · obtain ⟨hxe', hxl⟩ := hm.ne_both hxg hxm
      rw [hum, hm.valid.joins_comm, hm.joins_kept h hyg hym, hw.joins_comm e,
        hw.joins_comm (c.next e)] at hu
      rw [hum, c.rank_merge_self]
      rcases Nat.eq_zero_or_pos (w.joins (c.next x) e) with hzero | hpos
      · rw [hzero, Nat.zero_add] at hu
        exact h.lt_other x hx' (c.next e) hu (Ne.symm hxl)
      · exact (h.lt_other x hx' e hpos (Ne.symm hxe')).trans (h.lt e hm.leads)
    · rw [hm.joins_of_ne hne hyg hym hug hum] at hu
      rw [c.rank_merge_of_ne hum]
      exact h.lt_other x hx' u hu hux

omit hw

/-- What comes before the earlier one comes before the one that stays. -/
theorem exists_before_kept (hin : w'.kind m ≠ some .input) :
    ∃ u, w'.Leads (c.merge e m gone) u ∧ (c.merge e m gone).next u = m := by
  have hin' : w.kind e ≠ some .input := by
    rw [hm.kind_of_ne (hm.kept_ne h)] at hin
    rcases hm.either with ⟨rfl, -⟩ | ⟨-, rfl⟩
    · exact hin
    · exact fun hk => hm.not_isEnd (by rw [IsEnd, hk]; rfl)
  obtain ⟨y, hy, hye⟩ := h.onto e hm.leads.1 hin'
  have hlt := h.lt y hy
  rw [hye] at hlt
  obtain ⟨hyg, hym⟩ := hm.of_ne_both (fun he => Nat.lt_irrefl _ (he ▸ hlt))
    fun hl => Nat.lt_asymm (hl ▸ hlt) (h.lt e hm.leads)
  exact ⟨y, hm.leads_iff.2 ⟨hy, hyg⟩, c.next_merge_before hym hye⟩

theorem onto (hx : (c.merge e m gone).on x) (hin : w'.kind x ≠ some .input) :
    ∃ u, w'.Leads (c.merge e m gone) u ∧ (c.merge e m gone).next u = x := by
  by_cases hxm : x = m
  · subst hxm
    exact hm.exists_before_kept h hin
  obtain ⟨hxe, hxl⟩ := hm.ne_both hx.2 hxm
  obtain ⟨y, hy, hyx⟩ := h.onto x hx.1 (hm.kind_of_ne hx.2 ▸ hin)
  by_cases hyl : y = c.next e
  · refine ⟨m, ⟨⟨hm.on_kept h, hm.kept_ne h⟩, ?_⟩, ?_⟩
    · rw [hm.kind_of_ne (hm.kept_ne h)]
      rcases hm.either with ⟨rfl, -⟩ | ⟨rfl, -⟩
      · exact hm.leads.2
      · exact hyl ▸ hy.2
    · rw [c.next_merge_self, ← hyl, hyx]
  · obtain ⟨hyg, hym⟩ := hm.of_ne_both (fun he => hxl (hyx.symm.trans (he ▸ rfl))) hyl
    exact ⟨y, hm.leads_iff.2 ⟨hy, hyg⟩, (c.next_merge_of_ne hym (hyx ▸ hxe)).trans hyx⟩

end Merged

namespace Flow

variable (h : w.Flow c) (hw : w.Valid)
include h hw

/-- Two vertices one after the other become one. -/
theorem merge (hm : w.Merged w' c e m gone) : w'.Flow (c.merge e m gone) := by
  refine ⟨fun x hx => ?_, fun x hx => ?_, fun x hx => hm.on_next h hw hx,
    fun x hx => hm.joined h hw hx, fun x hx => hm.lt h hw hx,
    fun x hx u hu hux => hm.lt_other h hw hx hu hux, fun x hx hin => hm.onto h hx hin⟩
  · rw [Has, hm.kind_of_ne hx.2]
    exact h.has x hx.1
  · have hxg : x ≠ gone := fun he => hm.not_has_gone (he ▸ hx)
    rw [Has, hm.kind_of_ne hxg] at hx
    rw [hm.kind_of_ne hxg]
    exact (h.all x hx).imp_left fun hx => ⟨hx, hxg⟩

end Flow

end Web

end ZXRewriting
