import ZXRewriting.Proofs.Diagram.Laid
import ZXRewriting.Proofs.GraphLike.OfDiagram

/-!
# The flow of a graph-like diagram

The conversion to graph-like form keeps a causal flow. A box on the course is merged with the vertex
before it, and one beside the course becomes an edge between vertices that come after those before
its ends (`Laid.exists_unbox`). Spiders that are fused come one after the other
(`Laid.exists_takeIn`), and cancelling parallel edges takes none off the course.

So the graph-like form of the diagram of a circuit has a causal flow
(`GraphLike.exists_ofDiagram_flow`).
-/

namespace ZXRewriting

open Function (update update_self update_of_ne)
open Multigraph (SamePair)

namespace Web

variable {w w' : Web} {c : Course} {a b h s t u v x : Vertex} {k k₁ k₂ : EdgeKind}

/-! ### Boxes -/

theorem Valid.joins_unbox_other (hw : w.Valid) (hst : ¬SamePair s t a b) :
    (w.unbox h a b k).joins s t = if s = h ∨ t = h then 0 else w.joins s t := by
  rw [hw.joins_unbox, if_neg (fun hc => hst hc.2 : ¬(a ≠ b ∧ SamePair s t a b)), Nat.add_zero]

theorem Valid.count_unbox_other (hw : w.Valid) (hst : ¬SamePair s t a b) {k' : EdgeKind} :
    (w.unbox h a b k).count s t k' = if s = h ∨ t = h then 0 else w.count s t k' := by
  rw [hw.count_unbox, if_neg (fun hc => hst hc.2.1 : ¬(a ≠ b ∧ SamePair s t a b ∧ k = k')),
    Nat.add_zero]

/-- Boxes beside the course that the new edge does not lead to stay as they are. -/
theorem Laid.beside_unbox (hl : w.Laid c) (hw : w.Valid)
    (hk : (w.unbox h a b k).kind v = some .box) (hoff : ¬c.on v) (hnew : ¬SamePair v u a b)
    (hj : 0 < (w.unbox h a b k).joins v u) : (w.unbox h a b k).IsZ u ∧
      (w.unbox h a b k).count v u .hadamard = 0 ∧ c.rank v ≤ c.rank u := by
  obtain ⟨hk, hvh⟩ := isBox_unbox.1 hk
  have huh : u ≠ h := by
    rintro rfl
    rw [hw.joins_unbox_other hnew, if_pos (.inr rfl)] at hj
    exact Nat.lt_irrefl 0 hj
  have hneg := not_or.2 ⟨hvh, huh⟩
  rw [hw.joins_unbox_other hnew, if_neg hneg] at hj
  obtain ⟨hz, hplain, hrank⟩ := hl.beside v u hk hoff hj
  refine ⟨?_, ?_, hrank⟩
  · rw [IsZ, kind_unbox, update_of_ne huh]
    exact hz
  · rw [hw.count_unbox_other hnew, if_neg hneg]
    exact hplain

section Unbox

variable (hl : w.Laid c) (hw : w.Valid) (hbox : w.kind h = some .box)
  (hends : w.EndsAre h [(a, k₁), (b, k₂)])
include hl hw hbox hends

/-- The ends of a box on the course are the vertices before and after it. -/
theorem Laid.exists_before (hon : c.on h) : ∃ p, w.Leads c p ∧ c.next p = h ∧
    (a = p ∧ b = c.next h ∨ a = c.next h ∧ b = p) ∧ a ≠ b := by
  obtain ⟨p, hp, hph⟩ := hl.onto h hon (by rw [hbox]; simp)
  have hh : w.Leads c h := ⟨hon, by rw [hbox]; simp⟩
  have hpn : p ≠ c.next h := fun he =>
    Nat.lt_asymm (hph ▸ hl.lt p hp) (he ▸ hl.lt h hh)
  have hjh := joins_of_endsAre hends
  have hp₁ := hl.joined p hp
  have hn₁ := hl.joined h hh
  rw [hph, hw.joins_comm, hjh] at hp₁
  rw [hjh] at hn₁
  refine ⟨p, hp, hph, ?_, ?_⟩ <;> grind

omit hl in
theorem Valid.merged_unbox {p : Vertex} (hp : w.Leads c p) (hph : c.next p = h) (hab : a ≠ b)
    (hpair : a = p ∨ b = p) : w.Merged (w.unbox h a b k) c p p h := by
  have hjh := joins_of_endsAre hends
  have ha := hw.has_of_endsAre hends List.mem_cons_self
  have hb := hw.has_of_endsAre hends (List.mem_cons_of_mem _ List.mem_cons_self)
  refine ⟨hw.unbox ha.1 hb.1 ha.2 hb.2, hp, .inl ⟨rfl, hph.symm⟩, not_isEnd_of_kind hbox rfl,
    kind_unbox, fun s t hst hs ht => ?_⟩
  rw [hw.joins_unbox, if_neg (not_or.2 ⟨hs, ht⟩), hjh, hjh]
  simp only [ne_eq, hab, not_false_eq_true, true_and, SamePair]
  grind

/-- A box on the course is merged with the vertex before it. -/
theorem Laid.exists_unbox_on (hon : c.on h) : ∃ c', (w.unbox h a b k).Laid c' := by
  obtain ⟨p, hp, hph, hpair, hab⟩ := hl.exists_before hw hbox hends hon
  have hmerged : w.Merged (w.unbox h a b k) c p p h :=
    hw.merged_unbox hbox hends hp hph hab (hpair.imp And.left And.right)
  have hsame (s t : Vertex) : SamePair s t a b ↔ SamePair s t p (c.next h) := by
    rcases hpair with ⟨rfl, rfl⟩ | ⟨rfl, rfl⟩
    · rfl
    · simp only [SamePair]
      tauto
  refine ⟨c.merge p p h, ⟨hl.merge hw hmerged, fun s t k' hk hs ht he => ?_,
    fun h' u hk hoff hj => ?_⟩⟩
  · have hold {x : Vertex} (hx : (w.unbox h a b k).IsColoured x) : x ≠ h ∧ w.IsColoured x := by
      have hxh : x ≠ h := by
        rintro rfl
        rw [IsColoured, kind_unbox, update_self] at hx
        cases hx
      rw [IsColoured, kind_unbox, update_of_ne hxh] at hx
      exact ⟨hxh, hx⟩
    obtain ⟨hsh, hs⟩ := hold hs
    obtain ⟨hth, ht⟩ := hold ht
    rw [kind_unbox, update_of_ne hsh, update_of_ne hth] at he
    have hnextp : (c.merge p p h).next p = c.next h := by rw [c.next_merge_self, hph]
    by_cases hnew : SamePair s t a b
    · rcases (hsame s t).1 hnew with ⟨rfl, rfl⟩ | ⟨rfl, rfl⟩
      · exact .inl hnextp
      · exact .inr hnextp
    · rw [hw.count_unbox_other hnew, if_neg (not_or.2 ⟨hsh, hth⟩)] at hk
      have hkeep {x y : Vertex} (hx : w.IsColoured x) (hxh : x ≠ h) (hyh : y ≠ h)
          (hxy : c.next x = y) : (c.merge p p h).next x = y := by
        have hxp : x ≠ p := by
          rintro rfl
          exact hyh (hxy.symm.trans hph)
        have := hl.next_merge hw hp (.inl ⟨rfl, hph.symm⟩) (hl.leads_of_isColoured hx) hxp
        rwa [if_neg hxh, hxy, if_neg hyh] at this
      exact (hl.along s t k' hk hs ht he).imp (hkeep hs hsh hth) (hkeep ht hth hsh)
  · have hoff' : ¬c.on h' := fun hc => hoff ⟨hc, (isBox_unbox.1 hk).2⟩
    have hnew : ¬SamePair h' u a b := fun hc => by
      rcases (hsame h' u).1 hc with ⟨rfl, -⟩ | ⟨rfl, -⟩
      · exact hoff' hp.1
      · exact hoff' (hl.on_next h ⟨hon, by rw [hbox]; simp⟩)
    obtain ⟨hz, hplain, hrank⟩ := hl.beside_unbox hw hk hoff' hnew hj
    refine ⟨hz, hplain, ?_⟩
    have hh'p : h' ≠ p := fun he => hoff' (he ▸ hp.1)
    simp only [Course.merge, update_of_ne hh'p, hph]
    by_cases hup : u = p
    · rw [hup, update_self]
      have hltp := hl.lt p hp
      rw [hph] at hltp
      exact (hup ▸ hrank).trans hltp.le
    · rwa [update_of_ne hup]

/-- A box beside the course becomes an edge. -/
theorem Laid.unbox_off (hoff : ¬c.on h) :
    (w.unbox h a b (k₁.merge k₂).opposite).Laid c := by
  have hjh := joins_of_endsAre hends
  obtain ⟨hza, hka, hra⟩ := hl.beside h a hbox hoff (by rw [hjh, if_pos rfl]; omega)
  obtain ⟨hzb, hkb, hrb⟩ := hl.beside h b hbox hoff (by rw [hjh, if_pos rfl]; omega)
  -- the edges of the box are plain, so that the new one is not
  have hk : (k₁.merge k₂).opposite = .hadamard := by
    rw [endsAre_pair.1 hends] at hka hkb
    cases k₁ <;> cases k₂ <;> simp_all [EdgeKind.merge, EdgeKind.opposite]
  have hold {v : Vertex} (hv : v ≠ h) : (w.unbox h a b (k₁.merge k₂).opposite).kind v = w.kind v := by
    rw [kind_unbox, update_of_ne hv]
  have hon {v : Vertex} (hv : c.on v) : v ≠ h := fun he => hoff (he ▸ hv)
  have hgone {v : Vertex} (hv : (w.unbox h a b (k₁.merge k₂).opposite).Has v) : v ≠ h :=
    (has_unbox.1 hv).2
  -- the vertex before an end comes before the box, and so before the other end
  have hbefore {v u : Vertex} (hv : w.Leads c v) (hvu : SamePair (c.next v) u a b) :
      c.rank v < c.rank u := by
    have hvh : h ≠ v := fun he => hoff (he ▸ hv.1)
    rcases hvu with ⟨he, rfl⟩ | ⟨he, rfl⟩
    · refine (hl.lt_other v hv h ?_ hvh).trans_le hrb
      rw [he, hw.joins_comm, hjh, if_pos rfl]
      omega
    · refine (hl.lt_other v hv h ?_ hvh).trans_le hra
      rw [he, hw.joins_comm, hjh, if_pos rfl]
      omega
  refine ⟨hl.congr rfl rfl (fun v hv => .inl (hold (hon hv))) (fun v hv => ?_) (fun v hv => ?_)
    hl.lt fun v hv u hu huv => ?_, fun s t k' hk' hs ht he => ?_, fun h' u hk' hoff' hj => ?_⟩
  · have hvh := hgone hv
    rw [hold hvh]
    exact hl.all v (has_unbox.1 hv).1
  · rw [hw.joins_unbox_other, if_neg (not_or.2 ⟨hon hv.1, hon (hl.on_next v hv)⟩)]
    · exact hl.joined v hv
    · intro hc
      exact Nat.lt_irrefl _ (hbefore hv (by rw [SamePair] at hc ⊢; tauto))
  · by_cases hnew : SamePair (c.next v) u a b
    · exact hbefore hv hnew
    · rw [hw.joins_unbox_other hnew] at hu
      split at hu
      · exact absurd hu (Nat.lt_irrefl 0)
      · exact hl.lt_other v hv u hu huv
  · have hsh := hgone hs.has
    have hth := hgone ht.has
    rw [IsColoured, hold hsh] at hs
    rw [IsColoured, hold hth] at ht
    rw [hold hsh, hold hth] at he
    rw [hw.count_unbox, if_neg (not_or.2 ⟨hsh, hth⟩), hk] at hk'
    split at hk'
    · next hnew =>
      -- the new edge is between Z spiders
      have hkind : w.kind s = w.kind t := by
        rcases hnew.2.1 with ⟨rfl, rfl⟩ | ⟨rfl, rfl⟩
        · exact hza.trans hzb.symm
        · exact hzb.trans hza.symm
      exact absurd (hnew.2.2.trans (he.2 hkind)) (by decide)
    · exact hl.along s t k' hk' hs ht he
  · have hh' : h' ≠ h := hgone (has_of_kind hk')
    refine hl.beside_unbox hw hk' hoff' ?_ hj
    rw [hold hh'] at hk'
    rintro (⟨rfl, -⟩ | ⟨rfl, -⟩)
    · rw [hza] at hk'
      cases hk'
    · rw [hzb] at hk'
      cases hk'

/-- Taking a box out leaves a flow. -/
theorem Laid.exists_unbox : ∃ c', (w.unbox h a b (k₁.merge k₂).opposite).Laid c' := by
  by_cases hon : c.on h
  · exact hl.exists_unbox_on hw hbox hends hon
  · exact ⟨c, hl.unbox_off hw hbox hends hon⟩

end Unbox

/-! ### Colours -/

theorem joins_flip : (w.flip v).joins s t = w.joins s t := by
  rw [joins, joins, count_flip, count_flip]
  split
  · exact Nat.add_comm _ _
  · rfl

theorem isColoured_flip {κ : SpiderKind} (hk : w.kind v = some κ) (hκ : κ.isPhased = true) :
    (w.flip v).IsColoured x ↔ w.IsColoured x := by
  rw [IsColoured, IsColoured, kind_flip, kindAt_eq hk, Function.update_apply]
  split
  · next h => simp [h, hk, hκ]
  · rfl

/-- No box comes up. -/
theorem isBox_of_flip {κ : SpiderKind} (hk : w.kind v = some κ) (hκ : κ.isPhased = true)
    (h : (w.flip v).kind x = some .box) : w.kind x = some .box := by
  rw [kind_flip, kindAt_eq hk, Function.update_apply] at h
  split at h
  · have hopp := congrArg SpiderKind.isPhased (Option.some.inj h)
    rw [SpiderKind.isPhased_opposite, hκ] at hopp
    cases hopp
  · exact h

/-- An edge and a spider of the other kind each. -/
theorem opposite_iff {κ κ' : SpiderKind} (hκ : κ.isPhased = true) (hκ' : κ'.isPhased = true) :
    (k.opposite = .plain ↔ κ.opposite = κ') ↔ (k = .plain ↔ κ = κ') := by
  cases κ <;> cases κ' <;> cases hκ <;> cases hκ' <;> cases k <;> decide

/-- Changing the colour of a spider changes nothing on the course. -/
theorem Laid.flip {κ : SpiderKind} (hl : w.Laid c) (hw : w.Valid) (hk : w.kind v = some κ)
    (hκ : κ.isPhased = true) (hnone : ∀ h, w.kind h ≠ some .box) : (w.flip v).Laid c := by
  have hcol {x : Vertex} : (w.flip v).IsColoured x ↔ w.IsColoured x := isColoured_flip hk hκ
  have hv : w.IsColoured v := by rw [IsColoured, hk]; exact hκ
  refine ⟨hl.of_fewer (fun x => ?_) (fun x hx => joins_flip.trans (hl.joined x hx))
    fun s t h => joins_flip ▸ h, fun s t k' hk' hs ht he => ?_, fun h u hbox => ?_⟩
  · by_cases hx : x = v
    · exact .inr ⟨hx ▸ hv, hcol.2 (hx ▸ hv)⟩
    · exact .inl (by rw [kind_flip, update_of_ne hx])
  · rw [hcol] at hs ht
    obtain ⟨κs, hκs⟩ := Option.isSome_iff_exists.1 hs.has
    obtain ⟨κt, hκt⟩ := Option.isSome_iff_exists.1 ht.has
    have hps : κs.isPhased = true := by rwa [IsColoured, hκs] at hs
    have hpt : κt.isPhased = true := by rwa [IsColoured, hκt] at ht
    refine hl.along s t _ hk' (hcol.1 (hcol.2 hs)) ht ?_
    rw [hκs, hκt, Option.some_inj]
    have hst : s ≠ t := by
      rintro rfl
      rw [(hw.flip hv.has).self] at hk'
      exact Nat.lt_irrefl 0 hk'
    by_cases hsv : s = v
    · have htv : t ≠ v := fun h => hst (hsv.trans h.symm)
      rw [kind_flip, hsv, update_self, update_of_ne htv, kindAt_eq (hsv ▸ hκs), hκt,
        Option.some_inj] at he
      rw [if_pos (.inl hsv), ← opposite_iff hps hpt, EdgeKind.opposite_opposite]
      exact he
    by_cases htv : t = v
    · rw [kind_flip, htv, update_self, update_of_ne hsv, kindAt_eq (htv ▸ hκt), hκs,
        Option.some_inj] at he
      rw [if_pos (.inr htv), eq_comm (a := κs), ← opposite_iff hpt hps, EdgeKind.opposite_opposite,
        eq_comm (b := κs)]
      exact he
    · rw [kind_flip, update_of_ne hsv, update_of_ne htv, hκs, hκt, Option.some_inj] at he
      rwa [if_neg (not_or.2 ⟨hsv, htv⟩)]
  · exact absurd (isBox_of_flip hk hκ hbox) (hnone h)

/-! ### Fusion -/

/-- Fusing a spider into one that comes before or after it. -/
theorem Laid.exists_takeIn {links : List Link} (hl : w.Laid c) (hw : w.Framed) (hv : w.IsZ v)
    (hu : w.IsZ u) (hne : v ≠ u) (hlinks : w.LinksAre u links) (hplain : 0 < w.count u v .plain)
    (hnone : ∀ h, w.kind h ≠ some .box) : ∃ c', (w.takeIn v u links).Laid c' := by
  have hval := hw.valid
  have hcount (a b : Vertex) (k : EdgeKind) : (w.takeIn v u links).count a b k = _ :=
    hlinks.count_takeIn hval hv a b k
  have hlu := hl.leads_of_isColoured hu.isColoured
  have hlv := hl.leads_of_isColoured hv.isColoured
  -- the earlier one of the two
  obtain ⟨e, he, hm, heq⟩ : ∃ e, w.Leads c e ∧
      (v = e ∧ u = c.next e ∨ v = c.next e ∧ u = e) ∧ (e = u ∧ c.next e = v ∨ e = v ∧ c.next e = u) := by
    rcases hl.along u v .plain hplain hu.isColoured hv.isColoured
      (iff_of_true rfl (hu.trans hv.symm)) with h | h
    · exact ⟨u, hlu, .inr ⟨h.symm, rfl⟩, .inl ⟨rfl, h⟩⟩
    · exact ⟨v, hlv, .inl ⟨rfl, h.symm⟩, .inr ⟨rfl, h⟩⟩
  have hold {x : Vertex} (hx : (w.takeIn v u links).IsColoured x) : x ≠ u ∧ w.IsColoured x := by
    have hxu := (has_takeIn.1 hx.has).2
    rw [IsColoured, kind_takeIn, update_of_ne hxu] at hx
    exact ⟨hxu, hx⟩
  have hafter {x y : Vertex} (hx : w.IsColoured x) (hpair : ¬SamePair x y u v)
      (hxy : c.next x = y) : (c.merge e v u).next (if x = u then v else x) = if y = u then v else y := by
    subst hxy
    refine hl.next_merge hval he hm (hl.leads_of_isColoured hx) fun hxe => hpair ?_
    subst hxe
    exact heq
  -- two that came one after the other still do
  have hkeep {x y : Vertex} {k : EdgeKind} (hk : 0 < w.count x y k) (hx : w.IsColoured x)
      (hy : w.IsColoured y) (hpair : ¬SamePair x y u v) (hxy : k = .plain ↔ w.kind x = w.kind y) :
      (c.merge e v u).next (if x = u then v else x) = (if y = u then v else y) ∨
        (c.merge e v u).next (if y = u then v else y) = if x = u then v else x :=
    (hl.along x y k hk hx hy hxy).imp (hafter hx hpair)
      (hafter hy fun h => hpair (by rw [SamePair] at h ⊢; tauto))
  refine ⟨c.merge e v u, ⟨hl.merge hval ⟨(hlinks.hung_takeIn hv hu hne hw.toHung).valid, he, hm,
    hu.not_isEnd, kind_takeIn, fun a b hab ha hb => ?_⟩, fun s t k hk hs ht hst => ?_, fun h x hbox => ?_⟩⟩
  · rw [joins, joins, joins, joins, hcount, hcount]
    grind
  · obtain ⟨hsu, hcs⟩ := hold hs
    obtain ⟨htu, hct⟩ := hold ht
    rw [kind_takeIn, update_of_ne hsu, update_of_ne htu] at hst
    rw [hcount, if_neg (not_or.2 ⟨hsu, htu⟩)] at hk
    rcases Nat.eq_zero_or_pos (w.count s t k) with hzero | hpos
    · rw [hzero, Nat.zero_add] at hk
      split at hk
      · next h =>
        obtain ⟨rfl, htv⟩ := h
        have := hkeep hk hu.isColoured hct (by simp only [SamePair]; tauto)
          (by rw [hst, hv.trans hu.symm])
        rwa [if_pos rfl, if_neg htu] at this
      · split at hk
        · next h =>
          obtain ⟨rfl, hsv⟩ := h
          have := hkeep hk hu.isColoured hcs (by simp only [SamePair]; tauto)
            (by rw [hst, eq_comm, hv.trans hu.symm])
          rw [if_pos rfl, if_neg hsu] at this
          exact this.symm
        · exact absurd hk (Nat.lt_irrefl 0)
    · have := hkeep hpos hcs hct (by simp only [SamePair]; tauto) hst
      rwa [if_neg hsu, if_neg htu] at this
  · have hxu := (has_takeIn.1 (has_of_kind hbox)).2
    rw [kind_takeIn, update_of_ne hxu] at hbox
    exact absurd hbox (hnone h)

/-! ### Parallel edges -/

/-- Cancelling parallel edges takes none off the course. -/
theorem Flow.reduced (hf : w.Flow c) : w.reduced.Flow c := by
  have hjoins (s t : Vertex) : w.reduced.joins s t =
      w.count s t .plain + w.count s t .hadamard % 2 := rfl
  refine hf.of_fewer (fun _ => .inl rfl) (fun v hv => ?_) fun s t h => ?_
  · have := hf.joined v hv
    rw [joins] at this
    rw [hjoins]
    omega
  · rw [hjoins] at h
    rw [joins]
    omega

end Web

namespace GraphLike

variable {g : GraphLike} {d : Diagram} {c : Course}

open Web

/-- A diagram without boxes on the way to graph-like form, with a flow. -/
structure Flowing (g : GraphLike) : Prop where
  coherent : g.Coherent
  framed : g.web.Framed
  noBox : ∀ h, g.web.kind h ≠ some .box
  laid : ∃ c, g.web.Laid c

theorem lasting_flowing : Lasting Flowing where
  coherent _ h := h.coherent
  recolour g g' v h hx _ hg' hw' := by
    obtain ⟨c, hl⟩ := h.laid
    refine ⟨hg', hw' ▸ h.framed.flip hx rfl, fun b hb => ?_, c,
      hw' ▸ hl.flip h.coherent.valid hx rfl h.noBox⟩
    rw [hw'] at hb
    exact h.noBox b (isBox_of_flip hx rfl hb)
  fuseInto g g' v u links h hv hu hne hlinks hpos _ hg' hw' := by
    obtain ⟨c, hl⟩ := h.laid
    obtain ⟨c', hl'⟩ := hl.exists_takeIn h.framed hv hu hne hlinks hpos h.noBox
    refine ⟨hg', hw' ▸ hlinks.framed_takeIn hv hu hne h.framed, fun b hb => ?_, c', hw' ▸ hl'⟩
    rw [hw'] at hb
    have hbu := (has_takeIn.1 (has_of_kind hb)).2
    rw [kind_takeIn, update_of_ne hbu] at hb
    exact h.noBox b hb

/-- The graph-like form of a diagram that is drawn from a circuit has a flow. -/
theorem exists_ofDiagram_flow (hd : d.Coherent) (hw : d.web.Drawn) (hl : d.web.Laid c) :
    ∃ g, ofDiagram d = .ok g ∧ g.Coherent ∧ g.web.InForm ∧ ∃ c', g.web.Flow c' := by
  obtain ⟨g₁, hok₁, hg₁, -, hk₁, hc₁, hin₁, hout₁, -⟩ := exists_start hd
  have hsame : Web.SameEnds d.web g₁.web := fun v => .inl (congrFun hk₁ v)
  have hhung : g₁.web.Hung :=
    hw.framed.toHung.of_ends hg₁.valid hsame fun t u k _ htu => ⟨u, k, fun x k' => by
      rw [hc₁]
      exact htu x k'⟩
  have hline : g₁.web.BoxesInLine := fun h hh => by
    rw [hk₁] at hh ⊢
    obtain ⟨a, k₁, b, k₂, hends, hb⟩ := hw.boxesInLine h hh
    exact ⟨a, k₁, b, k₂, fun x k => by rw [hc₁, hends], hb⟩
  have hcount (a b : Vertex) (k : EdgeKind) : g₁.web.count a b k = d.web.count a b k := by
    rw [hc₁]
  have hlaid := hl.relabel 1 (fun v => congrFun hk₁ v) hcount
  obtain ⟨g₂, hok₂, ⟨hg₂, hf₂, -, hl₂⟩, hbox₂⟩ := GraphLike.exists_removeBoxes
    (P := fun g => g.Coherent ∧ g.web.Framed ∧ g.web.BoxesInLine ∧ ∃ c, g.web.Laid c)
    (fun _ h => h.1) (fun g h hinv hbox hmin => by
      obtain ⟨hg, hf, hline, c, hl⟩ := hinv
      obtain ⟨a, k₁, b, k₂, g', hends, hok, hg', hw', -⟩ := exists_removeBox_inLine hg hline hbox
      refine ⟨g', hok, ⟨hg', ?_, ?_, ?_⟩, fun v => ?_⟩ <;> rw [hw']
      · exact hf.unbox hends hbox
      · exact hf.boxesInLine_unbox hends hline hbox hmin
      · exact hl.exists_unbox hg.valid hbox hends
      · exact Web.isBox_unbox)
    ⟨hg₁, hw.framed.of_hung hhung hin₁ hout₁ hsame, hline, _, hlaid⟩
  obtain ⟨g, g', hok, hs, hu, hclear, hg', hw', -⟩ :=
    lasting_flowing.exists_reduced hok₁ hok₂ ⟨hg₂, hf₂, hbox₂, hl₂⟩ hbox₂
  obtain ⟨c', hl'⟩ := hs.laid
  refine ⟨g', hok, hg', ?_, c', ?_⟩
  · rw [hw']
    exact hs.framed.inForm_reduced hu hclear
  · rw [hw']
    exact hl'.toFlow.reduced

end GraphLike

end ZXRewriting
