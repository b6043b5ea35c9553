import ZXRewriting.Proofs.Diagram.Circuits
import ZXRewriting.Proofs.Diagram.Flow

/-!
# The flow of a circuit

The diagram that is drawn from a circuit has a causal flow along its wires (`Puts.exists_laid`). Each
gate keeps it: a spider is put onto a wire where it ends, and the edge or the box between the spiders
of two wires joins vertices that come last on their wires, whose ranks can be raised at will
(`Flow.exists_raised`).

The flow is one in which spiders that can be fused come one after the other (`Web.Laid`).
-/

namespace ZXRewriting

open Function (update update_self update_of_ne)
open Multigraph (SamePair)

namespace Course

/-- The same course with other names for the vertices. -/
def relabel (c : Course) (σ : Equiv.Perm Vertex) : Course where
  on v := c.on (σ v)
  next v := σ.symm (c.next (σ v))
  rank v := c.rank (σ v)

end Course

namespace Web

variable {w w' : Web} {c : Course} {a b h o o' s t u u' v x : Vertex} {k : EdgeKind}
  {κ : SpiderKind} {p : Phase}

/-! ### Ends and names -/

/-- What an output is tied to comes before it. -/
theorem Flow.of_tied (hf : w.Flow c) (hw : w.Valid) (ho : w.kind o = some .output)
    (ht : w.Tied o u) : w.Leads c u ∧ c.next u = o := by
  have hon : c.on o := (hf.all o (has_of_kind ho)).resolve_right fun hk => by
    rw [ho] at hk
    cases hk
  obtain ⟨v, hv, hvo⟩ := hf.onto o hon (by rw [ho]; simp)
  have hone := hf.joined v hv
  rw [hvo, hw.joins_comm, ht.joins] at hone
  obtain rfl : v = u := by
    by_contra hne
    rw [if_neg hne] at hone
    exact Nat.zero_ne_one hone
  exact ⟨hv, hvo⟩

theorem Flow.relabel (hf : w.Flow c) (σ : Equiv.Perm Vertex)
    (hkind : ∀ v, w'.kind v = w.kind (σ v))
    (hjoins : ∀ a b, w'.joins a b = w.joins (σ a) (σ b)) : w'.Flow (c.relabel σ) := by
  have hleads {v : Vertex} (hv : w'.Leads (c.relabel σ) v) : w.Leads c (σ v) :=
    ⟨hv.1, hkind v ▸ hv.2⟩
  have hnext (v : Vertex) : σ ((c.relabel σ).next v) = c.next (σ v) := σ.apply_symm_apply _
  refine ⟨fun v hv => ?_, fun v hv => ?_, fun v hv => ?_, fun v hv => ?_, fun v hv => ?_,
    fun v hv u hu hne => ?_, fun v hv hin => ?_⟩
  · rw [Has, hkind]
    exact hf.has _ hv
  · rw [Has, hkind] at hv
    rw [hkind]
    exact hf.all _ hv
  · change c.on (σ ((c.relabel σ).next v))
    rw [hnext]
    exact hf.on_next _ (hleads hv)
  · rw [hjoins, hnext]
    exact hf.joined _ (hleads hv)
  · change c.rank (σ v) < c.rank (σ ((c.relabel σ).next v))
    rw [hnext]
    exact hf.lt _ (hleads hv)
  · rw [hjoins, hnext] at hu
    exact hf.lt_other _ (hleads hv) _ hu fun he => hne (σ.injective he)
  · rw [hkind] at hin
    obtain ⟨u, hu, hne⟩ := hf.onto _ hv hin
    refine ⟨σ.symm u, ⟨?_, ?_⟩, ?_⟩
    · change c.on (σ (σ.symm u))
      rw [σ.apply_symm_apply]
      exact hu.1
    · rw [hkind, σ.apply_symm_apply]
      exact hu.2
    · change σ.symm (c.next (σ (σ.symm u))) = v
      rw [σ.apply_symm_apply, hne, σ.symm_apply_apply]

/-! ### The last spiders of two wires -/

section Raised

variable (hf : w.Flow c) (hw : w.Valid) (ho : w.kind o = some .output) (ht : w.Tied o a)
  (ho' : w.kind o' = some .output) (ht' : w.Tied o' b)
include hf hw ho ht ho' ht'

/-- The ranks of the last vertices of two wires are raised above that of a vertex before any of
    them. -/
theorem Flow.exists_raised : ∃ r n, w.Flow { c with rank := r } ∧ (∀ v, c.rank v ≤ r v) ∧
    (∀ v, ¬c.on v → r v = c.rank v) ∧ n ≤ r a ∧ n ≤ r b ∧
      ∀ v, w.Leads c v → c.next v = a ∨ c.next v = b → r v < n := by
  obtain ⟨ha, hao⟩ := hf.of_tied hw ho ht
  obtain ⟨hb, hbo⟩ := hf.of_tied hw ho' ht'
  set n := c.rank a + c.rank b with hn
  -- the two vertices and all outputs are raised
  let last (v : Vertex) : Prop := v = a ∨ v = b ∨ w.kind v = some .output
  classical
  set r : Vertex → ℕ := fun v => c.rank v + if last v then n else 0 with hr
  have hle (v : Vertex) : c.rank v ≤ r v := Nat.le_add_right _ _
  have hraised {v : Vertex} (hv : last v) : r v = c.rank v + n := by rw [hr]; simp only [if_pos hv]
  have hsame {v : Vertex} (hv : ¬last v) : r v = c.rank v := by
    rw [hr]
    simp only [if_neg hv, Nat.add_zero]
  have hlast {v : Vertex} (hv : w.Leads c v) (hl : last v) :
      ∃ e, c.next v = e ∧ w.Tied e v ∧ last e := by
    rcases hl with rfl | rfl | hk
    · exact ⟨o, hao, ht, .inr (.inr ho)⟩
    · exact ⟨o', hbo, ht', .inr (.inr ho')⟩
    · exact absurd hk hv.2
  refine ⟨r, n, hf.congr rfl rfl (fun _ _ => .inl rfl) hf.all hf.joined (fun v hv => ?_)
    (fun v hv u hu hne => ?_), hle, fun v hv => hsame ?_, ?_, ?_, fun v hv he => ?_⟩
  · have hlt := hf.lt v hv
    by_cases hl : last v
    · obtain ⟨e, he, -, hl'⟩ := hlast hv hl
      change r v < r (c.next v)
      rw [he] at hlt ⊢
      rw [hraised hl, hraised hl']
      omega
    · change r v < r (c.next v)
      rw [hsame hl]
      exact hlt.trans_le (hle _)
  · by_cases hl : last v
    · obtain ⟨e, he, htied, -⟩ := hlast hv hl
      rw [he, htied.joins, if_neg hne] at hu
      exact absurd hu (Nat.lt_irrefl 0)
    · change r v < r u
      rw [hsame hl]
      exact (hf.lt_other v hv u hu hne).trans_le (hle u)
  · rintro (rfl | rfl | hk)
    · exact hv ha.1
    · exact hv hb.1
    · refine hv ((hf.all v (has_of_kind hk)).resolve_right fun hk' => ?_)
      rw [hk] at hk'
      cases hk'
  · rw [hraised (.inl rfl)]
    exact Nat.le_add_left _ _
  · rw [hraised (.inr (.inl rfl))]
    exact Nat.le_add_left _ _
  · have hnl : ¬last v := fun hl => by
      obtain ⟨e, hve, htied, -⟩ := hlast hv hl
      have hout : w.kind (c.next v) ≠ some .output := by
        rcases he with he | he
        · rw [he]
          exact ha.2
        · rw [he]
          exact hb.2
      rcases hl with rfl | rfl | hk
      · exact hout (hao ▸ ho)
      · exact hout (hbo ▸ ho')
      · exact hv.2 hk
    have hlt := hf.lt v hv
    rw [hsame hnl, hn]
    rcases he with he | he <;> rw [he] at hlt <;> omega

end Raised

/-! ### Laid webs -/

/-- A box beside the course is tied to Z spiders that come no earlier. -/
def BoxesBeside (w : Web) (c : Course) : Prop := ∀ h u, w.kind h = some .box → ¬c.on h →
  0 < w.joins h u → w.IsZ u ∧ w.count h u .hadamard = 0 ∧ c.rank h ≤ c.rank u

/-- A flow along which spiders that can be fused come one after the other: an edge between coloured
    spiders that is like a plain one between Z spiders is on the course. -/
structure Laid (w : Web) (c : Course) : Prop extends w.Flow c where
  along : ∀ s t k, 0 < w.count s t k → w.IsColoured s → w.IsColoured t →
    (k = .plain ↔ w.kind s = w.kind t) → c.next s = t ∨ c.next t = s
  beside : w.BoxesBeside c

theorem Flow.leads_of_isColoured (hf : w.Flow c) (hv : w.IsColoured v) : w.Leads c v := by
  have hk {κ : SpiderKind} (hκ : κ.isPhased = false) : w.kind v ≠ some κ := fun hk => by
    rw [IsColoured, hk] at hv
    exact absurd (hv.symm.trans hκ) (by decide)
  exact ⟨(hf.all v hv.has).resolve_right (hk rfl), hk rfl⟩

theorem Laid.relabel (hl : w.Laid c) (σ : Equiv.Perm Vertex)
    (hkind : ∀ v, w'.kind v = w.kind (σ v))
    (hcount : ∀ a b k, w'.count a b k = w.count (σ a) (σ b) k) : w'.Laid (c.relabel σ) := by
  refine ⟨hl.toFlow.relabel σ hkind fun a b => by rw [joins, joins, hcount, hcount],
    fun s t k hk hs ht he => ?_, fun h u hk hoff hj => ?_⟩
  · rw [hcount] at hk
    rw [IsColoured, hkind] at hs ht
    rw [hkind, hkind] at he
    have hnext {x y : Vertex} (h : c.next (σ x) = σ y) : (c.relabel σ).next x = y := by
      change σ.symm (c.next (σ x)) = y
      rw [h, σ.symm_apply_apply]
    exact (hl.along _ _ k hk hs ht he).imp hnext hnext
  · rw [joins, hcount, hcount] at hj
    rw [IsZ, hkind, hcount]
    exact hl.beside (σ h) (σ u) (hkind h ▸ hk) hoff hj

/-- The joins after a new spider is put onto the wire at an end. -/
theorem Tied.joins_splice (ht : w.Tied o u) (hw : w.Valid) (a b : Vertex) :
    (w.splice o u κ p).joins a b = if SamePair a b u w.next ∨ SamePair a b w.next o then 1
      else if SamePair a b u o then 0 else w.joins a b := by
  rw [Web.joins, Web.joins, ht.count_splice hw, ht.count_splice hw]
  simp only [SamePair]
  grind

section Splice

variable (hl : w.Laid c) (hw : w.Valid) (ho : w.kind o = some .output) (ht : w.Tied o u)
include hl hw ho ht

/-- The boxes beside the course, with a new spider on the wire at an end. -/
theorem Laid.beside_splice : (w.splice o u κ p).BoxesBeside (c.insert u w.next) := by
  obtain ⟨hu, -⟩ := hl.of_tied hw ho ht
  intro h v hk hoff hj
  have hhn : h ≠ w.next := fun he => hoff (.inr he)
  have hhc : ¬c.on h := fun hc => hoff (.inl hc)
  have hhu : h ≠ u := fun he => hhc (he ▸ hu.1)
  rw [kind_splice, update_of_ne hhn] at hk
  have hho : h ≠ o := fun he => by
    rw [he, ho] at hk
    cases hk
  have hsame (k : EdgeKind) : (w.splice o u κ p).count h v k = w.count h v k := by
    rw [ht.count_splice hw, if_neg, if_neg]
    · rintro (⟨he, -⟩ | ⟨he, -⟩)
      · exact hho he
      · exact hhu he
    · rintro ((⟨he, -⟩ | ⟨he, -⟩) | ⟨he, -⟩ | ⟨he, -⟩)
      · exact hhn he
      · exact hhu he
      · exact hhn he
      · exact hho he
  have hvj : 0 < w.joins h v := by
    rw [joins, hsame, hsame] at hj
    exact hj
  have hvn := hw.ne_next (hw.has_of_joins hvj).2
  obtain ⟨hz, hplain, hrank⟩ := hl.beside h v hk hhc hvj
  refine ⟨?_, (hsame _).trans hplain, ?_⟩
  · rw [IsZ, kind_splice, update_of_ne hvn]
    exact hz
  · rw [c.rank_insert_of_ne hhn, c.rank_insert_of_ne hvn]
    exact Nat.mul_le_mul_left 2 hrank

theorem Laid.splice (hκ : κ.isBoundary = false) : (w.splice o u κ p).Laid (c.insert u w.next) := by
  obtain ⟨hu, huo⟩ := hl.of_tied hw ho ht
  have hold {v : Vertex} (hv : v ≠ w.next) : (w.splice o u κ p).kind v = w.kind v := by
    rw [kind_splice, update_of_ne hv]
  have hun := hw.ne_next (hl.has u hu.1)
  have hnextu := c.next_insert_before hun
  have hout : ¬(w.splice o u κ p).IsColoured o := fun h => by
    rw [IsColoured, hold (hw.ne_next (has_of_kind ho)), ho] at h
    cases h
  refine ⟨hl.insert hw ⟨hu, hw.not_has_next, kind_splice, hκ, fun a b => ?_⟩,
    fun s t k hk hs hs' he => ?_, hl.beside_splice hw ho ht⟩
  · rw [ht.joins_splice hw, huo]
  -- no coloured spider is the output
  have hso : s ≠ o := fun h => hout (h ▸ hs)
  have hto : t ≠ o := fun h => hout (h ▸ hs')
  by_cases hpair : SamePair s t w.next u
  · rcases hpair with ⟨rfl, rfl⟩ | ⟨rfl, rfl⟩
    · exact .inr hnextu
    · exact .inl hnextu
  rw [ht.count_splice hw, if_neg, if_neg] at hk
  · have hsn := hw.ne_next (hw.has s t k hk)
    have htn := hw.ne_next (hw.has t s k (hw.symm s t k ▸ hk))
    rw [IsColoured, hold hsn] at hs
    rw [IsColoured, hold htn] at hs'
    rw [hold hsn, hold htn] at he
    -- what comes after the vertex in front of the output is that
    have hne {v x : Vertex} (hx : x ≠ o) (hv : v ≠ w.next) (hvx : c.next v = x) :
        (c.insert u w.next).next v = x := by
      rw [c.next_insert_of_ne hv, hvx]
      rintro rfl
      exact hx (hvx.symm.trans huo)
    exact (hl.along s t k hk hs hs' he).imp (hne hto hsn) (hne hso htn)
  · rintro (⟨h, -⟩ | ⟨-, h⟩)
    · exact hso h
    · exact hto h
  · rintro (h | ⟨-, h⟩ | ⟨h, -⟩)
    · exact hpair h
    · exact hto h
    · exact hso h

end Splice

/-! ### A box between two wires -/

section AddBetween

variable (hw : w.Valid) (ha : w.Has a) (hb : w.Has b) (hne : a ≠ b)
include hw ha hb hne

theorem Valid.joins_addBetween_of_ne (hx : x ≠ w.next) (hv : v ≠ w.next) :
    (w.addBetween a b κ p).joins x v = w.joins x v := by
  have hpair : ¬(SamePair x v w.next a ∨ SamePair x v w.next b) := by
    simp only [SamePair]
    tauto
  rw [joins, joins, hw.count_addBetween ha hb hne, hw.count_addBetween ha hb hne, if_neg hpair,
    if_neg hpair]

/-- The new spider is joined to the two only. -/
theorem Valid.eq_of_joins_addBetween (hx : 0 < (w.addBetween a b κ p).joins x w.next) :
    x = a ∨ x = b := by
  by_contra hno
  have hpair : ¬(SamePair x w.next w.next a ∨ SamePair x w.next w.next b) := by
    have han := hw.ne_next ha
    have hbn := hw.ne_next hb
    rw [not_or] at hno
    rintro ((⟨-, he⟩ | ⟨he, -⟩) | ⟨-, he⟩ | ⟨he, -⟩)
    · exact han he.symm
    · exact hno.1 he
    · exact hbn he.symm
    · exact hno.2 he
  rw [joins, hw.count_addBetween ha hb hne, hw.count_addBetween ha hb hne, if_neg hpair,
    if_neg hpair, hw.symm, hw.symm _ _ .hadamard, hw.count_next, hw.count_next] at hx
  exact Nat.lt_irrefl 0 hx

end AddBetween

/-- A box between two spiders of the course is one more beside it, if they are raised to where it is. -/
theorem Laid.beside_addBox {r : Vertex → ℕ} {n : ℕ} (hl : w.Laid c) (hw : w.Valid) (ha : w.IsZ a)
    (hb : w.IsZ b) (hca : c.on a) (hcb : c.on b) (hne : a ≠ b) (hle : ∀ v, c.rank v ≤ r v)
    (hoff : ∀ v, ¬c.on v → r v = c.rank v) (hna : n ≤ r a) (hnb : n ≤ r b) :
    (w.addBetween a b .box .zero).BoxesBeside { c with rank := update r w.next n } := by
  intro h u hk hhc hj
  have hold {v : Vertex} (hv : v ≠ w.next) : (w.addBetween a b .box .zero).kind v = w.kind v := by
    rw [kind_addBetween, update_of_ne hv]
  by_cases hhn : h = w.next
  · rw [hhn, (hw.addBetween ha.has hb.has).joins_comm] at hj
    have hu := hw.eq_of_joins_addBetween ha.has hb.has hne hj
    have hends : w.IsZ u ∧ n ≤ r u := by
      rcases hu with rfl | rfl
      · exact ⟨ha, hna⟩
      · exact ⟨hb, hnb⟩
    have hun := hw.ne_next hends.1.has
    refine ⟨?_, ?_, ?_⟩
    · rw [IsZ, hold hun]
      exact hends.1
    · rw [hhn, hw.count_addBetween ha.has hb.has hne, if_pos, if_neg (by decide)]
      rcases hu with rfl | rfl
      · exact .inl (.inl ⟨rfl, rfl⟩)
      · exact .inr (.inl ⟨rfl, rfl⟩)
    · change update r w.next n h ≤ update r w.next n u
      rw [hhn, update_self, update_of_ne hun]
      exact hends.2
  · have hun : u ≠ w.next := by
      rintro rfl
      rcases hw.eq_of_joins_addBetween ha.has hb.has hne hj with rfl | rfl
      · exact hhc hca
      · exact hhc hcb
    rw [hold hhn] at hk
    rw [hw.joins_addBetween_of_ne ha.has hb.has hne hhn hun] at hj
    obtain ⟨hz, hplain, hrank⟩ := hl.beside h u hk hhc hj
    refine ⟨?_, ?_, ?_⟩
    · rw [IsZ, hold hun]
      exact hz
    · rw [hw.count_addBetween ha.has hb.has hne, if_neg]
      · exact hplain
      · simp only [SamePair]
        tauto
    · change update r w.next n h ≤ update r w.next n u
      rw [update_of_ne hhn, update_of_ne hun, hoff h hhc]
      exact hrank.trans (hle u)

section Between

variable (hl : w.Laid c) (hw : w.Valid) (ho : w.kind o = some .output) (ht : w.Tied o a)
  (ho' : w.kind o' = some .output) (ht' : w.Tied o' b) (hne : a ≠ b)
include hl hw ho ht ho' ht' hne

/-- An edge between the last spiders of two wires, of different colours. -/
theorem Laid.exists_addEdge (hkind : w.kind a ≠ w.kind b) :
    ∃ c', (w.addEdges a b .plain 1).Laid c' := by
  obtain ⟨ha, hao⟩ := hl.of_tied hw ho ht
  obtain ⟨hb', hbo⟩ := hl.of_tied hw ho' ht'
  obtain ⟨r, n, hf, hle, hoff, hna, hnb, hlt⟩ := hl.toFlow.exists_raised hw ho ht ho' ht'
  have hcount := hw.count_addEdges_eq (s := a) (t := b) (m := 1) (k := .plain)
  have hjoins (x y : Vertex) : (w.addEdges a b .plain 1).joins x y =
      w.joins x y + if SamePair x y a b then 1 else 0 := by
    rw [joins, joins, hcount, hcount]
    simp only [reduceCtorEq, and_false, and_true, if_false]
    omega
  have hafter {v : Vertex} (hv : w.Leads c v) : ¬SamePair v (c.next v) a b := by
    rintro (⟨rfl, he⟩ | ⟨rfl, he⟩)
    · exact hb'.2 (he ▸ hao ▸ ho)
    · exact ha.2 (he ▸ hbo ▸ ho')
  refine ⟨{ c with rank := r }, ⟨hf.congr rfl rfl (fun _ _ => .inl rfl) hf.all (fun v hv => ?_)
    hf.lt fun v hv u hu huv => ?_, fun s t k hk hs hs' he => ?_, fun h u hk hhc hj => ?_⟩⟩
  · rw [hjoins, if_neg (hafter hv)]
    exact hf.joined v hv
  · rw [hjoins] at hu
    by_cases hpair : SamePair (c.next v) u a b
    · -- the new edge leads to a vertex that was raised
      rcases hpair with ⟨he, rfl⟩ | ⟨he, rfl⟩
      · exact (hlt v hv (.inl he)).trans_le hnb
      · exact (hlt v hv (.inr he)).trans_le hna
    · rw [if_neg hpair] at hu
      exact hf.lt_other v hv u hu huv
  · rw [hcount] at hk
    split at hk
    · next h =>
      -- the new edge is plain, between spiders of different colours
      have hsame : w.kind s = w.kind t := he.1 h.2.symm
      rcases h.1 with ⟨rfl, rfl⟩ | ⟨rfl, rfl⟩
      · exact absurd hsame hkind
      · exact absurd hsame.symm hkind
    · exact hl.along s t k hk hs hs' he
  · have hpair : ¬SamePair h u a b := by
      rintro (⟨rfl, -⟩ | ⟨rfl, -⟩)
      · exact hhc ha.1
      · exact hhc hb'.1
    rw [hjoins, if_neg hpair] at hj
    obtain ⟨hz, hplain, hrank⟩ := hl.beside h u hk hhc hj
    refine ⟨hz, ?_, ?_⟩
    · rw [hcount, if_neg fun hc => hpair hc.1]
      exact hplain
    · change r h ≤ r u
      rw [hoff h hhc]
      exact hrank.trans (hle u)

/-- A box between the last spiders of two wires. -/
theorem Laid.exists_addBox (hza : w.IsZ a) (hzb : w.IsZ b) :
    ∃ c', (w.addBetween a b .box .zero).Laid c' := by
  obtain ⟨ha, hao⟩ := hl.of_tied hw ho ht
  obtain ⟨hb', hbo⟩ := hl.of_tied hw ho' ht'
  obtain ⟨r, n, hf, hle, hoff, hna, hnb, hlt⟩ := hl.toFlow.exists_raised hw ho ht ho' ht'
  have hold {v : Vertex} (hv : v ≠ w.next) : (w.addBetween a b .box .zero).kind v = w.kind v := by
    rw [kind_addBetween, update_of_ne hv]
  have hnew : (w.addBetween a b .box .zero).kind w.next = some .box := by
    rw [kind_addBetween, update_self]
  have hon {v : Vertex} (hv : c.on v) : v ≠ w.next := hw.ne_next (hl.has v hv)
  have hjoins {x y : Vertex} (hx : x ≠ w.next) (hy : y ≠ w.next) :
      (w.addBetween a b .box .zero).joins x y = w.joins x y :=
    hw.joins_addBetween_of_ne hza.has hzb.has hne hx hy
  refine ⟨{ c with rank := update r w.next n }, ⟨hf.congr rfl rfl
    (fun v hv => .inl (hold (hon hv))) (fun v hv => ?_) (fun v hv => ?_) (fun v hv => ?_)
    fun v hv u hu huv => ?_, fun s t k hk hs hs' he => ?_,
    hl.beside_addBox hw hza hzb ha.1 hb'.1 hne hle hoff hna hnb⟩⟩
  · by_cases hvn : v = w.next
    · exact .inr (hvn ▸ hnew)
    · rw [Has, hold hvn] at hv
      rw [hold hvn]
      exact hl.all v hv
  · exact (hjoins (hon hv.1) (hon (hl.on_next v hv))).trans (hl.joined v hv)
  · change update r w.next n v < update r w.next n (c.next v)
    rw [update_of_ne (hon hv.1), update_of_ne (hon (hl.on_next v hv))]
    exact hf.lt v hv
  · change update r w.next n v < update r w.next n u
    change 0 < (w.addBetween a b .box .zero).joins (c.next v) u at hu
    rw [update_of_ne (hon hv.1)]
    by_cases hun : u = w.next
    · rw [hun] at hu ⊢
      rw [update_self]
      exact hlt v hv (hw.eq_of_joins_addBetween hza.has hzb.has hne hu)
    · rw [hjoins (hon (hl.on_next v hv)) hun] at hu
      rw [update_of_ne hun]
      exact hf.lt_other v hv u hu huv
  · have hne' {x : Vertex} (hx : (w.addBetween a b .box .zero).IsColoured x) : x ≠ w.next := by
      rintro rfl
      rw [IsColoured, hnew] at hx
      cases hx
    have hsn := hne' hs
    have htn := hne' hs'
    rw [hw.count_addBetween hza.has hzb.has hne, if_neg] at hk
    · rw [IsColoured, hold hsn] at hs
      rw [IsColoured, hold htn] at hs'
      rw [hold hsn, hold htn] at he
      exact hl.along s t k hk hs hs' he
    · simp only [SamePair]
      tauto

end Between

/-! ### Gates -/

/-- A gate put at the outputs leaves a flow. -/
theorem Put.exists_laid {g : Gate} (h : w.Put g w') (hw : w.Drawn) (hl : w.Laid c) :
    ∃ c', w'.Laid c' := by
  have hval := hw.valid
  -- spiders on two wires
  have htwo {q r : ℕ} {o o' u u' : Vertex} {κ : SpiderKind} (hq : w.outputs[q]? = some o)
      (hr : w.outputs[r]? = some o') (ht : w.Tied o u)
      (ht' : (w.splice o u .z .zero).Tied o' u') (hκ : κ.isBoundary = false) :
      ∃ c', ((w.splice o u .z .zero).splice o' u' κ .zero).Laid c' := by
    have ho := hw.kind_output hq
    have ho' : (w.splice o u .z .zero).kind o' = some .output := by
      rw [kind_splice, update_of_ne (hval.ne_next (has_of_kind (hw.kind_output hr)))]
      exact hw.kind_output hr
    exact ⟨_, (hl.splice hval ho ht rfl).splice (ht.valid_splice hval) ho' ht' hκ⟩
  cases h with
  | z hq ht p => exact ⟨_, hl.splice hval (hw.kind_output hq) ht rfl⟩
  | x hq ht p => exact ⟨_, hl.splice hval (hw.kind_output hq) ht rfl⟩
  | hadamard hq ht p => exact ⟨_, hl.splice hval (hw.kind_output hq) ht rfl⟩
  | @cnot q r o o' u u' hq hr hne ht ht' p =>
    obtain ⟨c₂, hl₂⟩ := htwo hq hr ht ht' (κ := .x) rfl
    obtain ⟨h₂, hz, hx, htied, htied'⟩ := hw.splice_splice (hw.kind_output hq) (hw.kind_output hr)
      hne ht ht' (κ := .x) rfl
    refine hl₂.exists_addEdge h₂.valid (h₂.kind_output hq) htied (h₂.kind_output hr) htied'
      (Nat.ne_of_lt (Nat.lt_succ_self _)) ?_
    rw [hz, hx]
    decide
  | @cz q r o o' u u' hq hr hne ht ht' p =>
    obtain ⟨c₂, hl₂⟩ := htwo hq hr ht ht' (κ := .z) rfl
    obtain ⟨h₂, hz, hx, htied, htied'⟩ := hw.splice_splice (hw.kind_output hq) (hw.kind_output hr)
      hne ht ht' (κ := .z) rfl
    exact hl₂.exists_addBox h₂.valid (h₂.kind_output hq) htied (h₂.kind_output hr) htied'
      (Nat.ne_of_lt (Nat.lt_succ_self _)) hz hx
  | @swap q r o o' u u' hq hr hne ht ht' p =>
    have ho := hw.kind_output hq
    have ho' := hw.kind_output hr
    obtain ⟨x, hx, hout⟩ := hw.exists_output ho
    obtain ⟨x', hx', hout'⟩ := hw.exists_output ho'
    obtain rfl := ht.unique hx
    obtain rfl := ht'.unique hx'
    exact ⟨_, hl.relabel (Equiv.swap o o') (fun v => (kind_swap ho ho' v).symm)
      (hval.count_cross ht (fun e => hout (e ▸ ho')) ht' (fun e => hout' (e ▸ ho)) hne)⟩

theorem Puts.exists_laid {gates : List Gate} (h : w.Puts gates w') (hw : w.Drawn)
    (hl : w.Laid c) : ∃ c', w'.Laid c' := by
  induction h with
  | nil => exact ⟨c, hl⟩
  | snoc h hg ih =>
    obtain ⟨c', hl'⟩ := ih
    exact hg.exists_laid (h.drawn hw) hl'

end Web

namespace Diagram

variable {d : Diagram} {n : ℕ}

/-- Bare wires go from the inputs to the outputs. -/
theorem Bare.laid (h : Bare n d) : d.web.Laid ⟨d.web.Has, (· + 1), (· % 2)⟩ := by
  have hval := h.drawn.valid
  have hkind {v : ℕ} (hv : d.web.Has v) : ∃ q < n,
      v = 2 * q ∧ d.web.kind v = some .input ∨ v = 2 * q + 1 ∧ d.web.kind v = some .output := by
    have hlt : v < 2 * n := h.next ▸ hval.lt v hv
    have hq : v / 2 < n := by omega
    refine ⟨v / 2, hq, ?_⟩
    rcases Nat.mod_two_eq_zero_or_one v with hmod | hmod
    · have hv : v = 2 * (v / 2) := by omega
      refine .inl ⟨hv, (h.drawn.mem_inputs v).1 ?_⟩
      rw [h.inputs]
      exact List.mem_map.2 ⟨v / 2, List.mem_range.2 hq, hv.symm⟩
    · have hv : v = 2 * (v / 2) + 1 := by omega
      refine .inr ⟨hv, (h.drawn.mem_outputs v).1 ?_⟩
      rw [h.outputs]
      exact List.mem_map.2 ⟨v / 2, List.mem_range.2 hq, hv.symm⟩
  have hleads {v : Vertex} (hv : d.web.Leads ⟨d.web.Has, (· + 1), (· % 2)⟩ v) :
      ∃ q < n, v = 2 * q := by
    obtain ⟨q, hq, ⟨rfl, -⟩ | ⟨-, hk⟩⟩ := hkind hv.1
    · exact ⟨q, hq, rfl⟩
    · exact absurd hk hv.2
  have hnone {v : Vertex} {κ : SpiderKind} (hk : d.web.kind v = some κ) : κ.isBoundary = true := by
    obtain ⟨q, -, ⟨-, hk'⟩ | ⟨-, hk'⟩⟩ := hkind (Web.has_of_kind hk)
    · rw [← Option.some.inj (hk'.symm.trans hk)]
      rfl
    · rw [← Option.some.inj (hk'.symm.trans hk)]
      rfl
  refine ⟨⟨fun _ hv => hv, fun _ hv => .inl hv, fun v hv => ?_, fun v hv => ?_, fun v hv => ?_,
    fun v hv u hu hne => ?_, fun v hv hin => ?_⟩, fun s t k hk hs => ?_, fun v u hk => ?_⟩
  · obtain ⟨q, hq, rfl⟩ := hleads hv
    exact ((h.tied q hq).1.has hval).2
  · obtain ⟨q, hq, rfl⟩ := hleads hv
    rw [(h.tied q hq).1.joins, if_pos rfl]
  · obtain ⟨q, hq, rfl⟩ := hleads hv
    change 2 * q % 2 < (2 * q + 1) % 2
    omega
  · obtain ⟨q, hq, rfl⟩ := hleads hv
    change 0 < d.web.joins (2 * q + 1) u at hu
    rw [(h.tied q hq).2.joins, if_neg hne] at hu
    exact absurd hu (Nat.lt_irrefl 0)
  · obtain ⟨q, hq, ⟨-, hk⟩ | ⟨rfl, -⟩⟩ := hkind hv
    · exact absurd hk hin
    · refine ⟨2 * q, ⟨((h.tied q hq).1.has hval).1, fun hk => ?_⟩, rfl⟩
      rw [← h.drawn.mem_outputs, h.outputs] at hk
      obtain ⟨r, -, hr⟩ := List.mem_map.1 hk
      have hr : 2 * r + 1 = 2 * q := hr
      omega
  · obtain ⟨κ, hκ⟩ := Option.isSome_iff_exists.1 hs.has
    have hend := hnone hκ
    rw [Web.IsColoured, hκ] at hs
    cases κ <;> first | exact absurd hend (by decide) | exact absurd hs (by decide)
  · cases hnone hk

end Diagram

end ZXRewriting
