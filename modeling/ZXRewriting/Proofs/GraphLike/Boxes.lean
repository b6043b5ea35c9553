import ZXRewriting.Proofs.GraphLike.OfDiagram
import ZXRewriting.Proofs.GraphLike.Recorded

/-!
# The graph-like form of any diagram

A diagram need not come from a circuit to have a graph-like form: it is enough that each end of a
wire has a single edge (`GraphLike.exists_ofDiagram_formed`). Boxes may have any number of wires then,
to other boxes as well, and what is said here is about the form alone.

When a box is taken out, the vertices at the other ends of its wires wait for other edges
(`Web.Awaits`), which lead to new Z spiders; that the other kinds stay is `Web.Grown`.
-/

namespace ZXRewriting

open Function (update update_self update_of_ne)
open Multigraph (SamePair)

namespace Web

variable {w w' w'' : Web} {h s t u v x : Vertex} {k : EdgeKind} {p : Phase}
  {pending : List Vertex} {ends : List (Vertex × EdgeKind)}

/-! ### Growing -/

/-- New spiders are Z spiders. -/
def Grown (w w' : Web) : Prop := ∀ v, w'.kind v = w.kind v ∨ ¬w.Has v ∧ w'.IsZ v

theorem Grown.of_kind (h : w'.kind = w.kind) : Grown w w' := fun v => .inl (congrFun h v)

theorem Grown.trans (h : Grown w w') (h' : Grown w' w'') : Grown w w'' := fun v => by
  rcases h' v with h' | ⟨hnot, hz⟩
  · rcases h v with h | ⟨hnot, hz⟩
    · exact .inl (h'.trans h)
    · exact .inr ⟨hnot, h'.trans hz⟩
  · rcases h v with h | ⟨-, hz'⟩
    · refine .inr ⟨?_, hz⟩
      rwa [Has, ← h]
    · exact absurd hz'.has hnot

theorem Grown.kind_eq (h : Grown w w') (hv : w.Has v) : w'.kind v = w.kind v :=
  (h v).resolve_right fun hc => hc.1 hv

theorem Grown.has (h : Grown w w') (hv : w.Has v) : w'.Has v := by
  rw [Has, h.kind_eq hv]
  exact hv

theorem Grown.isZ (h : Grown w w') (hv : w.IsZ v) : w'.IsZ v := (h.kind_eq hv.has).trans hv

theorem isZ_next_addSpider : (w.addSpider p).IsZ w.next := by
  rw [IsZ, kind_addSpider, update_self]

theorem Valid.grown_addSpider (hw : w.Valid) (p : Phase) : Grown w (w.addSpider p) := fun v => by
  by_cases hv : v = w.next
  · exact .inr ⟨hv ▸ hw.not_has_next, hv ▸ isZ_next_addSpider⟩
  · exact .inl (by rw [kind_addSpider, update_of_ne hv])

/-- Growing from what is left of a web leaves its ends the same. -/
theorem Grown.sameEnds (hgrown : Grown (w.remove h) w') (hbox : w.kind h = some .box) :
    SameEnds w w' := fun v => by
  by_cases hv : v = h
  · subst hv
    refine .inr ⟨not_isEnd_of_kind hbox rfl, fun hend => ?_⟩
    rcases hgrown v with hk | ⟨-, hz⟩
    · rw [kind_remove, update_self] at hk
      rw [IsEnd, hk] at hend
      cases hend
    · exact hz.not_isEnd hend
  · rcases hgrown v with hk | ⟨hnot, hz⟩
    · rw [kind_remove, update_of_ne hv] at hk
      exact .inl hk
    · rw [Has, kind_remove, update_of_ne hv] at hnot
      exact .inr ⟨fun hend => hnot hend.has, hz.not_isEnd⟩

theorem isBox_remove : (w.remove h).kind v = some .box ↔ w.kind v = some .box ∧ v ≠ h := by
  rw [kind_remove]
  by_cases hv : v = h
  · simp [hv]
  · simp [hv]

/-- Growing from what is left of a web adds no boxes. -/
theorem Grown.box_iff (hgrown : Grown (w.remove h) w') :
    w'.kind v = some .box ↔ w.kind v = some .box ∧ v ≠ h := by
  rw [← isBox_remove]
  rcases hgrown v with hk | ⟨hnot, hz⟩
  · rw [hk]
  · refine iff_of_false ?_ fun hc => hnot (has_of_kind hc)
    rw [hz]
    simp

/-! ### Waiting for edges -/

/-- Each end of a wire has a single edge, or is to get it: it occurs once among the vertices that
    wait for an edge. -/
def Awaits (w : Web) (pending : List Vertex) : Prop :=
  ∀ t, w.IsEnd t → ∃ ends, w.EndsAre t ends ∧ ends.length + pending.count t = 1

theorem Hung.awaits (hw : w.Hung) : w.Awaits [] := fun t ht => by
  obtain ⟨u, k, hu⟩ := hw.hangs t ht
  exact ⟨_, hu, rfl⟩

theorem Awaits.hung (h : w.Awaits []) (hw : w.Valid) : w.Hung := ⟨hw, fun t ht => by
  obtain ⟨ends, hends, hlen⟩ := h t ht
  obtain ⟨⟨u, k⟩, rfl⟩ := List.length_eq_one_iff.1 hlen
  exact ⟨u, k, hends⟩⟩

/-- What waits without being an end does not matter. -/
theorem Awaits.cons (h : w.Awaits pending) (hs : ¬w.IsEnd s) : w.Awaits (s :: pending) :=
  fun t ht => by
    obtain ⟨ends, hends, hlen⟩ := h t ht
    refine ⟨ends, hends, ?_⟩
    rw [List.count_cons_of_ne fun (he : s = t) => hs (he ▸ ht)]
    exact hlen

/-- No end waits for two edges. -/
theorem Awaits.of_cons_cons (h : w.Awaits (s :: s :: pending)) : w.Awaits pending := fun t ht => by
  obtain ⟨ends, hends, hlen⟩ := h t ht
  refine ⟨ends, hends, ?_⟩
  rw [List.count_cons, List.count_cons] at hlen
  split at hlen <;> omega

theorem Awaits.of_count (h : w.Awaits pending) (hcount : w'.count = w.count)
    (hends : ∀ t, w'.IsEnd t → w.IsEnd t) : w'.Awaits pending := fun t ht => by
  obtain ⟨ends, hat, hlen⟩ := h t (hends t ht)
  refine ⟨ends, fun u k => ?_, hlen⟩
  rw [hcount]
  exact hat u k

theorem Awaits.addSpider (h : w.Awaits pending) (hw : w.Valid) : (w.addSpider p).Awaits pending :=
  h.of_count count_addSpider fun _ ht => hw.isEnd_addSpider.1 ht

/-- An edge is what its ends waited for. -/
theorem Awaits.addEdge (h : w.Awaits (s :: t :: pending)) (hw : w.Valid) (hst : s ≠ t) :
    (w.addEdges s t k 1).Awaits pending := fun x hx => by
  obtain ⟨ends, hends, hlen⟩ := h x hx
  have hcount (y : Vertex) (k' : EdgeKind) : (w.addEdges s t k 1).count x y k' =
      ends.count (y, k') + if SamePair x y s t ∧ k = k' then 1 else 0 := by
    rw [hw.count_addEdges_eq, hends]
  rw [List.count_cons, List.count_cons] at hlen
  by_cases hxs : x = s
  · subst hxs
    refine ⟨(t, k) :: ends, fun y k' => ?_, ?_⟩
    · rw [hcount, List.count_cons]
      refine congrArg _ (if_congr ?_ rfl rfl)
      rw [beq_iff_eq, Prod.mk.injEq]
      grind [SamePair]
    · simp [hst.symm] at hlen ⊢
      omega
  by_cases hxt : x = t
  · subst hxt
    refine ⟨(s, k) :: ends, fun y k' => ?_, ?_⟩
    · rw [hcount, List.count_cons]
      refine congrArg _ (if_congr ?_ rfl rfl)
      rw [beq_iff_eq, Prod.mk.injEq]
      grind [SamePair]
    · simp [hst] at hlen ⊢
      omega
  refine ⟨ends, fun y k' => ?_, ?_⟩
  · rw [hcount]
    simp [SamePair, hxs, hxt]
  · simp [Ne.symm hxs, Ne.symm hxt] at hlen
    exact hlen

theorem count_map_fst (ends : List (Vertex × EdgeKind)) (t : Vertex) :
    (ends.map Prod.fst).count t = ends.count (t, .plain) + ends.count (t, .hadamard) := by
  induction ends with
  | nil => rfl
  | cons e rest ih =>
    obtain ⟨x, k⟩ := e
    rw [List.map_cons, List.count_cons, List.count_cons, List.count_cons, ih]
    by_cases hx : x = t
    · cases k <;> simp [hx] <;> omega
    · simp [hx]

/-- Taking a spider out leaves its neighbours waiting. -/
theorem Hung.awaits_remove (hw : w.Hung) (hends : w.EndsAre h ends) :
    (w.remove h).Awaits (ends.map Prod.fst) := fun t ht => by
  have hth : t ≠ h := by
    rintro rfl
    rw [IsEnd, kind_remove, update_self] at ht
    cases ht
  have hend : w.IsEnd t := by rwa [IsEnd, kind_remove, update_of_ne hth] at ht
  obtain ⟨u, k, hu⟩ := hw.hangs t hend
  have hcount (x : Vertex) (k' : EdgeKind) : (w.remove h).count t x k' =
      if x = h then 0 else if x = u ∧ k' = k then 1 else 0 := by
    rw [← endsAre_single.1 hu x k']
    simp only [Web.remove, hth, false_or]
  have hto (k' : EdgeKind) : ends.count (t, k') = if h = u ∧ k' = k then 1 else 0 := by
    rw [← hends, hw.valid.symm, endsAre_single.1 hu]
  rw [count_map_fst, hto, hto]
  by_cases huh : h = u
  · refine ⟨[], fun x k' => ?_, ?_⟩
    · rw [hcount]
      simp only [List.count_nil]
      split
      · rfl
      · next hx => exact if_neg fun hc => hx (hc.1.trans huh.symm)
    · cases k <;> simp [huh]
  · refine ⟨[(u, k)], endsAre_single.2 fun x k' => ?_, by simp [huh]⟩
    rw [hcount]
    split
    · next hx => rw [if_neg fun hc => huh (hx.symm.trans hc.1)]
    · rfl

end Web

namespace GraphLike

variable {g g' : GraphLike} {w₀ : Web} {h s t u v : Vertex} {k : EdgeKind} {p : Phase}
  {pending : List Vertex} {ends : List (Vertex × EdgeKind)} {d : Diagram}

/-! ### Boxes -/

/-- A diagram being given Z spiders and edges. -/
structure Growing (w₀ : Web) (pending : List Vertex) (g : GraphLike) : Prop where
  coherent : g.Coherent
  recorded : g.Recorded
  grown : Web.Grown w₀ g.web
  awaits : g.web.Awaits pending

theorem Growing.addSpider {q : Option ℕ} {c : Option Floating.Double}
    (h : Growing w₀ pending g) :
    Growing w₀ pending (g.addSpider p q c).2 ∧ Web.Grown g.web (g.addSpider p q c).2.web ∧
      (g.addSpider p q c).2.web.IsZ g.web.next := by
  have hgrown := h.coherent.valid.grown_addSpider p
  rw [web_addSpider]
  refine ⟨⟨Coherent.addSpider h.coherent p, h.recorded.kept.addSpider.recorded, ?_, ?_⟩, hgrown,
    Web.isZ_next_addSpider⟩
  · rw [web_addSpider]
    exact h.grown.trans hgrown
  · rw [web_addSpider]
    exact h.awaits.addSpider h.coherent.valid

/-- Adding an edge that is waited for. -/
theorem Growing.exists_addEdge (h : Growing w₀ (s :: t :: pending) g) (hs : g.web.Has s)
    (ht : g.web.Has t) (hst : s ≠ t) (k : EdgeKind) :
    ∃ g', g.addEdge s t k = .ok g' ∧ Growing w₀ pending g' ∧ g'.web.kind = g.web.kind := by
  obtain ⟨g', hok, hg', hw', -⟩ := Gives.addEdge h.coherent hs ht hst k
  have hkind : g'.web.kind = g.web.kind := by
    rw [hw']
    rfl
  have hkept := Kept.stable.leaves_addEdge (s := s) (t := t) (k := k) h.recorded.kept
  rw [hok] at hkept
  refine ⟨g', hok, ⟨hg', hkept.recorded, h.grown.trans (.of_kind hkind), ?_⟩, hkind⟩
  rw [hw']
  exact h.awaits.addEdge h.coherent.valid hst

/-- Adding an edge between Z spiders. -/
theorem Growing.exists_addEdge_isZ (h : Growing w₀ pending g) (hs : g.web.IsZ s) (ht : g.web.IsZ t)
    (hst : s ≠ t) (k : EdgeKind) :
    ∃ g', g.addEdge s t k = .ok g' ∧ Growing w₀ pending g' ∧ g'.web.kind = g.web.kind :=
  Growing.exists_addEdge ⟨h.coherent, h.recorded, h.grown,
    (h.awaits.cons ht.not_isEnd).cons hs.not_isEnd⟩ hs.has ht.has hst k

/-- A Z spider at the end of each wire. -/
theorem Growing.exists_addLegs {q : Option ℕ} {c : Option Floating.Double}
    (h : Growing w₀ (ends.map Prod.fst) g) (hends : ∀ e ∈ ends, g.web.Has e.1) :
    ∃ legs g', g.addLegs q c ends = .ok (legs, g') ∧ Growing w₀ [] g' ∧
      Web.Grown g.web g'.web ∧ ∀ z ∈ legs, g'.web.IsZ z := by
  induction ends generalizing g with
  | nil => exact ⟨[], g, rfl, h, .of_kind rfl, by simp⟩
  | cons e rest ih =>
    obtain ⟨x, k⟩ := e
    obtain ⟨h₁, hgrown₁, hz₁⟩ := h.addSpider (p := .zero) (q := q) (c := c)
    have hx := hends (x, k) List.mem_cons_self
    obtain ⟨g₂, hok₂, h₂, hkind₂⟩ := Growing.exists_addEdge (s := g.web.next)
      ⟨h₁.coherent, h₁.recorded, h₁.grown, h₁.awaits.cons hz₁.not_isEnd⟩ hz₁.has (hgrown₁.has hx)
      (h.coherent.valid.ne_next hx).symm k
    have hgrown₂ := hgrown₁.trans (.of_kind hkind₂)
    obtain ⟨legs, g₃, hok₃, h₃, hgrown₃, hlegs⟩ := ih h₂ fun e he =>
      hgrown₂.has (hends e (List.mem_cons_of_mem _ he))
    refine ⟨g.web.next :: legs, g₃, ?_, h₃, hgrown₂.trans hgrown₃, fun z hz => ?_⟩
    · rw [addLegs]
      change ((g.addSpider .zero q c).2.addEdge g.web.next x k >>= fun g => _) = _
      rw [hok₂]
      change (g₂.addLegs q c rest >>= fun r => _) = _
      rw [hok₃]
      rfl
    · rcases List.mem_cons.1 hz with rfl | hz
      · refine hgrown₃.isZ ?_
        rw [Web.IsZ, hkind₂]
        exact hz₁
      · exact hlegs z hz

theorem mem_of_mem_selectBits {α : Type} {bits : ℕ} {l : List α} {x : α}
    (hx : x ∈ selectBits bits l) : x ∈ l := by
  rw [selectBits, List.mem_map] at hx
  obtain ⟨⟨y, i⟩, hy, rfl⟩ := hx
  exact (List.mem_zipIdx (List.mem_of_mem_filter hy)).2.2 ▸ List.getElem_mem _

/-- The phase of a set of wires. -/
theorem Growing.exists_addParity {b : BoxLegs} (h : Growing w₀ [] g)
    (hlegs : ∀ z ∈ b.legs, g.web.IsZ z) (bits : ℕ) :
    ∃ g', addParity b g bits = .ok g' ∧ Growing w₀ [] g' ∧ Web.Grown g.web g'.web := by
  have hmembers : ∀ z ∈ selectBits bits b.legs, g.web.IsZ z := fun z hz =>
    hlegs z (mem_of_mem_selectBits hz)
  rw [addParity]
  dsimp only
  split
  · next z hz =>
    have hz : g.web.IsZ z := hmembers z (by rw [hz]; exact List.mem_singleton_self z)
    set p := parityPhase b.legs.length (selectBits bits b.legs).length
    have hkind : (g.addToPhase z p).web.kind = g.web.kind := by
      rw [web_addToPhase]
      rfl
    refine ⟨_, rfl, ⟨Coherent.addToPhase h.coherent z p,
      (h.recorded.kept.addToPhase hz.has).recorded, h.grown.trans (.of_kind hkind), ?_⟩,
      .of_kind hkind⟩
    rw [web_addToPhase]
    exact h.awaits.of_count rfl fun _ ht => ht
  · set p := parityPhase b.legs.length (selectBits bits b.legs).length
    obtain ⟨h₁, hgrown₁, hz₁⟩ := h.addSpider (p := .zero) (q := b.qubit) (c := b.column)
    set g₁ := (g.addSpider .zero b.qubit b.column).2
    obtain ⟨h₂, hgrown₂, hz₂⟩ := h₁.addSpider (p := p) (q := b.qubit) (c := b.column)
    have haxle := hgrown₂.isZ hz₁
    obtain ⟨g₃, hok₃, h₃, hkind₃⟩ := h₂.exists_addEdge_isZ haxle hz₂
      (h₁.coherent.valid.ne_next hz₁.has) .hadamard
    have hgrown₃ := hgrown₁.trans (hgrown₂.trans (.of_kind hkind₃))
    obtain ⟨g₄, hok₄, h₄, hgrown₄⟩ := exists_foldlM
      (f := fun (g' : GraphLike) z => g'.addEdge z g.web.next .hadamard)
      (fun _ (g' : GraphLike) => Growing w₀ [] g' ∧ Web.Grown g₃.web g'.web)
      (selectBits bits b.legs) ⟨h₃, .of_kind rfl⟩ fun done z rest g' hl hinv => by
        obtain ⟨h', hgrown'⟩ := hinv
        have hz := hmembers z (hl ▸ List.mem_append_right done List.mem_cons_self)
        have haxle' : g₃.web.IsZ g.web.next := by
          rw [Web.IsZ, hkind₃]
          exact haxle
        obtain ⟨g'', hok, h'', hkind⟩ := h'.exists_addEdge_isZ (hgrown'.isZ (hgrown₃.isZ hz))
          (hgrown'.isZ haxle') (h.coherent.valid.ne_next hz.has) .hadamard
        exact ⟨g'', hok, h'', hgrown'.trans (.of_kind hkind)⟩
    refine ⟨g₄, ?_, h₄, hgrown₃.trans hgrown₄⟩
    change ((g₁.addSpider p b.qubit b.column).2.addEdge g.web.next g₁.web.next .hadamard >>=
      fun g => _) = _
    rw [hok₃]
    exact hok₄

/-- A box with all of its wires taken out. -/
theorem exists_removed (hg : g.Coherent) (hr : g.Recorded) (hw : g.web.Hung) (hh : g.web.Has h)
    (hends : g.web.EndsAre h ends) : ∃ g', g.removeSpider h = .ok g' ∧
      Growing (g.web.remove h) (ends.map Prod.fst) g' ∧ g'.web = g.web.remove h := by
  obtain ⟨g', hok, hg', hw', -⟩ := Gives.removeSpider hg hh
  have hrecorded := hr.removeSpider (v := h)
  rw [hok] at hrecorded
  refine ⟨g', hok, ⟨hg', hrecorded, .of_kind (by rw [hw']), ?_⟩, hw'⟩
  rw [hw']
  exact hw.awaits_remove hends

theorem exists_expandBox (hg : g.Coherent) (hr : g.Recorded) (hw : g.web.Hung) (hh : g.web.Has h)
    (hends : g.web.EndsAre h ends) :
    ∃ g', g.expandBox h ends = .ok g' ∧ Growing (g.web.remove h) [] g' := by
  obtain ⟨g₁, hok₁, h₁, hw₁⟩ := exists_removed hg hr hw hh hends
  obtain ⟨legs, g₂, hok₂, h₂, hgrown₂, hlegs⟩ := h₁.exists_addLegs (q := g.qubit? h)
    (c := g.column? h) fun e he => by
      have hhas := hg.valid.has_of_endsAre hends he
      rw [hw₁, Web.Has, Web.kind_remove, update_of_ne hhas.2]
      exact hhas.1
  obtain ⟨g₃, hok₃, h₃, -⟩ := exists_foldlM (f := addParity ⟨legs, g.qubit? h, g.column? h⟩)
    (fun _ (g' : GraphLike) => Growing (g.web.remove h) [] g' ∧ Web.Grown g₂.web g'.web)
    ((List.range (1 <<< legs.length)).drop 1) ⟨h₂, .of_kind rfl⟩
    fun done bits rest g' _ hinv => by
      obtain ⟨h', hgrown'⟩ := hinv
      obtain ⟨g'', hok, h'', hgrown''⟩ := h'.exists_addParity
        (b := ⟨legs, g.qubit? h, g.column? h⟩) (fun z hz => hgrown'.isZ (hlegs z hz)) bits
      exact ⟨g'', hok, h'', hgrown'.trans hgrown''⟩
  refine ⟨g₃, ?_, h₃⟩
  rw [expandBox]
  change (g.removeSpider h >>= fun g' => _) = _
  rw [hok₁]
  change (g₁.addLegs (g.qubit? h) (g.column? h) ends >>= fun r => _) = _
  rw [hok₂]
  exact hok₃

/-- A box with one wire becomes a Z spider. -/
theorem growing_recoloured (hg : g.Coherent) (hr : g.Recorded) (hw : g.web.Hung)
    (hbox : g.web.kind h = some .box) :
    Growing (g.web.remove h) [] { g.setPhase h .pi with kinds := g.kinds.insert h .z } := by
  set g' : GraphLike := { g.setPhase h .pi with kinds := g.kinds.insert h .z }
  have hhas := Web.has_of_kind hbox
  have hkind : g'.web.kind = update g.web.kind h (some .z) := VertexMap.insert_eq g.kinds h .z
  have hz : g'.web.IsZ h := by rw [Web.IsZ, hkind, update_self]
  have hhas' (v : Vertex) : g'.web.Has v ↔ g.web.Has v := by
    rw [Web.Has, hkind]
    by_cases hv : v = h
    · subst hv
      simp [hhas]
    · rw [update_of_ne hv, Web.Has]
  refine ⟨⟨hg.wf, fun v => (hhas' v).trans (hg.has v)⟩, fun v => ?_, fun v => ?_, ?_⟩
  · exact ((hr.kept.setPhase (p := .pi) hhas).recorded v).trans (hhas' v).symm
  · by_cases hv : v = h
    · refine .inr ⟨?_, hv ▸ hz⟩
      rw [Web.Has, Web.kind_remove, hv, update_self]
      simp
    · exact .inl (by rw [hkind, Web.kind_remove, update_of_ne hv, update_of_ne hv])
  · refine hw.awaits.of_count rfl fun t ht => ?_
    have hth : t ≠ h := fun he => hz.not_isEnd (he ▸ ht)
    rwa [Web.IsEnd, hkind, update_of_ne hth] at ht

/-- Taking out a box. -/
theorem exists_removeBox (hg : g.Coherent) (hr : g.Recorded) (hw : g.web.Hung)
    (hbox : g.web.kind h = some .box) :
    ∃ g', g.removeBox h = .ok g' ∧ Growing (g.web.remove h) [] g' := by
  have hh := Web.has_of_kind hbox
  obtain ⟨links, hok, hlinks⟩ := exists_links hg hh
  have hends := hlinks.endsAre
  have hprogram := removeBox_eq hok
  obtain ⟨g₁, hok₁, h₁, hw₁⟩ := exists_removed hg hr hw hh hends
  rcases hl : links.flatMap fun l => List.replicate l.count (l.node, l.kind) with
    - | ⟨⟨a, first⟩, - | ⟨⟨b, second⟩, - | ⟨e, rest⟩⟩⟩
  · rw [hl] at hprogram h₁
    exact ⟨g₁, hprogram.trans hok₁, h₁⟩
  · rw [hl] at hprogram
    exact ⟨_, hprogram, growing_recoloured hg hr hw hbox⟩
  · rw [hl, hok₁] at hprogram
    have hold {x : Vertex} {k : EdgeKind} (hx : (x, k) ∈ [(a, first), (b, second)]) :
        g₁.web.Has x := by
      have hhas := hg.valid.has_of_endsAre (hl ▸ hends) hx
      rw [hw₁, Web.Has, Web.kind_remove, update_of_ne hhas.2]
      exact hhas.1
    rw [hprogram]
    rw [hl] at h₁
    change ∃ g', (if a = b then .ok _ else g₁.addEdge a b _) = _ ∧ _
    split_ifs with hab hodd
    · have ha := hold List.mem_cons_self
      have hkind : (g₁.addToPhase a .pi).web.kind = g₁.web.kind := by
        rw [web_addToPhase]
        rfl
      subst hab
      refine ⟨_, rfl, Coherent.addToPhase h₁.coherent a .pi,
        (h₁.recorded.kept.addToPhase ha).recorded, h₁.grown.trans (.of_kind hkind), ?_⟩
      rw [web_addToPhase]
      exact Web.Awaits.of_cons_cons (h₁.awaits.of_count rfl fun _ ht => ht)
    · subst hab
      exact ⟨g₁, rfl, h₁.coherent, h₁.recorded, h₁.grown, Web.Awaits.of_cons_cons h₁.awaits⟩
    · obtain ⟨g₂, hok₂, h₂, -⟩ := Growing.exists_addEdge h₁ (hold List.mem_cons_self)
        (hold (List.mem_cons_of_mem _ List.mem_cons_self)) hab _
      exact ⟨g₂, hok₂, h₂⟩
  · rw [hl] at hprogram hends
    rw [hprogram]
    exact exists_expandBox hg hr hw hh hends

/-- A diagram on the way to graph-like form, with the ends of the one it is made from. -/
structure Underway (w₀ : Web) (g : GraphLike) : Prop where
  coherent : g.Coherent
  recorded : g.Recorded
  hung : g.web.Hung
  sameEnds : Web.SameEnds w₀ g.web

/-- Taking out all boxes. -/
theorem Underway.exists_removeBoxes (hg : Underway w₀ g) : ∃ g', g.removeBoxes = .ok g' ∧
    Underway w₀ g' ∧ ∀ v, g'.web.kind v ≠ some .box :=
  GraphLike.exists_removeBoxes (fun _ h => h.coherent) (fun g h hg hbox _ => by
    obtain ⟨g', hok, hg'⟩ := exists_removeBox hg.coherent hg.recorded hg.hung hbox
    refine ⟨g', hok, ⟨hg'.coherent, hg'.recorded, hg'.awaits.hung hg'.coherent.valid,
      hg.sameEnds.trans (hg'.grown.sameEnds hbox)⟩, fun v => hg'.grown.box_iff⟩) hg

/-! ### Colours and fusion -/

theorem Kept.moveLink {g₀ : GraphLike} {l : Link} (h : Kept g₀ g) (hv : g₀.web.Has v) :
    Keeping g₀ (moveLink v g l) := by
  rw [GraphLike.moveLink]
  split
  · exact Kept.stable.leaves_rewire h Multigraph.leaves_addEdges
  · split
    · exact h.addToPhase hv
    · exact h

theorem Recorded.fuseInto (hr : g.Recorded) (hv : g.web.Has v) : Recording (g.fuseInto v u) := by
  rw [GraphLike.fuseInto]
  refine Leaves.after fun links _ => ?_
  refine (Leaves.foldlM (hr.kept.addToPhase hv) fun l _ g₁ h₁ => h₁.moveLink hv).bind
    fun g₁ h₁ => ?_
  exact h₁.mergeCarriers.recorded.removeSpider

theorem Recorded.recolour (hr : g.Recorded) (hx : g.web.kind v = some .x) :
    Recording (g.recolour v) := by
  rw [GraphLike.recolour, Diagram.kind_eq hx]
  refine Leaves.after (x := g.graph.links v) fun links _ => Leaves.after fun cut _ =>
    Leaves.after fun graph _ u => ?_
  change (g.phases[u]?).isSome ↔ ((g.kinds.insert v .z)[u]?).isSome
  rw [isSome_insert, hr u, or_iff_right_of_imp]
  · exact .rfl
  · rintro rfl
    exact Web.has_of_kind hx

/-- Recolouring and fusing keep the ends, and the phases recorded. -/
theorem Underway.lasting : Lasting (Underway w₀) where
  coherent g h := h.coherent
  recolour g g' v h hx hok hg' hw' := by
    have hr := h.recorded.recolour hx
    rw [hok] at hr
    refine ⟨hg', hr, ?_, ?_⟩
    · rw [hw']
      exact h.hung.flip hx rfl
    · rw [hw']
      exact h.sameEnds.trans (Web.sameEnds_flip hx rfl)
  fuseInto g g' v u links h hv hu hne hlinks _ hok hg' hw' := by
    have hr := h.recorded.fuseInto (u := u) hv.has
    rw [hok] at hr
    refine ⟨hg', hr, ?_, ?_⟩
    · rw [hw']
      exact hlinks.hung_takeIn hv hu hne h.hung
    · rw [hw']
      exact h.sameEnds.trans (Web.sameEnds_takeIn hu)

/-! ### The conversion -/

/-- A diagram, each end of which has a single edge, has a graph-like form with the same ends. -/
theorem exists_ofDiagram_formed (hd : d.Coherent) (hw : d.web.Hung) : ∃ g, ofDiagram d = .ok g ∧
    g.Coherent ∧ g.Recorded ∧ g.web.Formed ∧ Web.SameEnds d.web g.web := by
  obtain ⟨g₁, hok₁, hg₁, hr₁, hk₁, hc₁, -⟩ := exists_start hd
  have h₁ : Underway d.web g₁ := by
    have hsame : Web.SameEnds d.web g₁.web := fun v => .inl (congrFun hk₁ v)
    refine ⟨hg₁, hr₁, (hw.awaits.of_count hc₁ fun t ht => hsame.isEnd.1 ht).hung hg₁.valid, hsame⟩
  obtain ⟨g₂, hok₂, h₂, hbox⟩ := h₁.exists_removeBoxes
  obtain ⟨g, g', hok, h, hu, hclear, hg', hw', hp', -⟩ :=
    Underway.lasting.exists_reduced hok₁ hok₂ h₂ hbox
  refine ⟨g', hok, hg', fun v => ?_, ?_, ?_⟩
  · rw [hp', hw']
    exact h.recorded v
  · rw [hw']
    exact h.hung.formed_reduced hu hclear
  · rw [hw']
    exact h.sameEnds

end GraphLike

end ZXRewriting
