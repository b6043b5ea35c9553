import ZXRewriting.Proofs.Diagram.Sites
import ZXRewriting.Proofs.GraphLike.Unboxing

/-!
# A change of colour and back

Turning an X spider into a Z spider with boxes around it, and changing the colour of that, gives back
what was there (`Diagram.exists_hadamard_colourChange`), up to the numbers that the boxes took.

Both rules go box by box. In between, some wires of the spider lead through boxes (`Detoured`): each
new box takes the place of one wire, and each absorbed box gives it back.
-/

namespace ZXRewriting

open Function (update update_self update_of_ne)
open Multigraph (SamePair)

/-- A box on a wire of a spider, and what lies behind it. -/
structure BoxedWire where
  box : Vertex
  far : Vertex

/-- The spiders below a number lie where they lay, and there are as many wires. -/
structure Layout.KeepsBelow (n : ℕ) (l l' : Layout) : Prop where
  wires : l'.wires = l.wires
  qubit : ∀ x < n, l'.qubit? x = l.qubit? x
  column : ∀ x < n, l'.column? x = l.column? x

namespace Layout.KeepsBelow

variable {n : ℕ} {l l' : Layout} {v : Vertex}

theorem refl : KeepsBelow n l l := ⟨rfl, fun _ _ => rfl, fun _ _ => rfl⟩

theorem place (h : KeepsBelow n l l') (hv : n ≤ v) (qubit column) :
    KeepsBelow n l (l'.place v qubit column) where
  wires := by
    rw [← h.wires]
    cases qubit <;> cases column <;> rfl
  qubit x hx := by rw [qubit?_place, if_neg (Nat.ne_of_lt (Nat.lt_of_lt_of_le hx hv)).symm, h.qubit x hx]
  column x hx := by rw [column?_place, if_neg (Nat.ne_of_lt (Nat.lt_of_lt_of_le hx hv)).symm, h.column x hx]

theorem remove (h : KeepsBelow n l l') (hv : n ≤ v) : KeepsBelow n l (l'.remove v) where
  wires := h.wires
  qubit x hx := by
    rw [← h.qubit x hx]
    exact (congrFun (VertexMap.erase_eq l'.qubits v) x).trans
      (update_of_ne (Nat.ne_of_lt (Nat.lt_of_lt_of_le hx hv)) _ _)
  column x hx := by
    rw [← h.column x hx]
    exact (congrFun (VertexMap.erase_eq l'.columns v) x).trans
      (update_of_ne (Nat.ne_of_lt (Nat.lt_of_lt_of_le hx hv)) _ _)

end Layout.KeepsBelow

namespace Diagram

open Web

variable {w : Web} {l : Layout} {u v : Vertex} {bs : List BoxedWire} {b : BoxedWire} {d : Diagram}
  {kind : SpiderKind}

/-- A spider that is carried comes to be of another colour, and nothing else changes. -/
theorem web_setKind (hd : d.Coherent) (hv : d.web.Has v) (hkind : kind.isPhased)
    (hcarried : (d.web.carrier v).isSome) : (d.setKind v kind).web = d.web.paint v kind := by
  obtain ⟨-, carrier, hweb⟩ := exists_setKind hd hv kind hkind
  have hcarrier : (d.setKind v kind).web.carrier = d.web.carrier := by
    funext x
    change (d.setKind v kind).carriers[x]? = d.carriers[x]?
    have hmem : v ∈ d.carriers := Std.ExtTreeMap.mem_iff_isSome_getElem?.2 hcarried
    rw [setKind, if_pos hkind, Std.ExtTreeMap.getElem?_insertIfNew, if_neg fun h => h.2 hmem]
  rw [hweb] at hcarrier ⊢
  rw [show carrier = d.web.carrier from hcarrier]
  rfl

/-- A diagram that has the given web and layout, but for some wires of a spider that lead through
    boxes. -/
structure Detoured (w : Web) (l : Layout) (v : Vertex) (bs : List BoxedWire) (d : Diagram) :
    Prop where
  coherent : d.Coherent
  plain : d.web.Plain
  next_le : w.next ≤ d.web.next
  inputs : d.web.inputs = w.inputs
  outputs : d.web.outputs = w.outputs
  kind : ∀ x, d.web.kind x = if x ∈ bs.map BoxedWire.box then some .box else w.kind x
  phase : ∀ x < w.next, d.web.phase x = w.phase x
  carrier : ∀ x < w.next, d.web.carrier x = w.carrier x
  carried : ∀ x c, d.web.carrier x = some c → w.carrier x = some c
  laid : l.KeepsBelow w.next d.layout
  near : ∀ x < w.next,
    d.web.count v x .plain + (bs.map BoxedWire.far).count x = w.count v x .plain
  away : ∀ x y, x < w.next → y < w.next → x ≠ v → y ≠ v →
    d.web.count x y .plain = w.count x y .plain
  ascending : (bs.map BoxedWire.box).Pairwise (· < ·)
  fresh : ∀ b ∈ bs, w.next ≤ b.box
  far : ∀ b ∈ bs, b.far ≠ v ∧ w.Has b.far
  links : ∀ b ∈ bs, d.web.EndsAre b.box [(v, .plain), (b.far, .plain)]

namespace Detoured

theorem refl (hd : d.Coherent) (hplain : d.web.Plain) : Detoured d.web d.layout v [] d where
  coherent := hd
  plain := hplain
  next_le := le_refl _
  inputs := rfl
  outputs := rfl
  kind _ := rfl
  phase _ _ := rfl
  carrier _ _ := rfl
  carried _ _ := id
  laid := .refl
  near _ _ := rfl
  away _ _ _ _ _ _ := rfl
  ascending := .nil
  fresh := by simp
  far := by simp
  links := by simp

/-- The old spiders are no boxes on the wires. -/
theorem notMem (h : Detoured w l v bs d) {x : Vertex} (hx : x < w.next) :
    x ∉ bs.map BoxedWire.box := by
  rw [List.mem_map]
  rintro ⟨b, hb, rfl⟩
  exact absurd (h.fresh b hb) (Nat.not_le_of_lt hx)

theorem kind_old (h : Detoured w l v bs d) {x : Vertex} (hx : x < w.next) :
    d.web.kind x = w.kind x := by rw [h.kind, if_neg (h.notMem hx)]

theorem kind_box (h : Detoured w l v bs d) (hb : b ∈ bs) : d.web.kind b.box = some .box := by
  rw [h.kind, if_pos (List.mem_map_of_mem hb)]

theorem has (h : Detoured w l v bs d) (hw : w.Valid) (hu : w.Has u) : d.web.Has u := by
  rw [Has, h.kind_old (hw.lt u hu)]
  exact hu

theorem has_box (h : Detoured w l v bs d) (hb : b ∈ bs) : d.web.Has b.box := by
  rw [Has, h.kind_box hb]
  rfl

theorem box_ne (h : Detoured w l v bs d) (hb : b ∈ bs) {x : Vertex} (hx : x < w.next) :
    b.box ≠ x := fun e => h.notMem hx (e ▸ List.mem_map_of_mem hb)

/-! ### Boxes on all wires -/

/-- Cuts the wires to a neighbour, none of which leads through a box yet. -/
theorem cut (h : Detoured w l v bs d) (hw : w.Valid) (hv : w.Has v) (hu : w.Has u)
    (hfar : u ∉ bs.map BoxedWire.far) {d' : Diagram} (hd' : d'.Coherent)
    (hweb : d'.web = d.web.cut v u) (hlay : d'.layout = d.layout) :
    Detoured (w.cut v u) l v bs d' where
  coherent := hd'
  plain := hweb ▸ h.plain.cut
  next_le := hweb ▸ h.next_le
  inputs := hweb ▸ h.inputs
  outputs := hweb ▸ h.outputs
  kind := hweb ▸ h.kind
  phase := hweb ▸ h.phase
  carrier := hweb ▸ h.carrier
  carried := hweb ▸ h.carried
  laid := hlay ▸ h.laid
  near x hx := by
    rw [hweb, count_cut, count_cut]
    split
    · next hsame =>
      have hxu : x = u := by rcases hsame with ⟨-, rfl⟩ | ⟨rfl, rfl⟩ <;> rfl
      rw [hxu, List.count_eq_zero.2 hfar]
    · exact h.near x hx
  away x y hx hy hxv hyv := by
    have hoff : ¬SamePair x y v u := by simp only [SamePair]; tauto
    rw [hweb, count_cut, count_cut, if_neg hoff, if_neg hoff, h.away x y hx hy hxv hyv]
  ascending := h.ascending
  fresh := h.fresh
  far := h.far
  links b hb x k := by
    have hbv := h.box_ne hb (hw.lt v hv)
    have hbu := h.box_ne hb (hw.lt u hu)
    have hoff : ¬SamePair b.box x v u := by simp only [SamePair]; tauto
    rw [hweb, count_cut, if_neg hoff, h.links b hb x k]

section AddBetween

variable {d' : Diagram} (h : Detoured w l v bs d) (hw : w.Valid) (hv : w.Has v) (hu : w.Has u)
  (hvu : v ≠ u) (hweb : d'.web = d.web.addBetween v u .box .zero)
include h hw hv hu hvu hweb

theorem count_addBetween (x y : Vertex) (k : EdgeKind) : d'.web.count x y k =
    if SamePair x y d.web.next v ∨ SamePair x y d.web.next u then if k = .plain then 1 else 0
    else d.web.count x y k :=
  hweb ▸ h.coherent.valid.count_addBetween (h.has hw hv) (h.has hw hu) hvu x y k

omit hw hv hu hvu hweb in
theorem ne_next {x : Vertex} (hx : x < w.next) : x ≠ d.web.next :=
  Nat.ne_of_lt (Nat.lt_of_lt_of_le hx h.next_le)

/-- The edges between what was there before stay as they are. -/
theorem count_addBetween_old {x y : Vertex} (hx : x ≠ d.web.next) (hy : y ≠ d.web.next)
    (k : EdgeKind) : d'.web.count x y k = d.web.count x y k := by
  rw [h.count_addBetween hw hv hu hvu hweb, if_neg]
  simp only [SamePair]
  tauto

/-- One more of the wires to a neighbour leads through a box. -/
theorem near_addBetween {x : Vertex} (hx : x < w.next) : d'.web.count v x .plain +
    ((bs ++ [(⟨d.web.next, u⟩ : BoxedWire)]).map BoxedWire.far).count x =
      (w.addEdges v u .plain 1).count v x .plain := by
  rw [h.count_addBetween_old hw hv hu hvu hweb (h.ne_next (hw.lt v hv)) (h.ne_next hx),
    hw.count_addEdges_eq, ← h.near x hx, List.map_append, List.count_append, ← Nat.add_assoc]
  congr 1
  by_cases hxu : x = u
  · subst hxu
    simp [SamePair]
  · have hne : ¬SamePair v x v u := by
      simp only [SamePair]
      exact fun h => h.elim (fun h => hxu h.2) fun h => hxu (h.2.trans h.1)
    simp [hne, Ne.symm hxu]

theorem links_addBetween (hb : b ∈ bs ++ [⟨d.web.next, u⟩]) :
    d'.web.EndsAre b.box [(v, .plain), (b.far, .plain)] := by
  rcases List.mem_append.1 hb with hb | hb
  · have hbv := h.box_ne hb (hw.lt v hv)
    have hbu := h.box_ne hb (hw.lt u hu)
    have hbn := h.coherent.valid.ne_next (h.has_box hb)
    intro x k
    rw [← h.links b hb x k, h.count_addBetween hw hv hu hvu hweb, if_neg]
    simp only [SamePair]
    tauto
  · rw [List.mem_singleton.1 hb, endsAre_pair]
    intro x k
    rw [h.count_addBetween hw hv hu hvu hweb, h.coherent.valid.count_next]
    have hvn := h.ne_next (hw.lt v hv)
    have hun := h.ne_next (hw.lt u hu)
    simp only [SamePair]
    grind

/-- A new box instead of a wire. -/
theorem addBetween (hd' : d'.Coherent) (hlay : d'.layout = d.layout) (qubit column) :
    Detoured (w.addEdges v u .plain 1) l v (bs ++ [⟨d.web.next, u⟩])
      (d'.place d.web.next qubit column) := by
  have hval := h.coherent.valid
  refine {
    coherent := hd'.place _ _ _
    plain := fun x y => ?_
    next_le := ?_
    inputs := (congrArg Web.inputs hweb).trans h.inputs
    outputs := (congrArg Web.outputs hweb).trans h.outputs
    kind := fun x => ?_
    phase := fun x hx => ?_
    carrier := fun x hx => ?_
    carried := fun x c => ?_
    laid := Layout.KeepsBelow.place (hlay ▸ h.laid) h.next_le qubit column
    near := fun x hx => h.near_addBetween hw hv hu hvu hweb hx
    away := fun x y hx hy hxv hyv => ?_
    ascending := ?_
    fresh := List.forall_mem_append.2 ⟨h.fresh, List.forall_mem_singleton.2 h.next_le⟩
    far := List.forall_mem_append.2 ⟨h.far, List.forall_mem_singleton.2 ⟨hvu.symm, hu⟩⟩
    links := fun b hb => h.links_addBetween hw hv hu hvu hweb hb }
  · change d'.web.count x y _ = 0
    rw [h.count_addBetween hw hv hu hvu hweb]
    split
    · rfl
    · exact h.plain x y
  · change w.next ≤ d'.web.next
    rw [hweb]
    exact Nat.le_succ_of_le h.next_le
  · change d'.web.kind x = _
    rw [hweb, kind_addBetween, Function.update_apply, h.kind]
    simp only [List.map_append, List.map_cons, List.map_nil, List.mem_append, List.mem_singleton]
    by_cases hx : x = d.web.next
    · rw [if_pos hx, if_pos (.inr hx)]
    · simp only [hx, if_false, or_false]
      rfl
  · change d'.web.phase x = w.phase x
    rw [hweb, ← h.phase x hx]
    exact update_of_ne (h.ne_next hx) _ _
  · change d'.web.carrier x = w.carrier x
    rw [hweb]
    exact h.carrier x hx
  · change d'.web.carrier x = some c → w.carrier x = some c
    rw [hweb]
    exact h.carried x c
  · change d'.web.count x y .plain = _
    rw [h.count_addBetween_old hw hv hu hvu hweb (h.ne_next hx) (h.ne_next hy),
      hw.count_addEdges_eq, h.away x y hx hy hxv hyv, if_neg, Nat.add_zero]
    simp only [SamePair]
    tauto
  · rw [List.map_append, List.pairwise_append]
    refine ⟨h.ascending, List.pairwise_singleton _ _, fun x hx y hy => ?_⟩
    obtain ⟨b, hb, rfl⟩ := List.mem_map.1 hx
    rw [List.mem_singleton.1 hy]
    exact hval.lt _ (h.has_box hb)

end AddBetween

/-- Boxes instead of wires, which have been cut. -/
theorem exists_addSplits (hvu : v ≠ u) (m : ℕ) (h : Detoured w l v bs d) (hw : w.Valid)
    (hv : w.Has v) (hu : w.Has u) : ∃ vs d', d.addSplits v u .box .zero m = .ok (vs, d') ∧
      vs.length = m ∧ Detoured (w.addEdges v u .plain m) l v (bs ++ vs.map (⟨·, u⟩)) d' := by
  induction m generalizing w bs d with
  | zero => exact ⟨[], d, rfl, rfl, by rwa [hw.addEdges_zero, List.map_nil, List.append_nil]⟩
  | succ m ih =>
    have hwired : ∀ x ∈ [v, u], d.web.Has x := fun x hx => by
      rcases List.mem_pair.1 hx with rfl | rfl
      · exact h.has hw hv
      · exact h.has hw hu
    obtain ⟨d₁, hok, hd₁, hw₁, hl₁⟩ := Gives.addSpider h.coherent .box .zero hwired
    have h₁ := h.addBetween hw hv hu hvu hw₁ hd₁ hl₁ (d.qubit? v <|> d.qubit? u)
      (d.columnBetween v u)
    obtain ⟨vs, d', hok', hlen, h'⟩ := ih h₁ (hw.addEdges hv hu hvu 1) hv hu
    refine ⟨d.web.next :: vs, d', ?_, congrArg Nat.succ hlen, ?_⟩
    · rw [Diagram.addSplits, hok]
      change (Diagram.addSplits _ v u .box .zero m >>= _) = _
      rw [hok']
      rfl
    · rw [hw.addEdges_succ hv hu hvu, List.append_assoc] at h'
      exact h'

/-- Boxes on all wires to a neighbour. -/
theorem exists_insertSpider (h : Detoured w l v bs d) (hw : w.Valid) (hplain : w.Plain)
    (hv : w.Has v) (hu : w.Has u) (hvu : v ≠ u) (hfar : u ∉ bs.map BoxedWire.far) :
    ∃ vs d', d.insertSpider v u .box .zero = .ok (vs, d') ∧
      Detoured w l v (bs ++ vs.map (⟨·, u⟩)) d' ∧ d'.web.count v u .plain = 0 := by
  obtain ⟨graph, hok, d₁, hd₁, hco, hcut, hl₁⟩ :=
    exists_removeKind h.coherent (h.has hw hv) (h.plain v u)
  have h₁ := h.cut hw hv hu hfar hco hcut hl₁
  have hnone := List.count_eq_zero.2 hfar
  have hcount : d.graph.count v u .plain = w.count v u .plain := by
    have := h.near u (hw.lt u hu)
    rwa [hnone] at this
  obtain ⟨vs, d', hok', hlen, h'⟩ :=
    h₁.exists_addSplits hvu (w.count v u .plain) (hw.cut hv hu hvu) hv hu
  rw [hplain.addEdges_cut hw hv hu hvu] at h'
  refine ⟨vs, d', ?_, h', ?_⟩
  · rw [Diagram.insertSpider, hok]
    change Diagram.addSplits _ v u .box .zero _ = _
    rw [Except.ok.inj hd₁, hcount, hok']
  · have hnear := h'.near u (hw.lt u hu)
    rw [List.map_append, List.count_append, hnone, List.map_map, List.count_eq_length.2] at hnear
    · rw [List.length_map] at hnear
      omega
    · simp

/-- Boxes on the wires to some neighbours, none of which has a box yet, the others having no wire
    left. -/
theorem exists_insertAround (hw : w.Valid) (hplain : w.Plain) (hv : w.Has v) (us : List Vertex)
    (h : Detoured w l v bs d) (hnodup : us.Nodup) (hus : ∀ u ∈ us, w.Has u ∧ v ≠ u)
    (hfar : ∀ u ∈ us, u ∉ bs.map BoxedWire.far)
    (hnone : ∀ x < w.next, x ∉ us → d.web.count v x .plain = 0) :
    ∃ bs' d', us.foldlM (fun d u => return (← d.insertSpider v u .box .zero).2) d = .ok d' ∧
      Detoured w l v bs' d' ∧ ∀ x < w.next, d'.web.count v x .plain = 0 := by
  induction us generalizing bs d with
  | nil => exact ⟨bs, d, rfl, h, fun x hx => hnone x hx (by simp)⟩
  | cons u rest ih =>
    obtain ⟨hu, hvu⟩ := hus u List.mem_cons_self
    obtain ⟨hnotin, hnodup⟩ := List.nodup_cons.1 hnodup
    obtain ⟨vs, d₁, hok, h₁, hzero⟩ :=
      h.exists_insertSpider hw hplain hv hu hvu (hfar u List.mem_cons_self)
    have hfar₁ : ∀ x ∈ rest, x ∉ (bs ++ vs.map fun h => (⟨h, u⟩ : BoxedWire)).map BoxedWire.far := by
      intro x hx
      have hux : u ≠ x := fun e => hnotin (e ▸ hx)
      rw [List.map_append, List.mem_append, not_or, List.map_map]
      exact ⟨hfar x (List.mem_cons_of_mem u hx), by simp [hux]⟩
    have hnone₁ : ∀ x < w.next, x ∉ rest → d₁.web.count v x .plain = 0 := by
      intro x hx hrest
      by_cases hxu : x = u
      · rw [hxu, hzero]
      · have hle := h.near x hx
        rw [hnone x hx (by simp [hxu, hrest]), ← h₁.near x hx, List.map_append,
          List.count_append] at hle
        omega
    obtain ⟨bs', d', hok', h'⟩ :=
      ih h₁ hnodup (fun x hx => hus x (List.mem_cons_of_mem u hx)) hfar₁ hnone₁
    refine ⟨bs', d', ?_, h'⟩
    rw [List.foldlM_cons, hok]
    exact hok'

/-- Boxes on all wires. -/
theorem exists_boxed (hd : d.Coherent) (hplain : d.web.Plain) (hv : d.web.Has v) :
    ∃ bs d', (d.web.nearby v).foldlM (fun d u => return (← d.insertSpider v u .box .zero).2) d =
        .ok d' ∧ Detoured d.web d.layout v bs d' ∧
      ∀ x < d.web.next, d'.web.count v x .plain = 0 := by
  have hw := hd.valid
  refine (Detoured.refl hd hplain).exists_insertAround hw hplain hv _ nodup_nearby
    (fun u hu => ⟨hw.has_of_mem_nearby hu, hw.ne_of_mem_nearby hu⟩) (by simp) fun x _ hx => ?_
  rw [hw.mem_nearby, hplain.joins] at hx
  exact Nat.eq_zero_of_not_pos hx

/-- A spider all of whose wires lead through boxes has these as its neighbours. -/
theorem nearby_eq (h : Detoured w l v bs d) (hw : w.Valid)
    (hnone : ∀ x < w.next, d.web.count v x .plain = 0) :
    d.web.nearby v = bs.map BoxedWire.box := by
  have hval := h.coherent.valid
  refine List.Perm.eq_of_pairwise (fun _ _ _ _ h₁ h₂ => absurd h₂ (Nat.lt_asymm h₁))
    pairwise_nearby h.ascending ((List.perm_ext_iff_of_nodup nodup_nearby
      (h.ascending.imp Nat.ne_of_lt)).2 fun x => ?_)
  rw [hval.mem_nearby, h.plain.joins, hval.symm]
  constructor
  · intro hx
    by_contra hnot
    have hhas := hval.has x v _ hx
    rw [Has, h.kind, if_neg hnot] at hhas
    rw [hval.symm, hnone x (hw.lt x hhas)] at hx
    exact absurd hx (Nat.lt_irrefl _)
  · intro hx
    obtain ⟨b, hb, rfl⟩ := List.mem_map.1 hx
    rw [h.links b hb]
    exact List.count_pos_iff.2 List.mem_cons_self

/-! ### Another colour -/

/-- The spider in the middle comes to be of another colour. -/
theorem setKind (h : Detoured w l v bs d) (hw : w.Valid) (hv : w.Has v) (kind : SpiderKind)
    (hkind : kind.isPhased) (hcarried : (w.carrier v).isSome) :
    Detoured (w.paint v kind) l v bs (d.setKind v kind) := by
  have hv' := h.has hw hv
  have hpainted : (d.setKind v kind).web = d.web.paint v kind :=
    web_setKind h.coherent hv' hkind (by rwa [h.carrier v (hw.lt v hv)])
  have hlay : (d.setKind v kind).layout = d.layout := by
    rw [Diagram.setKind, if_pos hkind]
  exact {
    coherent := (exists_setKind h.coherent hv' kind hkind).1
    plain := hpainted ▸ h.plain
    next_le := hpainted ▸ h.next_le
    inputs := hpainted ▸ h.inputs
    outputs := hpainted ▸ h.outputs
    kind := fun x => by
      change (d.setKind v kind).web.kind x = if _ then _ else update w.kind v _ x
      rw [hpainted]
      change update d.web.kind v _ x = _
      by_cases hx : x = v
      · rw [hx, update_self, update_self, if_neg (h.notMem (hw.lt v hv))]
      · rw [update_of_ne hx, update_of_ne hx, h.kind]
    phase := hpainted ▸ h.phase
    carrier := hpainted ▸ h.carrier
    carried := hpainted ▸ h.carried
    laid := hlay ▸ h.laid
    near := hpainted ▸ h.near
    away := hpainted ▸ h.away
    ascending := h.ascending
    fresh := h.fresh
    far := fun b hb => ⟨(h.far b hb).1, (has_paint hv).2 (h.far b hb).2⟩
    links := hpainted ▸ h.links }

/-! ### Boxes absorbed -/

section AbsorbBox

variable {d' : Diagram} (h : Detoured w l v (b :: bs) d) (hw : w.Valid) (hv : w.Has v)
  (hweb : d'.web = (d.web.remove b.box).addEdges v b.far .plain 1)
include h hw hv hweb

omit hw hv in
theorem count_absorbed (x y : Vertex) (k : EdgeKind) : d'.web.count x y k =
    (if x = b.box ∨ y = b.box then 0 else d.web.count x y k) +
      if SamePair x y v b.far ∧ .plain = k then 1 else 0 := by
  rw [hweb, (h.coherent.valid.remove b.box).count_addEdges_eq]
  rfl

/-- One of the wires to a neighbour is given back. -/
theorem near_absorbed {x : Vertex} (hx : x < w.next) :
    d'.web.count v x .plain + (bs.map BoxedWire.far).count x = w.count v x .plain := by
  have hold {x : Vertex} (hx : x < w.next) : x ≠ b.box := (h.box_ne List.mem_cons_self hx).symm
  have hne := (h.far b List.mem_cons_self).1
  have hsame : SamePair v x v b.far ↔ b.far = x := by
    simp only [SamePair]
    grind
  rw [h.count_absorbed hweb, if_neg (not_or.2 ⟨hold (hw.lt v hv), hold hx⟩), ← h.near x hx,
    List.map_cons, List.count_cons]
  simp only [hsame, and_true, beq_iff_eq]
  omega

/-- The other boxes stay on their wires. -/
theorem links_absorbed {c : BoxedWire} (hc : c ∈ bs) :
    d'.web.EndsAre c.box [(v, .plain), (c.far, .plain)] := fun x k => by
  have hmem : b ∈ b :: bs := List.mem_cons_self
  have hc' := List.mem_cons_of_mem b hc
  have hbelow := (List.pairwise_cons.1 h.ascending).1
  have hcb : c.box ≠ b.box := (Nat.ne_of_lt (hbelow _ (List.mem_map_of_mem hc))).symm
  have hcv := h.box_ne hc' (hw.lt v hv)
  have hcfar := h.box_ne hc' (hw.lt _ (h.far b hmem).2)
  have hoff : ¬(SamePair c.box x v b.far ∧ EdgeKind.plain = k) := by
    simp only [SamePair]
    tauto
  rw [h.count_absorbed hweb, if_neg hoff, Nat.add_zero, ← h.links c hc' x k]
  split
  · next hx =>
    -- no wire joins two of the boxes
    rw [hx.resolve_left hcb, endsAre_pair.1 (h.links c hc')]
    have hbv := h.box_ne hmem (hw.lt v hv)
    have hbfar := h.box_ne hmem (hw.lt _ (h.far c hc').2)
    simp [hbv, hbfar]
  · rfl

/-- A wire instead of a box. -/
theorem absorbed (hd' : d'.Coherent) (hlay : l.KeepsBelow w.next d'.layout) :
    Detoured w l v bs d' := by
  have hmem : b ∈ b :: bs := List.mem_cons_self
  have hold {x : Vertex} (hx : x < w.next) : x ≠ b.box := (h.box_ne hmem hx).symm
  obtain ⟨hbelow, hascending⟩ := List.pairwise_cons.1 h.ascending
  refine {
    coherent := hd'
    plain := hweb ▸ h.plain.remove.addEdges
    next_le := hweb ▸ h.next_le
    inputs := hweb ▸ h.inputs
    outputs := hweb ▸ h.outputs
    kind := fun x => ?_
    phase := fun x hx => ?_
    carrier := fun x hx => ?_
    carried := fun x c => ?_
    laid := hlay
    near := fun x hx => h.near_absorbed hw hv hweb hx
    away := fun x y hx hy hxv hyv => ?_
    ascending := hascending
    fresh := fun c hc => h.fresh c (List.mem_cons_of_mem b hc)
    far := fun c hc => h.far c (List.mem_cons_of_mem b hc)
    links := fun c hc => h.links_absorbed hw hv hweb hc }
  · rw [hweb]
    change update d.web.kind b.box none x = _
    by_cases hx : x = b.box
    · have hnone : w.kind b.box = none := by
        by_contra hsome
        exact Nat.not_lt_of_le (h.fresh b hmem) (hw.lt _ (Option.isSome_iff_ne_none.2 hsome))
      have hnotin : b.box ∉ bs.map BoxedWire.box := fun hm => Nat.lt_irrefl _ (hbelow _ hm)
      rw [hx, update_self, if_neg hnotin, hnone]
    · rw [update_of_ne hx, h.kind]
      simp [hx]
  · rw [hweb, ← h.phase x hx]
    exact update_of_ne (hold hx) _ _
  · rw [hweb, ← h.carrier x hx]
    exact update_of_ne (hold hx) _ _
  · rw [hweb]
    change update d.web.carrier b.box none x = some c → _
    rw [Function.update_apply]
    split
    · intro hc
      cases hc
    · exact h.carried x c
  · rw [h.count_absorbed hweb, if_neg (not_or.2 ⟨hold hx, hold hy⟩), if_neg, Nat.add_zero]
    · exact h.away x y hx hy hxv hyv
    · simp only [SamePair]
      tauto

end AbsorbBox

/-- Absorbing a box gives back its wire. -/
theorem exists_absorbBox (h : Detoured w l v (b :: bs) d) (hw : w.Valid) (hv : w.Has v) :
    ∃ d', absorbBox v d b.box = .ok d' ∧ Detoured w l v bs d' := by
  have hmem : b ∈ b :: bs := List.mem_cons_self
  obtain ⟨hne, hfar⟩ := h.far b hmem
  have hbox := h.has_box hmem
  obtain ⟨d₁, hok₁, hd₁, hw₁, hl₁⟩ := Gives.removeSpider h.coherent hbox
  have hhas {x : Vertex} (hx : w.Has x) : d₁.web.Has x := by
    rw [hw₁, Has, kind_remove, update_of_ne (h.box_ne hmem (hw.lt x hx)).symm]
    exact h.has hw hx
  obtain ⟨d', hok, hd', hw', hl'⟩ := Gives.addWire hd₁ (hhas hv) (hhas hfar) hne.symm
  rw [hw₁] at hw'
  refine ⟨d', ?_, h.absorbed hw hv hw' hd' ?_⟩
  · rw [absorbBox, Diagram.neighborSet, neighborSet_eq h.coherent hbox]
    change (d.removeSpider b.box >>= fun d => _) = _
    rw [hok₁, h.coherent.valid.find_nearby hne (h.links b hmem)]
    exact hok
  · rw [hl', hl₁]
    exact h.laid.remove (h.fresh b hmem)

/-- Absorbing all boxes gives back all wires. -/
theorem exists_absorbBoxes (h : Detoured w l v bs d) (hw : w.Valid) (hv : w.Has v) :
    ∃ d', (bs.map BoxedWire.box).foldlM (absorbBox v) d = .ok d' ∧ Detoured w l v [] d' := by
  induction bs generalizing d with
  | nil => exact ⟨d, rfl, h⟩
  | cons b rest ih =>
    obtain ⟨d₁, hok, h₁⟩ := h.exists_absorbBox hw hv
    obtain ⟨d', hok', h'⟩ := ih h₁
    refine ⟨d', ?_, h'⟩
    rw [List.map_cons, List.foldlM_cons, hok]
    exact hok'

/-- Each box lies on a wire between two spiders. -/
theorem isWireBox_eq (h : Detoured w l v bs d) (hb : b ∈ bs) : d.isWireBox b.box = .ok true := by
  have hval := h.coherent.valid
  have hhas := h.has_box hb
  have hends := h.links b hb
  have hpair : (d.web.nearby b.box).Perm [v, b.far] := by
    refine (List.perm_ext_iff_of_nodup nodup_nearby ?_).2 fun x => ?_
    · simp [(h.far b hb).1.symm]
    · rw [hval.mem_nearby, hends.joins_pos_iff]
      simp
  rw [isWireBox, and_eq_true_iff, and_eq_true_iff, kind_eq (h.kind_box hb), Diagram.degree,
    degree_eq h.coherent hhas, hends.degree_eq hval, Diagram.neighborSet,
    neighborSet_eq h.coherent hhas]
  refine ⟨rfl, rfl, ?_⟩
  change Except.ok ((d.web.nearby b.box).length == 2) = _
  rw [hpair.length_eq]
  rfl

/-- The boxes on the wires of a spider are those around it. -/
theorem boxesAround_eq (h : Detoured w l v bs d) (hw : w.Valid) (hv : w.Has v)
    (hnone : ∀ x < w.next, d.web.count v x .plain = 0) :
    d.boxesAround v = .ok (bs.map BoxedWire.box) := by
  have hfilter : (bs.map BoxedWire.box).filterM
      (fun h => (return (← d.kind h) == .box : Except Fault Bool)) =
        .ok ((bs.map BoxedWire.box).filter fun _ => true) := filterM_eq fun x hx => by
    obtain ⟨b, hb, rfl⟩ := List.mem_map.1 hx
    rw [kind_eq (h.kind_box hb)]
    rfl
  rw [boxesAround, Diagram.neighborSet, neighborSet_eq h.coherent (h.has hw hv),
    h.nearby_eq hw hnone]
  exact hfilter.trans (congrArg Except.ok (List.filter_true _))

/-- A coloured spider all of whose wires lead through boxes can change its colour. -/
theorem check_eq (h : Detoured w l v bs d) (hw : w.Valid) (hv : w.kind v = some kind)
    (hkind : kind.isPhased) (hsome : bs ≠ [])
    (hnone : ∀ x < w.next, d.web.count v x .plain = 0) :
    DiagramRule.colourChange.check d (v :: bs.map BoxedWire.box) = .ok true := by
  have hval := h.coherent.valid
  have hvhas : w.Has v := by rw [Has, hv]; rfl
  have hdv := h.has hw hvhas
  have hnear := h.nearby_eq hw hnone
  have hpos : 0 < d.web.degree v := by
    obtain ⟨b, hb⟩ := List.exists_mem_of_ne_nil _ hsome
    have hmem : b.box ∈ d.web.nearby v := hnear ▸ List.mem_map_of_mem hb
    rw [degree_eq_sum hval]
    exact Nat.lt_of_lt_of_le (hval.mem_nearby.1 hmem)
      (List.single_le_sum (by simp) _ (List.mem_map_of_mem hmem))
  have hall : (d.web.nearby v).allM (fun h => d.isWireBox h <&&> (return (← d.wires v h) == 1)) =
      .ok ((d.web.nearby v).all fun _ => true) := allM_eq fun x hx => by
    rw [hnear] at hx
    obtain ⟨b, hb, rfl⟩ := List.mem_map.1 hx
    rw [and_eq_true_iff]
    refine ⟨h.isWireBox_eq hb, ?_⟩
    rw [wires_eq h.coherent hdv, hval.symm, h.links b hb, List.count_cons_self,
      List.count_eq_zero.2]
    · rfl
    · simpa using (h.far b hb).1.symm
  refine (check_iff h.coherent).2 ⟨fun x hx => ?_, ?_⟩
  · rcases List.mem_cons.1 hx with rfl | hx
    · exact hdv
    · obtain ⟨b, hb, rfl⟩ := List.mem_map.1 hx
      exact h.has_box hb
  · rw [DiagramRule.checkPresent, and_eq_true_iff, h.boxesAround_eq hw hvhas hnone,
      checkColourChange, and_eq_true_iff, and_eq_true_iff,
      kind_eq ((h.kind_old (hw.lt v hvhas)).trans hv), Diagram.degree, degree_eq h.coherent hdv,
      Diagram.neighborSet, neighborSet_eq h.coherent hdv]
    refine ⟨⟨congrArg Except.ok hkind, congrArg Except.ok (decide_eq_true hpos), ?_⟩,
      congrArg Except.ok (beq_self_eq_true _)⟩
    exact hall.trans (congrArg Except.ok (List.all_eq_true.2 fun _ _ => rfl))

/-- When no wire leads through a box any more, there are as many as there were. -/
theorem count_eq (h : Detoured w l v [] d) (hw : w.Valid) (hplain : w.Plain) (x y : Vertex)
    (k : EdgeKind) : d.web.count x y k = w.count x y k := by
  have hval := h.coherent.valid
  have hnear {x : Vertex} (hx : x < w.next) : d.web.count v x .plain = w.count v x .plain :=
    h.near x hx
  have hnone {w' : Web} (hw' : w'.Valid) (hkind : w'.kind = w.kind) {x y : Vertex}
      (hxy : ¬(x < w.next ∧ y < w.next)) : w'.count x y .plain = 0 := by
    by_contra hne
    have hpos := Nat.pos_of_ne_zero hne
    have hx := hw'.has x y _ hpos
    have hy := hw'.has y x _ (hw'.symm x y _ ▸ hpos)
    rw [Has, hkind] at hx hy
    exact hxy ⟨hw.lt x hx, hw.lt y hy⟩
  cases k with
  | hadamard => rw [h.plain, hplain]
  | plain =>
    by_cases hxy : x < w.next ∧ y < w.next
    · by_cases hxv : x = v
      · rw [hxv, hnear hxy.2]
      · by_cases hyv : y = v
        · rw [hyv, hval.symm, hw.symm, hnear hxy.1]
        · exact h.away x y hxy.1 hxy.2 hxv hyv
    · rw [hnone hval (funext h.kind) hxy, hnone hw rfl hxy]

end Detoured

/-- What two diagrams have in common that differ in nothing but the numbers that were given out and
    the order in which their links are stored. -/
structure Restored (d d' : Diagram) : Prop where
  coherent : d'.Coherent
  contains : ∀ x, d'.contains x = d.contains x
  kind : ∀ x, d'.kind x = d.kind x
  phase : ∀ x, d.contains x → d'.phase x = d.phase x
  carrier : ∀ x, d.contains x → d'.carriers[x]? = d.carriers[x]?
  carried : ∀ (x : Vertex) (c : Carrier), d'.carriers[x]? = some c → d.carriers[x]? = some c
  qubit : ∀ x, d.contains x → d'.qubit? x = d.qubit? x
  column : ∀ x, d.contains x → d'.column? x = d.column? x
  count : ∀ x y k, d'.graph.count x y k = d.graph.count x y k
  inputs : d'.inputs = d.inputs
  outputs : d'.outputs = d.outputs
  wires : d'.layout.wires = d.layout.wires

/-- When no wire leads through a box any more, all is as it was. -/
theorem Detoured.restored {d' : Diagram} (h : Detoured d.web d.layout v [] d') (hd : d.Coherent)
    (hplain : d.web.Plain) : d.Restored d' := by
  have hw := hd.valid
  have hkind : d'.web.kind = d.web.kind := funext fun x => h.kind x
  have hlt {x : Vertex} (hx : d.contains x) : x < d.web.next := by
    rw [contains_eq hd, decide_eq_true_iff] at hx
    exact hw.lt x hx
  have hcontains (x : Vertex) : d'.contains x = d.contains x := by
    rw [contains_eq hd, contains_eq h.coherent, decide_eq_decide, Has, Has, hkind]
  exact {
    coherent := h.coherent
    contains := hcontains
    kind := fun x => by
      have hx : d'.kinds[x]? = d.kinds[x]? := congrFun hkind x
      rw [Diagram.kind, Diagram.kind, hx]
    phase := fun x hx => h.phase x (hlt hx)
    carrier := fun x hx => h.carrier x (hlt hx)
    carried := h.carried
    qubit := fun x hx => h.laid.qubit x (hlt hx)
    column := fun x hx => h.laid.column x (hlt hx)
    count := fun x y k => h.count_eq hd.valid hplain x y k
    inputs := h.inputs
    outputs := h.outputs
    wires := h.laid.wires }

/-- On a diagram with plain edges, an X spider with some wires, which may be parallel and lead to
    spiders of any kind, can be turned into a Z spider with boxes around it; this one can change its
    colour, and then all is as it was. -/
theorem exists_hadamard_colourChange {n : ℕ} (hd : d.Coherent) (hplain : d.web.Plain)
    (hkind : d.kind v = .ok .x) (hcarried : v ∈ d.carriers) (hdegree : d.degree v = .ok n)
    (hpos : 0 < n) :
    ∃ d₁ boxes d₂, DiagramRule.hadamard.check d [v] = .ok true ∧
      DiagramRule.hadamard.apply d [v] = .ok d₁ ∧
      DiagramRule.colourChange.check d₁ (v :: boxes) = .ok true ∧
      DiagramRule.colourChange.apply d₁ (v :: boxes) = .ok d₂ ∧ d.Restored d₂ := by
  have hw := hd.valid
  have hk := kind_of_eq_ok hkind
  have hv : d.web.Has v := by rw [Has, hk]; rfl
  have hcarried : (d.web.carrier v).isSome := Std.ExtTreeMap.mem_iff_isSome_getElem?.1 hcarried
  -- boxes on all wires
  obtain ⟨bs, boxed, hok, hboxed, hnone⟩ := Detoured.exists_boxed hd hplain hv
  have h₁ := hboxed.setKind hw hv .z rfl hcarried
  have hw₁ := hw.paint hv .z
  have hv₁ : (d.web.paint v .z).Has v := (has_paint hv).2 hv
  have hz : (d.web.paint v .z).kind v = some .z := update_self _ _ _
  have hnone₁ : ∀ x < d.web.next, (boxed.setKind v .z).web.count v x .plain = 0 := by
    rw [web_setKind hboxed.coherent (hboxed.has hw hv) rfl (by rwa [hboxed.carrier v (hw.lt v hv)])]
    exact hnone
  have hsome : bs ≠ [] := by
    rintro rfl
    have hzero : d.web.degree v = 0 := Finset.sum_eq_zero fun x hx => by
      have hx := Finset.mem_range.1 hx
      rw [hplain.joins, ← hboxed.near x hx, hnone x hx]
      rfl
    rw [Diagram.degree, degree_eq hd hv, hzero] at hdegree
    exact Nat.lt_irrefl 0 (Except.ok.inj hdegree ▸ hpos)
  -- and none again
  obtain ⟨bare, hok', hbare⟩ := h₁.exists_absorbBoxes hw₁ hv₁
  have h₂ := hbare.setKind hw₁ hv₁ .x rfl hcarried
  have hback : (d.web.paint v .z).paint v .x = d.web := by
    refine Web.ext rfl (funext fun x => ?_) rfl rfl rfl rfl rfl
    change update (update d.web.kind v (some .z)) v (some .x) x = _
    rw [Function.update_idem, ← hk, Function.update_eq_self]
  rw [hback] at h₂
  refine ⟨boxed.setKind v .z, bs.map BoxedWire.box, bare.setKind v .x, ?_, ?_,
    h₁.check_eq hw₁ hz rfl hsome hnone₁, ?_, h₂.restored hd hplain⟩
  · rw [check_iff hd]
    refine ⟨by simpa using hv, ?_⟩
    rw [DiagramRule.checkPresent, checkHadamard, hkind]
    rfl
  · rw [DiagramRule.apply, Diagram.hadamard, Diagram.neighborSet, neighborSet_eq hd hv]
    change (List.foldlM _ d _ >>= fun d => Except.ok (d.setKind v .z)) = _
    rw [hok]
    rfl
  · rw [DiagramRule.apply, Diagram.changeColour, h₁.boxesAround_eq hw₁ hv₁ hnone₁]
    change (List.foldlM (absorbBox v) (boxed.setKind v .z) _ >>= _) = _
    rw [hok']
    change (bare.kind v >>= fun k => Except.ok (bare.setKind v k.opposite)) = _
    rw [kind_eq ((hbare.kind_old (hw₁.lt v hv₁)).trans hz)]
    rfl

/-- An X spider with two wires to a Z spider, one to a box, one to another X spider behind the box and
    one to an input. -/
def hub : Diagram where
  graph := ⟨#[some [⟨2, .plain, 1⟩], some [⟨5, .plain, 1⟩],
    some [⟨0, .plain, 1⟩, ⟨3, .plain, 2⟩, ⟨4, .plain, 1⟩, ⟨5, .plain, 1⟩], some [⟨2, .plain, 2⟩],
    some [⟨2, .plain, 1⟩, ⟨5, .plain, 1⟩],
    some [⟨4, .plain, 1⟩, ⟨2, .plain, 1⟩, ⟨1, .plain, 1⟩]], 6, 7⟩
  kinds := .ofList [(0, .input), (1, .output), (2, .x), (3, .z), (4, .box), (5, .x)] compare
  phases := .ofList [(0, .zero), (1, .zero), (2, .reduce 1 4), (3, .pi), (4, .zero), (5, .zero)]
    compare
  layout := .new 1
  inputs := [0]
  outputs := [1]
  carriers := .ofList [(2, ⟨2, 1⟩), (3, ⟨3, 1⟩), (5, ⟨5, 1⟩)] compare

/-- Parallel wires and those to a box and an X spider are all given back. -/
theorem hub_restored : hub.Coherent ∧ hub.web.Plain ∧ hub.kind 2 = .ok .x ∧ 2 ∈ hub.carriers ∧
    hub.degree 2 = .ok 5 ∧ 0 < 5 ∧
    ∃ d₁ boxes d₂, DiagramRule.hadamard.check hub [2] = .ok true ∧
      DiagramRule.hadamard.apply hub [2] = .ok d₁ ∧
      DiagramRule.colourChange.check d₁ (2 :: boxes) = .ok true ∧
      DiagramRule.colourChange.apply d₁ (2 :: boxes) = .ok d₂ ∧ hub.Restored d₂ := by
  have hplain : hub.Coherent ∧ hub.web.Plain := by decide +kernel
  have hkind : hub.kind 2 = .ok .x := by decide +kernel
  have hcarried : 2 ∈ hub.carriers := by decide +kernel
  have hdegree : hub.degree 2 = .ok 5 := by decide +kernel
  exact ⟨hplain.1, hplain.2, hkind, hcarried, hdegree, by decide,
    exists_hadamard_colourChange hplain.1 hplain.2 hkind hcarried hdegree (by decide)⟩

end Diagram

end ZXRewriting
