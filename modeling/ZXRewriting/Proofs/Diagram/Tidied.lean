import ZXRewriting.Proofs.Diagram.Cancel
import ZXRewriting.Proofs.Diagram.Woven

/-!
# Tidying diagrams of cells is sound

A diagram of cells has plain edges only (`Threaded.plain`), and two boxes next to each other on a thread
have different far ends (`Woven.ne_of_adjacent`), so that the rule for cancelling is sound on it, as is
the one for identities. What either leaves is a diagram of cells again, with the same threads, that
denotes the same (`keeps_denotes`).
-/

namespace ZXRewriting

open Equiv (Perm)
open Function (update update_self update_of_ne)

namespace Web

variable {w w' w'' : Web} {n s t : ℕ} {lines : Diagram.Side → Perm ℕ} {beside : Vertex → List Vertex}
  {spots : List (Vertex × ℕ)} {cells : List Cell} {a b u v x : Vertex} {κ κ' : SpiderKind}
  {p p' : Phase}

theorem Denotes.refl (hw : w.Plain) : w.Denotes w := ⟨hw, rfl, rfl, .refl _⟩

theorem Denotes.trans (h : w.Denotes w') (h' : w'.Denotes w'') : w.Denotes w'' :=
  ⟨h'.plain, h'.inputs.trans h.inputs, h'.outputs.trans h.outputs, h.amplitude.trans h'.amplitude⟩

/-- Threads run along plain edges. -/
theorem Threaded.plain (h : w.Threaded n lines beside spots) : w.Plain := fun s t => by
  by_cases hs : w.Has s
  swap
  · by_contra hne
    exact hs (h.valid.has s t _ (Nat.pos_of_ne_zero hne))
  suffices hwired : ∃ us, w.WiredTo s us by
    obtain ⟨us, hus⟩ := hwired
    rw [hus]
    rfl
  by_cases he : w.IsEnd s
  · have hside : ∃ side, s ∈ w.terminals side := by
      obtain ⟨κ, hκ⟩ := Option.isSome_iff_exists.1 hs
      rw [IsEnd, hκ] at he
      cases κ with
      | input => exact ⟨.front, (h.inputs s).2 hκ⟩
      | output => exact ⟨.back, (h.outputs s).2 hκ⟩
      | z | x | box => cases he
    obtain ⟨side, hmem⟩ := hside
    obtain ⟨q, hq, rfl⟩ := List.getElem_of_mem hmem
    obtain ⟨u, hu, -⟩ := h.exists_tied side (h.length side ▸ hq)
    have hterminal := Web.getElem?_terminals hq
    rw [List.getElem?_eq_getElem hq, Option.some.injEq] at hterminal
    exact ⟨[u], hterminal ▸ tied_iff.1 hu⟩
  · by_cases hspot : ∃ t, (s, t) ∈ spots
    · obtain ⟨t, hspot⟩ := hspot
      obtain ⟨before, after, rfl⟩ := List.append_of_mem hspot
      obtain ⟨a, b, hwired, -⟩ := h.runs.exists_wiredTo
      exact ⟨_, hwired⟩
    · exact ⟨_, h.loose s hs he fun t hm => hspot ⟨t, hm⟩⟩

/-- A spider that is a cell by itself has two neighbours. -/
theorem Woven.exists_wiredTo_wire (h : w.Woven n lines beside cells)
    (hc : Cell.wire κ p v t ∈ cells) : ∃ a b, w.WiredTo v [a, b] ∧ a ≠ b := by
  obtain ⟨a, b, hwired, hab, -⟩ := h.threaded.exists_wiredTo h.nodup_spots
    (List.mem_flatMap.2 ⟨_, hc, List.mem_singleton_self (v, t)⟩)
  cases h.shown _ hc with
  | wire _ _ _ hbeside =>
    rw [hbeside] at hwired
    exact ⟨a, b, hwired, hab⟩

/-- Two spiders next to each other that are cells by themselves have no common neighbour. -/
theorem Woven.ne_of_adjacent (h : w.Woven n lines beside cells) (hc : Cell.wire κ p v s ∈ cells)
    (hc' : Cell.wire κ' p' u t ∈ cells) (hvu : v ≠ u) (hv : w.WiredTo v [a, u])
    (hu : w.WiredTo u [b, v]) : a ≠ b := by
  rintro rfl
  have hau : a ≠ u := fun he => by
    obtain ⟨c, d, hwired, hcd⟩ := h.exists_wiredTo_wire hc
    have hperm : [c, d].Perm [a, u] := List.perm_iff_count.2 fun y => by rw [← hwired.joins, hv.joins]
    have hnodup : [a, u].Nodup := hperm.nodup_iff.1 (by simpa using hcd)
    simp [he] at hnodup
  have hav : a ≠ v := fun he => by
    have hself := hv v .plain
    rw [h.valid.self, he] at hself
    simp at hself
  obtain ⟨before, after, rfl⟩ := List.append_of_mem hc
  have hleft : Cell.wire κ' p' u t ∈ before ++ after := by
    rcases List.mem_append.1 hc' with hm | hm
    · exact List.mem_append_left _ hm
    · refine List.mem_append_right _ ((List.mem_cons.1 hm).resolve_left fun he => hvu ?_)
      cases he
      rfl
  -- without one of the two, both edges of the other would lead to the same spider
  obtain ⟨c, d, hwired, hcd⟩ := (h.bypass hv).exists_wiredTo_wire hleft
  have hafter := hu.bypass h.valid hv hau hvu.symm
  rw [if_neg hau.symm, List.map_cons, List.map_singleton, update_of_ne hav, update_self, id_eq]
    at hafter
  have hperm : [c, d].Perm [a, a] :=
    List.perm_iff_count.2 fun y => by rw [← hwired.joins, hafter.joins]
  have hnodup : [a, a].Nodup := hperm.nodup_iff.1 (by simpa using hcd)
  simp at hnodup

end Web

namespace Diagram

open Web

variable {d d' : Diagram} {n : ℕ} {lines : Side → Perm ℕ} {beside : Vertex → List Vertex}
  {cells : List (ℤ × Cell)} {first last : ℤ} {u v : Vertex}

section

variable (h : d.Written n lines beside cells first last)
include h

/-- Two boxes next to each other have no common neighbour. -/
theorem Written.not_mem_nearby (hv : d.web.kind v = some .box) (hu : d.web.kind u = some .box)
    (hpos : 0 < d.web.joins v u) {a : Vertex} (hav : a ∈ d.web.nearby v) : a ∉ d.web.nearby u := by
  have hval := h.coherent.valid
  intro hau
  have hpos' : 0 < d.web.joins u v := by rwa [hval.joins_comm]
  have hvu : v ≠ u := by
    rintro rfl
    rw [hval.joins_self] at hpos
    exact Nat.lt_irrefl _ hpos
  have hcell := h.exists_wire_of_box hv hu hpos
  have hcell' := h.exists_wire_of_box hu hv hpos'
  obtain ⟨b, hwv, -⟩ := h.exists_other hcell hpos
  obtain ⟨c, hwu, -⟩ := h.exists_other hcell' hpos'
  obtain ⟨k, κ, p, s, hcell⟩ := hcell
  obtain ⟨k', κ', p', t, hcell'⟩ := hcell'
  have hne := h.woven.ne_of_adjacent (List.mem_map_of_mem hcell) (List.mem_map_of_mem hcell') hvu
    hwv hwu
  rw [hwv.mem_nearby hval] at hav
  rw [hwu.mem_nearby hval] at hau
  have hself : u ∉ [c, v] := by
    rw [← hwu.mem_nearby hval]
    exact hval.notMem_nearby_self
  have hself' : v ∉ [b, u] := by
    rw [← hwv.mem_nearby hval]
    exact hval.notMem_nearby_self
  rcases List.mem_pair.1 hav with rfl | rfl
  · rcases List.mem_pair.1 hau with rfl | rfl
    · exact hne rfl
    · exact hself' (by simp)
  · exact hself hau

theorem Written.rewritesTo_cancel (hv : d.web.Has v) (hu : d.web.Has u)
    (hcheck : d.checkCancel v u = .ok true) : RewritesTo d (d.cancel v u) := by
  obtain ⟨-, hcase⟩ := (checkCancel_iff h.coherent hv hu).1 hcheck
  refine Diagram.rewritesTo_cancel h.coherent h.threaded.plain hv hu hcheck fun hbox a hav hau => ?_
  rcases hcase with ⟨k, hk, -, hphased, -⟩ | ⟨-, hbox', hone⟩
  · rw [hbox] at hk
    cases hk
    cases hphased
  · obtain ⟨hku, -⟩ := of_isWireBox h.coherent hu hbox'
    exact absurd hau (h.not_mem_nearby hbox hku (joins_pos_iff.2 ⟨.plain, by omega⟩) hav)

end

/-- Tidying leaves a diagram of cells that denotes what a given one does. -/
theorem keeps_denotes {rule : DiagramRule} (hrule : rule ∈ tidyRules) (w : Web) :
    Rule.Keeps rule fun d : Diagram =>
      (∃ cells, d.Written n lines beside cells first last) ∧ w.Denotes d.web := by
  rintro d m ⟨⟨cells, h⟩, hden⟩ hcheck
  have hstep {x : Except Fault Diagram} (hx : ∃ d' cells', x = .ok d' ∧
      d'.Written n lines beside cells' first last ∧ Thinned cells cells' ∧
        d'.outputs = d.outputs) (hto : RewritesTo d x) :
      Leaves x fun d' => (∃ cells, d'.Written n lines beside cells first last) ∧
        w.Denotes d'.web := by
    obtain ⟨d', cells', rfl, h', -⟩ := hx
    obtain ⟨d'', hok, -, hden'⟩ := hto
    obtain rfl := Except.ok.inj hok
    exact ⟨⟨cells', h'⟩, hden.trans hden'⟩
  obtain ⟨hhas, hcheck⟩ := (check_iff h.coherent).1 hcheck
  rw [DiagramRule.checkPresent.eq_def] at hcheck
  split at hcheck
  case h_3 v _ =>
    have hv : d.web.Has v := hhas v (by simp)
    exact hstep (h.exists_identity hv hcheck)
      (rewritesTo_removeIdentity h.coherent h.threaded.plain hv hcheck)
  case h_4 v u _ =>
    have hv : d.web.Has v := hhas v (by simp)
    have hu : d.web.Has u := hhas u (by simp)
    exact hstep (h.exists_cancel hv hu hcheck) (h.rewritesTo_cancel hv hu hcheck)
  case h_7 => cases hcheck
  all_goals exact absurd hrule (by decide)

end Diagram

end ZXRewriting
