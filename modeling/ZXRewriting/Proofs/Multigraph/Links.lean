import Mathlib.Algebra.BigOperators.Group.Finset.Piecewise
import Mathlib.Data.List.Nodup
import ZXRewriting.Multigraph

/-!
# Lists of links as counts

A list of links is *proper* when no neighbour comes up twice with the same kind of edge, and
every link stands for at least one edge. Such a list is, but for its order, the function
`Links.count`: adding, removing and filtering change the counts they name, and the lists that
come out are proper again.
-/

namespace ZXRewriting.Links

/-- No neighbour comes up twice by one kind of edge, and no link is empty. -/
structure Proper (links : List Link) : Prop where
  keyed : links.Pairwise fun a b => ¬(a.node = b.node ∧ a.kind = b.kind)
  pos : ∀ l ∈ links, 0 < l.count

theorem leadsTo_iff {v : Vertex} {kind : EdgeKind} {l : Link} :
    l.leadsTo v kind = true ↔ l.node = v ∧ l.kind = kind := by
  simp [Link.leadsTo]

/-- No links. -/
theorem proper_nil : Proper [] := ⟨.nil, by simp⟩

theorem Proper.tail {l : Link} {links : List Link} (h : Proper (l :: links)) : Proper links :=
  ⟨h.keyed.of_cons, fun l hl => h.pos l (List.mem_cons_of_mem _ hl)⟩

/-- The count of a proper list is that of the only link which leads there. -/
theorem Proper.count_of_mem {links : List Link} (h : Proper links) {l : Link} (hl : l ∈ links) :
    count links l.node l.kind = l.count := by
  induction links with
  | nil => simp at hl
  | cons a rest ih =>
    rcases List.mem_cons.1 hl with rfl | hl
    · simp [count, Link.leadsTo]
    · have hne : a.leadsTo l.node l.kind = false := by
        rw [Bool.eq_false_iff, Ne, leadsTo_iff]
        exact List.rel_of_pairwise_cons h.keyed hl
      rw [count, List.find?_cons_of_neg (by simp [hne])]
      exact ih h.tail hl

/-- A count that is not zero comes from a link. -/
theorem exists_of_count_pos {links : List Link} {v : Vertex} {kind : EdgeKind}
    (h : 0 < count links v kind) :
    ∃ l ∈ links, l.node = v ∧ l.kind = kind ∧ l.count = count links v kind := by
  rw [count] at h ⊢
  cases hf : links.find? (Link.leadsTo v kind) with
  | none => simp [hf] at h
  | some l =>
    obtain ⟨hn, hk⟩ := leadsTo_iff.1 (List.find?_some hf)
    exact ⟨l, List.mem_of_find?_eq_some hf, hn, hk, rfl⟩

/-- A link of a proper list leads to a vertex exactly when the count there is positive. -/
theorem Proper.count_pos_iff {links : List Link} (h : Proper links) {v : Vertex}
    {kind : EdgeKind} : 0 < count links v kind ↔ ∃ l ∈ links, l.node = v ∧ l.kind = kind := by
  constructor
  · intro hp
    obtain ⟨l, hl, hn, hk, -⟩ := exists_of_count_pos hp
    exact ⟨l, hl, hn, hk⟩
  · rintro ⟨l, hl, rfl, rfl⟩
    rw [h.count_of_mem hl]
    exact h.pos l hl

/-- A count is zero when no link leads there. -/
theorem count_eq_zero {links : List Link} {v : Vertex} {kind : EdgeKind}
    (h : ∀ l ∈ links, ¬(l.node = v ∧ l.kind = kind)) : count links v kind = 0 := by
  by_contra hne
  obtain ⟨l, hl, hn, hk, -⟩ := exists_of_count_pos (Nat.pos_of_ne_zero hne)
  exact h l hl ⟨hn, hk⟩

/-- The order of a proper list does not matter to its counts. -/
theorem Proper.count_perm {links other : List Link} (h : Proper links) (ho : Proper other)
    (hp : links.Perm other) (v : Vertex) (kind : EdgeKind) :
    count other v kind = count links v kind := by
  by_cases hz : ∃ l ∈ links, l.node = v ∧ l.kind = kind
  · obtain ⟨l, hl, rfl, rfl⟩ := hz
    rw [h.count_of_mem hl, ho.count_of_mem (hp.mem_iff.1 hl)]
  · push Not at hz
    rw [count_eq_zero fun l hl hc => hz l hl hc.1 hc.2,
      count_eq_zero fun l hl hc => hz l (hp.mem_iff.2 hl) hc.1 hc.2]

theorem Proper.perm {links other : List Link} (h : Proper links) (hp : links.Perm other) :
    Proper other :=
  ⟨(hp.pairwise_iff fun h hc => h ⟨hc.1.symm, hc.2.symm⟩).1 h.keyed,
    fun l hl => h.pos l (hp.mem_iff.2 hl)⟩

theorem Proper.sublist {links other : List Link} (h : Proper links)
    (hs : other.Sublist links) : Proper other :=
  ⟨h.keyed.sublist hs, fun l hl => h.pos l (hs.subset hl)⟩

/-! ### Adding -/

theorem mem_add {links : List Link} {v : Vertex} {kind : EdgeKind} {m : Nat} {l : Link}
    (hl : l ∈ add links v kind m) : l ∈ links ∨ l.node = v ∧ l.kind = kind ∧ m ≤ l.count := by
  induction links with
  | nil => simp [add] at hl; subst hl; simp
  | cons a rest ih =>
    rw [add] at hl
    split at hl
    · next ha =>
      rcases List.mem_cons.1 hl with rfl | hl
      · exact .inr ⟨(leadsTo_iff.1 ha).1, (leadsTo_iff.1 ha).2, Nat.le_add_left _ _⟩
      · exact .inl (List.mem_cons_of_mem _ hl)
    · rcases List.mem_cons.1 hl with rfl | hl
      · exact .inl List.mem_cons_self
      · exact (ih hl).imp_left (List.mem_cons_of_mem _)

/-- Adding edges keeps a list of links proper. -/
theorem Proper.add {links : List Link} (h : Proper links) (v : Vertex) (kind : EdgeKind)
    {m : Nat} (hm : 0 < m) : Proper (add links v kind m) := by
  refine ⟨?_, fun l hl => ?_⟩
  · induction links with
    | nil => simp [Links.add]
    | cons a rest ih =>
      rw [Links.add]
      split
      · exact List.pairwise_cons.2 (List.pairwise_cons.1 h.keyed)
      · next ha =>
        refine List.pairwise_cons.2 ⟨fun l hl hc => ?_, ih h.tail⟩
        rcases mem_add hl with hl | ⟨hn, hk, -⟩
        · exact List.rel_of_pairwise_cons h.keyed hl hc
        · exact ha (leadsTo_iff.2 ⟨hc.1.trans hn, hc.2.trans hk⟩)
  · rcases mem_add hl with hl | ⟨-, -, hle⟩
    · exact h.pos l hl
    · exact hm.trans_le hle

/-! ### Removing -/

/-- Filling in takes the element at a position out, up to order. -/
theorem perm_fillIn {α : Type} (l : List α) (i : Nat) (h : i < l.length) :
    (fillIn l i).Perm (l.eraseIdx i) := by
  rcases List.eq_nil_or_concat l with rfl | ⟨init, last, rfl⟩
  · simp at h
  · rw [List.concat_eq_append] at h ⊢
    rw [fillIn, List.getLast?_append_of_ne_nil _ (by simp)]
    simp only [List.getLast?_singleton]
    rcases Nat.lt_or_ge i init.length with hi | hi
    · rw [List.set_append_left _ _ hi, List.dropLast_concat, List.eraseIdx_append_of_lt_length hi,
        List.set_eq_take_append_cons_drop, if_pos hi, List.eraseIdx_eq_take_drop_succ,
        List.append_assoc]
      exact List.Perm.append_left _ (List.perm_append_singleton _ _).symm
    · obtain rfl : i = init.length := by
        rw [List.length_append, List.length_singleton] at h
        omega
      simp [List.eraseIdx_append_of_length_le]

/-- The other links of a proper list do not lead where one of them does. -/
theorem Proper.not_leadsTo {p post : List Link} {l : Link} (h : Proper (p ++ l :: post)) :
    ∀ a ∈ p ++ post, ¬(a.node = l.node ∧ a.kind = l.kind) := by
  have hp := h.keyed
  rw [List.pairwise_append] at hp
  intro a ha hc
  rcases List.mem_append.1 ha with ha | ha
  · exact hp.2.2 a ha l List.mem_cons_self hc
  · exact List.rel_of_pairwise_cons hp.2.1 ha ⟨hc.1.symm, hc.2.symm⟩

/-- The counts of a proper list by one of its links and the other ones. -/
theorem Proper.count_split {p post : List Link} {l : Link} (h : Proper (p ++ l :: post))
    (v : Vertex) (kind : EdgeKind) : count (p ++ l :: post) v kind =
      if l.node = v ∧ l.kind = kind then l.count else count (p ++ post) v kind := by
  split
  · next hc =>
    obtain ⟨rfl, rfl⟩ := hc
    exact h.count_of_mem (List.mem_append_right _ List.mem_cons_self)
  · next hc =>
    have hl : l.leadsTo v kind = false := by rwa [Bool.eq_false_iff, Ne, leadsTo_iff]
    simp only [count, List.find?_append, List.find?_cons, hl]

/-- A link of a proper list may have another count. -/
theorem Proper.recount {p post : List Link} {l : Link} {c : ℕ} (h : Proper (p ++ l :: post))
    (hc : 0 < c) : Proper (p ++ { l with count := c } :: post) := by
  have hp := h.keyed
  rw [List.pairwise_append, List.pairwise_cons] at hp
  refine ⟨List.pairwise_append.2 ⟨hp.1, List.pairwise_cons.2 hp.2.1, fun a ha b hb => ?_⟩,
    fun b hb => ?_⟩
  · rcases List.mem_cons.1 hb with rfl | hb
    · exact hp.2.2 a ha l List.mem_cons_self
    · exact hp.2.2 a ha b (List.mem_cons_of_mem _ hb)
  · rcases List.mem_append.1 hb with hb | hb
    · exact h.pos b (List.mem_append_left _ hb)
    · rcases List.mem_cons.1 hb with rfl | hb
      · exact hc
      · exact h.pos b (List.mem_append_right _ (List.mem_cons_of_mem _ hb))

/-- Removing edges takes them off the count it names, and keeps a list of links proper. -/
theorem Proper.remove {links : List Link} (h : Proper links) (v : Vertex) (kind : EdgeKind)
    (m : Nat) : Proper (remove links v kind m) ∧
      (∀ l ∈ remove links v kind m, ∃ l' ∈ links, l'.node = l.node) ∧
      ∀ w other, count (remove links v kind m) w other =
        count links w other - if v = w ∧ kind = other then m else 0 := by
  unfold Links.remove
  cases hf : links.findIdx? (Link.leadsTo v kind) with
  | none =>
    refine ⟨h, fun l hl => ⟨l, hl, rfl⟩, fun w other => ?_⟩
    by_cases hc : v = w ∧ kind = other
    · have hz : count links w other = 0 := count_eq_zero fun l hl hk => by
        have := List.findIdx?_eq_none_iff.1 hf l hl
        rw [Bool.eq_false_iff, Ne, leadsTo_iff] at this
        exact this ⟨hk.1.trans hc.1.symm, hk.2.trans hc.2.symm⟩
      rw [hz, Nat.zero_sub]
    · rw [if_neg hc, Nat.sub_zero]
  | some i =>
    obtain ⟨hi, hpi, -⟩ := List.findIdx?_eq_some_iff_getElem.1 hf
    obtain ⟨hn, hk⟩ := leadsTo_iff.1 hpi
    have hsplit : links = links.take i ++ links[i] :: links.drop (i + 1) := by simp
    have herase : links.eraseIdx i = links.take i ++ links.drop (i + 1) :=
      List.eraseIdx_eq_take_drop_succ ..
    have hprop := h
    rw [hsplit] at hprop
    have hc (w other) := hprop.count_split w other
    rw [← hsplit, hn, hk, ← herase] at hc
    have hrest : Proper (links.eraseIdx i) := h.sublist (List.eraseIdx_sublist _ _)
    have hzero : count (links.eraseIdx i) v kind = 0 := count_eq_zero fun a ha hkey =>
      hprop.not_leadsTo a (herase ▸ ha) ⟨hkey.1.trans hn.symm, hkey.2.trans hk.symm⟩
    dsimp only
    split
    · next hz =>
      -- the link runs out
      have hperm := (perm_fillIn links i hi).symm
      refine ⟨hrest.perm hperm,
        fun l hl => ⟨l, List.mem_of_mem_eraseIdx (hperm.mem_iff.2 hl), rfl⟩, fun w other => ?_⟩
      rw [hrest.count_perm (hrest.perm hperm) hperm, hc]
      by_cases hw : v = w ∧ kind = other
      · obtain ⟨rfl, rfl⟩ := hw
        have := hc v kind
        simp only [and_self, if_true] at this ⊢
        omega
      · rw [if_neg hw, if_neg hw, Nat.sub_zero]
    · next hz =>
      -- the link is left with fewer edges
      have hmod : links.modify i ({ · with count := count links v kind - m }) =
          links.take i ++ { links[i] with count := count links v kind - m } ::
            links.drop (i + 1) := List.modify_eq_take_cons_drop hi
      have hnew := hprop.recount (Nat.pos_of_ne_zero hz)
      rw [hmod]
      refine ⟨hnew, fun l hl => ?_, fun w other => ?_⟩
      · rcases List.mem_append.1 hl with hl | hl
        · exact ⟨l, List.mem_of_mem_take hl, rfl⟩
        · rcases List.mem_cons.1 hl with rfl | hl
          · exact ⟨links[i], List.getElem_mem hi, rfl⟩
          · exact ⟨l, List.mem_of_mem_drop hl, rfl⟩
      · rw [hnew.count_split, ← herase, hc w other]
        dsimp only
        rw [hn, hk]
        by_cases hw : v = w ∧ kind = other
        · obtain ⟨rfl, rfl⟩ := hw
          have := hc v kind
          simp only [and_self, if_true] at this ⊢
          omega
        · rw [if_neg hw, if_neg hw, if_neg hw, Nat.sub_zero]

/-- Leaving out the links to a vertex by one kind of edge. -/
theorem Proper.filter {links : List Link} (h : Proper links) (v : Vertex) (kind : EdgeKind) :
    Proper (links.filter fun l => !l.leadsTo v kind) ∧
      ∀ w other, count (links.filter fun l => !l.leadsTo v kind) w other =
        if v = w ∧ kind = other then 0 else count links w other := by
  refine ⟨h.sublist List.filter_sublist, fun w other => ?_⟩
  split
  · next hc =>
    obtain ⟨rfl, rfl⟩ := hc
    refine count_eq_zero fun l hl hk => ?_
    simpa [leadsTo_iff.2 hk] using (List.mem_filter.1 hl).2
  · next hc =>
    rw [count, count, List.find?_filter]
    have : (fun l : Link => decide ((!l.leadsTo v kind) = true ∧ l.leadsTo w other = true)) =
        Link.leadsTo w other := by
      funext l
      by_cases hl : l.leadsTo w other = true
      · have : ¬ l.leadsTo v kind = true := fun h' => hc
          ⟨(leadsTo_iff.1 h').1.symm.trans (leadsTo_iff.1 hl).1,
            (leadsTo_iff.1 h').2.symm.trans (leadsTo_iff.1 hl).2⟩
        simp [hl, this]
      · simp [hl]
    rw [this]

/-- Leaving out the links to some vertices. -/
theorem count_filter_node (links : List Link) (p : Vertex → Bool) (v : Vertex) (kind : EdgeKind) :
    count (links.filter (p ·.node)) v kind = if p v then count links v kind else 0 := by
  split
  · next hv =>
    rw [count, count, List.find?_filter]
    have : (fun l : Link => decide (p l.node = true ∧ l.leadsTo v kind = true)) =
        Link.leadsTo v kind := by
      funext l
      by_cases hl : l.leadsTo v kind = true
      · simp [hl, (leadsTo_iff.1 hl).1, hv]
      · simp [hl]
    rw [this]
  · next hv =>
    refine count_eq_zero fun l hm hc => hv ?_
    rw [← hc.1]
    exact (List.mem_filter.1 hm).2

/-! ### Totals -/

theorem total_append (links more : List Link) :
    total (links ++ more) = total links + total more := by
  induction links with
  | nil => exact (Nat.zero_add _).symm
  | cons a rest ih => rw [List.cons_append, total, ih, total, Nat.add_assoc]

/-- The count of the first link, and of the others. -/
theorem Proper.count_cons {a : Link} {rest : List Link} (h : Proper (a :: rest)) (v : Vertex)
    (kind : EdgeKind) : count (a :: rest) v kind =
      (if a.node = v ∧ a.kind = kind then a.count else 0) + count rest v kind := by
  have hsplit := Proper.count_split (p := []) h v kind
  rw [List.nil_append, List.nil_append] at hsplit
  rw [hsplit]
  split
  · next hc =>
    have hz : count rest v kind = 0 := count_eq_zero fun l hl hk => h.not_leadsTo (p := [])
      l hl ⟨hk.1.trans hc.1.symm, hk.2.trans hc.2.symm⟩
    rw [hz, Nat.add_zero]
  · rw [Nat.zero_add]

/-- Each neighbour and kind comes up once for every edge. -/
theorem Proper.count_ends {links : List Link} (h : Proper links) (v : Vertex) (kind : EdgeKind) :
    (links.flatMap fun l => List.replicate l.count (l.node, l.kind)).count (v, kind) =
      count links v kind := by
  induction links with
  | nil => rfl
  | cons a rest ih =>
    rw [List.flatMap_cons, List.count_append, ih h.tail, h.count_cons, List.count_replicate]
    simp only [beq_iff_eq, Prod.mk.injEq]

/-- The number of edges of a proper list, counted by neighbours and kinds. -/
theorem Proper.total_eq {links : List Link} (h : Proper links) {n : Nat}
    (hn : ∀ l ∈ links, l.node < n) :
    total links = ∑ v ∈ Finset.range n, (count links v .plain + count links v .hadamard) := by
  induction links with
  | nil => simp [total, count]
  | cons a rest ih =>
    have ha : a.node ∈ Finset.range n := Finset.mem_range.2 (hn a List.mem_cons_self)
    rw [total, ih h.tail fun l hl => hn l (List.mem_cons_of_mem _ hl)]
    simp only [h.count_cons, Finset.sum_add_distrib]
    cases a.kind <;> simp [Finset.mem_range.1 ha] <;> omega

end ZXRewriting.Links
