import ZXRewriting.Proofs.Outcome
import ZXRewriting.Rewriting.Rule

/-!
# What the matches of a scan have to do with each other

A scan asks one spider after the other for a match, given the spiders that earlier matches have taken.
Say that a match rests on some of the spiders it takes, none of which was taken before. Then no two
matches of the scan rest on the same spider (`leaves_scan`). And as each match starts at the spider
that was asked, the matches come in the order of the spiders.
-/

namespace ZXRewriting

/-- The matches come in ascending order of their first spiders, and each one has a first spider. -/
def Ascending (ms : List Match) : Prop :=
  ∃ vs : List Vertex, ms.map List.head? = vs.map some ∧ vs.Pairwise (· < ·)

/-- What a scan lists: each match was claimed by a site, no two claims rest on a spider in common, and
    the matches start at spiders of the list, in its order. -/
structure Scanned (P : Claim → Prop) (rests : Claim → List Vertex) (vs : List Vertex)
    (ms : List Match) (cs : List Claim) : Prop where
  found : ms = cs.map Claim.found
  holds : ∀ c ∈ cs, P c
  apart : cs.Pairwise fun a b => (rests a).Disjoint (rests b)
  starts : ∃ us : List Vertex, us.Sublist vs ∧ ms.map List.head? = us.map some

section

variable {site : List Vertex → Vertex → Except Fault (Option Claim)} {vs : List Vertex}
  {P : Claim → Prop} {rests : Claim → List Vertex}

/-- A scan the sites of which claim matches that start where they are asked, and rest on spiders that
    they take and that were not taken before. -/
theorem leaves_scanFrom (hsite : ∀ taken, ∀ v ∈ vs, v ∉ taken → Leaves (site taken v) fun c =>
      ∀ claim ∈ c, P claim ∧ claim.found.head? = some v ∧ rests claim ⊆ claim.taken ∧
        (rests claim).Disjoint taken) (taken : List Vertex) :
    Leaves (scanFrom site taken vs) fun ms => ∃ cs, Scanned P rests vs ms cs ∧
      ∀ c ∈ cs, (rests c).Disjoint taken := by
  induction vs generalizing taken with
  | nil =>
    exact ⟨[], ⟨rfl, fun _ h => absurd h List.not_mem_nil, .nil, [], .slnil, rfl⟩,
      fun _ h => absurd h List.not_mem_nil⟩
  | cons v rest ih =>
    have ih := ih fun taken u hu => hsite taken u (List.mem_cons_of_mem v hu)
    -- passing over a spider
    have hpass : Leaves (scanFrom site taken rest) fun ms => ∃ cs,
        Scanned P rests (v :: rest) ms cs ∧ ∀ c ∈ cs, (rests c).Disjoint taken :=
      (ih taken).imp fun ms hms => by
        obtain ⟨cs, ⟨hfound, hholds, hapart, us, hus, hstarts⟩, hfree⟩ := hms
        exact ⟨cs, ⟨hfound, hholds, hapart, us, hus.cons v, hstarts⟩, hfree⟩
    rw [scanFrom]
    split
    · exact hpass
    next hv =>
    refine Meets.bind (hsite taken v List.mem_cons_self hv) fun c hc => ?_
    cases c with
    | none => exact hpass
    | some claim =>
      obtain ⟨hP, hhead, hsub, hfree⟩ := hc claim rfl
      refine Meets.bind (ih (claim.taken ++ taken)) fun ms hms => ?_
      obtain ⟨cs, ⟨rfl, hholds, hapart, us, hus, hstarts⟩, hlater⟩ := hms
      refine ⟨claim :: cs, ⟨rfl, List.forall_mem_cons.2 ⟨hP, hholds⟩, .cons (fun c hc => ?_) hapart,
        v :: us, hus.cons_cons v, ?_⟩, List.forall_mem_cons.2 ⟨hfree, fun c hc => ?_⟩⟩
      · exact fun x hx hx' => hlater c hc hx' (List.mem_append_left taken (hsub hx))
      · rw [List.map_cons, hstarts, hhead, List.map_cons]
      · exact fun x hx hx' => hlater c hc hx (List.mem_append_right claim.taken hx')

/-- The same for a whole scan. -/
theorem leaves_scan (hsite : ∀ taken, ∀ v ∈ vs, v ∉ taken → Leaves (site taken v) fun c =>
      ∀ claim ∈ c, P claim ∧ claim.found.head? = some v ∧ rests claim ⊆ claim.taken ∧
        (rests claim).Disjoint taken) :
    Leaves (scan site vs) fun ms => ∃ cs, Scanned P rests vs ms cs :=
  (leaves_scanFrom hsite []).imp fun _ hms => hms.imp fun _ h => h.1

/-- A scan of spiders in ascending order lists matches in ascending order. -/
theorem Scanned.ascending {ms : List Match} {cs : List Claim} (h : Scanned P rests vs ms cs)
    (hvs : vs.Pairwise (· < ·)) : Ascending ms := by
  obtain ⟨us, hsub, hstarts⟩ := h.starts
  exact ⟨us, hstarts, hvs.sublist hsub⟩

end

/-- A match that rests on all of its spiders, which it takes, and that starts where it was asked for. -/
def Own (taken : List Vertex) (v : Vertex) (c : Option Claim) : Prop :=
  ∀ claim ∈ c, claim.found.head? = some v ∧ claim.found ⊆ claim.taken ∧ claim.found.Disjoint taken

/-- A scan for matches that are taken as a whole: no two of them have a spider in common. -/
theorem leaves_scan_own {site : List Vertex → Vertex → Except Fault (Option Claim)}
    {vs : List Vertex} (hvs : vs.Pairwise (· < ·))
    (hsite : ∀ taken v, v ∉ taken → Leaves (site taken v) (Own taken v)) :
    Leaves (scan site vs) fun ms => ms.Pairwise List.Disjoint ∧ Ascending ms := by
  have hscan : Leaves (scan site vs) fun ms =>
      ∃ cs, Scanned (fun _ => True) Claim.found vs ms cs :=
    leaves_scan fun taken v _ hv =>
      (hsite taken v hv).imp fun c hc claim hclaim => ⟨trivial, hc claim hclaim⟩
  refine hscan.imp fun ms hms => ?_
  obtain ⟨cs, h⟩ := hms
  refine ⟨?_, h.ascending hvs⟩
  rw [h.found, List.pairwise_map]
  exact h.apart

/-- Only what passes a test is found by a search for it. -/
theorem mem_of_findM? {ε α : Type} {f : α → Except ε Bool} {l : List α} {a : α}
    (h : l.findM? f = .ok (some a)) : a ∈ l := by
  induction l with
  | nil => cases h
  | cons b rest ih =>
    rw [List.findM?] at h
    obtain ⟨x, -, h⟩ := of_bind_eq_ok h
    cases x with
    | true =>
      obtain rfl := Option.some.inj (Except.ok.inj h)
      exact List.mem_cons_self
    | false => exact List.mem_cons_of_mem b (ih h)

/-- A filter keeps elements of the list. -/
theorem subset_of_filterM {ε α : Type} {f : α → Except ε Bool} {l l' : List α}
    (h : l.filterM f = .ok l') : l' ⊆ l := by
  suffices hs : ∀ acc, List.filterAuxM f l acc = .ok l'.reverse → l'.reverse ⊆ l ++ acc by
    rw [List.filterM] at h
    obtain ⟨r, hr, h⟩ := of_bind_eq_ok h
    obtain rfl := Except.ok.inj h
    simpa using hs [] (by simpa using hr)
  clear h
  induction l with
  | nil =>
    intro acc h
    rw [← Except.ok.inj h]
    exact List.Subset.refl _
  | cons a rest ih =>
    intro acc h
    rw [List.filterAuxM] at h
    obtain ⟨b, -, h⟩ := of_bind_eq_ok h
    refine List.Subset.trans (ih _ h) fun x hx => ?_
    cases b <;> simp at hx ⊢ <;> tauto

end ZXRewriting
