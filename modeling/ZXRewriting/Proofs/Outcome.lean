import Mathlib.Data.List.Forall2
import ZXRewriting.Fault

/-!
# What a computation comes to

A computation in `Except ε` gives a result or stops with an error. `Meets x P E` says both at
once: the result, if there is one, satisfies `P`, and the error, if there is one, satisfies `E`.
With `E` false everywhere it says that there is a result.

The rules below follow the shape of a program: one for a sequence, and one for each of the loops
over a list, which carry an invariant of the part of the list that is done.
-/

namespace ZXRewriting

variable {ε α β σ : Type}

/-- The result of a computation satisfies `P`, and its error `E`. -/
def Meets (x : Except ε α) (P : α → Prop) (E : ε → Prop) : Prop :=
  match x with
  | .ok a => P a
  | .error e => E e

namespace Meets

variable {x : Except ε α} {P P' : α → Prop} {E E' : ε → Prop}

@[simp] theorem ok_iff {a : α} : Meets (.ok a : Except ε α) P E ↔ P a := .rfl

@[simp] theorem pure_iff {a : α} : Meets (pure a : Except ε α) P E ↔ P a := .rfl

@[simp] theorem error_iff {e : ε} : Meets (.error e : Except ε α) P E ↔ E e := .rfl

/-- Without errors, a computation that meets `P` gives a result satisfying it. -/
theorem false_iff : Meets x P (fun _ => False) ↔ ∃ a, x = .ok a ∧ P a := by
  cases x <;> simp [Meets]

/-- A computation that gives a result satisfying `P`. -/
theorem of_exists (h : ∃ a, x = .ok a ∧ P a) : Meets x P E := by
  obtain ⟨a, rfl, ha⟩ := h
  exact ha

theorem mono (h : Meets x P E) (hP : ∀ a, P a → P' a) (hE : ∀ e, E e → E' e) :
    Meets x P' E' := by
  cases x with
  | ok a => exact hP a h
  | error e => exact hE e h

/-- A sequence of two computations. -/
theorem bind {f : α → Except ε β} {Q : β → Prop} (h : Meets x P E)
    (hf : ∀ a, P a → Meets (f a) Q E) : Meets (x >>= f) Q E := by
  cases x with
  | ok a => exact hf a h
  | error e => exact h

/-- A computation that can only meet a fault, among those which can also be refused. -/
theorem lift {y : Except Fault α} {F : Failure ε → Prop} (h : Meets y P fun f => F (.fault f)) :
    Meets (liftM y : Attempt ε α) P F := by
  cases y with
  | ok a => exact h
  | error f => exact h

/-- A loop whose steps keep an invariant of the elements done. -/
theorem foldlM {f : σ → α → Except ε σ} {E : ε → Prop} (I : List α → σ → Prop) (l : List α)
    {s : σ} (h0 : I [] s)
    (step : ∀ done a rest s, l = done ++ a :: rest → I done s →
      Meets (f s a) (I (done ++ [a])) E) : Meets (l.foldlM f s) (I l) E := by
  suffices h : ∀ rest done s, l = done ++ rest → I done s → Meets (rest.foldlM f s) (I l) E from
    h l [] s rfl h0
  intro rest
  induction rest with
  | nil =>
    intro done s hl hs
    rw [List.append_nil] at hl
    subst hl
    exact hs
  | cons a rest ih =>
    intro done s hl hs
    rw [List.foldlM_cons]
    exact (step done a rest s hl hs).bind fun s' hs' => ih (done ++ [a]) s' (by simp [hl]) hs'

/-- A map whose function meets what it should on every element. -/
theorem mapM {f : α → Except ε β} {P : α → β → Prop} {E : ε → Prop} {l : List α}
    (h : ∀ a ∈ l, Meets (f a) (P a) E) : Meets (l.mapM f) (List.Forall₂ P l) E := by
  induction l with
  | nil => exact .nil
  | cons a rest ih =>
    rw [List.mapM_cons]
    refine (h a List.mem_cons_self).bind fun x hx => ?_
    exact (ih fun b hb => h b (List.mem_cons_of_mem a hb)).bind fun xs hxs => .cons hx hxs

end Meets

/-! ### Computations of which only the result matters -/

/-- The result of a computation satisfies `P`, if there is one. -/
abbrev Leaves (x : Except ε α) (P : α → Prop) : Prop := Meets x P fun _ => True

namespace Leaves

variable {x : Except ε α} {P Q : α → Prop}

/-- What comes after a computation is asked for if that gives a result. -/
theorem after {f : α → Except ε β} {P : β → Prop} (h : ∀ a, x = .ok a → Leaves (f a) P) :
    Leaves (x >>= f) P := by
  cases x with
  | error e => exact trivial
  | ok a => exact h a rfl

theorem of_ok {a : α} (h : Leaves x P) (hok : x = .ok a) : P a := by
  rw [hok] at h
  exact h

theorem imp (h : Leaves x P) (hPQ : ∀ a, P a → Q a) : Leaves x Q := Meets.mono h hPQ fun _ h => h

/-- A loop whose steps keep `P`. -/
theorem foldlM {f : σ → α → Except ε σ} {P : σ → Prop} {l : List α} {s : σ} (hs : P s)
    (step : ∀ a ∈ l, ∀ s, P s → Leaves (f s a) P) : Leaves (l.foldlM f s) P :=
  Meets.foldlM (fun _ => P) l hs fun done a _ s hl hs =>
    step a (hl ▸ List.mem_append_right done List.mem_cons_self) s hs

theorem mapM {f : α → Except ε β} {P : β → Prop} {l : List α} (h : ∀ a ∈ l, Leaves (f a) P) :
    Leaves (l.mapM f) fun bs => ∀ b ∈ bs, P b := by
  induction l with
  | nil => exact fun b hb => absurd hb List.not_mem_nil
  | cons a rest ih =>
    rw [List.mapM_cons]
    refine Meets.bind (h a List.mem_cons_self) fun b hb => ?_
    refine Meets.bind (ih fun x hx => h x (List.mem_cons_of_mem a hx)) fun bs hbs x hx => ?_
    rcases List.mem_cons.1 hx with rfl | hx
    · exact hb
    · exact hbs x hx

end Leaves

/-- A loop whose steps all succeed and keep an invariant of the elements done. -/
theorem exists_foldlM {f : σ → α → Except ε σ} (I : List α → σ → Prop) (l : List α)
    {s : σ} (h0 : I [] s)
    (step : ∀ done a rest s, l = done ++ a :: rest → I done s →
      ∃ s', f s a = .ok s' ∧ I (done ++ [a]) s') : ∃ s', l.foldlM f s = .ok s' ∧ I l s' :=
  Meets.false_iff.1 (Meets.foldlM I l h0 fun done a rest s hl hs =>
    Meets.false_iff.2 (step done a rest s hl hs))

/-- A filter whose test succeeds on every element. -/
theorem filterM_eq {f : α → Except ε Bool} {p : α → Bool} {l : List α}
    (h : ∀ a ∈ l, f a = .ok (p a)) : l.filterM f = .ok (l.filter p) := by
  suffices hs : ∀ acc, List.filterAuxM f l acc = .ok ((l.filter p).reverse ++ acc) by
    rw [List.filterM, hs]
    simp [bind, Except.bind, pure, Except.pure]
  induction l with
  | nil => intro acc; rfl
  | cons a rest ih =>
    intro acc
    rw [List.filterAuxM, h a List.mem_cons_self]
    have hrest := ih fun b hb => h b (List.mem_cons_of_mem _ hb)
    simp only [bind, Except.bind, List.filter_cons]
    cases p a <;> simp [hrest]

/-- A map whose function succeeds on every element. -/
theorem mapM_eq {f : α → Except ε β} {q : α → β} {l : List α}
    (h : ∀ a ∈ l, f a = .ok (q a)) : l.mapM f = .ok (l.map q) := by
  induction l with
  | nil => rfl
  | cons a rest ih =>
    rw [List.mapM_cons, h a List.mem_cons_self, ih fun b hb => h b (List.mem_cons_of_mem _ hb)]
    rfl

/-- A test of all elements that succeeds on every element. -/
theorem allM_eq {f : α → Except ε Bool} {p : α → Bool} {l : List α}
    (h : ∀ a ∈ l, f a = .ok (p a)) : l.allM f = .ok (l.all p) := by
  induction l with
  | nil => rfl
  | cons a rest ih =>
    have hrest := ih fun b hb => h b (List.mem_cons_of_mem _ hb)
    rw [List.allM, h a List.mem_cons_self]
    simp only [bind, Except.bind, List.all_cons]
    cases p a <;> simp [hrest, pure, Except.pure]

/-- A sequence of two computations gives a result only if both do. -/
theorem of_bind_eq_ok {x : Except ε α} {f : α → Except ε β} {b : β} (h : x >>= f = .ok b) :
    ∃ a, x = .ok a ∧ f a = .ok b := by
  cases x with
  | error e => cases h
  | ok a => exact ⟨a, rfl, h⟩

/-- Two tests one after the other succeed with `true` if both do. -/
theorem and_eq_true_iff {x y : Except ε Bool} :
    (x <&&> y) = .ok true ↔ x = .ok true ∧ y = .ok true := by
  rcases x with e | _ | _
  · exact ⟨(fun h => by cases h), (fun h => by cases h.1)⟩
  · exact ⟨(fun h => by cases h), (fun h => by cases h.1)⟩
  · exact ⟨fun h => ⟨rfl, h⟩, fun h => h.2⟩

/-- A test of all elements succeeds with `true` only if that of each element does. -/
theorem of_allM_eq_true {f : α → Except ε Bool} {l : List α} (h : l.allM f = .ok true) :
    ∀ a ∈ l, f a = .ok true := by
  induction l with
  | nil => exact fun a ha => absurd ha List.not_mem_nil
  | cons a rest ih =>
    rw [List.allM] at h
    intro b hb
    cases ha : f a with
    | error e =>
      rw [ha] at h
      cases h
    | ok x =>
      rw [ha] at h
      cases x with
      | false => cases h
      | true =>
        rcases List.mem_cons.1 hb with rfl | hb
        · exact ha
        · exact ih h b hb

/-- A search whose test succeeds on every element. -/
theorem findM?_eq {f : α → Except ε Bool} {p : α → Bool} {l : List α}
    (h : ∀ a ∈ l, f a = .ok (p a)) : l.findM? f = .ok (l.find? p) := by
  induction l with
  | nil => rfl
  | cons a rest ih =>
    have hrest := ih fun b hb => h b (List.mem_cons_of_mem _ hb)
    rw [List.findM?, h a List.mem_cons_self]
    simp only [bind, Except.bind, List.find?_cons]
    cases p a <;> simp [hrest, pure, Except.pure]

/-! ### Computations that give a result -/

/-- A computation that gives a result, whichever. -/
def Succeeds (x : Except ε α) : Prop := ∃ a, x = .ok a

namespace Succeeds

theorem ok (a : α) : Succeeds (.ok a : Except ε α) := ⟨a, rfl⟩

theorem bind {x : Except ε α} {f : α → Except ε β} (hx : Succeeds x)
    (hf : ∀ a, x = .ok a → Succeeds (f a)) : Succeeds (x >>= f) := by
  obtain ⟨a, rfl⟩ := hx
  exact hf a rfl

/-- Both of two tests; the second one is only made if the first one comes out true. -/
theorem and {x y : Except ε Bool} (hx : Succeeds x) (hy : x = .ok true → Succeeds y) :
    Succeeds (x <&&> y) := by
  obtain ⟨_ | _, rfl⟩ := hx
  · exact .ok false
  · exact hy rfl

/-- One of two tests; the second one is only made if the first one comes out false. -/
theorem or {x y : Except ε Bool} (hx : Succeeds x) (hy : x = .ok false → Succeeds y) :
    Succeeds (x <||> y) := by
  obtain ⟨_ | _, rfl⟩ := hx
  · exact hy rfl
  · exact .ok true

/-- A test that succeeds on every element of a list is a function there. -/
theorem exists_eq {f : α → Except ε β} [Inhabited β] {l : List α} (h : ∀ a ∈ l, Succeeds (f a)) :
    ∃ p : α → β, ∀ a ∈ l, f a = .ok (p a) := by
  refine ⟨fun a => (f a).toOption.getD default, fun a ha => ?_⟩
  obtain ⟨b, hb⟩ := h a ha
  change f a = .ok ((f a).toOption.getD default)
  rw [hb]
  rfl

theorem allM {f : α → Except ε Bool} {l : List α} (h : ∀ a ∈ l, Succeeds (f a)) :
    Succeeds (l.allM f) := by
  obtain ⟨p, hp⟩ := exists_eq h
  exact ⟨_, allM_eq hp⟩

theorem filterM {f : α → Except ε Bool} {l : List α} (h : ∀ a ∈ l, Succeeds (f a)) :
    Succeeds (l.filterM f) := by
  obtain ⟨p, hp⟩ := exists_eq h
  exact ⟨_, filterM_eq hp⟩

theorem foldlM {f : σ → α → Except ε σ} {l : List α} {s : σ}
    (h : ∀ a ∈ l, ∀ s, Succeeds (f s a)) : Succeeds (l.foldlM f s) := by
  obtain ⟨s', hs', -⟩ := exists_foldlM (fun _ _ => True) l (s := s) trivial
    fun done a rest s hl _ => by
      obtain ⟨s', hs'⟩ := h a (hl ▸ List.mem_append_right done List.mem_cons_self) s
      exact ⟨s', hs', trivial⟩
  exact ⟨s', hs'⟩

end Succeeds

/-- A computation that gives a result satisfying `P`. -/
def Attains (x : Except ε α) (P : α → Prop) : Prop := ∃ a, x = .ok a ∧ P a

namespace Attains

variable {x : Except ε α} {P Q : α → Prop}

theorem ok {a : α} (h : P a) : Attains (.ok a : Except ε α) P := ⟨a, rfl, h⟩

theorem succeeds (h : Attains x P) : Succeeds x := h.imp fun _ => And.left

theorem mono (h : Attains x P) (hPQ : ∀ a, P a → Q a) : Attains x Q := by
  obtain ⟨a, ha, hP⟩ := h
  exact ⟨a, ha, hPQ a hP⟩

theorem bind {f : α → Except ε β} {Q : β → Prop} (h : Attains x P)
    (hf : ∀ a, P a → Attains (f a) Q) : Attains (x >>= f) Q := by
  obtain ⟨a, rfl, ha⟩ := h
  exact hf a ha

/-- A loop whose steps all succeed and keep `P`. -/
theorem foldlM {f : σ → α → Except ε σ} {P : σ → Prop} {l : List α} {s : σ} (hs : P s)
    (step : ∀ a ∈ l, ∀ s, P s → Attains (f s a) P) : Attains (l.foldlM f s) P :=
  exists_foldlM (fun _ s => P s) l hs fun done a _ s hl hs =>
    step a (hl ▸ List.mem_append_right done List.mem_cons_self) s hs

/-- A map whose function succeeds on every element, with results that have a property. -/
theorem mapM [Inhabited β] {f : α → Except ε β} {l : List α} {R : α → β → Prop}
    (h : ∀ a ∈ l, Attains (f a) (R a)) :
    Attains (l.mapM f) fun bs => ∃ p : α → β, bs = l.map p ∧ ∀ a ∈ l, R a (p a) := by
  obtain ⟨p, hp⟩ := Succeeds.exists_eq fun a ha => (h a ha).succeeds
  refine ⟨_, mapM_eq hp, p, rfl, fun a ha => ?_⟩
  obtain ⟨b, hb, hR⟩ := h a ha
  rwa [Except.ok.inj ((hp a ha).symm.trans hb)]

end Attains

/-! ### Computations that agree -/

/-- Two computations give results that are related by `R`, or stop with the same error. -/
def Agree (R : α → β → Prop) (x : Except ε α) (y : Except ε β) : Prop :=
  Meets x (fun a => ∃ b, y = .ok b ∧ R a b) fun e => y = .error e

namespace Agree

variable {α' β' : Type} {R : α → β → Prop} {S : α' → β' → Prop}

theorem ok {a : α} {b : β} (h : R a b) : Agree R (.ok a : Except ε α) (.ok b) := ⟨b, rfl, h⟩

theorem error (e : ε) : Agree R (.error e) (.error e) := rfl

theorem of_ok {x : Except ε α} {b : β} (h : ∃ a, x = .ok a ∧ R a b) : Agree R x (.ok b) := by
  obtain ⟨a, rfl, hab⟩ := h
  exact .ok hab

theorem of_error {x : Except ε α} {e : ε} (h : x = .error e) :
    Agree R x (.error e : Except ε β) := h ▸ .error e

theorem bind {x : Except ε α} {y : Except ε β} {f : α → Except ε α'} {g : β → Except ε β'}
    (h : Agree R x y) (hfg : ∀ a b, R a b → Agree S (f a) (g b)) :
    Agree S (x >>= f) (y >>= g) := by
  cases x with
  | ok a =>
    obtain ⟨b, rfl, hab⟩ := h
    exact hfg a b hab
  | error e =>
    obtain rfl : y = .error e := h
    exact .error e

end Agree

end ZXRewriting
