import Mathlib.Algebra.GroupWithZero.Nat
import Mathlib.Data.List.Forall2

/-!
# Reasoning about computations that change a state and may fail

A computation in `Except ε` is taken apart by the lemmas on `= .ok _`. A computation in
`ExceptT ε (StateM σ)` is described in two ways. `Ends` is a weakest precondition: from a state, what
holds after success and what holds after failure. `Gives` says that a run succeeds with a value and a
state, and is taken apart along the steps of the computation.
-/

namespace CodeRules

namespace Except

variable {ε ε' α β : Type}

/-- A bind succeeds when both of its steps do. -/
@[simp] theorem bind_eq_ok {x : Except ε α} {f : α → Except ε β} {b : β} :
    (x >>= f) = .ok b ↔ ∃ a, x = .ok a ∧ f a = .ok b := by
  cases x <;> simp [bind, Except.bind]

/-- A mapped outcome is a success when the outcome is one. -/
@[simp] theorem map_eq_ok {x : Except ε α} {f : α → β} {b : β} :
    x.map f = .ok b ↔ ∃ a, x = .ok a ∧ f a = b := by
  cases x <;> simp [Except.map]

/-- The same with the notation for functors. -/
@[simp] theorem functor_map_eq_ok {x : Except ε α} {f : α → β} {b : β} :
    f <$> x = .ok b ↔ ∃ a, x = .ok a ∧ f a = b := map_eq_ok

/-- Rewording failures does not touch successes. -/
@[simp] theorem mapError_eq_ok {x : Except ε α} {f : ε → ε'} {a : α} :
    x.mapError f = .ok a ↔ x = .ok a := by
  cases x <;> simp [Except.mapError]

/-- A reworded failure comes from a failure. -/
theorem mapError_eq_error {x : Except ε α} {f : ε → ε'} {e : ε'} :
    x.mapError f = .error e ↔ ∃ e', x = .error e' ∧ f e' = e := by
  cases x <;> simp [Except.mapError]

/-- What does not succeed fails. -/
theorem exists_eq_error_iff {x : Except ε α} : (∃ e, x = .error e) ↔ ¬ ∃ a, x = .ok a := by
  cases x <;> simp

/-- Returning a value succeeds with this value only. -/
@[simp] theorem pure_eq_ok {a b : α} : (pure a : Except ε α) = .ok b ↔ a = b := by
  simp [pure, Except.pure]

/-- The results of going through a list stand in the same order as its elements. -/
theorem mapM_eq_ok {f : α → Except ε β} {l : List α} {bs : List β} :
    l.mapM f = .ok bs ↔ List.Forall₂ (fun a b => f a = .ok b) l bs := by
  -- the list of results is taken apart along the list of elements
  induction l generalizing bs with
  | nil => rw [List.mapM_nil, pure_eq_ok, List.forall₂_nil_left_iff, eq_comm]
  | cons a l ih =>
    simp only [List.mapM_cons, bind_eq_ok, pure_eq_ok, ih, List.forall₂_cons_left_iff]
    constructor
    · rintro ⟨b, hb, bs, hbs, rfl⟩
      exact ⟨b, bs, hb, hbs, rfl⟩
    · rintro ⟨b, bs, hb, hbs, rfl⟩
      exact ⟨b, hb, bs, hbs, rfl⟩

/-- A fold over a list keeps what each of its elements keeps. -/
theorem foldlM_ok {f : β → α → Except ε β} {I : β → Prop} {l : List α} {b c : β}
    (h : l.foldlM f b = .ok c) (hb : I b)
    (step : ∀ a ∈ l, ∀ b b', I b → f b a = .ok b' → I b') : I c := by
  induction l generalizing b with
  | nil =>
    simp only [List.foldlM_nil, pure_eq_ok] at h
    exact h ▸ hb
  | cons a l ih =>
    simp only [List.foldlM_cons, bind_eq_ok] at h
    obtain ⟨b', hb', h⟩ := h
    exact ih h (step a (List.mem_cons_self ..) b b' hb hb')
      (fun x hx => step x (List.mem_cons_of_mem _ hx))

/-! ### Outcomes without their errors -/

/-- Forgetting the failure of a bind is binding what is left of its steps. -/
@[simp] theorem toOption_bind (x : Except ε α) (f : α → Except ε β) :
    (x >>= f).toOption = x.toOption.bind fun a => (f a).toOption := by
  cases x <;> rfl

/-- A returned value is there. -/
@[simp] theorem toOption_pure (a : α) : (pure a : Except ε α).toOption = some a := rfl

/-- Nothing is left of a failure, whatever it said. -/
@[simp] theorem toOption_mapError (x : Except ε α) (f : ε → ε') :
    (x.mapError f).toOption = x.toOption := by
  cases x <;> rfl

/-- Only a success leaves something. -/
@[simp] theorem toOption_eq_some_iff {x : Except ε α} {a : α} : x.toOption = some a ↔ x = .ok a := by
  cases x <;> simp [Except.toOption]

/-- Mapping an outcome maps what is left of it. -/
theorem toOption_map (x : Except ε α) (f : α → β) : (x.map f).toOption = x.toOption.map f := by
  cases x <;> rfl

end Except

/-- What follows options that agree under `f` agrees if it does for elements that agree under `f`. -/
theorem Option.bind_eq_bind_of_map {α β γ : Type} {f : α → β} {x y : Option α} {k k' : α → Option γ}
    (h : x.map f = y.map f) (hk : ∀ a ∈ x, ∀ b ∈ y, f a = f b → k a = k' b) :
    x.bind k = y.bind k' := by
  cases x with
  | none =>
    cases y with
    | none => rfl
    -- one of the options is missing, which the images exclude
    | some b => cases h
  | some a =>
    cases y with
    -- likewise with the options exchanged
    | none => cases h
    | some b => exact hk a rfl b rfl (Option.some.inj h)

/-- Options that agree under `f` are both missing, or have elements that agree. -/
theorem Option.cases_of_map {α β : Type} {f : α → β} {x y : Option α} (h : x.map f = y.map f) :
    (x = none ∧ y = none) ∨ ∃ a b, x = some a ∧ y = some b ∧ f a = f b := by
  cases x with
  | none => exact .inl ⟨rfl, Option.map_eq_none_iff.1 h.symm⟩
  | some a =>
    obtain ⟨b, hb, hab⟩ := Option.map_eq_some_iff.1 h.symm
    exact .inr ⟨a, b, rfl, hb, hab.symm⟩

/-- Options are related when what is in either of them has a counterpart in the other one. -/
theorem Option.rel_of_exists {α β : Type} {R : α → β → Prop} {x : Option α} {y : Option β}
    (h : ∀ a, x = some a → ∃ b, y = some b ∧ R a b) (h' : ∀ b, y = some b → ∃ a, x = some a) :
    Option.Rel R x y := by
  cases x with
  | none =>
    cases y with
    | none => exact .none
    -- an element of `y` alone would need a counterpart
    | some b =>
      obtain ⟨a, ha⟩ := h' b rfl
      cases ha
  | some a =>
    obtain ⟨b, rfl, hab⟩ := h a rfl
    exact .some hab

/-- Options that follow related ones are related if related elements lead to related ones. -/
theorem Option.rel_bind {α β γ δ : Type} {R : α → β → Prop} {S : γ → δ → Prop} {x : Option α}
    {y : Option β} {k : α → Option γ} {k' : β → Option δ} (h : Option.Rel R x y)
    (hk : ∀ a b, R a b → Option.Rel S (k a) (k' b)) : Option.Rel S (x.bind k) (y.bind k') := by
  cases h with
  | none => exact .none
  | some h => exact hk _ _ h

/-- Options that are there together are related if their elements are. -/
theorem Option.rel_of_isSome_iff {α β : Type} {R : α → β → Prop} {x : Option α} {y : Option β}
    (h : x.isSome ↔ y.isSome) (hR : ∀ a b, x = some a → y = some b → R a b) : Option.Rel R x y := by
  cases x with
  | none =>
    cases y with
    | none => exact .none
    | some b => cases h.2 rfl
  | some a =>
    cases y with
    | none => cases h.1 rfl
    | some b => exact .some (hR a b rfl rfl)

/-- What an element on the right is related to is there. -/
theorem Option.exists_left_of_rel {α β : Type} {R : α → β → Prop} {x : Option α} {b : β}
    (h : Option.Rel R x (some b)) : ∃ a, x = some a ∧ R a b := by
  cases h with
  | some h => exact ⟨_, rfl, h⟩

/-- What an element on the left is related to is there. -/
theorem Option.exists_right_of_rel {α β : Type} {R : α → β → Prop} {a : α} {y : Option β}
    (h : Option.Rel R (some a) y) : ∃ b, y = some b ∧ R a b := by
  cases h with
  | some h => exact ⟨_, rfl, h⟩

/-- Options that are related are there together, and so is what is made of them. -/
theorem Option.isSome_bind_eq_of_rel {α β γ δ : Type} {R : α → β → Prop} {x : Option α}
    {y : Option β} (h : Option.Rel R x y) (f : α → γ) (g : β → δ) :
    (x.bind fun a => some (f a)).isSome = (y.bind fun b => some (g b)).isSome := by
  cases h <;> rfl

/-- Related options are there together. -/
theorem Option.isSome_eq_of_rel {α β : Type} {R : α → β → Prop} {x : Option α} {y : Option β}
    (h : Option.Rel R x y) : x.isSome = y.isSome := by
  cases h <;> rfl

namespace Effect

variable {ε σ α β : Type}

/-- From `s` the computation ends as `Q` says when it succeeds, and as `E` says when it fails. -/
def Ends (x : ExceptT ε (StateM σ) α) (s : σ) (Q : α → σ → Prop) (E : ε → σ → Prop) : Prop :=
  match x.run.run s with
  | (.ok a, s') => Q a s'
  | (.error e, s') => E e s'

/-- From `s` the computation succeeds with `a` and leaves `s'`. -/
def Gives (x : ExceptT ε (StateM σ) α) (s : σ) (a : α) (s' : σ) : Prop :=
  Eq (α := Except ε α × σ) (x.run.run s) (.ok a, s')

variable {x : ExceptT ε (StateM σ) α} {f : α → ExceptT ε (StateM σ) β} {s s' : σ} {a : α}
  {Q Q' : α → σ → Prop} {R : β → σ → Prop} {E E' : ε → σ → Prop}

/-! ### Single steps -/

/-- What holds of every way to end holds of a run that succeeds. -/
theorem Ends.gives (h : Ends x s Q E) (hx : Gives x s a s') : Q a s' := by
  rw [Ends, show x.run.run s = _ from hx] at h
  exact h

/-- What holds after a computation may be weakened. -/
theorem Ends.imp (h : Ends x s Q E) (hQ : ∀ a s', Q a s' → Q' a s')
    (hE : ∀ e s', E e s' → E' e s') : Ends x s Q' E' := by
  unfold Ends at *
  split at h
  · exact hQ _ _ h
  · exact hE _ _ h

/-- What holds after a success may be weakened alone. -/
theorem Ends.mono (h : Ends x s Q E) (hQ : ∀ a s', Q a s' → Q' a s') : Ends x s Q' E :=
  h.imp hQ fun _ _ he => he

/-- Two descriptions of one computation hold together. -/
theorem Ends.and (h : Ends x s Q E) (h' : Ends x s Q' E') :
    Ends x s (fun a s => Q a s ∧ Q' a s) (fun e s => E e s ∧ E' e s) := by
  unfold Ends at *
  -- both of them are about the one outcome of the run
  split <;> rename_i hrun <;> rw [hrun] at h h' <;> exact ⟨h, h'⟩

/-- Every run ends, and a postcondition that holds of the way it ends holds. -/
theorem ends_of_gives (hQ : ∀ a s', Gives x s a s' → Q a s') :
    Ends x s Q (fun _ _ => True) := by
  unfold Ends
  split
  · rename_i h
    exact hQ _ _ h
  · trivial

/-- Returning a value ends at once. -/
@[simp] theorem ends_pure : Ends (pure a) s Q E ↔ Q a s := Iff.rfl

/-- Failing ends at once. -/
@[simp] theorem ends_throw {e : ε} : Ends (throw e : ExceptT ε (StateM σ) α) s Q E ↔ E e s :=
  Iff.rfl

/-- Reading the state gives the state. -/
@[simp] theorem ends_get {Q : σ → σ → Prop} :
    Ends (get : ExceptT ε (StateM σ) σ) s Q E ↔ Q s s := Iff.rfl

/-- Writing the state leaves what was written. -/
@[simp] theorem ends_set {Q : PUnit → σ → Prop} :
    Ends (set s' : ExceptT ε (StateM σ) PUnit) s Q E ↔ Q ⟨⟩ s' := Iff.rfl

/-- Changing the state leaves the changed state. -/
@[simp] theorem ends_modify {f : σ → σ} {Q : PUnit → σ → Prop} :
    Ends (modify f : ExceptT ε (StateM σ) PUnit) s Q E ↔ Q ⟨⟩ (f s) := Iff.rfl

/-- A bind runs its second step only where the first one succeeds. -/
theorem run_bind : (x >>= f).run.run s = match x.run.run s with
    | (.ok a, s') => (f a).run.run s'
    | (.error e, s') => (.error e, s') := by
  rw [ExceptT.run_bind, StateT.run_bind]
  cases x.run.run s with
  | mk r s' => cases r <;> rfl

/-- The second step ends a bind from every state in which the first one may leave it. -/
@[simp] theorem ends_bind :
    Ends (x >>= f) s R E ↔ Ends x s (fun a s' => Ends (f a) s' R E) E := by
  unfold Ends
  rw [run_bind]
  cases x.run.run s with
  | mk r s' => cases r <;> rfl

/-- Mapping changes the value of a run and nothing else. -/
@[simp] theorem ends_map {f : α → β} :
    Ends (f <$> x) s R E ↔ Ends x s (fun a s' => R (f a) s') E := by
  rw [map_eq_pure_bind, ends_bind]
  rfl

/-- A handler runs from the state in which the failure left the computation. -/
theorem run_tryCatch {h : ε → ExceptT ε (StateM σ) α} :
    (tryCatch x h).run.run s = match x.run.run s with
      | (.ok a, s') => (.ok a, s')
      | (.error e, s') => (h e).run.run s' := by
  -- catching is unfolded down to the transformer, for which the library has the equation
  show StateT.run (ExceptT.run (ExceptT.tryCatch x h)) s = _
  rw [ExceptT.tryCatch, ExceptT.run_mk, StateT.run_bind]
  have hx : x.run.run s = StateT.run x s := rfl
  rw [hx]
  cases StateT.run x s with
  | mk r s' => cases r <;> rfl

/-- A handler may end a computation that fails. -/
@[simp] theorem ends_tryCatch {h : ε → ExceptT ε (StateM σ) α} :
    Ends (tryCatch x h) s Q E ↔ Ends x s Q (fun e s' => Ends (h e) s' Q E) := by
  unfold Ends
  rw [run_tryCatch]
  cases x.run.run s with
  | mk r s' => cases r <;> rfl

/-- Returning a value gives it and leaves the state alone. -/
@[simp] theorem gives_pure {b : α} :
    Gives (pure a : ExceptT ε (StateM σ) α) s b s' ↔ a = b ∧ s = s' := by
  show (Except.ok a, s) = _ ↔ _
  simp

/-- A failure gives nothing. -/
@[simp] theorem gives_throw {e : ε} : Gives (throw e : ExceptT ε (StateM σ) α) s a s' ↔ False := by
  show (Except.error e, s) = _ ↔ _
  simp

/-- Reading the state gives it and leaves it alone. -/
@[simp] theorem gives_get {t : σ} :
    Gives (get : ExceptT ε (StateM σ) σ) s t s' ↔ s = t ∧ s = s' := by
  show (Except.ok s, s) = _ ↔ _
  simp

/-- Changing the state leaves the changed state. -/
@[simp] theorem gives_modify {f : σ → σ} {u : PUnit} :
    Gives (modify f : ExceptT ε (StateM σ) PUnit) s u s' ↔ f s = s' := by
  show (Except.ok PUnit.unit, f s) = _ ↔ _
  simp

/-- A bind gives what its second step gives after the first one. -/
@[simp] theorem gives_bind {b : β} {t : σ} :
    Gives (x >>= f) s b t ↔ ∃ a s', Gives x s a s' ∧ Gives (f a) s' b t := by
  unfold Gives
  rw [run_bind]
  cases x.run.run s with
  | mk r s₁ =>
    cases r with
    -- the first step fails, and so does the bind
    | error e => simp
    | ok a =>
      constructor
      · intro h
        exact ⟨a, s₁, rfl, h⟩
      · rintro ⟨_, _, e, h⟩
        cases e
        exact h

/-- A run has one way to succeed. -/
theorem Gives.unique {b : α} {t : σ} (h : Gives x s a s') (h' : Gives x s b t) :
    a = b ∧ s' = t := by
  rw [Gives, show x.run.run s = _ from h] at h'
  simpa using h'

/-- A run that does not fail gives a value. -/
theorem exists_gives (h : (Except.isOk (α := α) (x.run.run s).1) = true) :
    ∃ a, Gives x s a (x.run.run s).2 := by
  unfold Gives
  cases hrun : x.run.run s with
  | mk outcome s' =>
    rw [hrun] at h
    cases outcome with
    | error e => cases h
    | ok a => exact ⟨a, rfl⟩

/-- A run that does not fail gives its value. -/
theorem gives_getD (h : (Except.isOk (α := α) (x.run.run s).1) = true) {d : α} :
    Gives x s ((Except.toOption (α := α) (x.run.run s).1).getD d) (x.run.run s).2 := by
  obtain ⟨a, ha⟩ := exists_gives h
  have hrun : x.run.run s = (.ok a, (x.run.run s).2) := ha
  rw [hrun] at ha ⊢
  exact hrun

/-! ### Kinds of failure -/

/-- From no state does the computation fail otherwise than `E` says. -/
def FailsOnly (x : ExceptT ε (StateM σ) α) (E : ε → Prop) : Prop :=
  ∀ s, Ends x s (fun _ _ => True) (fun e _ => E e)

section

variable {E : ε → Prop}

/-- Returning a value does not fail. -/
theorem failsOnly_pure : FailsOnly (pure a : ExceptT ε (StateM σ) α) E := fun _ => trivial

/-- A failure is such as `E` says if its error is. -/
theorem failsOnly_throw {e : ε} (h : E e) : FailsOnly (throw e : ExceptT ε (StateM σ) α) E :=
  fun _ => h

/-- Reading the state does not fail. -/
theorem failsOnly_get : FailsOnly (get : ExceptT ε (StateM σ) σ) E := fun _ => trivial

/-- A bind fails only where one of its steps does. -/
theorem failsOnly_bind (hx : FailsOnly x E) (hf : ∀ a, FailsOnly (f a) E) :
    FailsOnly (x >>= f) E :=
  fun s => ends_bind.2 ((hx s).imp (fun a s' _ => hf a s') fun _ _ he => he)

/-- A fold fails only where one of its steps does. -/
theorem failsOnly_foldlM {l : List β} {f : α → β → ExceptT ε (StateM σ) α}
    (h : ∀ b ∈ l, ∀ a, FailsOnly (f a b) E) (a : α) : FailsOnly (l.foldlM f a) E := by
  induction l generalizing a with
  | nil => exact failsOnly_pure
  | cons b l ih =>
    rw [List.foldlM_cons]
    -- the rest of the list is folded from whatever the first step gave
    exact failsOnly_bind (h b (List.mem_cons_self ..) a) fun a' =>
      ih (fun c hc => h c (List.mem_cons_of_mem _ hc)) a'

end

/-! ### Results -/

/-- A run from a state that satisfies `I` ends in such a state, also when it fails, and the value of a
run that succeeds is as `P` says. -/
def Yields (I : σ → Prop) (x : ExceptT ε (StateM σ) α) (P : α → Prop) : Prop :=
  ∀ s, I s → Ends x s (fun a s' => P a ∧ I s') (fun _ s' => I s')

section

variable {I : σ → Prop} {P P' : α → Prop} {R : β → Prop}

/-- What a computation yields holds of the value that it gives. -/
theorem Yields.gives (h : Yields I x P) (hs : I s) (hx : Gives x s a s') : P a ∧ I s' :=
  (h s hs).gives hx

/-- What is yielded may be weakened. -/
theorem Yields.mono (h : Yields I x P) (hP : ∀ a, P a → P' a) : Yields I x P' :=
  fun s hs => (h s hs).mono fun a _ ha => ⟨hP a ha.1, ha.2⟩

/-- Every run yields something. -/
theorem yields_trivial : Yields (fun _ => True) x fun _ => True := fun _ _ =>
  (ends_of_gives fun _ _ _ => ⟨trivial, trivial⟩).imp (fun _ _ h => h) fun _ _ _ => trivial

/-- A returned value is yielded. -/
theorem yields_pure (h : P a) : Yields I (pure a : ExceptT ε (StateM σ) α) P := fun _ hs => ⟨h, hs⟩

/-- A failure yields whatever is asked for. -/
theorem yields_throw {e : ε} : Yields I (throw e : ExceptT ε (StateM σ) α) P := fun _ hs => hs

/-- The second step may use what the first one yields. -/
theorem yields_bind (hx : Yields I x P) (hf : ∀ a, P a → Yields I (f a) R) : Yields I (x >>= f) R :=
  fun s hs => ends_bind.2 ((hx s hs).mono fun a s' ha => hf a ha.1 s' ha.2)

/-- Reading the state yields what is known about it. -/
theorem yields_get : Yields I (get : ExceptT ε (StateM σ) σ) I := fun _ hs => ⟨hs, hs⟩

/-- A fold yields what each of its steps keeps. -/
theorem yields_foldlM {l : List β} {g : α → β → ExceptT ε (StateM σ) α}
    (h : ∀ b ∈ l, ∀ a, P a → Yields I (g a b) P) (ha : P a) : Yields I (l.foldlM g a) P := by
  induction l generalizing a with
  | nil => exact yields_pure ha
  | cons b l ih =>
    rw [List.foldlM_cons]
    exact yields_bind (h b (List.mem_cons_self ..) a ha) fun a' ha' =>
      ih (fun c hc => h c (List.mem_cons_of_mem _ hc)) ha'

end

/-! ### Runs that lead on -/

/-- From `s` a run leads to a later state in the sense of `r`, also when it fails. The value of a run
that succeeds is as `P` says of that state, and a failure is as `E` says. -/
def LeadsOr (r : σ → σ → Prop) (E : ε → Prop) (x : ExceptT ε (StateM σ) α) (s : σ)
    (P : α → σ → Prop) : Prop :=
  Ends x s (fun a s' => r s s' ∧ P a s') (fun e s' => r s s' ∧ E e)

/-- From `s` a run leads to a later state in the sense of `r`, however it fails. -/
abbrev Leads (r : σ → σ → Prop) (x : ExceptT ε (StateM σ) α) (s : σ) (P : α → σ → Prop) : Prop :=
  LeadsOr r (fun _ => True) x s P

section

variable {r r' : σ → σ → Prop} {E E' : ε → Prop} {P P' : α → σ → Prop} {R : β → σ → Prop}

/-- What is said of the value may be weakened, and may use that the state is later. -/
theorem LeadsOr.mono (h : LeadsOr r E x s P) (hP : ∀ a s', r s s' → P a s' → P' a s') :
    LeadsOr r E x s P' :=
  Ends.mono h fun a s' ha => ⟨ha.1, hP a s' ha.1 ha.2⟩

/-- The state after a run is a later one, whether the run succeeds or fails. -/
theorem LeadsOr.later (h : LeadsOr r E x s P) : r s (x.run.run s).2 := by
  unfold LeadsOr Ends at h
  split at h <;> rename_i heq <;> rw [heq] <;> exact h.1

/-- A run that leads along a relation leads along every weaker one. -/
theorem LeadsOr.weaken (h : LeadsOr r E x s P) (hr : ∀ s', r s s' → r' s s') (hE : ∀ e, E e → E' e) :
    LeadsOr r' E' x s P :=
  Ends.imp h (fun _ s' ha => ⟨hr s' ha.1, ha.2⟩) fun e s' he => ⟨hr s' he.1, hE e he.2⟩

variable [Std.Refl r]

/-- Returning a value stays where it is. -/
theorem leads_pure (h : P a s) : LeadsOr r E (pure a : ExceptT ε (StateM σ) α) s P :=
  ⟨Std.Refl.refl s, h⟩

/-- Failing stays where it is. -/
theorem leads_throw {e : ε} (he : E e) : LeadsOr r E (throw e : ExceptT ε (StateM σ) α) s P :=
  ⟨Std.Refl.refl s, he⟩

omit [Std.Refl r] in
/-- Reading the state changes nothing. -/
theorem leads_get_bind {f : σ → ExceptT ε (StateM σ) α} (h : LeadsOr r E (f s) s P) :
    LeadsOr r E (get >>= f) s P := by
  rw [LeadsOr, ends_bind, ends_get]
  exact h

omit [Std.Refl r] in
/-- A change leads on if the changed state is a later one. -/
theorem leads_modify {g : σ → σ} {P : PUnit → σ → Prop} (h : r s (g s)) (hP : P ⟨⟩ (g s)) :
    LeadsOr r E (modify g : ExceptT ε (StateM σ) PUnit) s P := ⟨h, hP⟩

variable [IsTrans σ r]

omit [Std.Refl r] in
/-- What follows a run starts from a later state. -/
theorem leads_bind (hx : LeadsOr r E x s P)
    (hf : ∀ a s', r s s' → P a s' → LeadsOr r E (f a) s' R) : LeadsOr r E (x >>= f) s R := by
  rw [LeadsOr, ends_bind]
  refine Ends.mono hx fun a s' ha => ?_
  -- both ends of the second run are later than the state between the runs
  exact (hf a s' ha.1 ha.2).imp (fun _ _ hb => ⟨IsTrans.trans _ _ _ ha.1 hb.1, hb.2⟩)
    fun _ _ hb => ⟨IsTrans.trans _ _ _ ha.1 hb.1, hb.2⟩

/-- Going through a list by a fold leads on when each of its steps does. -/
theorem leads_foldlM {l : List β} {g : α → β → ExceptT ε (StateM σ) α}
    (h : ∀ b ∈ l, ∀ a s', r s s' → P a s' → LeadsOr r E (g a b) s' P) (ha : P a s) :
    LeadsOr r E (l.foldlM g a) s P := by
  -- the induction is on the list, from every later state
  induction l generalizing a s with
  | nil => exact leads_pure ha
  | cons b l ih =>
    rw [List.foldlM_cons]
    refine leads_bind (h b (List.mem_cons_self ..) a s (Std.Refl.refl s) ha) fun a' s' hs' ha' => ?_
    exact ih (fun c hc a s'' hs'' => h c (List.mem_cons_of_mem _ hc) a s''
      (IsTrans.trans _ _ _ hs' hs'')) ha'

/-- Going through a list leads on when each of its elements does from every later state. -/
theorem leads_forM {l : List β} {g : β → ExceptT ε (StateM σ) PUnit}
    (h : ∀ b ∈ l, ∀ s', r s s' → LeadsOr r E (g b) s' fun _ _ => True) :
    LeadsOr r E (l.forM g) s fun _ _ => True := by
  induction l generalizing s with
  | nil => exact leads_pure trivial
  | cons b l ih =>
    refine leads_bind (h b (List.mem_cons_self ..) s (Std.Refl.refl s)) fun _ s' hs' _ => ?_
    exact ih fun c hc s'' hs'' => h c (List.mem_cons_of_mem _ hc) s'' (IsTrans.trans _ _ _ hs' hs'')

/-- What holds of a result keeps holding while the rest of the list is gone through. -/
theorem leads_mapM {l : List β} {g : β → ExceptT ε (StateM σ) α}
    (hP : ∀ a s' s'', r s' s'' → P a s' → P a s'')
    (h : ∀ b ∈ l, ∀ s', r s s' → LeadsOr r E (g b) s' P) :
    LeadsOr r E (l.mapM g) s fun as s' => ∀ a ∈ as, P a s' := by
  induction l generalizing s with
  | nil => exact leads_pure (fun _ ha => absurd ha List.not_mem_nil)
  | cons b l ih =>
    rw [List.mapM_cons]
    refine leads_bind (h b (List.mem_cons_self ..) s (Std.Refl.refl s)) fun a s' hs' ha => ?_
    refine leads_bind (ih fun c hc s'' hs'' => h c (List.mem_cons_of_mem _ hc) s''
      (IsTrans.trans _ _ _ hs' hs'')) fun as s'' hs'' has => leads_pure ?_
    -- what holds of the first result still holds after the others
    exact List.forall_mem_cons.2 ⟨hP a s' s'' hs'' ha, has⟩

end

/-! ### Runs that only answer -/

/-- Every run succeeds without changing the state, with a value as `P` says. -/
def Returns (x : ExceptT ε (StateM σ) α) (P : α → Prop) : Prop :=
  ∀ s, Ends x s (fun a s' => P a ∧ s' = s) (fun _ _ => False)

section

variable {P P' : α → Prop} {R : β → Prop}

/-- A run that answers gives a value and leaves the state alone. -/
theorem Returns.exists_gives (h : Returns x P) (s : σ) : ∃ a, Gives x s a s ∧ P a := by
  have hs := h s
  unfold Ends at hs
  split at hs
  · rename_i a s' hrun
    exact ⟨a, hs.2 ▸ hrun, hs.1⟩
  · exact hs.elim

/-- What is said of an answer may be weakened. -/
theorem Returns.mono (h : Returns x P) (hP : ∀ a, P a → P' a) : Returns x P' :=
  fun s => (h s).mono fun a _ ha => ⟨hP a ha.1, ha.2⟩

/-- Returning a value answers. -/
theorem returns_pure (h : P a) : Returns (pure a : ExceptT ε (StateM σ) α) P := fun _ => ⟨h, rfl⟩

/-- A run that answers may be followed by another one. -/
theorem returns_bind (hx : Returns x P) (hf : ∀ a, P a → Returns (f a) R) : Returns (x >>= f) R := by
  intro s
  rw [ends_bind]
  refine (hx s).mono fun a s' ha => ?_
  obtain ⟨ha, rfl⟩ := ha
  exact hf a ha s'

end

/-! ### Lists -/

/-- Going through a list keeps an invariant about what is left of it. -/
theorem ends_forM {l : List α} {f : α → ExceptT ε (StateM σ) PUnit} (I : List α → σ → Prop)
    (h : ∀ a rest s, I (a :: rest) s → Ends (f a) s (fun _ s' => I rest s') E) (hs : I l s) :
    Ends (l.forM f) s (fun _ s' => I [] s') E := by
  induction l generalizing s with
  | nil => exact hs
  | cons a l ih =>
    show Ends (f a >>= fun _ => l.forM f) s _ E
    rw [ends_bind]
    exact (h a l s hs).imp (fun _ s' hs' => ih hs') (fun _ _ he => he)

/-- Going through a list keeps what each of its elements keeps. -/
theorem ends_forM_of_forall {l : List α} {f : α → ExceptT ε (StateM σ) PUnit} {I : σ → Prop}
    (h : ∀ a ∈ l, ∀ s, I s → Ends (f a) s (fun _ s' => I s') E) (hs : I s) :
    Ends (l.forM f) s (fun _ s' => I s') E := by
  -- what is left of the list lies within the list
  have := ends_forM (E := E) (l := l) (f := f) (fun rest s => (∀ a ∈ rest, a ∈ l) ∧ I s)
    (fun a rest s hI => (h a (hI.1 a (List.mem_cons_self ..)) s hI.2).imp
      (fun _ s' hs' => ⟨fun b hb => hI.1 b (List.mem_cons_of_mem _ hb), hs'⟩) (fun _ _ he => he))
    (s := s) ⟨fun _ h => h, hs⟩
  exact this.imp (fun _ _ h => h.2) (fun _ _ he => he)

/-- Going through a mapped list is going through the list. -/
theorem forM_map {m : Type → Type} [Monad m] [LawfulMonad m] (l : List α) (f : α → β)
    (g : β → m PUnit) : (l.map f).forM g = l.forM fun a => g (f a) := List.forM_map

/-- Going through a filtered list is going through the list and skipping what is dropped. -/
theorem forM_filterMap {m : Type → Type} [Monad m] [LawfulMonad m] (l : List α) (f : α → Option β)
    (g : β → m PUnit) : (l.filterMap f).forM g = l.forM fun a =>
      match f a with
      | none => pure ⟨⟩
      | some b => g b := by
  induction l with
  | nil => rfl
  | cons a l ih =>
    rw [List.filterMap_cons]
    show _ = (_ >>= fun _ => l.forM _)
    rw [← ih]
    cases h : f a with
    | none => simp only [h, pure_bind]
    | some b =>
      simp only [h]
      rfl

/-- Going through a flattened list is going through the lists one after the other. -/
theorem forM_flatMap {m : Type → Type} [Monad m] [LawfulMonad m] (l : List α) (f : α → List β)
    (g : β → m PUnit) : (l.flatMap f).forM g = l.forM fun a => (f a).forM g := by
  induction l with
  | nil => rfl
  | cons a l ih =>
    rw [List.flatMap_cons]
    show _ = ((f a).forM g >>= fun _ => l.forM _)
    rw [← ih]
    exact List.forM_append

/-- Nothing is done for an empty list. -/
theorem ends_mapM_nil {f : α → ExceptT ε (StateM σ) β} {Q : List β → σ → Prop} :
    Ends ([].mapM f) s Q E ↔ Q [] s := by
  rw [List.mapM_nil, ends_pure]

/-- The first element of a list comes before the others. -/
theorem ends_mapM_cons {l : List α} {f : α → ExceptT ε (StateM σ) β} {Q : List β → σ → Prop} :
    Ends ((a :: l).mapM f) s Q E ↔
      Ends (f a) s (fun b s' => Ends (l.mapM f) s' (fun bs s'' => Q (b :: bs) s'') E) E := by
  simp only [List.mapM_cons, ends_bind, ends_pure]

/-- Changing the elements of a list keeps what each of them keeps, and each result is as its
element promises. -/
theorem ends_mapM {l : List α} {f : α → ExceptT ε (StateM σ) β} {I : σ → Prop} {P : β → Prop}
    (h : ∀ a ∈ l, ∀ s, I s → Ends (f a) s (fun b s' => P b ∧ I s') E) (hs : I s) :
    Ends (l.mapM f) s (fun bs s' => (∀ b ∈ bs, P b) ∧ I s') E := by
  induction l generalizing s with
  | nil => simpa [ends_mapM_nil] using hs
  | cons a l ih =>
    rw [ends_mapM_cons]
    -- the rest of the list starts from the state in which the first element left it
    refine (h a (List.mem_cons_self ..) s hs).mono fun b s' hb => ?_
    refine (ih (fun c hc => h c (List.mem_cons_of_mem _ hc)) hb.2).mono
      fun bs s'' hbs => ⟨?_, hbs.2⟩
    simpa using ⟨hb.1, hbs.1⟩

/-- Computations that leave the state alone give one result for each element of a list, unless one of them
fails. -/
theorem ends_mapM_still {l : List α} {f : α → ExceptT ε (StateM σ) β} {R : α → β → Prop}
    {N : α → ε → Prop}
    (h : ∀ a ∈ l, Ends (f a) s (fun b s' => s' = s ∧ R a b) (fun e s' => s' = s ∧ N a e)) :
    Ends (l.mapM f) s (fun bs s' => s' = s ∧ List.Forall₂ R l bs)
      (fun e s' => s' = s ∧ ∃ a ∈ l, N a e) := by
  induction l with
  | nil => exact ends_mapM_nil.2 ⟨rfl, .nil⟩
  | cons a l ih =>
    rw [ends_mapM_cons]
    refine (h a (List.mem_cons_self ..)).imp (fun b s' hb => ?_) fun e s' he =>
      ⟨he.1, a, List.mem_cons_self .., he.2⟩
    obtain ⟨rfl, hb⟩ := hb
    refine (ih fun c hc => h c (List.mem_cons_of_mem _ hc)).imp (fun bs s'' hbs => ?_) fun e s'' he => ?_
    · exact ⟨hbs.1, .cons hb hbs.2⟩
    · obtain ⟨hs, c, hc, hfails⟩ := he
      exact ⟨hs, c, List.mem_cons_of_mem _ hc, hfails⟩

/-- When each element of a list costs some of what is left, the list costs the sum. -/
theorem ends_mapM_cost {l : List α} {f : α → ExceptT ε (StateM σ) β} (I : σ → Prop)
    (left : σ → Nat) (cost : β → Nat)
    (h : ∀ a ∈ l, ∀ s, I s → Ends (f a) s (fun b s' => I s' ∧ left s' + cost b ≤ left s) E)
    (hs : I s) :
    Ends (l.mapM f) s (fun bs s' => I s' ∧ left s' + (bs.map cost).sum ≤ left s) E := by
  induction l generalizing s with
  | nil => exact ends_mapM_nil.2 ⟨hs, Nat.le_refl _⟩
  | cons a l ih =>
    rw [ends_mapM_cons]
    -- the costs of the rest are paid out of what the first element left
    refine (h a (List.mem_cons_self ..) s hs).mono fun b s' hb => ?_
    refine (ih (fun c hc => h c (List.mem_cons_of_mem _ hc)) hb.1).mono fun bs s'' hbs =>
      ⟨hbs.1, ?_⟩
    rw [List.map_cons, List.sum_cons]
    omega

/-- Nothing is done for an empty list. -/
@[simp] theorem gives_forM_nil {f : α → ExceptT ε (StateM σ) PUnit} {u : PUnit} :
    Gives ([].forM f) s u s' ↔ s = s' := by
  show (Except.ok PUnit.unit, s) = _ ↔ _
  simp

/-- Going through a list starts with its first element. -/
theorem gives_forM_cons {l : List α} {f : α → ExceptT ε (StateM σ) PUnit} {u : PUnit} :
    Gives ((a :: l).forM f) s u s' ↔ ∃ t, Gives (f a) s ⟨⟩ t ∧ Gives (l.forM f) t ⟨⟩ s' := by
  show Gives (f a >>= fun _ => l.forM f) s u s' ↔ _
  rw [gives_bind]
  constructor
  · rintro ⟨⟨⟩, t, h, h'⟩
    exact ⟨t, h, h'⟩
  · rintro ⟨t, h, h'⟩
    exact ⟨⟨⟩, t, h, h'⟩

/-- An empty list gives no results. -/
theorem gives_mapM_nil {f : α → ExceptT ε (StateM σ) β} {bs : List β} :
    Gives ([].mapM f) s bs s' ↔ bs = [] ∧ s = s' := by
  rw [List.mapM_nil, gives_pure, eq_comm]

/-- The results of a list start with that of its first element. -/
theorem gives_mapM_cons {l : List α} {f : α → ExceptT ε (StateM σ) β} {cs : List β} :
    Gives ((a :: l).mapM f) s cs s' ↔
      ∃ b t bs, Gives (f a) s b t ∧ Gives (l.mapM f) t bs s' ∧ cs = b :: bs := by
  simp only [List.mapM_cons, gives_bind, gives_pure]
  constructor
  · rintro ⟨b, t, h, bs, _, h', rfl, rfl⟩
    exact ⟨b, t, bs, h, h', rfl⟩
  · rintro ⟨b, t, bs, h, h', rfl⟩
    exact ⟨b, t, h, bs, s', h', rfl, rfl⟩

/-- Going through a list leads where its elements lead, and each result is, and stays, as its element
promises. -/
theorem Gives.forall₂ {r : σ → σ → Prop} [Std.Refl r] [IsTrans σ r] {l : List α}
    {f : α → ExceptT ε (StateM σ) β} {bs : List β} {P : α → β → σ → Prop}
    (h : Gives (l.mapM f) s bs s') (hP : ∀ a b s s', r s s' → P a b s → P a b s')
    (hf : ∀ a ∈ l, ∀ t, r s t → ∀ b t', Gives (f a) t b t' → r t t' ∧ P a b t') :
    r s s' ∧ List.Forall₂ (fun a b => P a b s') l bs := by
  induction l generalizing s bs with
  | nil =>
    obtain ⟨rfl, rfl⟩ := gives_mapM_nil.1 h
    exact ⟨Std.Refl.refl s, .nil⟩
  | cons a l ih =>
    -- what the first element promises stays true while the others are gone through
    obtain ⟨b, t, bs, hb, hbs, rfl⟩ := gives_mapM_cons.1 h
    obtain ⟨hst, hPt⟩ := hf a (List.mem_cons_self ..) s (Std.Refl.refl s) b t hb
    obtain ⟨hts', hall⟩ := ih hbs fun c hc t' ht' =>
      hf c (List.mem_cons_of_mem _ hc) t' (IsTrans.trans _ _ _ hst ht')
    exact ⟨IsTrans.trans _ _ _ hst hts', .cons (hP a b t s' hts' hPt) hall⟩

/-- Going through a list comes to each of its elements, after those before it. -/
theorem Gives.mapM_mem {l : List α} {f : α → ExceptT ε (StateM σ) β} {bs : List β}
    (h : Gives (l.mapM f) s bs s') (ha : a ∈ l) :
    ∃ l₁ l₂ b bs₁ bs₂ s₁ s₂, l = l₁ ++ a :: l₂ ∧ bs = bs₁ ++ b :: bs₂ ∧
      Gives (l₁.mapM f) s bs₁ s₁ ∧ Gives (f a) s₁ b s₂ ∧ Gives (l₂.mapM f) s₂ bs₂ s' := by
  induction l generalizing s bs with
  | nil => cases ha
  | cons c l ih =>
    obtain ⟨b, t, bs, hb, hbs, rfl⟩ := gives_mapM_cons.1 h
    rcases List.mem_cons.1 ha with rfl | ha
    · exact ⟨[], l, b, [], bs, s, t, rfl, rfl, gives_mapM_nil.2 ⟨rfl, rfl⟩, hb, hbs⟩
    -- the element is among the others, which come after the first one
    · obtain ⟨l₁, l₂, b', bs₁, bs₂, s₁, s₂, rfl, rfl, hbefore, hb', hafter⟩ := ih hbs ha
      exact ⟨c :: l₁, l₂, b', b :: bs₁, bs₂, s₁, s₂, rfl, rfl,
        gives_mapM_cons.2 ⟨b, t, bs₁, hb, hbefore, rfl⟩, hb', hafter⟩

/-- A part of the state that no element changes is the same after going through the list. -/
theorem Gives.mapM_eq {γ : Type} {v : σ → γ} {Q : β → Prop} {l : List α}
    {f : α → ExceptT ε (StateM σ) β} {bs : List β} (h : Gives (l.mapM f) s bs s')
    (hf : ∀ a ∈ l, ∀ t b t', Gives (f a) t b t' → Q b → v t' = v t) (hbs : ∀ b ∈ bs, Q b) :
    v s' = v s := by
  induction l generalizing s bs with
  | nil =>
    obtain ⟨_, rfl⟩ := gives_mapM_nil.1 h
    rfl
  | cons a l ih =>
    obtain ⟨b, t, bs, hb, hrest, rfl⟩ := gives_mapM_cons.1 h
    rw [ih hrest (fun c hc => hf c (List.mem_cons_of_mem _ hc))
      fun c hc => hbs c (List.mem_cons_of_mem _ hc)]
    exact hf a (List.mem_cons_self ..) s b t hb (hbs b (List.mem_cons_self ..))

end Effect

end CodeRules
