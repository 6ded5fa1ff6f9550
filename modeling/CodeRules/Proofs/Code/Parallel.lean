import CodeRules.Proofs.Code.Blur

/-!
# Runs from twin arenas

`Parallel` says of two computations that from twin arenas they have outcomes that cannot be told apart
by a view, and leave twin arenas, as long as numbers have not run out. The rules follow the steps of
the computations. The second computation may start from an arena that has given out more numbers: what
holds of its last arena held before, since numbers are only ever given out.
-/

namespace CodeRules

open Effect

namespace Except

variable {ε α β γ δ χ : Type} {viewError : ε → χ} {view : α → β} {viewNext : γ → δ}

/-- Both outcomes are successes with one view, or both are failures with one view. -/
def Alike (viewError : ε → χ) (view : α → β) : Except ε α → Except ε α → Prop
  | .ok a, .ok b => view a = view b
  | .error e, .error e' => viewError e = viewError e'
  | _, _ => False

/-- An outcome is alike to itself. -/
theorem Alike.refl (x : Except ε α) : Alike viewError view x x := by
  cases x <;> rfl

/-- Outcomes that are alike up to nothing are equal. -/
theorem Alike.eq {x y : Except ε α} (h : Alike id id x y) : x = y := by
  cases x with
  | error e =>
    cases y with
    | error e' => exact congrArg Except.error h
    | ok b => exact h.elim
  | ok a =>
    cases y with
    | error e' => exact h.elim
    | ok b => exact congrArg Except.ok h

/-- Failures may be reported otherwise, as long as those that were alike stay alike. -/
theorem Alike.mapError {x y : Except ε α} (h : Alike viewError view x y) {r : ε → γ} {viewNew : γ → δ}
    (hr : ∀ e e', viewError e = viewError e' → viewNew (r e) = viewNew (r e')) :
    Alike viewNew view (x.mapError r) (y.mapError r) := by
  cases x <;> cases y
  · exact hr _ _ h
  · exact h
  · exact h
  · exact h

/-- Alike outcomes stay alike when both are used in alike ways. -/
theorem alike_bind {x y : Except ε α} {k k' : α → Except ε γ} (hx : Alike viewError view x y)
    (hk : ∀ a b, view a = view b → Alike viewError viewNext (k a) (k' b)) :
    Alike viewError viewNext (x >>= k) (y >>= k') := by
  cases x with
  | error e =>
    cases y with
    | error e' => exact hx
    | ok b => exact hx.elim
  | ok a =>
    cases y with
    | error e' => exact hx.elim
    | ok b => exact hk a b hx

/-- Outcomes that one outcome follows are alike. -/
theorem Follows.alike {x y : Except ε α} {z : Except χ β} (hx : Follows viewError view x z)
    (hy : Follows viewError view y z) : Alike viewError view x y := by
  have h := hx.symm.trans hy
  cases x with
  | error e =>
    cases y with
    | error e' => exact Except.error.inj h
    | ok b => cases h
  | ok a =>
    cases y with
    | error e' => cases h
    | ok b => exact Except.ok.inj h

end Except

/-- From twin arenas both computations have alike outcomes and leave twins, as long as the numbers of
the second one have not run out. -/
structure Parallel {ε σ α β χ : Type} (arena : σ → Arena) (first : Nat) (viewError : ε → χ)
    (view : α → β) (x y : ExceptT ε (StateM σ) α) : Prop where
  grows : ∀ s, (arena s).Grown (arena (y.run.run s).2)
  alike : ∀ s s', (arena s).Twin first (arena s') → (arena (y.run.run s').2).Fits →
    (arena (x.run.run s).2).Twin first (arena (y.run.run s').2) ∧
      Except.Alike viewError view (x.run.run s).1 (y.run.run s').1

section

variable {ε σ α β γ δ χ : Type} {arena : σ → Arena} {first : Nat} {viewError : ε → χ} {view : α → β}
  {viewNext : γ → δ} {x y : ExceptT ε (StateM σ) α} {a a' : α}

/-- Values that cannot be told apart are parallel. -/
theorem parallel_pure (h : view a = view a') : Parallel arena first viewError view
    (pure a : ExceptT ε (StateM σ) α) (pure a') where
  grows _ := .refl _
  alike _ _ htwin _ := ⟨htwin, h⟩

/-- Failures that cannot be told apart are parallel. -/
theorem parallel_throw {e e' : ε} (h : viewError e = viewError e') : Parallel arena first viewError view
    (throw e : ExceptT ε (StateM σ) α) (throw e') where
  grows _ := .refl _
  alike _ _ htwin _ := ⟨htwin, h⟩

/-- Parallel first steps with parallel rests are parallel. -/
theorem parallel_bind {f g : α → ExceptT ε (StateM σ) γ}
    (hx : Parallel arena first viewError view x y)
    (hf : ∀ a b, view a = view b → Parallel arena first viewError viewNext (f a) (g b)) :
    Parallel arena first viewError viewNext (x >>= f) (y >>= g) where
  grows s := by
    have hfirst := hx.grows s
    rw [run_bind]
    -- a failure of the first step leaves the arena as it grew, and a success grows it further
    rcases hys : y.run.run s with ⟨_ | b, s₁⟩ <;> rw [hys] at hfirst
    · exact hfirst
    · exact hfirst.trans ((hf b b rfl).grows s₁)
  alike s s' htwin hfits := by
    have hx := hx.alike s s' htwin
    rw [run_bind] at hfits ⊢
    rw [run_bind]
    rcases hxs : x.run.run s with ⟨_ | a, s₁⟩ <;> rcases hys : y.run.run s' with ⟨_ | b, s₁'⟩ <;>
      rw [hxs, hys] at hx <;> rw [hys] at hfits
    · exact hx hfits
    · -- one fails and the other one does not, which alike outcomes exclude
      exact ((hx (((hf b b rfl).grows s₁').fits hfits)).2).elim
    · exact (hx hfits).2.elim
    · -- the arena between the steps fits if the last one does
      obtain ⟨htwin', hab⟩ := hx (((hf b b rfl).grows s₁').fits hfits)
      exact (hf a b hab).alike s₁ s₁' htwin' hfits

/-- Folds over lists whose elements cannot be told apart. -/
theorem parallel_foldlM {v : γ → δ} {l l' : List γ} (hl : l.map v = l'.map v)
    {f g : α → γ → ExceptT ε (StateM σ) α}
    (hf : ∀ c c', v c = v c' → ∀ a a', view a = view a' →
      Parallel arena first viewError view (f a c) (g a' c'))
    (ha : view a = view a') :
    Parallel arena first viewError view (l.foldlM f a) (l'.foldlM g a') := by
  induction l generalizing l' a a' with
  | nil =>
    obtain rfl : l' = [] := by simpa using hl.symm
    exact parallel_pure ha
  | cons c l ih =>
    cases l' with
    | nil => cases hl
    | cons c' l' =>
      rw [List.map_cons, List.map_cons, List.cons.injEq] at hl
      rw [List.foldlM_cons, List.foldlM_cons]
      exact parallel_bind (hf c c' hl.1 a a' ha) fun b b' hb => ih hl.2 hb

end

end CodeRules
