import CodeRules.Proofs.Goal.Extension

/-!
# Universal quantifiers as negated existential ones

`forall` and `implies` look for a solution of their first part under which the second part fails, and
stop at the first one. Looking for all of them with `exists` or `and`, and negating, decides the same
(`Goal.solve_universal_eq_negation`): up to the first such solution both ways make the same steps from
the same arena, and a solution that is found survives the merge with the input, which it extends.
-/

namespace CodeRules

open Effect

namespace Goal

variable {w : World}

/-! ### Solutions under which a goal fails -/

/-- What the steps of a conjunction give; nothing is looked at after a step without solutions. -/
theorem gives_solveAnd_cons {g : Goal} {gs : List Goal} {current s : Solutions} {a a' : Arena} :
    Gives (solveAnd w (g :: gs) current) a s a' ↔
      ∃ next a₁, Gives (Solving.joinAll (g.solve w) current) a next a₁ ∧
        if next.isEmpty then next = s ∧ a₁ = a' else Gives (solveAnd w gs next) a₁ s a' := by
  rw [solveAnd, gives_bind]
  refine exists_congr fun next => exists_congr fun a₁ => and_congr_right fun _ => ?_
  cases next.isEmpty with
  | true => exact gives_pure
  | false => exact Iff.rfl

/-- Collecting the bindings under which a goal fails finds none exactly when there is a solution
under each; the test that stops at the first failure does the same up to there. -/
private theorem isEmpty_failing {g : Goal} {l : List Bindings} {out s : Solutions} {q : Bool}
    {a a₁ a₂ : Arena} (htest : Gives (Solving.everywhere (g.solve w) l) a q a₁)
    (hcollect : Gives (l.foldlM (fun out b => return out.union (← (not g).solve w b)) out) a s a₂) :
    s.isEmpty = (out.isEmpty && q) := by
  induction l generalizing out a with
  | nil =>
    obtain ⟨rfl, -⟩ := gives_pure.1 htest
    obtain ⟨rfl, -⟩ := gives_pure.1 hcollect
    rw [Bool.and_true]
  | cons b l ih =>
    rw [Solving.everywhere] at htest
    simp only [List.foldlM_cons, solve, gives_bind, gives_pure] at htest hcollect
    obtain ⟨r, t, hr, htest⟩ := htest
    obtain ⟨_, _, ⟨_, _, ⟨_, _, hr', rfl, rfl⟩, rfl, rfl⟩, hcollect⟩ := hcollect
    obtain ⟨rfl, rfl⟩ := hr.unique hr'
    cases hempty : r.isEmpty with
    | true =>
      -- the first failure decides the test, and is collected
      rw [hempty] at htest hcollect
      obtain ⟨rfl, -⟩ := gives_pure.1 htest
      have hkept : Yields (fun _ => True)
          (l.foldlM (fun out b => return Catalog.union out (← (not g).solve w b))
            (Catalog.union out (Solutions.test Bool.true b)) : Solving Solutions)
          fun s => s.isEmpty = Bool.false :=
        yields_foldlM (fun _ _ _ hs => yields_bind yields_trivial fun _ _ =>
          yields_pure (Catalog.isEmpty_union_eq_false_iff.2 (.inl hs)))
          (Catalog.isEmpty_union_eq_false_iff.2 (.inr rfl))
      rw [Bool.and_false]
      exact (hkept.gives trivial hcollect).1
    | false =>
      rw [hempty] at htest hcollect
      exact ih htest hcollect

/-- The bindings under which one goal holds and another fails. -/
private theorem isEmpty_and_not {range body : Goal} {b : Bindings} {r s : Solutions} {q : Bool}
    {a a₁ a₂ a₃ : Arena} (hrange : Gives (range.solve w b) a r a₁)
    (htest : Gives (Solving.everywhere (body.solve w) r.toList) a₁ q a₂)
    (hand : Gives ((and [range, not body]).solve w b) a s a₃) : s.isEmpty = q := by
  rw [solve, gives_solveAnd_cons] at hand
  obtain ⟨next, a₁', hnext, hand⟩ := hand
  -- the first step starts from one solution, so it gives what the range gives
  have hjoined : Gives (Solving.joinAll (range.solve w) (Catalog.singleton b)) a r a₁ := by
    have hunion := Catalog.empty_union r
    rw [Solving.joinAll, Catalog.toList_singleton, List.foldlM_cons]
    simp only [gives_bind, gives_pure, List.foldlM_nil]
    exact ⟨r, a₁, ⟨r, a₁, hrange, hunion, rfl⟩, rfl, rfl⟩
  obtain ⟨rfl, rfl⟩ := hjoined.unique hnext
  cases hempty : r.isEmpty with
  | true =>
    -- nothing satisfies the range, so nothing is tested and nothing is looked for
    rw [hempty, if_pos rfl] at hand
    rw [Catalog.isEmpty_iff.1 hempty] at htest
    obtain ⟨rfl, -⟩ := gives_pure.1 htest
    exact hand.1 ▸ hempty
  | false =>
    rw [hempty, if_neg Bool.false_ne_true, gives_solveAnd_cons] at hand
    obtain ⟨failing, a₂', hfailing, hand⟩ := hand
    have hdecides : failing.isEmpty = q := isEmpty_failing htest hfailing
    -- no conjunct is left after the negation
    have heq : failing = s := by
      split at hand
      · exact hand.1
      · exact (gives_pure.1 hand).1
    exact heq ▸ hdecides

/-- An existential quantifier has a solution when its body has one, because a solution of the body
can be merged with the input that it extends. -/
private theorem isEmpty_exists {binders : List String} {body : Goal} {input : Bindings}
    (hinput : input.result = none) {s : Solutions} {a a' : Arena}
    (h : Gives ((Goal.exists binders body).solve w input) a s a') :
    ∃ t, Gives (body.solve w (input.erase binders)) a t a' ∧ s.isEmpty = t.isEmpty := by
  rw [solve] at h
  simp only [gives_bind, gives_pure] at h
  obtain ⟨t, a₁, ht, rfl, rfl⟩ := h
  have hwidened := ((yields_solve body (input.erase binders)).gives trivial ht).1
  refine ⟨t, ht, ?_⟩
  cases hempty : t.isEmpty with
  | true =>
    rw [Catalog.isEmpty_iff.1 hempty]
    rfl
  | false =>
    obtain ⟨c, hc⟩ := Catalog.isEmpty_eq_false_iff.1 hempty
    obtain ⟨d, hd⟩ := (hwidened c hc).exists_merge_erase hinput
    -- what is merged is found, if not the first of its shape
    have hmem : d ∈ t.toList.filterMap fun b => (b.erase binders).consistentMerge? input :=
      List.mem_filterMap.2 ⟨c, hc, hd⟩
    have hcontains : Catalog.contains (Catalog.ofListFirst (t.toList.filterMap fun b =>
        (b.erase binders).consistentMerge? input) : Solutions) d.shape = Bool.true :=
      Catalog.contains_ofListFirst.2 ⟨d, hmem, rfl⟩
    obtain ⟨e, he, _⟩ := Catalog.contains_iff.1 hcontains
    exact Catalog.isEmpty_eq_false_iff.2 ⟨e, he⟩

/-- For bindings without a result, a universal quantifier has the solutions of a negated existential
quantifier, and an implication those of a negated conjunction, whenever both can be solved from one
arena. -/
theorem solve_universal_eq_negation {input : Bindings} (hinput : input.result = none) (a : Arena) :
    (∀ binders range body s t a₁ a₂,
      Gives ((Goal.forall binders range body).solve w input) a s a₁ →
      Gives ((not (.exists binders (and [range, not body]))).solve w input) a t a₂ → s = t) ∧
    ∀ premise conclusion s t a₁ a₂,
      Gives ((implies premise conclusion).solve w input) a s a₁ →
      Gives ((not (and [premise, not conclusion])).solve w input) a t a₂ → s = t := by
  refine ⟨fun binders range body s t a₁ a₂ hs ht => ?_, fun premise conclusion s t a₁ a₂ hs ht => ?_⟩
  -- a universal goal holds where its range has no solution without the body
  · rw [solve] at hs
    rw [solve] at ht
    simp only [gives_bind, gives_pure] at hs ht
    obtain ⟨r, b₁, hrange, q, b₂, htest, rfl, -⟩ := hs
    obtain ⟨u, b₃, hexists, rfl, -⟩ := ht
    obtain ⟨v, hand, hempty⟩ := isEmpty_exists hinput hexists
    rw [hempty, isEmpty_and_not hrange htest hand]
  -- and an implication where its premise has no solution without the conclusion
  · rw [solve] at hs
    rw [solve] at ht
    simp only [gives_bind, gives_pure] at hs ht
    obtain ⟨r, b₁, hpremise, q, b₂, htest, rfl, -⟩ := hs
    obtain ⟨u, b₃, hand, rfl, -⟩ := ht
    rw [isEmpty_and_not hpremise htest hand]

end Goal

/-! ### Numbers of a relation -/

namespace Numbers

open Hidden (number world)

/-- Each variable of this name is one of the numbers 1 and 2. -/
def listed (n : String) : Goal := .trait .synthetic "r" [.var n .any]

/-- A variable is a number. -/
def isNumber (n : String) (i : Int) : Goal := .eq .synthetic (.var n .any) (.const (number i))

/-- Bindings of an outer variable of the name that is quantified. -/
def input : Bindings := Bindings.empty.bind "x" (number 7)

/-- All numbers are 1, which fails for 2. -/
def allOne : Goal := .forall ["x"] (listed "x") (isNumber "x" 1)

/-- No number is other than 1. -/
def noneOther : Goal := .not (.exists ["x"] (.and [listed "x", .not (isNumber "x" 1)]))

/-- Numbers are not 3. -/
def notThree : Goal := .implies (listed "y") (.not (isNumber "y" 3))

/-- No number is 3. -/
def noThree : Goal := .not (.and [listed "y", .not (.not (isNumber "y" 3))])

/-- The solutions of a goal. -/
def solutions (g : Goal) : Solutions :=
  ((g.solve world input).run.run (.unused 0)).1.toOption.getD ∅

/-- Both ways to say it fail for the first goal, and hold for the second. -/
theorem solve_universal_eq_negation_numbers :
    input.result = none ∧ (solutions allOne = ∅ ∧ solutions noneOther = ∅) ∧
      (solutions notThree).toList.length = 1 ∧ (solutions noThree).toList.length = 1 := by
  have hsolves {g : Goal} (h : (Except.isOk (α := Solutions)
      ((g.solve world input).run.run (.unused 0)).1) = true) :
      Gives (g.solve world input) (.unused 0) (solutions g)
        ((g.solve world input).run.run (.unused 0)).2 := gives_getD h
  have hresult : input.result = none := rfl
  obtain ⟨hforall, himplies⟩ := Goal.solve_universal_eq_negation (w := world) hresult (.unused 0)
  have hone : solutions allOne = solutions noneOther :=
    hforall _ _ _ _ _ _ _ (hsolves (by decide +kernel)) (hsolves (by decide +kernel))
  have hthree : solutions notThree = solutions noThree :=
    himplies _ _ _ _ _ _ (hsolves (by decide +kernel)) (hsolves (by decide +kernel))
  have hnone : solutions allOne = ∅ := Catalog.ext <|
    List.length_eq_zero_iff.1 (by decide +kernel)
  have hsome : (solutions notThree).toList.length = 1 := by decide +kernel
  exact ⟨hresult, ⟨hnone, hone ▸ hnone⟩, hsome, hthree ▸ hsome⟩

end Numbers

end CodeRules
