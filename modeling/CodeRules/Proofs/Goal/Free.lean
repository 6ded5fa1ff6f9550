import CodeRules.Goal.Basic

/-!
# Free variables of goals

The variables that occur in terms and goals outside the quantifiers that bind them.
-/

namespace CodeRules

namespace GoalTerm

mutual

/-- All occurrences of variables, from left to right. -/
def occurrences : GoalTerm → List String
  | var name _ => [name]
  | pattern f => f.occurrences
  | apply _ args => occurrencesAll args
  | wildcard | const _ => []

/-- The occurrences of variables in several terms. -/
def occurrencesAll : List GoalTerm → List String
  | [] => []
  | t :: ts => t.occurrences ++ occurrencesAll ts

end

/-- The occurrences in several terms are those in each of them. -/
theorem occurrencesAll_eq_flatMap (ts : List GoalTerm) :
    occurrencesAll ts = ts.flatMap occurrences := by
  induction ts with
  | nil => rfl
  | cons t ts ih => rw [occurrencesAll, ih, List.flatMap_cons]

end GoalTerm

namespace Goal

mutual

/-- The occurrences of free variables. -/
def free : Goal → List String
  | and items | or items => freeAll items
  | not body => free body
  | implies left right | iff left right => free left ++ free right
  | .exists binders body => (free body).filter fun n => !binders.contains n
  | .forall binders range body => (free range ++ free body).filter fun n => !binders.contains n
  | trait _ _ args => GoalTerm.occurrencesAll args
  | .matches _ subject f => subject.occurrences ++ f.occurrences
  | eq _ left right | ne _ left right => left.occurrences ++ right.occurrences
  | true | false => []

/-- The occurrences of free variables in several goals. -/
def freeAll : List Goal → List String
  | [] => []
  | g :: gs => free g ++ freeAll gs

end

mutual

/-- The occurrences of free variables outside negations, implications, equivalences and universal
quantifiers. -/
def bindable : Goal → List String
  | and items | or items => bindableAll items
  | .exists binders body => (bindable body).filter fun n => !binders.contains n
  | trait _ _ args => GoalTerm.occurrencesAll args
  | .matches _ subject f => subject.occurrences ++ f.occurrences
  | eq _ left right | ne _ left right => left.occurrences ++ right.occurrences
  | true | false | not _ | implies .. | iff .. | .forall .. => []

/-- The occurrences in several goals. -/
def bindableAll : List Goal → List String
  | [] => []
  | g :: gs => bindable g ++ bindableAll gs

end

/-- The free variables of several goals are those of each of them. -/
theorem freeAll_eq_flatMap (gs : List Goal) : freeAll gs = gs.flatMap free := by
  induction gs with
  | nil => rfl
  | cons g gs ih => rw [freeAll, ih, List.flatMap_cons]

/-- A free variable of one of several goals is free in them. -/
theorem mem_free_of_mem {gs : List Goal} {g : Goal} (hg : g ∈ gs) {n : String} (hn : n ∈ g.free) :
    n ∈ freeAll gs := by
  rw [freeAll_eq_flatMap]
  exact List.mem_flatMap.2 ⟨g, hg, hn⟩

/-- What several goals can bind is what each of them can bind. -/
theorem bindableAll_eq_flatMap (gs : List Goal) : bindableAll gs = gs.flatMap bindable := by
  induction gs with
  | nil => rfl
  | cons g gs ih => rw [bindableAll, ih, List.flatMap_cons]

/-- What one of several goals can bind, they can bind. -/
theorem mem_bindable_of_mem {gs : List Goal} {g : Goal} (hg : g ∈ gs) {n : String}
    (hn : n ∈ g.bindable) : n ∈ bindableAll gs := by
  rw [bindableAll_eq_flatMap]
  exact List.mem_flatMap.2 ⟨g, hg, hn⟩

/-- Whether a goal is a negation, an implication, an equivalence or a universal quantifier. -/
def isTest : Goal → Bool
  | not _ | implies .. | iff .. | .forall .. => Bool.true
  | _ => Bool.false

end Goal

end CodeRules
