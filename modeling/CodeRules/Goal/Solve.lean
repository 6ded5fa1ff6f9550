import CodeRules.Binding.Solutions
import CodeRules.Goal.World

/-!
# Solving goals

`Goal.solve` finds the extensions of bindings under which a goal holds. The parts of a conjunction
are joined from left to right. Negation, implication, equivalence and universal quantification are
tests: they keep the bindings as they are or drop them.

An equation between an unbound variable and a pattern makes a new entity. All numbers given out
stay given out, also when solving fails.
-/

namespace CodeRules

/-- A computation that solves goals, and may make nodes. -/
abbrev Solving := ExceptT Failure (StateM Arena)

namespace Solving

/-- Fail at a place of the rules. -/
def fail {α : Type} (span : Span) (e : EvalError) : Solving α := throw (e.failure span)

/-- Ask something that depends on the nodes made so far. -/
def ask {α : Type} (span : Span) (question : Arena → Except EvalError α) : Solving α := do
  match question (← get) with
  | .ok x => return x
  | .error e => fail span e

/-- Generate an entity. -/
def generate {α : Type} (span : Span) (g : Generating α) : Solving α := do
  -- the arena is kept whatever the outcome
  let (outcome, w) := g.run.run { arena := ← get }
  set w.arena
  match outcome with
  | .ok x => return x
  | .error e => fail span (.generation e)

/-- The solutions of `f` for some bindings, taken together. -/
def joinAll (f : Bindings → Solving Solutions) (s : Solutions) : Solving Solutions :=
  s.toList.foldlM (fun out b => return out.union (← f b)) ∅

/-- Collect what `f` finds for the elements of a list. -/
def collect {α : Type} (f : α → Solving (Option Bindings)) (l : List α) : Solving Solutions :=
  l.foldlM (fun out x => return (← f x).elim out out.insert) ∅

/-- Whether `f` has a solution for each of some bindings; the first that has none decides. -/
def everywhere (f : Bindings → Solving Solutions) : List Bindings → Solving Bool
  | [] => return true
  | b :: bs => do
    if (← f b).isEmpty then return false
    everywhere f bs

end Solving

namespace Solutions

/-- The bindings themselves when a test succeeds. -/
def test (holds : Bool) (b : Bindings) : Solutions := if holds then Catalog.singleton b else ∅

/-- At most one solution. -/
def ofOption (b : Option Bindings) : Solutions := b.elim ∅ Catalog.singleton

end Solutions

namespace World

/-- Bind a variable to a new entity that a fragment describes. -/
def generateInto (w : World) (span : Span) (name : String) (type : ParamType) (f : Fragment)
    (input : Bindings) : Solving Bindings := do
  let made ← Solving.generate span (f.instantiate w.program.types input)
  match made.result with
  | none => Solving.fail span (.defect .nothingGenerated)
  | some e =>
    if type.accepts w.program.types e then return made.withoutResult.bind name e
    else Solving.fail span (.generatedType name e type)

/-- The bindings under which a trait holds of some terms. -/
def solveTrait (w : World) (span : Span) (name : String) (args : List GoalTerm)
    (input : Bindings) : Solving Solutions :=
  match w.store.find? name with
  | none => Solving.fail span (.defect (.unknownRelation name))
  | some r =>
    if r.signature.arity ≠ args.length then
      Solving.fail span (.defect (.appliedArity name args.length))
    else
      let extend (t : Tuple) : Solving (Option Bindings) :=
        Solving.ask span fun a => w.unifyAll a args t.values input
      Solving.collect extend r.tuples.toList

/-- The bindings under which a fragment describes a term. -/
def solveMatches (w : World) (span : Span) (subject : GoalTerm) (f : Fragment)
    (input : Bindings) : Solving Solutions := do
  let find (e : Entity) : Solving (Option Bindings) :=
    Solving.ask span fun _ => w.matchInto f e input
  match ← Solving.ask span fun a => w.valueOf a input subject with
  | some e => return .ofOption (← find e)
  | none =>
    match subject with
    | .var name type =>
      Solving.collect (fun e => return (← find e).bind fun b => b.bind? name e)
        (w.candidates type f)
    | .wildcard => Solving.collect find (w.candidates .any f)
    | other => Solving.fail span (.subject other)

/-- The bindings under which two terms are equal. -/
def solveEq (w : World) (span : Span) (left right : GoalTerm) (input : Bindings) :
    Solving Solutions := do
  let l ← Solving.ask span fun a => w.valueOf a input left
  let r ← Solving.ask span fun a => w.valueOf a input right
  match l, r with
  | some l, some r => return .test (l.sameShape r) input
  | some l, none => return .ofOption (← Solving.ask span fun a => w.unify a right l input)
  | none, some r => return .ofOption (← Solving.ask span fun a => w.unify a left r input)
  | none, none =>
    -- one side must be an unbound variable and the other a description of its value
    match left, right with
    | .var name type, .pattern f | .pattern f, .var name type =>
      return Catalog.singleton (← w.generateInto span name type f input)
    | _, _ => Solving.fail span (.unboundComparison left right)

/-- The bindings under which two terms differ. -/
def solveNe (w : World) (span : Span) (left right : GoalTerm) (input : Bindings) :
    Solving Solutions := do
  let l ← Solving.ask span fun a => w.valueOf a input left
  let r ← Solving.ask span fun a => w.valueOf a input right
  match l, r with
  | some l, some r => return .test (!l.sameShape r) input
  | _, _ => Solving.fail span (.unboundComparison left right)

end World

namespace Goal

mutual

/-- The extensions of `input` under which the goal holds. -/
def solve (w : World) : Goal → Bindings → Solving Solutions
  | true, input => return Catalog.singleton input
  | false, _ => return ∅
  | and items, input => solveAnd w items (Catalog.singleton input)
  | or items, input => solveOr w items input
  | not body, input => do
    let s ← solve w body input
    return .test s.isEmpty input
  | implies premise conclusion, input => do
    let s ← solve w premise input
    return .test (← Solving.everywhere (solve w conclusion) s.toList) input
  | iff left right, input => do
    let l ← solve w left input
    let r ← solve w right input
    return .test (l.isEmpty == r.isEmpty) input
  | .exists binders body, input => do
    -- a quantified variable has nothing to do with an outer one of the same name
    let s ← solve w body (input.erase binders)
    return Catalog.ofListFirst
      (s.toList.filterMap fun b => (b.erase binders).consistentMerge? input)
  | .forall binders range body, input => do
    let s ← solve w range (input.erase binders)
    return .test (← Solving.everywhere (solve w body) s.toList) input
  | trait span name args, input => w.solveTrait span name args input
  | .matches span subject f, input => w.solveMatches span subject f input
  | eq span left right, input => w.solveEq span left right input
  | ne span left right, input => w.solveNe span left right input

/-- Join some solutions with those of several goals in turn. -/
def solveAnd (w : World) : List Goal → Solutions → Solving Solutions
  | [], current => return current
  | g :: gs, current => do
    let next ← Solving.joinAll (solve w g) current
    -- later goals are not looked at, nor the errors they would raise
    if next.isEmpty then return next
    solveAnd w gs next

/-- The solutions of several goals, taken together. -/
def solveOr (w : World) : List Goal → Bindings → Solving Solutions
  | [], _ => return ∅
  | g :: gs, input => do
    let first ← solve w g input
    return first.union (← solveOr w gs input)

end

/-- Whether the goal has a solution that extends `input`. -/
def holds (w : World) (g : Goal) (input : Bindings) : Solving Bool :=
  return !(← g.solve w input).isEmpty

end Goal

end CodeRules
