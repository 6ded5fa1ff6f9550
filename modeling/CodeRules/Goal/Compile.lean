import CodeRules.Fragment.Compile
import CodeRules.Goal.Basic
import CodeRules.Relation.Store

/-!
# From expressions to goals

`Expr.compile` looks up the names of an expression. Traits must be registered in the store with the
number of parameters that they are applied to; quantifiers declare their variables in the scope of
their bodies.
-/

namespace CodeRules

/-- Why an expression makes no goal. -/
inductive GoalError where
  | unknownTrait (span : Span) (name : String)
  /-- A trait is applied to the wrong number of arguments. -/
  | traitArity (span : Span) (name : String) (expected found : Nat)
  /-- The type of a quantified variable means nothing. -/
  | binder (span : Span) (e : SignatureError)
  | pattern (e : CompileError)
deriving Inhabited

namespace GoalError

/-- The diagnostic for a mistake in an expression. -/
def diagnostic : GoalError → Diagnostic
  | unknownTrait span name =>
    (Diagnostic.error .undefinedName s!"unknown trait `{name}`").atSpan span
  | traitArity span name expected found =>
    (Diagnostic.error .arityMismatch
      s!"trait `{name}` takes {expected} arguments, found {found}").atSpan span
  | binder span e => (Diagnostic.error .undefinedName e.message).atSpan span
  | pattern e => e.diagnostic

end GoalError

namespace Pattern

/-- The fragment that a pattern in an expression means. -/
def compileIn (s : Scope) (p : Pattern) : Except GoalError Fragment :=
  (p.compile s).mapError .pattern

end Pattern

namespace Scope

/-- Declare a variable by what is written for its type. -/
def declareWritten (s : Scope) (b : Binder) : Except SignatureError Scope :=
  return s.declare b.name (← ParamType.resolve b.name b.type)

/-- Declare the variables of a quantifier at `span`. -/
def declareAll (s : Scope) (span : Span) (binders : List Binder) : Except GoalError Scope :=
  (binders.foldlM declareWritten s).mapError (.binder span)

end Scope

namespace Term

mutual

/-- The term that a written term means in a scope. -/
def compile (s : Scope) : Term → Except GoalError GoalTerm
  | var name =>
    if name = wildcard then .ok .wildcard
    else match s.lookup name with
      | .bound e => .ok (.const e)
      | .free type => .ok (.var name type)
      | .unknown => .ok (.var name .any)
  | entity e => .ok (.const e)
  | pattern p => return .pattern (← p.compileIn s)
  | apply func args => return .apply func (← compileAll s args)

/-- The terms that several written terms mean. -/
def compileAll (s : Scope) : List Term → Except GoalError (List GoalTerm)
  | [] => .ok []
  | t :: ts => return (← compile s t) :: (← compileAll s ts)

end

end Term

namespace Expr

mutual

/-- The goal that an expression means in a scope. -/
def compile (store : Store) (s : Scope) : Expr → Except GoalError Goal
  | true => .ok .true
  | false => .ok .false
  | and items => return .and (← compileAll store s items)
  | or items => return .or (← compileAll store s items)
  | not body => return .not (← compile store s body)
  | implies premise conclusion =>
    return .implies (← compile store s premise) (← compile store s conclusion)
  | iff left right => return .iff (← compile store s left) (← compile store s right)
  | .exists span binders body => do
    let inner ← s.declareAll span binders
    return .exists (binders.map Named.name) (← compile store inner body)
  | .forall span binders range body => do
    let inner ← s.declareAll span binders
    return .forall (binders.map Named.name) (← compile store inner range)
      (← compile store inner body)
  | trait span name args =>
    match store.find? name with
    | none => .error (.unknownTrait span name)
    | some r =>
      if r.signature.arity ≠ args.length then
        .error (.traitArity span name r.signature.arity args.length)
      else return .trait span name (← Term.compileAll s args)
  | .matches span subject pattern =>
    return .matches span (← subject.compile s) (← pattern.compileIn s)
  | eq span left right => return .eq span (← left.compile s) (← right.compile s)
  | ne span left right => return .ne span (← left.compile s) (← right.compile s)

/-- The goals that several expressions mean. -/
def compileAll (store : Store) (s : Scope) : List Expr → Except GoalError (List Goal)
  | [] => .ok []
  | e :: es => return (← compile store s e) :: (← compileAll store s es)

end

end Expr

end CodeRules
