import CodeRules.Fragment.Basic
import CodeRules.Rule.Expr

/-!
# Goals

A goal is an expression whose names have been looked up: patterns are fragments, and names are
entities or typed variables.
-/

namespace CodeRules

/-- What a goal says something about. -/
inductive GoalTerm where
  | wildcard
  | var (name : String) (type : ParamType)
  | const (e : Entity)
  | pattern (f : Fragment)
  | apply (func : EntityFunction) (args : List GoalTerm)
deriving Inhabited

namespace GoalTerm

mutual

/-- The text of a term. -/
protected def toString : GoalTerm → String
  | wildcard => CodeRules.wildcard
  | var name _ => name
  | const e => toString e
  | pattern f => toString f
  | apply func args => func.name ++ "(" ++ ", ".intercalate (GoalTerm.toStrings args) ++ ")"

/-- The texts of several terms. -/
protected def toStrings : List GoalTerm → List String
  | [] => []
  | t :: ts => t.toString :: GoalTerm.toStrings ts

end

instance : ToString GoalTerm := ⟨GoalTerm.toString⟩

end GoalTerm

/-- An expression that is ready to be solved. -/
inductive Goal where
  | true
  | false
  | and (items : List Goal)
  | or (items : List Goal)
  | not (body : Goal)
  | implies (premise conclusion : Goal)
  | iff (left right : Goal)
  | exists (binders : List String) (body : Goal)
  | forall (binders : List String) (range body : Goal)
  | trait (span : Span) (name : String) (args : List GoalTerm)
  | matches (span : Span) (subject : GoalTerm) (f : Fragment)
  | eq (span : Span) (left right : GoalTerm)
  | ne (span : Span) (left right : GoalTerm)
deriving Inhabited

end CodeRules
