import CodeRules.Order.Catalog
import CodeRules.Rule.Expr

/-!
# What expressions mention

`Expr.mentions` lists the traits and variables of an expression. A mention is tested when it stands
under a negation, an implication, an equivalence or a universal quantifier: there a growing relation
may take solutions away. Variables of enclosing quantifiers are not listed.
-/

namespace CodeRules

/-- A name in an expression. -/
inductive Mention where
  /-- A trait that is applied. -/
  | trait (name : String) (tested : Bool)
  /-- A variable. It stands as a value in comparisons and arguments of functions; elsewhere
  matching may bind it. -/
  | var (name : String) (tested asValue : Bool)
deriving DecidableEq, Inhabited

namespace Mention

/-- A variable, unless a quantifier hides it. The wildcard is never hidden. -/
def ofVar (tested : Bool) (hidden : List String) (asValue : Bool) (name : String) : List Mention :=
  if name ≠ wildcard ∧ hidden.contains name then [] else [var name tested asValue]

/-- Whether the wildcard stands as a value. -/
def isWildcardValue : Mention → Bool
  | var name _ asValue => asValue && name == wildcard
  | trait .. => false

/-- The name of a variable that stands as a value. -/
def valueVar? : Mention → Option String
  | var name _ true => if name = wildcard then none else some name
  | _ => none

/-- The name of a variable that matching may bind. -/
def bindingVar? : Mention → Option String
  | var name _ false => if name = wildcard then none else some name
  | _ => none

end Mention

namespace Pattern

mutual

/-- The variables of a pattern. -/
def mentions (tested : Bool) (hidden : List String) : Pattern → List Mention
  | var _ name | access _ (some name) => Mention.ofVar tested hidden false name
  | node _ _ items | list _ items | modifierSet _ items => mentionsAll tested hidden items
  | resolved .. | access _ none | empty _ => []

/-- The variables of several patterns. -/
def mentionsAll (tested : Bool) (hidden : List String) : List Pattern → List Mention
  | [] => []
  | p :: ps => mentions tested hidden p ++ mentionsAll tested hidden ps

end

end Pattern

namespace Term

mutual

/-- The variables of a term. -/
def mentions (tested : Bool) (hidden : List String) (asValue : Bool) : Term → List Mention
  | var name => Mention.ofVar tested hidden asValue name
  | entity _ => []
  | pattern p => p.mentions tested hidden
  | apply _ args => mentionsAll tested hidden true args

/-- The variables of several terms. -/
def mentionsAll (tested : Bool) (hidden : List String) (asValue : Bool) :
    List Term → List Mention
  | [] => []
  | t :: ts => mentions tested hidden asValue t ++ mentionsAll tested hidden asValue ts

end

end Term

namespace Expr

mutual

/-- The traits and variables of an expression, from left to right. -/
def mentions (tested : Bool) (hidden : List String) : Expr → List Mention
  | true | false => []
  | and items | or items => mentionsAll tested hidden items
  | not body => mentions Bool.true hidden body
  | implies left right | iff left right =>
    mentions Bool.true hidden left ++ mentions Bool.true hidden right
  | .exists _ binders body => mentions tested (hidden ++ binders.map Named.name) body
  -- a growing range can take a solution away, and so does a body that fails for a part of it
  | .forall _ binders range body =>
    mentions Bool.true (hidden ++ binders.map Named.name) range ++
      mentions Bool.true (hidden ++ binders.map Named.name) body
  -- a function needs the values of its arguments, a trait may bind its own
  | trait _ name args => .trait name tested :: Term.mentionsAll tested hidden Bool.false args
  | .matches _ subject pattern =>
    subject.mentions tested hidden Bool.false ++ pattern.mentions tested hidden
  | eq _ left right | ne _ left right =>
    left.mentions tested hidden Bool.true ++ right.mentions tested hidden Bool.true

/-- The traits and variables of several expressions. -/
def mentionsAll (tested : Bool) (hidden : List String) : List Expr → List Mention
  | [] => []
  | e :: es => mentions tested hidden e ++ mentionsAll tested hidden es

end

/-- The traits and free variables of an expression. -/
def references (e : Expr) : List Mention := e.mentions Bool.false []

end Expr

end CodeRules
