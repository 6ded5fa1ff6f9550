import CodeRules.Code.Entity
import CodeRules.Rule.TypeExpr

/-!
# Patterns

Patterns describe syntax with variables in it. Each part of a pattern knows where it was written.
-/

namespace CodeRules

/-- A description of entities, as rules write it. -/
inductive Pattern where
  /-- A variable: the wildcard, a name that has an entity already, or one to be bound. -/
  | var (span : Span) (name : String)
  /-- One particular entity. -/
  | resolved (span : Span) (e : Entity)
  /-- A node with a pattern for each slot. -/
  | node (span : Span) (tag : Tag) (slots : List Pattern)
  /-- A list with a pattern for each item. -/
  | list (span : Span) (items : List Pattern)
  /-- A modifier set, whose items are described in any order. -/
  | modifierSet (span : Span) (items : List Pattern)
  /-- The place of the access specifier in a modifier set, with the variable that takes it. -/
  | access (span : Span) (name : Option String)
  /-- An optional part that is absent. -/
  | empty (span : Span)
deriving Inhabited

namespace Pattern

/-- Where the pattern was written. -/
def span : Pattern → Span
  | var s _ | resolved s _ | node s _ _ | list s _ | modifierSet s _ | access s _ | empty s => s

/-- Whether the pattern is the place of an access specifier. -/
def isAccess : Pattern → Bool
  | access .. => true
  | _ => false

end Pattern

end CodeRules
