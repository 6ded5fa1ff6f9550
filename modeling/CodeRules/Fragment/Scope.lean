import CodeRules.Binding.Bindings
import CodeRules.Relation.Signature

/-!
# Scopes

A scope says what a name means where a pattern or expression is written: a declared variable, a
name that has an entity already, or neither. Declarations hide entities.
-/

namespace CodeRules

/-- What a name means. -/
inductive Lookup where
  /-- It stands for this entity. -/
  | bound (e : Entity)
  /-- It is a variable that takes entities of this type. -/
  | free (type : ParamType)
  /-- It is declared nowhere. -/
  | unknown
deriving Inhabited

/-- The entities and declarations that names may refer to. -/
structure Scope where
  bound : Bindings := .empty
  declared : NameMap ParamType := ∅
deriving Inhabited

namespace Scope

/-- What a name means in the scope. -/
def lookup (s : Scope) (name : String) : Lookup :=
  match s.declared.find? name with
  | some type => .free type
  | none => match s.bound.find? name with
    | some e => .bound e
    | none => .unknown

/-- Declare a variable; an earlier declaration of the name is forgotten. -/
def declare (s : Scope) (name : String) (type : ParamType) : Scope :=
  { s with declared := s.declared.set name type }

end Scope

end CodeRules
