import CodeRules.Relation.Category
import CodeRules.Rule.TypeExpr

/-!
# Signatures of traits

A trait is a named relation between entities. Its signature lists its parameters in order, each
with the type of entity that it takes, and the flags that it was declared with.

`ParamType.resolve` turns a written type into a parameter type; `Signature.ofParams` does so for a
parameter list and refuses repeated names.
-/

namespace CodeRules

/-- The entities that a parameter takes. -/
inductive ParamType where
  /-- Those of a category. -/
  | category (c : Category)
  /-- The expressions whose type is a subtype of a type of the program. -/
  | program (t : CodeType)
  /-- No entity, but a relation with these parameters. -/
  | relation (name : String) (params : List (Named ParamType))
deriving Inhabited

/-- A parameter and the entities that it takes. -/
abbrev Param := Named ParamType

namespace ParamType

/-- The type that takes every entity. -/
def any : ParamType := .category .any

/-- Whether a parameter of this type takes the entity. -/
def accepts (p : ParamType) (types : TypeOracle) (e : Entity) : Bool :=
  match p with
  | .category c => c.accepts e
  -- an entity of unknown type is refused
  | .program expected => match types.typeOf? e with
    | none => false
    | some actual => Category.expression.accepts e && types.isSubtype actual expected
  | .relation .. => false

/-- The category whose entities may be tried for a parameter of this type. -/
def toCategory : ParamType → Category
  | .category c => c
  | .program _ => .expression
  | .relation .. => .any

/-- What a parameter takes belongs to the category. -/
theorem toCategory_accepts {p : ParamType} {types : TypeOracle} {e : Entity}
    (h : p.accepts types e = true) : p.toCategory.accepts e = true := by
  cases p with
  | category c => exact h
  | program t =>
    rw [accepts] at h
    split at h
    · cases h
    · exact (Bool.and_eq_true _ _ ▸ h).1
  | relation name params => cases h

@[simp] theorem any_accepts (types : TypeOracle) (e : Entity) : any.accepts types e = true :=
  Category.any_accepts e

mutual

/-- The text of a parameter type. -/
protected def toString : ParamType → String
  | .category c => c.name
  | .program t => toString t
  | .relation name params => name ++ "(" ++ ", ".intercalate (ParamType.toStrings params) ++ ")"

/-- The texts of parameters with their types. -/
protected def toStrings : List (Named ParamType) → List String
  | [] => []
  | ⟨name, type⟩ :: ps => (name ++ ": " ++ type.toString) :: ParamType.toStrings ps

end

instance : ToString ParamType := ⟨ParamType.toString⟩

mutual

/-- The shape of a parameter type; types of one shape are the same. -/
def shape : ParamType → Shape
  | .category c => .seq [.num 0, .num c.ctorIdx]
  | .program t => .seq [.num 1, t.shape]
  | .relation name params => .seq [.num 2, .text name, .seq (shapes params)]

/-- The shapes of parameters with their types. -/
def shapes : List (Named ParamType) → List Shape
  | [] => []
  | ⟨name, type⟩ :: ps => .seq [.text name, type.shape] :: shapes ps

end

end ParamType

/-- Why a written parameter list makes no signature. -/
inductive SignatureError where
  | duplicateParam (trait param : String)
  | unknownCategory (trait category : String)
deriving DecidableEq, Inhabited

namespace SignatureError

/-- The message for a signature error. -/
def message : SignatureError → String
  | duplicateParam trait param => s!"parameter `{param}` is declared twice in trait `{trait}`"
  | unknownCategory trait category => s!"unknown category `{category}` in trait `{trait}`"

end SignatureError

/-- Refuse a parameter list in which a name is repeated. -/
def checkParams (trait : String) : List String → List Param → Except SignatureError Unit
  | _, [] => .ok ()
  | seen, p :: ps =>
    if seen.contains p.name then .error (.duplicateParam trait p.name)
    else checkParams trait (p.name :: seen) ps

namespace ParamType

mutual

/-- What a written type means. `owner` names the declaration that it was written for, which is
also the name of a relation written there. -/
def resolve (owner : String) : TypeExpr → Except SignatureError ParamType
  | .category name => match Category.ofName? name with
    | some c => .ok (.category c)
    | none => .error (.unknownCategory owner name)
  | .program t => .ok (.program t)
  | .relation params => do
    let resolved ← resolveParams params
    checkParams owner [] resolved
    return .relation owner resolved

/-- What a written parameter list means. -/
def resolveParams : List (ParamDecl TypeExpr) → Except SignatureError (List Param)
  | [] => .ok []
  | ⟨name, type⟩ :: ps => do
    let type ← resolve name.value type
    return ⟨name.value, type⟩ :: (← resolveParams ps)

end

end ParamType

/-- The name, parameters and flags of a trait. -/
structure Signature where
  name : String
  params : List Param
  flags : TraitFlags := {}
deriving Inhabited

namespace Signature

/-- The signature with a written parameter list. -/
def ofParams (name : String) (params : List (ParamDecl TypeExpr)) (flags : TraitFlags) :
    Except SignatureError Signature := do
  let resolved ← ParamType.resolveParams params
  checkParams name [] resolved
  return ⟨name, resolved, flags⟩

/-- The number of parameters. -/
def arity (s : Signature) : Nat := s.params.length

/-- The names of the parameters. -/
def paramNames (s : Signature) : List String := s.params.map Named.name

/-- The parameter with a given name. -/
def param? (s : Signature) (name : String) : Option Param := s.params.find? (·.name == name)

/-- Whether two signatures have the same parameter types in the same order. -/
def sameShape (s t : Signature) : Bool :=
  decide (s.params.map (·.type.shape) = t.params.map (·.type.shape))

/-- The text of a signature. -/
protected def toString (s : Signature) : String :=
  toString (ParamType.relation s.name s.params)

instance : ToString Signature := ⟨Signature.toString⟩

end Signature

end CodeRules
