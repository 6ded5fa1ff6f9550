import CodeRules.Code.Location
import CodeRules.Code.Type

/-!
# Written types of parameters

What rules write to say which entities a parameter takes: a category by name, a type of the
program, or a relation with parameters of its own.
-/

namespace CodeRules

/-- The name that stands for any entity and is never bound. -/
def wildcard : String := "_"

/-- A name with a type. -/
structure Named (τ : Type) where
  name : String
  type : τ
deriving Inhabited

/-- A parameter and what was written for its type. -/
structure ParamDecl (τ : Type) where
  name : Spanned String
  type : τ
deriving Inhabited

/-- A type as rules write it. -/
inductive TypeExpr where
  | category (name : String)
  | program (type : CodeType)
  | relation (params : List (ParamDecl TypeExpr))
deriving Inhabited

/-- What a trait is declared as. -/
structure TraitFlags where
  isAbstract : Bool := false
  isStatic : Bool := false
  isBuiltin : Bool := false
  isSingleton : Bool := false
  isLocal : Bool := false
deriving DecidableEq, Inhabited

namespace TraitFlags

/-- Neither singleton nor local. -/
def isPlain (f : TraitFlags) : Bool := !f.isSingleton && !f.isLocal

/-- The flags with the given names. -/
def ofNames (names : List String) : TraitFlags where
  isAbstract := names.contains "abstract"
  isStatic := names.contains "static"
  isBuiltin := names.contains "builtin"
  isSingleton := names.contains "singleton"
  isLocal := names.contains "local"

/-- The names of the flags that are set. -/
def names (f : TraitFlags) : List String :=
  ([(f.isAbstract, "abstract"), (f.isStatic, "static"), (f.isBuiltin, "builtin"),
    (f.isSingleton, "singleton"), (f.isLocal, "local")].filter Prod.fst).map Prod.snd

end TraitFlags

end CodeRules
