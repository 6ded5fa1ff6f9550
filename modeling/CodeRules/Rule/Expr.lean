import CodeRules.Rule.Pattern

/-!
# Expressions

The bodies of rules are constraints between entities: relations, patterns and comparisons, joined
by connectives and quantifiers.
-/

namespace CodeRules

/-- A function from entities to entities that the program answers. -/
inductive EntityFunction where
  /-- The type of an expression, or the type that a declaration is written with. -/
  | typeOf
  /-- The class that declares a type. -/
  | declarationOf
  /-- The name of a declaration. -/
  | nameOf
  /-- The signature of a method. -/
  | signatureOf
  /-- The type that declares a member. -/
  | declaringType
deriving DecidableEq, Inhabited

namespace EntityFunction

/-- Every function. -/
def all : List EntityFunction := [typeOf, declarationOf, nameOf, signatureOf, declaringType]

/-- How rules write a function. -/
def name : EntityFunction → String
  | typeOf => "typeOf"
  | declarationOf => "declarationOf"
  | nameOf => "nameOf"
  | signatureOf => "signatureOf"
  | declaringType => "declaringType"

end EntityFunction

/-- What an expression says something about. -/
inductive Term where
  | var (name : String)
  | entity (e : Entity)
  | pattern (p : Pattern)
  | apply (func : EntityFunction) (args : List Term)
deriving Inhabited

/-- A quantified variable with the type of entities that it runs over. -/
abbrev Binder := Named TypeExpr

/-- A constraint between entities. -/
inductive Expr where
  | true
  | false
  | and (items : List Expr)
  | or (items : List Expr)
  | not (body : Expr)
  | implies (premise conclusion : Expr)
  | iff (left right : Expr)
  | exists (span : Span) (binders : List Binder) (body : Expr)
  /-- Every solution of `range` satisfies `body`. -/
  | forall (span : Span) (binders : List Binder) (range body : Expr)
  /-- The terms stand in the relation of a trait. -/
  | trait (span : Span) (name : String) (args : List Term)
  /-- The pattern describes the subject. -/
  | matches (span : Span) (subject : Term) (pattern : Pattern)
  | eq (span : Span) (left right : Term)
  | ne (span : Span) (left right : Term)
deriving Inhabited

end CodeRules
