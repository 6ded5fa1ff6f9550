import CodeRules.Rule.Expr

/-!
# Rule modules

A module declares interfaces and options. An interface says which traits its options have; an
option realizes them by statements. Both may have parameters that are given when an option is
instantiated.
-/

namespace CodeRules

/-- A guard: what has to hold of every tuple, and the message when it does not. -/
structure Require where
  expr : Expr
  message : Option String := none
  span : Span := .synthetic
deriving Inhabited

/-- The declaration of a trait. -/
structure TraitDecl where
  name : Spanned String
  params : List (ParamDecl TypeExpr)
  flags : TraitFlags := {}
  requires : List Require := []
  span : Span := .synthetic
deriving Inhabited

/-- How a statement gives its traits their tuples. -/
inductive StatementKind where
  /-- From the facts of the program. -/
  | realize
  /-- As a definition. -/
  | define
deriving DecidableEq, Inhabited

/-- A rule: the named traits hold of what satisfies the body. -/
structure Statement where
  kind : StatementKind := .realize
  realizes : List (Spanned String)
  body : Expr
  requires : List Require := []
  /-- What to say when a singleton does not match exactly once. -/
  message : Option String := none
  span : Span := .synthetic
deriving Inhabited

/-- An interface: what options of one kind have in common. -/
structure Interface where
  name : Spanned String
  params : List (ParamDecl TypeExpr) := []
  traits : List TraitDecl := []
  statements : List Statement := []
  span : Span := .synthetic
deriving Inhabited

/-- An option: one way to realize an interface. -/
structure OptionDecl where
  name : Spanned String
  interface : Spanned String
  params : List (ParamDecl TypeExpr) := []
  traits : List TraitDecl := []
  statements : List Statement := []
  span : Span := .synthetic
deriving Inhabited

/-- Interfaces and options. -/
structure RuleModule where
  interfaces : List Interface := []
  options : List OptionDecl := []
deriving Inhabited

namespace RuleModule

/-- The first interface with a name. -/
def interface? (m : RuleModule) (name : String) : Option Interface :=
  m.interfaces.find? (·.name.value == name)

/-- The first option with a name. -/
def option? (m : RuleModule) (name : String) : Option OptionDecl :=
  m.options.find? (·.name.value == name)

end RuleModule

end CodeRules
