import CodeRules.Diagnostic
import CodeRules.Relation.Signature
import CodeRules.Rule.Module
import CodeRules.Statement.Mention

/-!
# Checked statements

A realization is a statement whose traits have been looked up. It realizes singletons only, or one
trait that is no singleton. `Realization.dependencies` says which relations must be complete before
it runs, `Realization.peers` which are solved together with it.
-/

namespace CodeRules

/-- Where a statement stands. Those of interfaces run first. -/
inductive Level where
  | interface
  | option
deriving DecidableEq, Inhabited

namespace Level

/-- The name of a level. -/
def name : Level → String
  | interface => "interface"
  | option => "option"

end Level

/-- Why a statement is no realization. -/
inductive StatementError where
  | realizesNothing (span : Span)
  | unknownTrait (place : Option Span) (name : String)
  | builtinTrait (span : Span) (name : String)
  | repeatedTrait (span : Span) (name : String)
  /-- A singleton is realized together with another kind of trait. -/
  | mixedSingleton (span : Span) (singleton other : String)
  | severalTraits (span : Span) (first second : String)
  /-- An interface realizes a trait that is not static. -/
  | notStatic (span : Span) (owner name : String)
  /-- The wildcard is used as a value. -/
  | wildcardValue (span : Span) (names : List String)
deriving Inhabited

namespace StatementError

/-- The diagnostic for a mistake in a statement. -/
def diagnostic (e : StatementError) : Diagnostic :=
  let invalid (span : Span) (message : String) : Diagnostic :=
    (Diagnostic.error .invalidStatement message).atSpan span
  match e with
  | realizesNothing span => invalid span "a statement must realize at least one trait"
  | unknownTrait place name =>
    (Diagnostic.error .undefinedName s!"statement realizes unknown trait `{name}`").atPlace place
  | builtinTrait span name => invalid span s!"built-in trait `{name}` cannot be realized"
  | repeatedTrait span name => invalid span s!"trait `{name}` is listed twice"
  | mixedSingleton span singleton other => invalid span
      s!"singleton `{singleton}` cannot be realized together with non-singleton `{other}`"
  | severalTraits span first second => invalid span
      s!"a statement realizes at most one non-singleton trait, found `{first}` and `{second}`"
  | notStatic span owner name => invalid span
      s!"interface `{owner}` can only realize static traits, `{name}` is not static"
  | wildcardValue span names =>
    let listed := "`, `".intercalate names
    (Diagnostic.error .invalidWildcard
      s!"`{wildcard}` cannot be used as a value in the statement realizing `{listed}`").atSpan span

end StatementError

/-- A statement with the signatures of the traits that it realizes. -/
structure Realization where
  /-- The interface or option that the statement belongs to. -/
  owner : String
  level : Level
  kind : StatementKind
  signatures : List Signature
  body : Expr
  requires : List Require
  message : Option String
  span : Span
deriving Inhabited

/-- What the mentions of statements refer to. -/
structure RelationContext where
  signatures : NameMap Signature := ∅
  /-- The relations that have all their tuples. -/
  complete : NameSet := ∅
  /-- The singleton that binds a variable. -/
  singletonOf : NameMap String := ∅
deriving Inhabited

namespace RelationContext

/-- The signature of a relation that statements may still add to. -/
def open? (c : RelationContext) (name : String) : Option Signature :=
  if Catalog.contains c.complete name then none
  else (c.signatures.find? name).filter fun s => !s.flags.isBuiltin

/-- The relation that a mention refers to; a variable refers to the singleton that binds it. -/
def relation? (c : RelationContext) (tested : Bool) : Mention → Option String
  | .trait name t => if t = tested then some name else none
  | .var name t _ => if t = tested ∧ name ≠ wildcard then c.singletonOf.find? name else none

end RelationContext

namespace Realization

/-- Look up the traits of a statement, given those before them. -/
def lookUp (lookup : String → Option Signature) (s : Statement) :
    List Signature → List (Spanned String) → Except StatementError (List Signature)
  | known, [] => .ok known
  | known, n :: ns =>
    match lookup n.value with
    | none => .error (.unknownTrait (n.span.location? <|> s.span.location?) n.value)
    | some sig =>
      if sig.flags.isBuiltin then .error (.builtinTrait n.span sig.name)
      else if known.any (·.name == sig.name) then .error (.repeatedTrait n.span sig.name)
      else lookUp lookup s (known ++ [sig]) ns

/-- Check that traits may be realized together. -/
def checkKinds (span : Span) (signatures : List Signature) : Except StatementError Unit :=
  match signatures.filter (·.flags.isSingleton), signatures.filter (!·.flags.isSingleton) with
  | single :: _, other :: _ => .error (.mixedSingleton span single.name other.name)
  | [], first :: second :: _ => .error (.severalTraits span first.name second.name)
  | _, _ => .ok ()

/-- Check that an interface realizes static traits only. -/
def checkStatic (owner : String) (level : Level) (s : Statement) (signatures : List Signature) :
    Except StatementError Unit :=
  match signatures.find? fun sig => !sig.flags.isStatic with
  | none => .ok ()
  | some sig =>
    if level = .interface ∧ s.kind = .realize then .error (.notStatic s.span owner sig.name)
    else .ok ()

/-- Check a statement. `lookup` finds the traits that it may realize. -/
def ofStatement (owner : String) (level : Level) (lookup : String → Option Signature)
    (s : Statement) : Except StatementError Realization := do
  if s.realizes.isEmpty then throw (.realizesNothing s.span)
  let signatures ← lookUp lookup s [] s.realizes
  checkKinds s.span signatures
  checkStatic owner level s signatures
  return { owner, level, kind := s.kind, signatures, body := s.body, requires := s.requires,
           message := s.message, span := s.span }

/-- The names of the realized traits. -/
def names (r : Realization) : List String := r.signatures.map Signature.name

/-- Whether a trait is among the realized ones. -/
def realizes (r : Realization) (name : String) : Bool := r.names.contains name

/-- Whether all realized traits are singletons. -/
def isSingleton (r : Realization) : Bool := r.signatures.all (·.flags.isSingleton)

/-- Whether a realized trait is local. -/
def isLocal (r : Realization) : Bool := r.signatures.any (·.flags.isLocal)

/-- Neither singleton nor local. -/
def isPlain (r : Realization) : Bool := !r.isSingleton && !r.isLocal

/-- The relations that the body mentions, tested or not. -/
def relations (r : Realization) (c : RelationContext) (tested : Bool) : NameSet :=
  Catalog.ofListFirst (r.body.references.filterMap (c.relation? tested))

/-- Whether a relation that is mentioned without a test must be complete first. Plain statements
wait for singletons and local relations only. -/
def awaits (r : Realization) (c : RelationContext) (name : String) : Bool :=
  !r.realizes name && (c.open? name).any fun s => !r.isPlain || !s.flags.isPlain

/-- The relations that must be complete before the statement runs. -/
def dependencies (r : Realization) (c : RelationContext) : Except StatementError NameSet :=
  if r.body.references.any Mention.isWildcardValue ∧ r.kind ≠ .define then
    .error (.wildcardValue r.span r.names)
  else
    -- what is tested must be complete in any case, even the statement's own relations
    .ok ((Catalog.filter (r.awaits c) (r.relations c false)).union
      (Catalog.filter (fun name => (c.open? name).isSome) (r.relations c true)))

/-- The plain relations that the body mentions without a test. They are solved together with the
statement when it is plain. -/
def peers (r : Realization) (c : RelationContext) : NameSet :=
  Catalog.filter (fun name => (c.open? name).any (·.flags.isPlain)) (r.relations c false)

end Realization

end CodeRules
