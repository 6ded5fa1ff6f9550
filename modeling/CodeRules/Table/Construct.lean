import CodeRules.Program.Builtins
import CodeRules.Table.Argument
import CodeRules.Table.Basic

/-!
# Construction of tables

`Table.construct` declares the traits of an interface and of an option that implements it, gives the
arguments to the parameters, and checks the statements. Nothing is solved yet.
-/

namespace CodeRules

/-- Why a table cannot be constructed. -/
inductive ConstructError where
  | repeatedTrait (span first : Span) (name : String)
  | builtinTrait (span : Span) (name : String)
  | signature (span : Span) (e : SignatureError)
  | traitVariable (span : Span) (param singleton : String)
  | sharedVariable (span : Span) (param owner singleton : String)
  | repeatedParam (span first : Span) (name : String)
  | clashingParam (span : Span) (name : String)
  | argumentCount (span : Span) (option : String) (expected found : Nat)
  | argument (span : Span) (e : ArgumentError)
  | statement (e : StatementError)
  | repeatedSingleton (span first : Span) (name : String)
  | notRealized (place : Option Span) (option trait interface : String)

namespace ConstructError

/-- The diagnostic for a table that cannot be constructed. -/
def diagnostic (e : ConstructError) : Diagnostic :=
  let error (fault : Fault) (span : Span) (message : String) : Diagnostic :=
    (Diagnostic.error fault message).atSpan span
  match e with
  | repeatedTrait span first name =>
    (error .nameClash span s!"trait `{name}` is declared twice").withSpanLabel first
      "first declared here"
  | builtinTrait span name =>
    error .nameClash span s!"trait `{name}` clashes with a built-in relation"
  | signature span e => error e.fault span e.message
  | traitVariable span param singleton =>
    error .nameClash span s!"variable `{param}` of singleton `{singleton}` clashes with a trait"
  | sharedVariable span param owner singleton => error .nameClash span
      s!"variable `{param}` is bound by singletons `{owner}` and `{singleton}`"
  | repeatedParam span first name =>
    (error .nameClash span s!"constructor parameter `{name}` is declared twice").withSpanLabel first
      "first declared here"
  | clashingParam span name => error .nameClash span
      s!"constructor parameter `{name}` clashes with a trait or singleton variable"
  | argumentCount span option expected found => error .arityMismatch span
      s!"option `{option}` takes {expected} arguments, found {found}"
  | argument span e => error e.fault span e.message
  | statement e => e.diagnostic
  | repeatedSingleton span first name =>
    (error .invalidStatement span
      s!"singleton `{name}` is realized by more than one statement").withSpanLabel first
      "first realized here"
  | notRealized place option trait interface =>
    let message := s!"option `{option}` does not realize abstract trait `{trait}` of `{interface}`"
    (Diagnostic.error .notRealized message).atPlace place

end ConstructError

/-- Traits that are declared together, each with the place of its name. -/
abbrev DeclaredTraits := NameMap (Signature × Span)

namespace Table

/-- A table that knows the built-in relations of a program. -/
def start (program : Program) (settings : Settings) (option : OptionDecl) : Table :=
  let empty : Table :=
    { option := option.name.value, interface := option.interface.value, span := option.span,
      program, settings, arena := { base := program.idBase }, trace := .ofSettings settings }
  program.builtins.foldl (fun t r =>
    { t with store := t.store.seed r.signature r.tuples }.record .seed r.signature.name
      s!"{r.tuples.length} tuples") empty

/-- Add the declaration of a trait to those before it. -/
def addTrait (t : Table) (known : DeclaredTraits) (d : TraitDecl) :
    Except ConstructError DeclaredTraits :=
  let name := d.name.value
  match known.find? name with
  | some (_, first) => .error (.repeatedTrait d.name.span first name)
  | none =>
    if (t.relation? name).isSome then .error (.builtinTrait d.name.span name)
    else match Signature.ofParams name d.params d.flags with
      | .error e => .error (.signature d.span e)
      | .ok s => .ok (known.set name (s, d.name.span))

/-- Note that a singleton binds a variable. -/
def addVariable (traits : DeclaredTraits) (s : Signature) (span : Span) (owners : NameMap String)
    (param : String) : Except ConstructError (NameMap String) :=
  if (traits.find? param).isSome then .error (.traitVariable span param s.name)
  else match owners.find? param with
    | some owner => .error (.sharedVariable span param owner s.name)
    | none => .ok (owners.set param s.name)

/-- The variables that singletons bind. -/
def singletonVariables (traits : DeclaredTraits) : Except ConstructError (NameMap String) :=
  (traits.values.filter (·.1.flags.isSingleton)).foldlM (fun owners (s, span) =>
    s.paramNames.foldlM (addVariable traits s span) owners) ∅

/-- Declare the traits of an interface and an option. -/
def declare (t : Table) (decls : List TraitDecl) :
    Except ConstructError (DeclaredTraits × Table) := do
  let traits ← decls.foldlM (addTrait t) ∅
  let singletonOf ← singletonVariables traits
  let guards := (decls.filter (!·.requires.isEmpty)).map fun d => ⟨d.name.value, d.requires⟩
  let store := traits.values.foldl (fun store (s, _) =>
    store.register { signature := s, isStatic := s.flags.isStatic }) t.store
  return (traits, { t with singletonOf, guards, store })

/-- Check that the name of a parameter is new. `known` holds the parameters before it. -/
def checkParam (t : Table) (known : NameMap Span) (p : ParamDecl TypeExpr) :
    Except ConstructError (NameMap Span) :=
  let name := p.name.value
  match known.find? name with
  | some first => .error (.repeatedParam p.name.span first name)
  | none =>
    if (t.singletonOf.find? name).isSome || (t.relation? name).isSome then
      .error (.clashingParam p.name.span name)
    else .ok (known.set name p.name.span)

/-- Give an argument to a parameter. -/
def bindArgument (solved? : String → String → Option Relation) (t : Table)
    (p : ParamDecl TypeExpr) (arg : Argument) : Except ArgumentError Table := do
  let name := p.name.value
  match ← (ParamType.resolve name p.type).mapError .type with
  -- the tuples of another instance, all of them known already
  | .relation owner params =>
    let r ← t.program.relationArgument solved? ⟨owner, params, { isAbstract := true }⟩ arg
    return { t with nested := Catalog.insert t.nested name, store := t.store.put r }
  | type =>
    let (e, arena) ← t.program.argument t.arena name type arg
    return { t with arena, globals := t.globals.bind name e }

/-- Give the arguments to the parameters of the interface and the option. -/
def bindArguments (t : Table) (solved? : String → String → Option Relation)
    (params : List (ParamDecl TypeExpr)) (args : List Argument) : Except ConstructError Table := do
  -- the names are checked before the number of arguments
  let _ ← params.foldlM (checkParam t) ∅
  if params.length ≠ args.length then
    throw (.argumentCount t.span t.option params.length args.length)
  (params.zip args).foldlM (fun t (p, arg) =>
    (bindArgument solved? t p arg).mapError (.argument p.name.span)) t

/-- Check that no two statements realize a singleton. `known` holds the singletons before. -/
def checkSingletons (known : NameMap Span) (r : Realization) :
    Except ConstructError (NameMap Span) :=
  r.names.foldlM (fun known name =>
    match known.find? name with
    | some first => .error (.repeatedSingleton r.span first name)
    | none => .ok (known.set name r.span)) known

/-- Check that the option realizes an abstract trait of its interface. -/
def checkRealized (t : Table) (d : TraitDecl) : Except ConstructError Unit :=
  if !d.flags.isAbstract ||
      t.statements.any fun r => r.level == .option && r.realizes d.name.value then .ok ()
  else .error (.notRealized (t.span.location? <|> d.span.location?) t.option d.name.value
    t.interface)

/-- Check the statements of an interface and an option. -/
def addStatements (t : Table) (traits : DeclaredTraits) (interface : Interface)
    (option : OptionDecl) : Except ConstructError Table := do
  let declared (name : String) : Option Signature := (traits.find? name).map Prod.fst
  -- an interface does not see the traits that the option adds
  let common (name : String) : Option Signature :=
    if interface.traits.any (·.name.value == name) then declared name else none
  let first ← interface.statements.mapM fun s =>
    (Realization.ofStatement interface.name.value .interface common s).mapError .statement
  let second ← option.statements.mapM fun s =>
    (Realization.ofStatement option.name.value .option declared s).mapError .statement
  let t := { t with statements := first ++ second }
  let _ ← (t.statements.filter (·.isSingleton)).foldlM checkSingletons ∅
  interface.traits.forM t.checkRealized
  return t

/-- The table of an option with its arguments, those for the interface first. `solved?` finds the
relations of other instances. -/
def construct (program : Program) (settings : Settings)
    (solved? : String → String → Option Relation) (interface : Interface) (option : OptionDecl)
    (args : List Argument) : Except Failure Table :=
  if option.interface.value ≠ interface.name.value then
    .error (.defect (.wrongInterface option.name.value option.interface.value interface.name.value))
  else
    let attempt : Except ConstructError Table := do
      -- the arguments are checked before the statements
      let (traits, t) ← (start program settings option).declare (interface.traits ++ option.traits)
      let t ← t.bindArguments solved? (interface.params ++ option.params) args
      t.addStatements traits interface option
    attempt.mapError fun e => .user [e.diagnostic]

end Table

end CodeRules
