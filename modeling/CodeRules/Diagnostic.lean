import CodeRules.Code.Location

/-!
# Diagnostics

A failure is either the rule author's, told by diagnostics with a place and a message, or a defect
of the engine itself. `Fault` says what kind of mistake a diagnostic is about, `Defect` which
promise of the engine was broken.
-/

namespace CodeRules

/-- What kind of mistake a diagnostic is about. -/
inductive Fault where
  /-- A variable, trait or option has no declaration. -/
  | undefinedName
  /-- An argument or variable stands for no entity. -/
  | unresolvedBinding
  /-- An argument stands for several entities. -/
  | ambiguousBinding
  /-- A singleton matched zero or several times. -/
  | singletonCardinality
  /-- Statements need each other through a construct that is not monotone. -/
  | dependencyCycle
  /-- A guard does not hold. -/
  | constraintViolation
  /-- Two declarations of one scope share a name. -/
  | nameClash
  /-- There is no such option. -/
  | missingConstructor
  /-- The number of arguments is wrong. -/
  | arityMismatch
  /-- An entity has the wrong category or type. -/
  | typeMismatch
  /-- The wildcard stands where a value is needed. -/
  | invalidWildcard
  /-- A pattern has a form that cannot be matched. -/
  | unsupportedPattern
  /-- An abstract trait has no realization. -/
  | notRealized
  /-- A statement is malformed. -/
  | invalidStatement
deriving DecidableEq, Inhabited

namespace Fault

/-- Every fault, in the order of their codes. -/
def all : List Fault :=
  [undefinedName, unresolvedBinding, ambiguousBinding, singletonCardinality, dependencyCycle,
    constraintViolation, nameClash, missingConstructor, arityMismatch, typeMismatch,
    invalidWildcard, unsupportedPattern, notRealized, invalidStatement]

/-- The name of a fault. -/
def name : Fault → String
  | undefinedName => "undefined_name"
  | unresolvedBinding => "unresolved_binding"
  | ambiguousBinding => "ambiguous_binding"
  | singletonCardinality => "singleton_cardinality"
  | dependencyCycle => "dependency_cycle"
  | constraintViolation => "constraint_violation"
  | nameClash => "name_clash"
  | missingConstructor => "missing_constructor"
  | arityMismatch => "arity_mismatch"
  | typeMismatch => "type_mismatch"
  | invalidWildcard => "invalid_wildcard"
  | unsupportedPattern => "unsupported_pattern"
  | notRealized => "not_realized"
  | invalidStatement => "invalid_statement"

/-- The fault with a given name. -/
def ofName? (s : String) : Option Fault := all.find? (·.name == s)

/-- The stable code of a fault. -/
def code : Fault → String
  | undefinedName => "E0101"
  | unresolvedBinding => "E0102"
  | ambiguousBinding => "E0103"
  | singletonCardinality => "E0104"
  | dependencyCycle => "E0105"
  | constraintViolation => "E0106"
  | nameClash => "E0107"
  | missingConstructor => "E0108"
  | arityMismatch => "E0109"
  | typeMismatch => "E0110"
  | invalidWildcard => "E0111"
  | unsupportedPattern => "E0112"
  | notRealized => "E0113"
  | invalidStatement => "E0114"

/-- What a fault means. -/
def description : Fault → String
  | undefinedName => "A referenced variable, trait, or option is undefined."
  | unresolvedBinding => "An argument or variable does not resolve to an entity."
  | ambiguousBinding => "An argument resolves to more than one entity."
  | singletonCardinality => "A singleton trait must be satisfied by exactly one tuple."
  | dependencyCycle => "Rules depend on each other through negation, forall, or equivalence."
  | constraintViolation => "A `requires` clause does not hold."
  | nameClash => "Two declarations in one scope share a name."
  | missingConstructor => "No option with the requested name exists."
  | arityMismatch => "An argument list does not match the declared parameters."
  | typeMismatch => "An entity does not have the expected category or type."
  | invalidWildcard => "The wildcard `_` cannot be used in this position."
  | unsupportedPattern => "The pattern shape is not supported by the matcher."
  | notRealized => "An abstract trait of the interface has no realization."
  | invalidStatement => "A realize or define statement is malformed."

/-- How such a fault is usually mended. -/
def remedy : Fault → String
  | undefinedName => "Declare the name or fix the spelling."
  | unresolvedBinding => "Pass an argument that names an existing program entity."
  | ambiguousBinding => "Qualify the argument, e.g. `Type.field`."
  | singletonCardinality => "Tighten or loosen the pattern so exactly one match remains."
  | dependencyCycle => "Break the cycle or move the negated part into its own trait."
  | constraintViolation => "Change the program or relax the constraint."
  | nameClash => "Rename one of the clashing declarations."
  | missingConstructor => "Use the name of a declared option."
  | arityMismatch => "Pass one argument per declared parameter."
  | typeMismatch => "Pass an entity of the declared category."
  | invalidWildcard => "Replace `_` with a named variable."
  | unsupportedPattern => "Use at most one free variable in a modifier list."
  | notRealized => "Add a `realize` statement for the trait."
  | invalidStatement => "Split the statement or fix its realized traits."

end Fault

/-- How serious a diagnostic is. -/
inductive Severity where
  | error | warning | info
deriving DecidableEq, Inhabited

namespace Severity

/-- The word for a severity. -/
def name : Severity → String
  | error => "error"
  | warning => "warning"
  | info => "info"

end Severity

/-- A message to the author of the rules. -/
structure Diagnostic where
  code : Option String
  severity : Severity
  fault : Fault
  message : String
  location : Option Span := none
  /-- Further places, with what is to be seen there. -/
  labels : List (Span × String) := []
  help : Option String := none
deriving Inhabited, DecidableEq

namespace Diagnostic

/-- An error without a place. -/
def error (fault : Fault) (message : String) : Diagnostic where
  code := some fault.code
  severity := .error
  fault
  message

/-- A warning without a place. -/
def warning (fault : Fault) (message : String) : Diagnostic :=
  { error fault message with severity := .warning }

/-- Place the diagnostic, if the place is known. -/
def atPlace (d : Diagnostic) (place : Option Span) : Diagnostic :=
  { d with location := place <|> d.location }

/-- Place the diagnostic at a span, if the span lies in a file. -/
def atSpan (d : Diagnostic) (span : Span) : Diagnostic := d.atPlace span.location?

/-- Point at a further place. -/
def withLabel (d : Diagnostic) (place : Span) (message : String) : Diagnostic :=
  { d with labels := d.labels ++ [(place, message)] }

/-- Point at a span, if it lies in a file. -/
def withSpanLabel (d : Diagnostic) (span : Span) (message : String) : Diagnostic :=
  span.location?.elim d fun place => d.withLabel place message

/-- Suggest what to do. -/
def withHelp (d : Diagnostic) (help : String) : Diagnostic := { d with help := some help }

/-- Whether the diagnostic is about an error. -/
def isError (d : Diagnostic) : Bool := d.severity == .error

/-- The text of a diagnostic. -/
protected def toString (d : Diagnostic) : String :=
  let label := match d.code with
    | none => d.severity.name
    | some code => d.severity.name ++ "[" ++ code ++ "]"
  let advice := match d.help with
    | none => ""
    | some help => "\n  help: " ++ help
  label ++ ": " ++ d.message ++ advice

instance : ToString Diagnostic := ⟨Diagnostic.toString⟩

end Diagnostic

/-- A broken promise of the engine. No rules should be able to cause one. -/
inductive Defect where
  /-- A fragment for `tag` has the wrong number of slots. -/
  | fragmentSlots (tag : String) (found expected : Nat)
  /-- What is left of a modifier set goes to something that is no variable. -/
  | modifierRemainder (found : String)
  /-- A node is generated from the wrong number of slots. -/
  | generatedSlots (message : String)
  /-- A goal mentions a relation that the store does not have. -/
  | unknownRelation (name : String)
  /-- A goal applies a relation to the wrong number of arguments. -/
  | appliedArity (name : String) (found : Nat)
  /-- A generated fragment has no entity. -/
  | nothingGenerated
  /-- A tuple is added to a relation that the store does not have. -/
  | unregisteredRelation (name : String)
  /-- A singleton is read or written that the store does not have. -/
  | unregisteredSingleton (name : String)
  /-- A singleton gets a second tuple. -/
  | singletonTwice (name : String)
  /-- A singleton is read that does not have one tuple. -/
  | singletonCount (name : String) (count : Nat)
  /-- Groups of statements wait for each other. -/
  | unscheduled (count : Nat)
  /-- A group holds statements that cannot be run together. -/
  | mixedGroup (label : String) (count : Nat)
  /-- A variable of a singleton has a value before the singleton is solved. -/
  | singletonVariableBound (name : String)
  /-- A fixpoint was not reached within the allowed passes. -/
  | unsettled (label : String) (passes : Nat)
  /-- A pair of a node and its copy is no tuple. -/
  | copiedTuple (message : String)
  /-- An option is constructed for an interface that it does not implement. -/
  | wrongInterface (option implemented requested : String)
  /-- An instance is registered before it is solved. -/
  | registeredUnsolved (instanceName : String)
  /-- A defect that another component reports. -/
  | reported (component message : String)
deriving DecidableEq, Inhabited

namespace Defect

/-- The component that broke its promise. -/
def component : Defect → String
  | fragmentSlots .. | modifierRemainder .. => "fragment matcher"
  | generatedSlots .. => "fragment generator"
  | unknownRelation .. | appliedArity .. | nothingGenerated => "goal evaluator"
  | unregisteredRelation .. | unregisteredSingleton .. | singletonTwice ..
  | singletonCount .. => "fact store"
  | unscheduled .. => "dependency graph"
  | mixedGroup .. | singletonVariableBound .. | unsettled .. | copiedTuple .. => "statement solver"
  | wrongInterface .. => "option match table"
  | registeredUnsolved .. => "session"
  | reported component _ => component

/-- What went wrong. -/
def reason : Defect → String
  | fragmentSlots tag found expected => s!"{tag} fragment has {found} slots, expected {expected}"
  | modifierRemainder found => s!"modifier set remainder must be a variable, found `{found}`"
  | generatedSlots message => message
  | unknownRelation name => s!"relation `{name}` is not registered"
  | appliedArity name found => s!"trait `{name}` applied to {found} arguments"
  | nothingGenerated => "generation produced no entity"
  | unregisteredRelation name => s!"relation `{name}` is not registered"
  | unregisteredSingleton name => s!"singleton `{name}` is not registered"
  | singletonTwice name => s!"singleton `{name}` is written twice"
  | singletonCount name count => s!"singleton `{name}` read with {count} tuples"
  | unscheduled count => s!"{count} groups left unscheduled"
  | mixedGroup label count =>
    s!"group `{label}` of {count} statements mixes singleton or local statements"
  | singletonVariableBound name => s!"singleton variable `{name}` is already bound"
  | unsettled label passes => s!"fixpoint over `{label}` did not settle within {passes} passes"
  | copiedTuple message => message
  | wrongInterface option implemented requested =>
    s!"option `{option}` implements `{implemented}`, not `{requested}`"
  | registeredUnsolved name => s!"instance `{name}` registered before it was solved"
  | reported _ message => message

/-- The text of a defect. -/
protected def toString (d : Defect) : String := s!"internal error in {d.component}: {d.reason}"

instance : ToString Defect := ⟨Defect.toString⟩

end Defect

/-- Why the engine gave up. -/
inductive Failure where
  /-- The engine itself is at fault. -/
  | defect (d : Defect)
  /-- The rules or arguments are at fault. -/
  | user (diagnostics : List Diagnostic)
deriving Inhabited, DecidableEq

namespace Failure

/-- A failure with one diagnostic. -/
def ofDiagnostic (d : Diagnostic) : Failure := .user [d]

instance : Coe Diagnostic Failure := ⟨ofDiagnostic⟩
instance : Coe Defect Failure := ⟨.defect⟩

/-- Whether the engine itself is at fault. -/
def isDefect : Failure → Bool
  | defect _ => true
  | user _ => false

/-- The diagnostics for the rule author. -/
def diagnostics : Failure → List Diagnostic
  | defect _ => []
  | user ds => ds

/-- The text of a failure: of several diagnostics, the first speaks. -/
protected def toString : Failure → String
  | defect d => toString d
  | user [] => ""
  | user (d :: _) => toString d

instance : ToString Failure := ⟨Failure.toString⟩

end Failure

end CodeRules
