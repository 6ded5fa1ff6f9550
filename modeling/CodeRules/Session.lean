import CodeRules.Table.Construct
import CodeRules.Table.Guards

/-!
# Sessions

A session applies the options of a module to a program. Solved tables can be registered as
instances; later options take their relations as arguments.
-/

namespace CodeRules

/-- A module, a program, and the instances registered so far. -/
structure Session where
  rules : RuleModule
  program : Program
  settings : Settings := {}
  instances : NameMap Table := ∅

/-- Why a session refuses what it is asked for. -/
inductive SessionError where
  | unknownOption (name : String)
  | unknownInterface (span : Span) (option interface : String)
  | repeatedInstance (name : String)

namespace SessionError

/-- The diagnostic for a request that is refused. -/
def diagnostic : SessionError → Diagnostic
  | unknownOption name => .error .missingConstructor s!"unknown option `{name}`"
  | unknownInterface span option interface =>
    (Diagnostic.error .undefinedName
      s!"option `{option}` implements unknown interface `{interface}`").atSpan span
  | repeatedInstance name => .error .nameClash s!"instance `{name}` is already registered"

/-- The failure for a request that is refused. -/
def failure (e : SessionError) : Failure := .user [e.diagnostic]

end SessionError

namespace Session

/-- The relation of a registered instance. -/
def relation? (s : Session) (name relation : String) : Option Relation :=
  (s.instances.find? name).bind (·.relation? relation)

/-- The table of an option with its arguments, those for the interface first. -/
def construct (s : Session) (option : String) (args : List Argument) : Except Failure Table :=
  match s.rules.option? option with
  | none => .error (SessionError.unknownOption option).failure
  | some d =>
    match s.rules.interface? d.interface.value with
    | none =>
      .error (SessionError.unknownInterface d.interface.span option d.interface.value).failure
    | some i => Table.construct s.program s.settings s.relation? i d args

/-- Register a solved table as an instance. -/
def register (s : Session) (name : String) (t : Table) : Except Failure Session :=
  if !t.solved then .error (.defect (.registeredUnsolved name))
  else if (s.instances.find? name).isSome then .error (SessionError.repeatedInstance name).failure
  else .ok { s with instances := s.instances.set name t }

/-- Construct, solve and register the table of an option. -/
def instantiate (s : Session) (name option : String) (args : List Argument) :
    Except Failure (Table × Session) := do
  let (outcome, t) := (← s.construct option args).solve
  outcome
  return (t, ← s.register name t)

end Session

end CodeRules
