/-!
# Traces

A trace lists what was done to solve a table. It is kept only on request, and of each relation only
the first few tuples are recorded.
-/

namespace CodeRules

/-- How a table is solved. -/
structure Settings where
  /-- The number of passes after which a fixpoint is given up. -/
  maxPasses : Nat := 1000000
  /-- Whether a trace is kept. -/
  trace : Bool := false
  /-- How many steps about single tuples are recorded for each relation. -/
  traceLimit : Nat := 8
deriving DecidableEq, Inhabited

/-- What a step of a trace is about. -/
inductive TraceAction where
  /-- A built-in relation was filled from the program. -/
  | seed
  /-- A group of statements is run. -/
  | layer
  /-- A pass over a fixpoint group is over. -/
  | fixpointPass
  /-- A relation got a tuple. -/
  | tupleAdded
  /-- A singleton got its tuple. -/
  | singletonResolved
  /-- A local statement made an entity. -/
  | generated
  /-- A guard does not hold. -/
  | guardFailed
deriving DecidableEq, Inhabited

namespace TraceAction

/-- Every action. -/
def all : List TraceAction :=
  [seed, layer, fixpointPass, tupleAdded, singletonResolved, generated, guardFailed]

/-- The name of an action. -/
def name : TraceAction → String
  | seed => "seed"
  | layer => "layer"
  | fixpointPass => "fixpoint_pass"
  | tupleAdded => "tuple_added"
  | singletonResolved => "singleton_resolved"
  | generated => "generated"
  | guardFailed => "guard_failed"

/-- Whether the action is about a single tuple. -/
def isAboutTuple : TraceAction → Bool
  | tupleAdded | generated => true
  | _ => false

end TraceAction

/-- A step of a trace. -/
structure TraceStep where
  action : TraceAction
  relation : String
  detail : String
deriving DecidableEq, Inhabited

/-- The steps recorded so far. -/
structure Trace where
  enabled : Bool := false
  limit : Nat := 0
  steps : Array TraceStep := #[]
deriving Inhabited

namespace Trace

/-- An empty trace that follows the settings. -/
def ofSettings (s : Settings) : Trace := { enabled := s.trace, limit := s.traceLimit }

/-- How many steps record this action for a relation. -/
def count (t : Trace) (action : TraceAction) (relation : String) : Nat :=
  t.steps.countP fun s => s.action == action && s.relation == relation

/-- How many steps record single tuples of a relation. -/
def tupleCount (t : Trace) (relation : String) : Nat :=
  t.count .tupleAdded relation + t.count .generated relation

/-- Whether a step about this action and relation would be recorded. -/
def admits (t : Trace) (action : TraceAction) (relation : String) : Bool :=
  t.enabled && !(action.isAboutTuple && t.limit ≤ t.tupleCount relation)

/-- Record a step, if it is admitted. -/
def record (t : Trace) (action : TraceAction) (relation detail : String) : Trace :=
  if t.admits action relation then { t with steps := t.steps.push ⟨action, relation, detail⟩ }
  else t

end Trace

end CodeRules
