import CodeRules.Goal.Compile
import CodeRules.Goal.Solve
import CodeRules.Program.Builtins
import CodeRules.Statement.Schedule
import CodeRules.Table.Basic

/-!
# Running statements

A statement is compiled when it runs, so that arguments and the variables of solved singletons are
known entities in its body. Every solution of the body gives one tuple for each trait that the
statement realizes.

A singleton must get exactly one tuple, and binds its variables. What a local statement makes is
kept for later patterns. Fixpoint groups are run until no relation grows.
-/

namespace CodeRules

/-- Why the solutions of a statement give no tuples, or the wrong number of them. -/
inductive RealizeError where
  | unbound (e : TupleError)
  | mismatch (trait param : String) (e : Entity) (expected : ParamType)
  | cardinality (message : String) (count : Nat)

namespace RealizeError

/-- The diagnostic for a statement that gives no proper tuples. -/
def diagnostic (e : RealizeError) (place : Option Span) : Diagnostic :=
  match e with
  | unbound e => (Diagnostic.error .unresolvedBinding e.message).atPlace place
  | mismatch trait param e expected =>
    (Diagnostic.error .typeMismatch
      s!"`{param}` of `{trait}` is bound to `{e}`, which is not a {expected}").atPlace place
  | cardinality message count =>
    (Diagnostic.error .singletonCardinality s!"{message} (found {count} matches)").atPlace place

end RealizeError

namespace Tuple

/-- The tuple that a solution gives for a trait. -/
def ofSolution (types : TypeOracle) (s : Signature) (b : Bindings) : Except RealizeError Tuple := do
  let t ← (ofBindings s b).mapError .unbound
  match (s.params.zip t.values).find? fun (param, e) => !param.type.accepts types e with
  | some (param, e) => throw (.mismatch s.name param.name e param.type)
  | none => return t

end Tuple

/-- A computation that changes a table. What was done before a failure stays done. -/
abbrev Running := ExceptT Failure (StateM Table)

namespace Running

/-- Take the value of an outcome, or fail. -/
def ok {α : Type} : Except Failure α → Running α
  | .ok x => return x
  | .error e => throw e

/-- Take the value of an outcome, or fail with a diagnostic. -/
def orReport {α ε : Type} (diagnostic : ε → Diagnostic) (x : Except ε α) : Running α :=
  ok (x.mapError fun e => .user [diagnostic e])

/-- Take the value of an outcome that rules cannot spoil. -/
def orDefect {α : Type} (x : Except Defect α) : Running α := ok (x.mapError .defect)

/-- Solve something against the table. -/
def solving {α : Type} (x : World → Solving α) : Running α := do
  let t ← get
  -- numbers that were given out are kept even when solving fails
  let (outcome, arena) := (x t.world).run.run t.arena
  set { t with arena }
  ok outcome

/-- Add a step to the trace. -/
def record (action : TraceAction) (relation detail : String) : Running Unit :=
  modify (·.record action relation detail)

end Running

namespace Table

/-- The goal of a statement in the table. -/
def goal (t : Table) (r : Realization) : Except GoalError Goal :=
  let params := r.signatures.flatMap Signature.params
  r.body.compile t.store
    (params.foldl (fun s p => s.declare p.name p.type) { bound := t.globals })

/-- The place of a statement, or else of the option. -/
def placeOf (t : Table) (r : Realization) : Option Span :=
  r.span.location? <|> t.span.location?

/-- The message for a singleton that did not match exactly once. -/
def cardinalityMessage (t : Table) (r : Realization) (s : Signature) : String :=
  match r.message with
  | some m => t.globals.fillTemplate m
  | none => s!"singleton `{s.name}` must match exactly once"

/-- The type that what is made for a tuple belongs to: the first type among its values, or else the
type around the first node of the program among them. -/
def hostOf (t : Table) (values : List Entity) : Option CodeType :=
  let typeOf? : Entity → Option CodeType
    | .type c => some c
    | _ => none
  let around? (i : NodeId) : Option CodeType :=
    t.program.declaringType? i <|> (t.program.enclosing.find? i).map Enclosing.type
  values.findSome? typeOf? <|>
    ((values.filterMap Entity.nodeId?).filter fun i => !t.arena.contains i).findSome? around?

/-- Whether the table has a made entity with this node as its root. -/
def hasMade (t : Table) (i : NodeId) : Bool := t.overlay.any fun e => e.nodeId? == some i

end Table

namespace Running

/-- Solve the body of a statement. -/
def solutions (g : Goal) : Running Solutions := do
  let globals := (← get).globals
  solving fun w => g.solve w globals

/-- The goal of a statement. -/
def goal (r : Realization) : Running Goal := do orReport GoalError.diagnostic ((← get).goal r)

/-- The tuple that a solution of a statement gives for a trait. -/
def tuple (r : Realization) (s : Signature) (b : Bindings) : Running Tuple := do
  let t ← get
  orReport (·.diagnostic (t.placeOf r)) (Tuple.ofSolution t.program.types s b)

/-- Add a tuple to a relation. The answer says whether it is new. -/
def add (name : String) (tuple : Tuple) : Running Bool := do
  let (isNew, store) ← orDefect ((← get).store.add name tuple)
  modify ({ · with store })
  return isNew

/-- Bind a variable of a singleton. -/
def bindVariable (name : String) (e : Entity) : Running Unit := do
  match (← get).globals.bind? name e with
  | some globals => modify ({ · with globals })
  | none => throw (.defect (.singletonVariableBound name))

/-- Give a singleton its tuple. -/
def resolveSingleton (r : Realization) (found : Solutions) (s : Signature) : Running Unit := do
  let tuples : TupleSet := Catalog.ofListLast (← found.toList.mapM (tuple r s))
  match tuples.toList with
  | [t] =>
    -- the variables are bound in the order of their names, before the tuple is stored
    t.byName.toList.forM fun (name, e) => bindVariable name e
    record .singletonResolved s.name (toString t)
    let store ← orDefect ((← get).store.addSingleton t)
    modify ({ · with store })
  | ts =>
    let message := (← get).cardinalityMessage r s
    let place := (← get).placeOf r
    throw (.user [(RealizeError.cardinality message ts.length).diagnostic place])

/-- Run a statement for singletons. -/
def runSingleton (r : Realization) : Running Unit := do
  let found ← solutions (← goal r)
  r.signatures.forM (resolveSingleton r found)

/-- Note that a node of the program was copied to a node of `root`. -/
def noteCopy (root : Node) (replacement : Replacement) : Running Unit := do
  let t ← get
  match t.program.node? replacement.source, root.find? replacement.copy,
    t.relation? BuiltinRelation.copiedTo with
  | some source, some copy, some r =>
    match Tuple.ofValues r.signature [.node source, .node copy] with
    | .ok pair => discard (add BuiltinRelation.copiedTo pair)
    | .error e => throw (.defect (.copiedTuple e.message))
  | _, _, _ => return

/-- Keep a made node: the type it is meant for, what it was copied from, and the node itself for
later patterns. -/
def keepMade (s : Signature) (b : Bindings) (host : Option CodeType) (param : String)
    (root : Node) : Running Unit := do
  if let some c := host then
    modify fun t => { t with arena := t.arena.setDeclaringType root.id c }
  b.replacements.toList.forM (noteCopy root)
  let made : Generated := ⟨s.name, param, .node root, host, (← get).arena.origin? root.id⟩
  modify fun t => { t with overlay := t.overlay ++ [made.entity] }
  record .generated s.name s!"{param} = {made.entity}"
  modify fun t => { t with generated := t.generated ++ [made] }

/-- Keep the made nodes among the values of a new tuple. -/
def keepAllMade (s : Signature) (tuple : Tuple) (b : Bindings) : Running Unit := do
  let host := (← get).hostOf tuple.values
  tuple.entries.forM fun (param, e) => do
    match e with
    | .node root =>
      let t ← get
      -- a node of the program is not made, and one that was kept before is not kept again
      if t.arena.contains root.id && !t.hasMade root.id then keepMade s b host param root
    | _ => return

/-- Add the tuple that a solution of a statement gives for a trait. The answer is the tuple if it is
new. -/
def realize (r : Realization) (b : Bindings) (s : Signature) : Running (Option Tuple) := do
  let t ← tuple r s b
  if ← add s.name t then
    record .tupleAdded s.name (toString t)
    return some t
  return none

/-- Run a local statement. -/
def runLocal (r : Realization) : Running Unit := do
  -- all solutions are found before the first of them changes a relation
  let found ← solutions (← goal r)
  found.toList.forM fun b => r.signatures.forM fun s => do
    if let some t ← realize r b s then keepAllMade s t b

/-- Run a plain statement once. The answer is the number of new tuples. -/
def runPlain (r : Realization) (g : Goal) : Running Nat := do
  let found ← solutions g
  let added ← found.toList.mapM fun b => r.signatures.mapM (realize r b)
  return added.flatten.countP (·.isSome)

/-- Run plain statements in turn until a pass adds no tuple, `left` passes at most. Statements that
do not read what they realize need one pass only. -/
def runPasses (members : List (Realization × Goal)) (isRecursive : Bool) (label : String)
    (pass : Nat) : Nat → Running Unit
  | 0 => throw (.defect (.unsettled label pass))
  | left + 1 => do
    let added := (← members.mapM fun (r, g) => runPlain r g).foldl (· + ·) 0
    record .fixpointPass label s!"pass {pass + 1}: {added} new tuples"
    -- the last pass of a recursive group is the one that adds nothing
    if added ≠ 0 ∧ isRecursive then runPasses members isRecursive label (pass + 1) left

/-- Run plain statements as one fixpoint. -/
def runFixpoint (members : List Realization) (isRecursive : Bool) (label : String) :
    Running Unit := do
  let goals ← members.mapM fun r => return (r, ← goal r)
  runPasses goals isRecursive label 0 (← get).settings.maxPasses

/-- Run a group of statements. -/
def runGroup (statements : List Realization) (g : Group) (label : String) : Running Unit :=
  let members := g.statements.filterMap (statements[·]?)
  match g.kind, members with
  | .singleton, [r] => runSingleton r
  | .local, [r] => runLocal r
  | .fixpoint, rs =>
    if rs.all Realization.isPlain then runFixpoint rs g.isRecursive label
    else throw (.defect (.mixedGroup label rs.length))
  -- a group for one statement that has none or several
  | _, rs => throw (.defect (.mixedGroup label rs.length))

/-- Run the statements of a level. `complete` are the relations that have all their tuples. -/
def runLevel (level : Level) (statements : List Realization) (complete : NameSet) :
    Running Unit := do
  let schedule ← orReport ScheduleError.diagnostic
    (Schedule.ofStatements ((← get).context complete) statements)
  let layers ← orDefect schedule.layers
  layers.zipIdx.forM fun (layer, depth) => layer.forM fun i => do
    match schedule.groups[i]? with
    | none => return
    | some g =>
      let label := ",".intercalate g.relations.toList
      record .layer label s!"{level.name} layer {depth}"
      runGroup statements g label

end Running

end CodeRules
