import CodeRules.Table.Run

/-!
# Guards

A guard must hold of every tuple of the relations that its statement or trait realizes. All guards
are checked, and those that do not hold are reported together; a defect ends the check.
-/

namespace CodeRules

/-- A guard and a tuple that it must hold of. -/
structure GuardCheck where
  relation : String
  require : Require
  tuple : Tuple
  /-- Where the guard is written. -/
  span : Span

/-- Why a guard does not hold. -/
inductive GuardError where
  | undefinedVariable (name : String)
  | violated (message : String)

namespace GuardError

/-- The diagnostic for a guard that does not hold. -/
def diagnostic (e : GuardError) (place : Option Span) : Diagnostic :=
  match e with
  | undefinedVariable name =>
    (Diagnostic.error .undefinedName s!"undefined variable `{name}`").atPlace place
  | violated message => (Diagnostic.error .constraintViolation message).atPlace place

end GuardError

namespace Require

/-- The first variable that stands as a value although nothing can bind it. -/
def undefined? (r : Require) (b : Bindings) : Option String :=
  let mentions := r.expr.references
  let bindable := mentions.filterMap Mention.bindingVar?
  let values : NameSet := Catalog.ofListFirst (mentions.filterMap Mention.valueVar?)
  values.toList.find? fun name => !b.binds name && !bindable.contains name

end Require

namespace Table

/-- The checks of a guard for the tuples of a relation. -/
def checksOf (t : Table) (require : Require) (span : Span) (relation : String) : List GuardCheck :=
  ((t.relation? relation).toList.flatMap fun r => r.tuples.toList).map fun tuple =>
    ⟨relation, require, tuple, span⟩

/-- All checks: those of the statements, then those of the traits. -/
def guardChecks (t : Table) : List GuardCheck :=
  let ofStatements := t.statements.flatMap fun r =>
    r.requires.flatMap fun q => r.names.flatMap (t.checksOf q r.span)
  let ofTraits := t.guards.flatMap fun g =>
    g.requires.flatMap fun q => t.checksOf q q.span g.relation
  ofStatements ++ ofTraits

/-- What the names in a guard stand for: the values of the tuple before those of the table. -/
def guardBindings (t : Table) (tuple : Tuple) : Bindings :=
  t.globals.vars.toList.foldl (fun b (name, e) => if b.binds name then b else b.bind name e)
    tuple.toBindings

/-- Where a failed check is reported. -/
def placeOfCheck (t : Table) (c : GuardCheck) : Option Span :=
  (c.tuple.root.bind fun r => r.span.location?) <|> c.span.location? <|> t.span.location?

end Table

namespace Running

/-- Check a guard for a tuple. -/
def checkGuard (c : GuardCheck) : Running Unit := do
  let t ← get
  let fail (e : GuardError) : Running Unit := throw (.user [e.diagnostic (t.placeOfCheck c)])
  let b := t.guardBindings c.tuple
  -- looked for first: solving would complain about the comparison instead
  if let some name := c.require.undefined? b then fail (.undefinedVariable name)
  let goal ← orReport GoalError.diagnostic (c.require.expr.compile t.store { bound := b })
  unless ← solving fun w => goal.holds w b do
    let message := (c.require.message.map b.fillTemplate).getD "cannot satisfy constraint"
    record .guardFailed c.relation s!"{c.tuple}: {message}"
    fail (.violated message)

/-- Run each check and collect the diagnostics. -/
def collectDiagnostics (checks : List GuardCheck) : Running (List Diagnostic) := do
  let found ← checks.mapM fun c =>
    tryCatch (do checkGuard c; return []) fun
      | .user ds => return ds
      | .defect d => throw (.defect d)
  return found.flatten

/-- Check all guards. -/
def checkGuards : Running Unit := do
  let found ← collectDiagnostics (← get).guardChecks
  unless found.isEmpty do throw (.user found)

end Running

namespace Table

/-- Run the statements of the levels in turn. -/
def runLevels (complete : NameSet) : List Level → Running Unit
  | [] => return
  | level :: levels => do
    let statements := (← get).statements.filter (·.level == level)
    if statements.isEmpty then runLevels complete levels
    else
      Running.runLevel level statements complete
      -- what this level realized has all its tuples when the next one starts
      runLevels (Catalog.insertAll complete (statements.flatMap Realization.names)) levels

/-- Run all statements and check all guards, unless that is done already. -/
def run : Running Unit := do
  unless (← get).solved do
    runLevels (← get).nested [.interface, .option]
    Running.checkGuards
    modify ({ · with solved := true })

/-- Solve a table. A failure leaves the table as it was when the failure arose. -/
def solve (t : Table) : Except Failure Unit × Table := run.run.run t

end Table

end CodeRules
