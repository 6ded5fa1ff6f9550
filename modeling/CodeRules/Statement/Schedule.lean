import CodeRules.Order.Digraph
import CodeRules.Statement.Realization

/-!
# The order of statements

Statements are put into groups. A singleton or local statement is a group of its own; plain
statements that realize the same trait, or of which one reads the trait of the other without a test,
are solved together. A group runs after the groups that realize what its statements depend on.
-/

namespace CodeRules

/-- How the statements of a group are run. -/
inductive GroupKind where
  | singleton
  | local
  | fixpoint
deriving DecidableEq, Inhabited

namespace GroupKind

/-- The name of a kind. -/
def name : GroupKind → String
  | singleton => "singleton"
  | «local» => "local"
  | fixpoint => "fixpoint"

end GroupKind

/-- Statements that are run together. -/
structure Group where
  kind : GroupKind
  /-- The numbers of the statements. -/
  statements : List Nat
  /-- The relations that the statements realize. -/
  relations : NameSet
  /-- Whether a statement reads a relation of the group. -/
  isRecursive : Bool
deriving Inhabited

/-- Groups, with an edge from each group to those that wait for it. -/
structure Schedule where
  groups : List Group
  order : Digraph
deriving Inhabited

/-- Why statements cannot be ordered. -/
inductive ScheduleError where
  | statement (e : StatementError)
  /-- Groups wait for each other. -/
  | cycle (relations : NameSet) (place : Option Span)

namespace ScheduleError

/-- The diagnostic for statements that cannot be ordered. -/
def diagnostic : ScheduleError → Diagnostic
  | statement e => e.diagnostic
  | cycle relations place =>
    let listed := ", ".intercalate (relations.toList.map fun n => s!"`{n}`")
    ((Diagnostic.error .dependencyCycle s!"cyclic dependency among traits {listed}").atPlace
      place).withHelp ("traits may only recurse through references outside negation, universal "
        ++ "quantification, implication, and equivalence")

end ScheduleError

/-- A statement with its number and what it waits for. -/
structure Planned where
  index : Nat
  statement : Realization
  dependencies : NameSet
  /-- The relations that are solved together with the statement. -/
  peers : NameSet
deriving Inhabited

namespace Planned

/-- The steps of some statements. -/
def ofStatements (c : RelationContext) (statements : List Realization) :
    Except StatementError (List Planned) :=
  statements.zipIdx.mapM fun (r, i) =>
    -- only plain statements are solved together with others
    return ⟨i, r, ← r.dependencies c, if r.isPlain then r.peers c else ∅⟩

/-- Whether `s` is solved together with `t` because it realizes or reads what `t` realizes. -/
def touches (s t : Planned) : Bool :=
  s.statement.isPlain && t.statement.isPlain &&
    t.statement.names.any fun n => s.statement.realizes n || Catalog.contains s.peers n

/-- An edge between all steps that are solved together. -/
def links (steps : List Planned) : Digraph where
  size := steps.length
  edges := steps.flatMap fun s =>
    (steps.filter fun t => s.touches t || t.touches s).map fun t => (s.index, t.index)

/-- The group of some steps. -/
def group (steps : List Planned) : Group :=
  let relations : NameSet := Catalog.ofListFirst (steps.flatMap (·.statement.names))
  { kind := if steps.all (·.statement.isPlain) then .fixpoint
      else if steps.all (·.statement.isSingleton) then .singleton else .local
    statements := steps.map index
    relations
    isRecursive := steps.any fun s => s.peers.toList.any (Catalog.contains relations) }

end Planned

namespace Schedule

/-- Steps that are solved together, each group at the place of its first statement. -/
def partition (steps : List Planned) : List (List Planned) :=
  let links := Planned.links steps
  steps.filterMap fun s =>
    -- the links go both ways, so what `s` reaches is its group
    match steps.filter fun t => links.reaches s.index t.index with
    | [] => none
    | first :: rest => if first.index = s.index then some (first :: rest) else none

/-- The edges from the groups that realize a relation to the groups that depend on it, in the order
of the statements that depend. -/
def edges (groups : List (List Planned)) (steps : List Planned) : List (Nat × Nat) :=
  let groupOf (i : Nat) : Nat := groups.findIdx fun g => g.any (·.index == i)
  steps.flatMap fun s => s.dependencies.toList.flatMap fun name =>
    (steps.filter (·.statement.realizes name)).map fun t => (groupOf t.index, groupOf s.index)

/-- The error for groups that wait for each other. -/
def cycle (groups : List (List Planned)) (knot : List Nat) : ScheduleError :=
  let steps := knot.flatMap fun i => groups.getD i []
  .cycle (Catalog.ofListFirst (steps.flatMap (·.statement.names)))
    (steps.findSome? (·.statement.span.location?))

/-- Group and order statements. -/
def ofStatements (c : RelationContext) (statements : List Realization) :
    Except ScheduleError Schedule := do
  let steps ← (Planned.ofStatements c statements).mapError .statement
  let groups := partition steps
  let edges := edges groups steps
  -- a group that waits for itself is reported before groups that wait for each other
  if let some (i, _) := edges.find? fun e => e.1 == e.2 then throw (cycle groups [i])
  let order := edges.foldl (fun g e => g.addEdge e.1 e.2) ⟨groups.length, []⟩
  if let some knot := order.knot? then throw (cycle groups knot)
  return ⟨groups.map Planned.group, order⟩

/-- The groups in layers, each after the groups it waits for. -/
def layers (s : Schedule) : Except Defect (List (List Nat)) :=
  s.order.layers.mapError .unscheduled

end Schedule

end CodeRules
