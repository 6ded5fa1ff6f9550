import CodeRules.Relation.Category

/-!
# Surroundings of nodes

Whether a fragment recognizes a node may depend on where the node stands: in which type, in a
static member or not, on the left of an assignment, as the bare name of a field.
-/

namespace CodeRules

/-- The member that a node stands in: its type, and whether it is static. -/
structure Enclosing where
  type : CodeType
  isStatic : Bool
deriving DecidableEq, Inhabited

/-- What is known about nodes and types around an entity. -/
structure Surroundings where
  /-- The member that a node stands in. -/
  enclosing? : NodeId → Option Enclosing
  /-- Whether the node is the left side of an assignment. -/
  isAssignmentTarget : NodeId → Bool
  /-- Whether the node is a bare name that refers to a field. -/
  isFieldReference : NodeId → Bool
  types : TypeOracle

namespace Surroundings

/-- The surroundings of entities that stand nowhere. -/
def none : Surroundings where
  enclosing? _ := .none
  isAssignmentTarget _ := false
  isFieldReference _ := false
  types := .intrinsic

/-- The surroundings that lists describe: the left sides of assignments, the bare names of fields,
and the members that nodes stand in, of which the last entry for a node counts. -/
def listed (targets fieldRefs : List NodeId) (members : List (NodeId × Enclosing)) :
    Surroundings where
  enclosing? i := members.reverse.lookup i
  isAssignmentTarget := targets.contains
  isFieldReference := fieldRefs.contains
  types := .intrinsic

/-- The receiver that `owner` has without writing it: a node with the number and span of the
owner, or nothing when the enclosing member is unknown. -/
def implicitReceiver (s : Surroundings) (owner : Node) : Entity :=
  match s.enclosing? owner.id with
  | some m => .node (.make owner.id owner.span (.implicitReceiver m.type m.isStatic))
  | .none => .empty

end Surroundings

end CodeRules
