import CodeRules.Code.Provenance
import CodeRules.Code.Slots

/-!
# Copies

A copy of an entity is made of the same things, but all its nodes are new: they have numbers of
their own, lie in no file, and the arena knows what each was copied from.
-/

namespace CodeRules

/-- A node of the given kind with a new number. -/
def Arena.make (p : Provenance) (kind : NodeKind Node) : StateM Arena Node := do
  let i ← modifyGet (·.alloc p)
  return .make i .synthetic kind

/-- A copy of a tree. Children are copied before their parents, and receivers that were never
written are left out of the copy. -/
def Node.copy : Node → StateM Arena Node :=
  fold fun n k => do
    let kind ← k.mapM Prod.snd
    Arena.make { copiedFrom := some n.id } kind.written

namespace Entity

mutual

/-- A copy of an entity. -/
def copy : Entity → StateM Arena Entity
  | .node n => return .node (← n.copy)
  | .list items => return .list (← copyAll items)
  | e => return e

/-- Copies of several entities. -/
def copyAll : List Entity → StateM Arena (List Entity)
  | [] => return []
  | e :: es => return (← copy e) :: (← copyAll es)

end

end Entity

end CodeRules
