import CodeRules.Code.Entity

/-!
# Slots

Patterns describe every kind of node in one way, by a list of slots: entities in a fixed order, as
many as the tag of the node says. `NodeKind.slots` gives the slots of a kind and
`NodeKind.ofSlots` builds a kind from slots.

Building is lenient where parts are optional: an absent list is an empty list, and a receiver that
was never written counts as absent.
-/

namespace CodeRules

/-- What a slot can hold. -/
inductive SlotSort where
  | name | literal | type | optType | node | optNode | nodes | modifiers | boolean | operator
deriving DecidableEq, Inhabited

namespace SlotSort

/-- What a slot of this sort expects. -/
def expectation : SlotSort → String
  | name => "a name"
  | literal => "a literal"
  | type => "a type"
  | optType => "a type or nothing"
  | node => "a syntax node"
  | optNode => "a syntax node or nothing"
  | nodes => "a list of syntax nodes"
  | modifiers => "a modifier set"
  | boolean => "a boolean"
  | operator => "an operator"

end SlotSort

/-- Why slots do not make a node. -/
inductive SlotError where
  /-- The number of slots is not that of the tag. -/
  | count (tag : Tag) (found : Nat)
  /-- A slot holds an entity of the wrong sort. -/
  | kind (tag : Tag) (index : Nat) (expected : SlotSort) (found : Entity)

namespace SlotError

/-- The message for a slot error. -/
def message : SlotError → String
  | count tag found => s!"{tag} takes {tag.slotCount} slots, got {found}"
  | kind tag index expected found =>
    s!"slot {index} of {tag} expects {expected.expectation}, got `{found}`"

end SlotError

namespace Entity

/-- The entity for an optional tree. -/
def ofNode? : Option Node → Entity
  | none => .empty
  | some n => .node n

/-- The entity for a list of trees. -/
def ofNodes (ns : List Node) : Entity := .list (ns.map .node)

/-- The entity for a set of modifiers. -/
def ofModifiers (ms : List Modifier) : Entity := .list (ms.map .modifier)

end Entity

namespace NodeKind

/-- The slots of a kind. -/
def slots : NodeKind Node → List Entity
  | classDecl n ms as sup mem =>
    [.name n, .ofModifiers ms, .ofNodes as, (sup.map Entity.type).getD .empty, .ofNodes mem]
  | fieldDecl ms as t n init => [.ofModifiers ms, .ofNodes as, .type t, .name n, .ofNode? init]
  | methodDecl ms as t n ps body =>
    [.ofModifiers ms, .ofNodes as, .type t, .name n, .ofNodes ps, .ofNode? body]
  | param t n => [.type t, .name n]
  | annotationUse n args => [.name n, .ofNodes args]
  | block stmts => [.ofNodes stmts]
  | exprStmt e => [.node e]
  | returnStmt v => [.ofNode? v]
  | localVar t n init => [.type t, .name n, .ofNode? init]
  | literal v => [.value v]
  | name s => [.name s]
  | this => []
  | implicitReceiver t s => [.type t, .value (.bool s)]
  | fieldAccess r n => [.node r, .name n]
  | assign t v => [.node t, .node v]
  | call r n args => [.ofNode? r, .name n, .ofNodes args]
  | newObject t args => [.type t, .ofNodes args]
  | binary op l r => [.name op.symbol, .node l, .node r]

theorem length_slots (k : NodeKind Node) : k.slots.length = k.tag.slotCount := by
  cases k <;> rfl

/-- Whether the node is a receiver that was never written. -/
def isImplicitReceiver {α : Type} : NodeKind α → Bool
  | implicitReceiver .. => true
  | _ => false

/-- The same kind without the optional children that were never written. -/
def written : NodeKind Node → NodeKind Node
  | fieldDecl ms as t n init => fieldDecl ms as t n (init.filter (!·.kind.isImplicitReceiver))
  | methodDecl ms as t n ps body =>
    methodDecl ms as t n ps (body.filter (!·.kind.isImplicitReceiver))
  | returnStmt v => returnStmt (v.filter (!·.kind.isImplicitReceiver))
  | localVar t n init => localVar t n (init.filter (!·.kind.isImplicitReceiver))
  | call r n args => call (r.filter (!·.kind.isImplicitReceiver)) n args
  | k => k

/-- What is wrong with a slot: what was expected, and what was found. -/
abbrev SlotMismatch := SlotSort × Entity

/-- Read a name. -/
def readName : Entity → Except SlotMismatch String
  | .value (.name s) => .ok s
  | e => .error (.name, e)

/-- Read a literal. -/
def readLiteral : Entity → Except SlotMismatch Literal
  | .value v => .ok v
  | e => .error (.literal, e)

/-- Read a truth value. -/
def readBool (e : Entity) : Except SlotMismatch Bool := do
  match ← readLiteral e with
  | .bool b => .ok b
  | _ => .error (.boolean, e)

/-- Read an operator by its symbol. -/
def readOperator (e : Entity) : Except SlotMismatch Operator := do
  match Operator.ofSymbol? (← readName e) with
  | some op => .ok op
  | none => .error (.operator, e)

/-- Read a type. -/
def readType : Entity → Except SlotMismatch CodeType
  | .type t => .ok t
  | e => .error (.type, e)

/-- Read a type that may be absent. -/
def readOptType : Entity → Except SlotMismatch (Option CodeType)
  | .type t => .ok (some t)
  | .empty => .ok none
  | e => .error (.optType, e)

/-- Read a tree. -/
def readNode : Entity → Except SlotMismatch Node
  | .node n => .ok n
  | e => .error (.node, e)

/-- Read a tree that may be absent. An implicit receiver is one that was never written. -/
def readOptNode : Entity → Except SlotMismatch (Option Node)
  | .node n => .ok (if n.kind.isImplicitReceiver then none else some n)
  | .empty => .ok none
  | e => .error (.optNode, e)

/-- Read a list of trees; an absent list is empty. -/
def readNodes : Entity → Except SlotMismatch (List Node)
  | .list items => items.mapM fun
    | .node n => .ok n
    | e => .error (.nodes, e)
  | .empty => .ok []
  | e => .error (.nodes, e)

/-- Read a set of modifiers; absent items are skipped and an absent set is empty. -/
def readModifiers : Entity → Except SlotMismatch (List Modifier)
  | .list items => List.flatten <$> items.mapM fun
    | .modifier m => .ok [m]
    | .empty => .ok []
    | e => .error (.modifiers, e)
  | .empty => .ok []
  | e => .error (.modifiers, e)

/-- Report a mismatch as one of slot `i` of a node with the given tag. -/
def inSlot {α : Type} (tag : Tag) (i : Nat) (r : Except SlotMismatch α) : Except SlotError α :=
  r.mapError fun (expected, found) => .kind tag i expected found

/-- Build the kind with the given tag from its slots. The first slot that does not fit is
reported. -/
def ofSlots (tag : Tag) (slots : List Entity) : Except SlotError (NodeKind Node) :=
  match tag, slots with
  | .classDecl, [n, modifiers, annotations, superclass, members] => do
    let n ← inSlot tag 0 (readName n)
    let modifiers ← inSlot tag 1 (readModifiers modifiers)
    let annotations ← inSlot tag 2 (readNodes annotations)
    let superclass ← inSlot tag 3 (readOptType superclass)
    return .classDecl n modifiers annotations superclass (← inSlot tag 4 (readNodes members))
  | .fieldDecl, [modifiers, annotations, type, n, init] => do
    let modifiers ← inSlot tag 0 (readModifiers modifiers)
    let annotations ← inSlot tag 1 (readNodes annotations)
    let type ← inSlot tag 2 (readType type)
    let n ← inSlot tag 3 (readName n)
    return .fieldDecl modifiers annotations type n (← inSlot tag 4 (readOptNode init))
  | .methodDecl, [modifiers, annotations, result, n, params, body] => do
    let modifiers ← inSlot tag 0 (readModifiers modifiers)
    let annotations ← inSlot tag 1 (readNodes annotations)
    let result ← inSlot tag 2 (readType result)
    let n ← inSlot tag 3 (readName n)
    let params ← inSlot tag 4 (readNodes params)
    return .methodDecl modifiers annotations result n params
      (← inSlot tag 5 (readOptNode body))
  | .param, [type, n] => do
    let type ← inSlot tag 0 (readType type)
    return .param type (← inSlot tag 1 (readName n))
  | .annotationUse, [n, args] => do
    let n ← inSlot tag 0 (readName n)
    return .annotationUse n (← inSlot tag 1 (readNodes args))
  | .block, [stmts] => return .block (← inSlot tag 0 (readNodes stmts))
  | .exprStmt, [e] => return .exprStmt (← inSlot tag 0 (readNode e))
  | .returnStmt, [value] => return .returnStmt (← inSlot tag 0 (readOptNode value))
  | .localVar, [type, n, init] => do
    let type ← inSlot tag 0 (readType type)
    let n ← inSlot tag 1 (readName n)
    return .localVar type n (← inSlot tag 2 (readOptNode init))
  | .literal, [value] => return .literal (← inSlot tag 0 (readLiteral value))
  | .name, [n] => return .name (← inSlot tag 0 (readName n))
  | .this, [] => return .this
  | .implicitReceiver, [type, isStatic] => do
    let type ← inSlot tag 0 (readType type)
    return .implicitReceiver type (← inSlot tag 1 (readBool isStatic))
  | .fieldAccess, [receiver, field] => do
    let receiver ← inSlot tag 0 (readNode receiver)
    return .fieldAccess receiver (← inSlot tag 1 (readName field))
  | .assign, [target, value] => do
    let target ← inSlot tag 0 (readNode target)
    return .assign target (← inSlot tag 1 (readNode value))
  | .call, [receiver, method, args] => do
    let receiver ← inSlot tag 0 (readOptNode receiver)
    let method ← inSlot tag 1 (readName method)
    return .call receiver method (← inSlot tag 2 (readNodes args))
  | .newObject, [type, args] => do
    let type ← inSlot tag 0 (readType type)
    return .newObject type (← inSlot tag 1 (readNodes args))
  | .binary, [op, left, right] => do
    let op ← inSlot tag 0 (readOperator op)
    let left ← inSlot tag 1 (readNode left)
    return .binary op left (← inSlot tag 2 (readNode right))
  | _, _ => .error (.count tag slots.length)

end NodeKind

end CodeRules
