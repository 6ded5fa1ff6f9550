import CodeRules.Program.ClassTable

/-!
# What bodies say about names and types

The initial values of fields and the bodies of methods are walked with the local variables in
scope. The walk finds the types of expressions, which bare names refer to fields, which nodes are
assigned to, and which methods calls go to.

A local variable is in scope from its declaration to the end of its block, and hides fields.
-/

namespace CodeRules

/-- What was found in bodies. -/
structure BodyFacts where
  types : Dict NodeId CodeType := ∅
  /-- The fields that bare names refer to. -/
  fieldRefs : Dict NodeId NodeId := ∅
  assignmentTargets : Catalog (id : NodeId → NodeId) := ∅
  /-- The methods that calls go to. -/
  callTargets : Dict NodeId NodeId := ∅
deriving Inhabited

/-- The local variables in scope, newest first, and what was found so far. -/
structure Walk where
  locals : List (String × CodeType)
  facts : BodyFacts
deriving Inhabited

namespace Inference

/-- The part of the walk below a node; it gives the type of an expression, if it has one. -/
abbrev Typing := StateM Walk (Option CodeType)

/-- Add to what was found. -/
def note (f : BodyFacts → BodyFacts) : StateM Walk Unit :=
  modify fun w => { w with facts := f w.facts }

/-- The walk over some nodes whose types do not matter. -/
def all (parts : List Typing) : StateM Walk Unit := parts.forM fun t => discard t

/-- The type of a bare name: that of a local variable, or else of a field of the class. -/
def name (table : ClassTable) (owner : CodeType) (id : NodeId) (s : String) : Typing := do
  match (← get).locals.find? (·.1 == s) with
  | some (_, t) => return some t
  | none =>
    match table.field? owner s with
    | none => return none
    | some f =>
      note fun facts => { facts with fieldRefs := facts.fieldRefs.set id f.id }
      return f.kind.declaredType?

/-- The type of a call on a receiver of type `receiver`. -/
def call (table : ClassTable) (id : NodeId) (receiver : CodeType) (method : String) (arity : Nat) :
    Typing := do
  match table.method? receiver method arity with
  | none => return none
  | some m =>
    note fun facts => { facts with callTargets := facts.callTargets.set id m.id }
    return m.kind.declaredType?

/-- The type of an operation on operands of the given types. -/
def operation (op : Operator) (left right : Option CodeType) : Option CodeType :=
  match op with
  | .eq | .ne | .lt | .gt | .and | .or => some (.primitive .boolean)
  | .add => if left == some .string || right == some .string then some .string else left
  | .sub | .mul | .div => left

/-- The walk over a node, given the walks over its children. -/
def kind (table : ClassTable) (owner : CodeType) (n : Node) : NodeKind (Node × Typing) → Typing
  | .literal v => return v.type?
  | .name s => name table owner n.id s
  | .this => return some owner
  | .implicitReceiver t _ => return some t
  | .fieldAccess (_, receiver) f => do
    match ← receiver with
    | none => return none
    | some t => return (table.field? t f).bind (·.kind.declaredType?)
  | .assign (target, left) (_, right) => do
    note fun facts => { facts with assignmentTargets := facts.assignmentTargets.insert target.id }
    -- the value is walked before the target, whose type is that of the assignment
    discard right
    left
  | .call receiver method args => do
    all (args.map Prod.snd)
    -- without a receiver the method is one of the class itself
    match receiver with
    | none => call table n.id owner method args.length
    | some (_, r) =>
      match ← r with
      | none => return none
      | some t => call table n.id t method args.length
  | .newObject t args => do
    all (args.map Prod.snd)
    return some t
  | .binary op (_, left) (_, right) => do
    let l ← left
    let r ← right
    return operation op l r
  | .block stmts => do
    let outer := (← get).locals
    all (stmts.map Prod.snd)
    -- the variables of the block go out of scope
    modify fun w => { w with locals := outer }
    return none
  | .exprStmt (_, e) => do
    discard e
    return none
  | .returnStmt v => do
    all (v.toList.map Prod.snd)
    return none
  | .localVar t s init => do
    -- the variable is not in scope in its own initial value
    all (init.toList.map Prod.snd)
    modify fun w => { w with locals := (s, t) :: w.locals }
    return none
  | .classDecl .. | .fieldDecl .. | .methodDecl .. | .param .. | .annotationUse .. => return none

/-- The walk over a tree. The type of each expression that has one is noted. -/
def node (table : ClassTable) (owner : CodeType) : Node → Typing :=
  Node.fold fun n k => do
    let type ← kind table owner n k
    if let some t := type then
      note fun facts => { facts with types := facts.types.set n.id t }
    return type

/-- The variables that the parameters of a method bring into scope, newest first. -/
def parameters (params : List Node) : List (String × CodeType) :=
  (params.filterMap fun p =>
    match p.kind with
    | .param t s => some (s, t)
    | _ => none).reverse

/-- Walk over a member of a class. -/
def member (table : ClassTable) (owner : CodeType) (facts : BodyFacts) (m : Node) : BodyFacts :=
  let walk (locals : List (String × CodeType)) (n : Node) : BodyFacts :=
    ((node table owner n).run ⟨locals, facts⟩).2.facts
  match m.kind with
  | .fieldDecl _ _ _ _ (some init) => walk [] init
  | .methodDecl _ _ _ _ params (some body) => walk (parameters params) body
  | _ => facts

end Inference

namespace BodyFacts

/-- What the bodies of all classes say. -/
def ofClasses (table : ClassTable) : BodyFacts :=
  table.values.foldl (fun facts c =>
    c.kind.members.foldl (Inference.member table c.declares) facts) {}

end BodyFacts

end CodeRules
