import CodeRules.Binding.Bindings
import CodeRules.Code.Copy
import CodeRules.Diagnostic
import CodeRules.Fragment.Basic

/-!
# Generating entities

`Fragment.generate` makes the entity that a fragment describes when its variables stand for given
entities. Every node of the result is new: nodes that the fragment spells out are made, and what
variables and known entities contribute is copied.
-/

namespace CodeRules

/-- Why an entity cannot be generated. -/
inductive GenerateError where
  | wildcard
  | unbound (name : String)
  /-- A variable stands for an entity that its type does not take. -/
  | typeMismatch (name : String) (value : Entity) (expected : ParamType)
  /-- A slot gets an entity of the wrong sort. -/
  | slot (tag : Tag) (e : SlotError)
  /-- The field of an access is no name. -/
  | fieldName (found : Entity)
  | defect (d : Defect)

namespace GenerateError

/-- The message for a failed generation. -/
def message : GenerateError → String
  | wildcard => "the wildcard `_` cannot stand where a value must be generated"
  | unbound name => unboundMessage name
  | typeMismatch name value expected =>
    s!"variable `{name}` is bound to `{value}`, which is not a {expected}"
  | slot tag e => s!"cannot build a {tag}: {e.message}"
  | fieldName found => s!"cannot build a {Tag.fieldAccess}: `{found}` is not a field name"
  | defect d => toString d

/-- The failure of the engine, reported at a place of the rules. -/
def failure (span : Span) (e : GenerateError) : Failure :=
  let user (fault : Fault) : Failure := .user [(Diagnostic.error fault e.message).atSpan span]
  match e with
  | wildcard => user .invalidWildcard
  | unbound _ => user .undefinedName
  | typeMismatch .. | slot .. | fieldName _ => user .typeMismatch
  | defect d => .defect d

end GenerateError

/-- What generating works on: the arena, and the copies made so far, each with its source. -/
structure Workshop where
  arena : Arena
  copies : List Replacement := []
deriving Inhabited

/-- A computation that generates entities. What was made before an error stays made. -/
abbrev Generating := ExceptT GenerateError (StateM Workshop)

namespace Generating

/-- A new node that is a copy of none. -/
def make (kind : NodeKind Node) : Generating Entity := do
  let (n, arena) := (Arena.make {} kind).run (← get).arena
  modify ({ · with arena })
  return .node n

/-- A copy of an entity, noted when it is a node. -/
def copy (e : Entity) : Generating Entity := do
  let (made, arena) := e.copy.run (← get).arena
  let noted := match e.nodeId?, made.nodeId? with
    | some source, some copy => [⟨source, copy⟩]
    | _, _ => []
  modify fun w => ⟨arena, w.copies ++ noted⟩
  return made

/-- A new node with the given slots. -/
def build (tag : Tag) (slots : List Entity) : Generating Entity :=
  match NodeKind.ofSlots tag slots with
  | .ok kind => make kind
  -- the number of slots was checked when the fragment was compiled
  | .error (.count tag found) =>
    throw (.defect (.generatedSlots (SlotError.message (.count tag found))))
  | .error e => throw (.slot tag e)

end Generating

namespace Entity

/-- The modifier that the entity is. -/
def modifier? : Entity → Option Modifier
  | .modifier m => some m
  | _ => none

/-- A set of items, some of them sets themselves. Absent items are left out, and modifiers are put
into canonical order. -/
def ofSetParts (parts : List Entity) : Entity :=
  let items := parts.flatMap fun
    | .empty => []
    | .list more => more
    | item => [item]
  match items.mapM modifier? with
  | some ms => .ofModifiers (Modifier.canonical ms)
  | none => .list items

/-- Whether the entity stands for a receiver that is not written. -/
def isUnwritten : Entity → Bool
  | .empty => true
  | .node n => n.kind.isImplicitReceiver
  | _ => false

end Entity

namespace Fragment

/-- A copy of what a variable stands for. -/
def generateVar (types : TypeOracle) (b : Bindings) (name : String) (type : ParamType) :
    Generating Entity :=
  match b.find? name with
  | none => throw (.unbound name)
  -- an absent part may be left out whatever the type of the variable
  | some .empty => Generating.copy .empty
  | some e => if type.accepts types e then Generating.copy e else throw (.typeMismatch name e type)

/-- A new access to a field; a field of a receiver that is not written is a bare name. -/
def generateAccess (receiver field : Entity) : Generating Entity :=
  match field with
  | .value (.name name) =>
    if receiver.isUnwritten then Generating.build .name [.name name]
    else Generating.build .fieldAccess [receiver, .name name]
  | other => throw (.fieldName other)

mutual

/-- The entity that the fragment describes when its variables stand for what `b` says. -/
def generate (types : TypeOracle) (b : Bindings) : Fragment → Generating Entity
  | wildcard => throw .wildcard
  | empty => return .empty
  | resolved e => Generating.copy e
  | var name type => generateVar types b name type
  | ordered items => return .list (← generateAll types b items)
  | unordered access fixed rest => do
    let first ← generateOpt types b access
    let middle ← generateAll types b fixed
    let last ← generateOpt types b rest
    return .ofSetParts (first ++ middle ++ last)
  | node tag slots => do Generating.build tag (← generateAll types b slots)
  | fieldAccess receiver field _ => do
    let owner ← generate types b receiver
    generateAccess owner (← generate types b field)
  | fieldAssign target value => do
    let left ← generate types b target
    let right ← generate types b value
    Generating.build .assign [left, right]

/-- The entities of several fragments. -/
def generateAll (types : TypeOracle) (b : Bindings) : List Fragment → Generating (List Entity)
  | [] => return []
  | f :: fs => return (← generate types b f) :: (← generateAll types b fs)

/-- The entity of a fragment, when it is there. -/
def generateOpt (types : TypeOracle) (b : Bindings) : Option Fragment → Generating (List Entity)
  | none => return []
  | some f => return [← generate types b f]

end

/-- Generate an entity, and extend the bindings by it and by the copies made for it. -/
def instantiate (types : TypeOracle) (b : Bindings) (f : Fragment) : Generating Bindings := do
  let before := (← get).copies.length
  let e ← f.generate types b
  -- only the copies that were made for this entity
  let made := (← get).copies.drop before
  return made.foldl Bindings.record { b with result := some e }

end Fragment

end CodeRules
