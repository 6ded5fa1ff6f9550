import CodeRules.Binding.Bindings
import CodeRules.Code.Slots
import CodeRules.Diagnostic
import CodeRules.Fragment.Basic
import CodeRules.Fragment.Surroundings

/-!
# Recognizing entities

`Fragment.recognize` finds out whether a fragment describes an entity, and what its variables stand
for. The parts of the fragment are recognized from left to right and their bindings merged by
shape, so a repeated variable stands for equal parts wherever these are.

Modifier sets are recognized in any order: the fixed fragments are paired with different items by
trying the items in turn.
-/

namespace CodeRules

/-- The outcome of recognizing: bindings, `none` when the entity is not described, or a defect when
the fragment is malformed. -/
abbrev Recognition := Except Defect (Option Bindings)

/-- Each item of a list with the items that remain when it is taken out. -/
def selections {α : Type} : List α → List (α × List α)
  | [] => []
  | a :: l => (a, l) :: (selections l).map fun (b, rest) => (b, a :: rest)

/-- The first success among attempts that are made in turn; a defect ends them. -/
def firstSuccess {α : Type} (attempt : α → Recognition) : List α → Recognition
  | [] => .ok none
  | a :: l => do
    match ← attempt a with
    | some b => return some b
    | none => firstSuccess attempt l

namespace Bindings

/-- Join the outcome of recognizing a part to the bindings of the parts before it. -/
def joinPart (b : Bindings) (part : Option Bindings) : Option Bindings :=
  part.bind fun p => b.unifyMerge? p.withoutResult

end Bindings

namespace Entity

/-- The items of a list, where an absent list is empty. -/
def items? : Entity → Option (List Entity)
  | .list items => some items
  | .empty => some []
  | _ => none

/-- Whether the entity is an access specifier. -/
def isAccessSpecifier : Entity → Bool
  | .modifier m => m.isAccess
  | _ => false

end Entity

namespace Fragment

/-- A variable stands for the entities that its type takes. -/
def recognizeVar (types : TypeOracle) (name : String) (type : ParamType) (e : Entity) :
    Option Bindings :=
  if type.accepts types e then some ((Bindings.ofResult e).bind name e) else none

/-- What takes the items that are left of a modifier set. A variable takes one item, or stands for
nothing when none is left. -/
def recognizeRest (types : TypeOracle) (rest : Option Fragment) (left : List Entity)
    (b : Bindings) : Recognition :=
  match rest, left with
  | none, [] => .ok (some b)
  | none, _ => .ok none
  | some wildcard, _ => .ok (some b)
  | some (var name _), [] => .ok (b.bind? name .empty)
  | some (var name type), [e] => .ok (b.joinPart (recognizeVar types name type e))
  | some (var ..), _ => .ok none
  | some other, _ => .error (.modifierRemainder (toString other))

/-- The slots of a call as a fragment sees them: a receiver that was not written is made explicit
when the fragment asks for one. -/
def callSlots (s : Surroundings) (n : Node) (slots : List Fragment) : List Entity :=
  match slots, n.kind.slots with
  | f :: _, .empty :: values =>
    (if n.tag = .call ∧ !f.isEmpty then s.implicitReceiver n else .empty) :: values
  | _, values => values

/-- The receiver and name of a field that a node reads. The bare name of a field has an implicit
receiver. -/
def fieldParts? (s : Surroundings) (n : Node) : Option (Entity × Entity) :=
  match n.kind with
  | .fieldAccess receiver name => some (.node receiver, .name name)
  | .name name => if s.isFieldReference n.id then some (s.implicitReceiver n, .name name) else none
  | _ => none

mutual

/-- Whether the fragment describes the entity, and what its variables stand for. -/
def recognize (s : Surroundings) : Fragment → Entity → Recognition
  | wildcard, e => .ok (some (.ofResult e))
  | var name type, e => .ok (recognizeVar s.types name type e)
  | resolved known, e => .ok (if known.sameShape e then some (.ofResult e) else none)
  | empty, .empty => .ok (some (.ofResult .empty))
  | empty, _ => .ok none
  | ordered items, e =>
    match e.items? with
    | none => .ok none
    | some values =>
      if values.length = items.length then recognizeAll s items values (.ofResult e) else .ok none
  | unordered access fixed rest, e =>
    match e.items? with
    | none => .ok none
    | some items =>
      let specifiers := items.filter Entity.isAccessSpecifier
      let others := items.filter (!·.isAccessSpecifier)
      -- two access specifiers cannot be paired with one slot
      if specifiers.length > 1 then .ok none
      else do
        match ← recognizeAccess s access (specifiers.head?.getD .empty) (.ofResult e) with
        | none => .ok none
        | some b => recognizeSet s fixed rest others b
  | node tag slots, e =>
    if slots.length ≠ tag.slotCount then
      .error (.fragmentSlots (toString tag) slots.length tag.slotCount)
    else match e.node? with
      | none => .ok none
      | some n =>
        match tag, n.kind with
        -- inside an instance member an unwritten receiver is `this`
        | .this, .implicitReceiver _ false => .ok (some (.ofResult e))
        | _, _ =>
          if n.tag = tag then recognizeAll s slots (callSlots s n slots) (.ofResult e)
          else .ok none
  | fieldAccess receiver field asTarget, e =>
    match e.node? with
    | none => .ok none
    | some n =>
      if !asTarget && s.isAssignmentTarget n.id then .ok none
      else match fieldParts? s n with
        | none => .ok none
        | some (owner, name) => do
          match (Bindings.ofResult e).joinPart (← recognize s receiver owner) with
          | none => .ok none
          | some b => return b.joinPart (← recognize s field name)
  | fieldAssign target value, e =>
    match e.node?.map Node.kind with
    | some (.assign left right) => do
      match (Bindings.ofResult e).joinPart (← recognize s target (.node left)) with
      | none => .ok none
      | some b => return b.joinPart (← recognize s value (.node right))
    | _ => .ok none

/-- Recognize entities by fragments in order and join what is found to `b`. -/
def recognizeAll (s : Surroundings) : List Fragment → List Entity → Bindings → Recognition
  | f :: fs, e :: es, b => do
    match b.joinPart (← recognize s f e) with
    | none => .ok none
    | some b => recognizeAll s fs es b
  | _, _, b => .ok (some b)

/-- Recognize the access specifier of a modifier set, or its absence. A variable stands for nothing
when there is none. -/
def recognizeAccess (s : Surroundings) : Option Fragment → Entity → Bindings → Recognition
  | none, _, b => .ok (some b)
  | some (var name _), .empty, b => .ok (b.joinPart (some (Bindings.empty.bind name .empty)))
  | some f, e, b => return b.joinPart (← recognize s f e)

/-- Pair the fixed fragments of a modifier set with different items, and give the items that are
left to `rest`. -/
def recognizeSet (s : Surroundings) : List Fragment → Option Fragment → List Entity → Bindings →
    Recognition
  | [], rest, items, b => recognizeRest s.types rest items b
  | f :: fs, rest, items, b =>
    firstSuccess (fun (e, others) => do
      match b.joinPart (← recognize s f e) with
      | none => .ok none
      | some b => recognizeSet s fs rest others b) (selections items)

end

end Fragment

end CodeRules
