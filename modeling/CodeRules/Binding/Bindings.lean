import CodeRules.Code.Entity
import CodeRules.Order.Catalog
import CodeRules.Rule.TypeExpr

/-!
# Bindings

Bindings give entities to variables, and may hold a result: the entity that a pattern matched or
made. They also carry along which nodes were replaced by copies, which plays no part when bindings
are compared.

Two bindings can be merged when they agree on what both bind. `consistentMerge?` asks for the same
entities at the same places of the program, `unifyMerge?` for entities of the same shape.
-/

namespace CodeRules

/-- A node and the copy that takes its place. -/
structure Replacement where
  source : NodeId
  copy : NodeId
deriving DecidableEq, Inhabited

namespace Replacement

/-- The shape of a replacement. -/
def shape (r : Replacement) : Shape := .seq [.num r.source.word.toNat, .num r.copy.word.toNat]

end Replacement

/-- Entities for variables, and perhaps a result. -/
structure Bindings where
  vars : NameMap Entity := ∅
  result : Option Entity := none
  replacements : Catalog Replacement.shape := ∅
deriving Inhabited

namespace Bindings

/-- No variable and no result. -/
def empty : Bindings := {}

/-- Nothing but a result. -/
def ofResult (e : Entity) : Bindings := { result := some e }

/-- The entity of a variable. -/
def find? (b : Bindings) (name : String) : Option Entity := b.vars.find? name

/-- Whether a variable has an entity. -/
def binds (b : Bindings) (name : String) : Bool := (b.find? name).isSome

/-- The bound variables, in order. -/
def names (b : Bindings) : List String := b.vars.keys

/-- The number of bound variables. -/
def size (b : Bindings) : Nat := b.vars.size

/-- Whether there is neither a variable nor a result. -/
def isEmpty (b : Bindings) : Bool := b.vars.isEmpty && b.result.isNone

/-- Bind a variable. This fails when the variable has an entity of another shape, and leaves the
bindings as they are when it has one of the same shape. The wildcard is never bound. -/
def bind? (b : Bindings) (name : String) (e : Entity) : Option Bindings :=
  if name = wildcard then some b
  else match b.find? name with
    | some old => if old.sameShape e then some b else none
    | none => some { b with vars := b.vars.set name e }

/-- Bind a variable if possible. -/
def bind (b : Bindings) (name : String) (e : Entity) : Bindings := (b.bind? name e).getD b

/-- Set the result. This fails when there is a result of another shape. -/
def setResult? (b : Bindings) (e : Entity) : Option Bindings :=
  match b.result with
  | some old => if old.sameShape e then some b else none
  | none => some { b with result := some e }

/-- The same variables without a result. -/
def withoutResult (b : Bindings) : Bindings := { b with result := none }

/-- Note that a node was replaced by a copy. -/
def record (b : Bindings) (r : Replacement) : Bindings :=
  { b with replacements := b.replacements.insert r }

/-- Add a variable of the other side of a merge; it may be there already with an entity that
agrees. -/
def mergeVar? (agree : Entity → Entity → Bool) (vars : NameMap Entity) (entry : String × Entity) :
    Option (NameMap Entity) :=
  match vars.find? entry.1 with
  | some old => if agree old entry.2 then some vars else none
  | none => some (vars.set entry.1 entry.2)

/-- The result of a merge, when both sides agree on it. -/
def mergeResult? (agree : Entity → Entity → Bool) :
    Option Entity → Option Entity → Option (Option Entity)
  | some old, some new => if agree old new then some (some old) else none
  | some old, none => some (some old)
  | none, new => some new

/-- Merge the bindings of `small` into those of `large`. -/
def mergeInto? (agree : Entity → Entity → Bool) (large small : Bindings) : Option Bindings := do
  let vars ← small.vars.toList.foldlM (mergeVar? agree) large.vars
  let result ← mergeResult? agree large.result small.result
  return ⟨vars, result, large.replacements.union small.replacements⟩

/-- Merge two bindings, the one with fewer variables into the other. -/
def mergeWith? (agree : Entity → Entity → Bool) (a b : Bindings) : Option Bindings :=
  -- which way round decides whose places stay when the shapes agree
  if b.size ≤ a.size then mergeInto? agree a b else mergeInto? agree b a

/-- Merge bindings that agree on the entities, places included, of shared variables. -/
def consistentMerge? (a b : Bindings) : Option Bindings := mergeWith? Entity.aliases a b

/-- Merge bindings that agree on the shapes of shared variables. -/
def unifyMerge? (a b : Bindings) : Option Bindings := mergeWith? Entity.sameShape a b

/-- Forget some variables. -/
def erase (b : Bindings) (names : List String) : Bindings :=
  { b with vars := b.vars.filter fun entry => !names.contains entry.1 }

/-- Keep only some variables, and no result. -/
def restrict (b : Bindings) (names : List String) : Bindings :=
  { b with vars := b.vars.filter fun entry => names.contains entry.1, result := none }

/-- The bound entities in the order of their variables, and the result after them. -/
def entities (b : Bindings) : List Entity := b.vars.values ++ b.result.toList

/-- What bindings are compared by: the shapes of all that is bound, then its places. -/
def shape (b : Bindings) : Shape :=
  .seq [.seq (b.vars.toList.map fun entry => .seq [.text entry.1, entry.2.shape]),
    .opt (b.result.map Entity.shape),
    .seq (b.entities.map fun e => Entity.idsShape e.locations)]

/-- The text of bindings. -/
protected def toString (b : Bindings) : String :=
  let vars := b.vars.toList.map fun entry => entry.1 ++ " = " ++ toString entry.2
  let result := b.result.toList.map fun e => "=> " ++ toString e
  "\x7b" ++ ", ".intercalate (vars ++ result) ++ "\x7d"

instance : ToString Bindings := ⟨Bindings.toString⟩

end Bindings

/-- The message for a variable that has no entity. -/
def unboundMessage (name : String) : String := s!"variable `{name}` is not bound"

end CodeRules
