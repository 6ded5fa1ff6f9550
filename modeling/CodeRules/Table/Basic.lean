import CodeRules.Goal.World
import CodeRules.Statement.Realization
import CodeRules.Table.Trace
import CodeRules.Text.Template

/-!
# Tables

A table is one option with its arguments: the relations that its statements fill, the entities that
arguments and singletons give to variables, and what local statements made.
-/

namespace CodeRules

/-- An entity that a local statement made. -/
structure Generated where
  relation : String
  param : String
  entity : Entity
  /-- The type that the entity is meant to become a part of. -/
  host : Option CodeType
  /-- The node that the entity is a copy of. -/
  replaces : Option NodeId
deriving Inhabited

/-- The guards of a trait. -/
structure TraitGuard where
  relation : String
  requires : List Require
deriving Inhabited

/-- An option with its arguments, and what is known about its relations so far. -/
structure Table where
  option : String
  interface : String
  span : Span
  program : Program
  settings : Settings
  arena : Arena
  trace : Trace
  store : Store := ∅
  /-- The entities of parameters and of the variables of solved singletons. -/
  globals : Bindings := .empty
  /-- The entities that local statements made, for patterns to find. -/
  overlay : List Entity := []
  generated : List Generated := []
  statements : List Realization := []
  guards : List TraitGuard := []
  /-- The singleton that binds a variable. -/
  singletonOf : NameMap String := ∅
  /-- The relations that were given as arguments. -/
  nested : NameSet := ∅
  solved : Bool := false

namespace Table

/-- What the goals of the table are solved against. -/
def world (t : Table) : World := ⟨t.program, t.store, t.overlay⟩

/-- What the mentions of statements refer to when some relations are complete. -/
def context (t : Table) (complete : NameSet) : RelationContext where
  signatures := Catalog.ofListLast (t.store.values.map fun r => (r.name, r.signature))
  complete
  singletonOf := t.singletonOf

/-- The relation of a name. -/
def relation? (t : Table) (name : String) : Option Relation := t.store.find? name

/-- The entity that a parameter or a variable of a singleton stands for. -/
def entity? (t : Table) (name : String) : Option Entity := t.globals.find? name

/-- The entity that a parameter or variable stands for, or a diagnostic when it has none. -/
def requireEntity (t : Table) (name : String) : Except Diagnostic Entity :=
  match t.entity? name with
  | some e => .ok e
  | none => .error ((Diagnostic.error .undefinedName (unboundMessage name)).atSpan t.span)

/-- The type that a made node is meant for, or the type that the program gives to a node. -/
def typeBinding? (t : Table) (n : Node) : Option CodeType :=
  (t.arena.get? n.id).bind Provenance.declaringType <|> t.program.typeOf? (.node n)

/-- Add a step to the trace. -/
def record (t : Table) (action : TraceAction) (relation detail : String) : Table :=
  { t with trace := t.trace.record action relation detail }

end Table

namespace Bindings

/-- A message about bound entities: declarations go by their names. -/
def fillTemplate (b : Bindings) (template : String) : String :=
  Text.fill (fun name => (b.find? name).map fun e => ((e.node?.bind Node.name?).getD (toString e)))
    template

end Bindings

end CodeRules
