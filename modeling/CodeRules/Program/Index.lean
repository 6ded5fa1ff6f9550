import CodeRules.Fragment.Surroundings
import CodeRules.Program.Inference
import CodeRules.Relation.Tuple

/-!
# Indexed programs

`Program.ofClasses` indexes the classes of a program: its nodes by number, what stands where, what
the bodies say about types, and the built-in relations between all these.

When numbers are repeated, the node that is met last has the number.
-/

namespace CodeRules

/-- A relation that holds of a program without any rule. -/
structure BuiltinRelation where
  signature : Signature
  tuples : List Tuple

/-- A program with all that is known about it. -/
structure Program where
  classes : ClassTable
  nodes : Dict NodeId Node
  parents : Dict NodeId NodeId
  enclosing : Dict NodeId Enclosing
  /-- The types that declare members. -/
  declaring : Dict NodeId CodeType
  facts : BodyFacts
  /-- Everything that patterns may be tried on. -/
  entities : List Entity
  /-- The first number that is free for made nodes. -/
  idBase : UInt32

namespace Program

/-- The dictionary of some entries, the last of each key. -/
private def dict {ν : Type} (entries : List (NodeId × ν)) : Dict NodeId ν :=
  Catalog.ofListLast entries

/-- Where the nodes of a class stand. Annotations of the class count as standing in an instance
member. -/
def enclosingOf (c : Node) : List (NodeId × Enclosing) :=
  c.kind.annotations.map (fun a => (a.id, ⟨c.declares, false⟩)) ++
    c.kind.members.flatMap fun m => m.preorder.map fun n => (n.id, ⟨c.declares, m.isStatic⟩)

/-- The types that a class declares and mentions in declarations. -/
def typesOf (c : Node) : List CodeType :=
  c.declares :: c.preorder.filterMap (·.kind.declaredType?)

/-- All entities of some classes: nodes, then types, then signatures. -/
def entitiesOf (classes : List Node) : List Entity :=
  let types : Catalog CodeType.shape := Catalog.ofListFirst (classes.flatMap typesOf)
  let signatures : Catalog MethodSignature.shape :=
    Catalog.ofListFirst (classes.flatMap fun c => c.preorder.filterMap Node.signature?)
  (classes.flatMap Node.preorder).map .node ++ types.toList.map .type ++
    signatures.toList.map .signature

/-- The program with the given classes. -/
def ofClasses (given : List Node) : Program :=
  let table := ClassTable.ofNodes given
  let classes := table.values
  let nodes := dict (classes.flatMap fun c => c.preorder.map fun n => (n.id, n))
  { classes := table
    nodes
    parents := dict (classes.flatMap fun c => c.edges.map fun (n, p) => (n.id, p.id))
    enclosing := dict (classes.flatMap enclosingOf)
    declaring := dict (classes.flatMap fun c => c.kind.members.map fun m => (m.id, c.declares))
    facts := BodyFacts.ofClasses table
    entities := entitiesOf classes
    idBase := match nodes.keys.getLast? with
      | none => 0
      | some i => i.word + 1 }  -- keys are in order, so `i` is the largest

/-- Keep the numbers below `base` free as well. -/
def withIdBase (p : Program) (base : UInt32) : Program := { p with idBase := max p.idBase base }

/-- The node with a number. -/
def node? (p : Program) (i : NodeId) : Option Node := p.nodes.find? i

/-- The parent of a node. -/
def parent? (p : Program) (i : NodeId) : Option Node := p.parents.find? i >>= p.node?

/-- The type that declares a member. -/
def declaringType? (p : Program) (member : NodeId) : Option CodeType := p.declaring.find? member

/-- The entities of a category. -/
def collection (p : Program) (c : Category) : List Entity := p.entities.filter c.accepts

/-- The entities that may match a pattern: the nodes with the tag of its root, or else the entities
of a category. -/
def candidates (p : Program) (c : Category) : Option Tag → List Entity
  | none => p.collection c
  | some tag => p.entities.filter fun
    | .node n => n.tag == tag
    | _ => false

/-- The class with a full or simple name. -/
def findDeclaration? (p : Program) (name : String) : Option Node := p.classes.class? name

/-- The class that declares a type. -/
def declarationOf? (p : Program) : CodeType → Option Node
  | .named name _ => p.classes.class? name
  | _ => none

/-- The fields and methods with a name, which may be qualified by that of their class. -/
def findMembers (p : Program) (name : String) : List Node :=
  let (owner, member) := match Text.splitLastDot? name with
    | some (owner, member) => (some owner, member)
    | none => (none, name)
  let owners := p.classes.values.filter fun c =>
    match owner with
    | none => true
    | some o => (p.classes.class? o).any (·.id == c.id)
  -- members only: parameters and local variables are not found by name
  (owners.flatMap (·.kind.members)).filter fun m =>
    (m.tag == .fieldDecl || m.tag == .methodDecl) && m.name? == some member

/-- The type of an entity. A node that is not the one indexed under its number shows only its own
type. -/
def typeOf? (p : Program) : Entity → Option CodeType
  | .type t => some t
  | .node n =>
    let inferred := if (p.node? n.id).any fun known => known.shape = n.shape then
      p.facts.types.find? n.id else none
    inferred <|> (Entity.node n).intrinsicType?
  | _ => none

/-- What the program says about types. -/
def types (p : Program) : TypeOracle where
  typeOf? := p.typeOf?
  isSubtype := p.classes.isSubtype

/-- What the program says about the places of nodes. -/
def surroundings (p : Program) : Surroundings where
  enclosing? := p.enclosing.find?
  isAssignmentTarget i := p.facts.assignmentTargets.contains i
  isFieldReference i := (p.facts.fieldRefs.find? i).isSome
  types := p.types

end Program

end CodeRules
