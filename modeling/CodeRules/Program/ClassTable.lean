import CodeRules.Code.Node
import CodeRules.Order.Catalog

/-!
# Classes by name

The classes of a program are found by their full or simple names, and inherit the members of their
superclasses as far as these belong to the program. `ClassTable.chain` lists a class and its
superclasses; it ends where a class would come up again, so inheritance may be cyclic.
-/

namespace CodeRules

namespace Node

/-- The type that a class declares. -/
def declares (n : Node) : CodeType := .ofName (n.name?.getD "")

end Node

/-- The classes of a program. -/
abbrev ClassTable := NameMap Node

namespace ClassTable

/-- The table of some classes; of classes with one name the last counts. Other nodes are ignored. -/
def ofNodes (nodes : List Node) : ClassTable :=
  nodes.foldl (fun table n =>
    match n.kind with
    | .classDecl name .. => table.set name n
    | _ => table) ∅

/-- The class with a full or simple name. -/
def class? (t : ClassTable) (name : String) : Option Node :=
  t.find? name <|> t.find? (Text.afterLastDot name)

/-- The superclass of a class, if it belongs to the program. -/
def superclass? (t : ClassTable) (n : Node) : Option Node :=
  match n.kind with
  | .classDecl _ _ _ (some sup) _ => t.class? sup.baseName
  | _ => none

/-- The classes from `current` upwards that are not among those seen. -/
def chainFrom (t : ClassTable) : Nat → List NodeId → Option Node → List Node
  | steps + 1, seen, some n =>
    -- inheritance may run in a circle
    if seen.contains n.id then [] else n :: t.chainFrom steps (n.id :: seen) (t.superclass? n)
  | _, _, _ => []

/-- The class with a name and its superclasses, nearest first. -/
def chain (t : ClassTable) (name : String) : List Node :=
  t.chainFrom t.size [] (t.class? name)

/-- The members of a type, inherited ones after its own. -/
def members (t : ClassTable) (type : CodeType) : List Node :=
  (t.chain type.baseName).flatMap (·.kind.members)

/-- The field of a type with a given name. -/
def field? (t : ClassTable) (type : CodeType) (name : String) : Option Node :=
  (t.members type).find? fun m => m.tag == .fieldDecl && m.name? == some name

/-- The method of a type with a given name and number of parameters. -/
def method? (t : ClassTable) (type : CodeType) (name : String) (arity : Nat) : Option Node :=
  (t.members type).find? fun m =>
    match m.kind with
    | .methodDecl _ _ _ found params _ => found == name && params.length == arity
    | _ => false

/-- Whether a type is another type or inherits from it. Everything is a subtype of `Object`. -/
def isSubtype (t : ClassTable) (sub sup : CodeType) : Bool :=
  sub == sup || sup.simpleName? == some "Object" ||
    (t.chain sub.baseName).any fun n =>
      n.name? == some sup.baseName || (sup.simpleName?.isSome && n.name? == sup.simpleName?)

end ClassTable

end CodeRules
