import CodeRules.Binding.Bindings
import CodeRules.Relation.Signature

/-!
# Tuples

A tuple is a fact about entities: that they stand in the relation of a trait. It has one value for
each parameter of the trait, and remembers as its root the first node among them.

Tuples are ordered by trait, then by the shapes of their values, then by their places. The root
does not count.
-/

namespace CodeRules

/-- The node that a tuple is about. -/
structure TupleRoot where
  id : NodeId
  span : Span
deriving DecidableEq, Inhabited

/-- Why values make no tuple. -/
inductive TupleError where
  | missing (trait param : String)
  | unexpected (trait param : String)
  | arity (trait : String) (expected found : Nat)
deriving DecidableEq, Inhabited

namespace TupleError

/-- The message for a tuple error. -/
def message : TupleError → String
  | missing trait param => s!"parameter `{param}` of trait `{trait}` is unbound"
  | unexpected trait param => s!"trait `{trait}` has no parameter `{param}`"
  | arity trait expected found => s!"trait `{trait}` takes {expected} values, got {found}"

end TupleError

/-- A fact: values for all parameters of a trait, in the order of the parameters. -/
structure Tuple where
  signature : Signature
  values : List Entity
  root : Option TupleRoot
  complete : values.length = signature.arity

namespace Tuple

/-- The first node among some values. -/
def rootOf (values : List Entity) : Option TupleRoot :=
  (values.findSome? Entity.node?).map fun n => ⟨n.id, n.span⟩

/-- The tuple with values in the order of the parameters. -/
def ofValues (s : Signature) (values : List Entity) : Except TupleError Tuple :=
  if h : values.length = s.arity then .ok ⟨s, values, rootOf values, h⟩
  else .error (.arity s.name s.arity values.length)

/-- The tuple whose values `find?` gives by the names of the parameters. -/
def ofLookup (s : Signature) (find? : String → Option Entity) : Except TupleError Tuple := do
  let values ← s.paramNames.mapM fun name =>
    match find? name with
    | some e => .ok e
    | none => Except.error (TupleError.missing s.name name)
  ofValues s values

/-- The tuple with named values. There must be one for each parameter and no other. -/
def ofNamed (s : Signature) (values : NameMap Entity) : Except TupleError Tuple :=
  match values.keys.find? fun name => (s.param? name).isNone with
  | some extra => .error (.unexpected s.name extra)
  | none => ofLookup s values.find?

/-- The tuple whose values are bound to the parameters. -/
def ofBindings (s : Signature) (b : Bindings) : Except TupleError Tuple := ofLookup s b.find?

/-- The same tuple about another node. -/
def withRoot (t : Tuple) (root : Option TupleRoot) : Tuple := { t with root }

/-- The same values and root for another trait with as many parameters. -/
def retarget (t : Tuple) (s : Signature) : Except TupleError Tuple :=
  (ofValues s t.values).map (·.withRoot t.root)

/-- The values with the names of their parameters, in the order of the parameters. -/
def entries (t : Tuple) : List (String × Entity) := t.signature.paramNames.zip t.values

/-- The values by the names of their parameters. -/
def byName (t : Tuple) : NameMap Entity := Catalog.ofListLast t.entries

/-- The value of a parameter. -/
def get? (t : Tuple) (name : String) : Option Entity := t.byName.find? name

/-- Bindings of the parameters to their values. -/
def toBindings (t : Tuple) : Bindings :=
  t.byName.toList.foldl (fun b entry => b.bind entry.1 entry.2) .empty

/-- What tuples are compared by. -/
def shape (t : Tuple) : Shape :=
  .seq [.text t.signature.name, .seq (t.values.map Entity.shape),
    .seq (t.values.map fun e => Entity.idsShape e.locations)]

/-- The text of a tuple. -/
protected def toString (t : Tuple) : String :=
  let values := t.entries.map fun entry => entry.1 ++ " = " ++ toString entry.2
  t.signature.name ++ "(" ++ ", ".intercalate values ++ ")"

instance : ToString Tuple := ⟨Tuple.toString⟩

end Tuple

/-- A set of tuples. -/
abbrev TupleSet := Catalog Tuple.shape

end CodeRules
