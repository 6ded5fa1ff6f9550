import CodeRules.Diagnostic
import CodeRules.Relation.Tuple

/-!
# The store of relations

A relation is the set of tuples that a trait has so far. The store holds all relations of a table
by name: the built-in ones, the declared ones, and those given as arguments. Tuples are only ever
added.
-/

namespace CodeRules

/-- The tuples of a trait. -/
structure Relation where
  signature : Signature
  tuples : TupleSet := ∅
  isStatic : Bool := false
  /-- Whether the relation was given as an argument. -/
  isNested : Bool := false
deriving Inhabited

namespace Relation

/-- The name of the trait. -/
def name (r : Relation) : String := r.signature.name

/-- Whether a tuple is in the relation. -/
def contains (r : Relation) (t : Tuple) : Bool := Catalog.contains r.tuples t.shape

/-- Add a tuple unless there is an equal one. -/
def insert (r : Relation) (t : Tuple) : Relation := { r with tuples := Catalog.insert r.tuples t }

end Relation

/-- Relations by name. -/
abbrev Store := NameMap Relation

namespace Store

/-- Register a relation unless its name is taken. -/
def register (s : Store) (r : Relation) : Store := Catalog.insert s (r.name, r)

/-- Register a built-in relation unless its name is taken. -/
def registerBuiltin (s : Store) (signature : Signature) : Store :=
  s.register { signature, isStatic := true }

/-- Put a relation under its name, in place of what was there. -/
def put (s : Store) (r : Relation) : Store := s.set r.name r

/-- Add a tuple to a relation. The answer says whether it is new. -/
def add (s : Store) (name : String) (t : Tuple) : Except Defect (Bool × Store) :=
  match s.find? name with
  | none => .error (.unregisteredRelation name)
  | some r => .ok (!r.contains t, s.set name (r.insert t))

/-- Give a singleton its only tuple. -/
def addSingleton (s : Store) (t : Tuple) : Except Defect Store :=
  let name := t.signature.name
  match s.find? name with
  | none => .error (.unregisteredSingleton name)
  | some r =>
    if r.tuples.isEmpty then .ok (s.set name (r.insert t)) else .error (.singletonTwice name)

/-- The only tuple of a singleton. -/
def singleton (s : Store) (name : String) : Except Defect Tuple :=
  match s.find? name with
  | none => .error (.unregisteredSingleton name)
  | some r =>
    match r.tuples.toList with
    | [t] => .ok t
    | ts => .error (.singletonCount name ts.length)

/-- The number of tuples in all relations. -/
def size (s : Store) : Nat := s.values.foldl (fun n r => n + r.tuples.size) 0

/-- Add tuples to a built-in relation, which is registered if it is not there. -/
def seed (s : Store) (signature : Signature) (tuples : List Tuple) : Store :=
  s.update signature.name { signature, isStatic := true } fun r => tuples.foldl Relation.insert r

end Store

end CodeRules
