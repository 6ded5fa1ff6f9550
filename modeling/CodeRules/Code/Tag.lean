/-!
# Tags

The kinds of node that programs are made of, without their contents. Patterns are indexed by the
tag of their root and describe a node by as many slots as its tag has.
-/

namespace CodeRules

/-- What kind of declaration, statement or expression a node is. -/
inductive Tag where
  | classDecl | fieldDecl | methodDecl | param | annotationUse
  | block | exprStmt | returnStmt | localVar
  | literal | name | this | implicitReceiver | fieldAccess | assign | call | newObject | binary
deriving DecidableEq, Inhabited

namespace Tag

/-- Every tag, in order. -/
def all : List Tag :=
  [classDecl, fieldDecl, methodDecl, param, annotationUse, block, exprStmt, returnStmt, localVar,
    literal, name, this, implicitReceiver, fieldAccess, assign, call, newObject, binary]

/-- The number of slots that describe a node with this tag. -/
def slotCount : Tag → Nat
  | classDecl | fieldDecl => 5
  | methodDecl => 6
  | localVar | call | binary => 3
  | param | annotationUse | implicitReceiver | fieldAccess | assign | newObject => 2
  | block | exprStmt | returnStmt | literal | name => 1
  | this => 0

/-- What a node with this tag is called. -/
protected def toString : Tag → String
  | classDecl => "class"
  | fieldDecl => "field"
  | methodDecl => "method"
  | param => "param"
  | annotationUse => "annotation"
  | block => "block"
  | exprStmt => "expression statement"
  | returnStmt => "return"
  | localVar => "local variable"
  | literal => "literal"
  | name => "name"
  | this => "this"
  | implicitReceiver => "implicit receiver"
  | fieldAccess => "field access"
  | assign => "assignment"
  | call => "call"
  | newObject => "instance creation"
  | binary => "binary expression"

instance : ToString Tag := ⟨Tag.toString⟩

end Tag

end CodeRules
