import CodeRules.Code.Entity

/-!
# Categories

Every entity belongs to a syntactic category, and some categories are part of others: fields and
methods are declarations, access specifiers are modifiers, and sets of modifiers are lists. A
variable that is declared with a category takes the entities whose category is assignable to it.
-/

namespace CodeRules

/-- A syntactic category of entities. -/
inductive Category where
  | any | expression | statement | field | method | type | modifierSet | modifier
  | accessSpecifier | annotationUse | declaration | signature
  /-- Names and other literal values. -/
  | value
  | list
deriving DecidableEq, Inhabited

namespace Category

/-- Every category, in order. -/
def all : List Category :=
  [any, expression, statement, field, method, type, modifierSet, modifier, accessSpecifier,
    annotationUse, declaration, signature, value, list]

/-- The name of a category. -/
def name : Category → String
  | any => "any"
  | expression => "expression"
  | statement => "statement"
  | field => "field"
  | method => "method"
  | type => "type"
  | modifierSet => "modifier-set"
  | modifier => "modifier"
  | accessSpecifier => "access-specifier"
  | annotationUse => "annotation"
  | declaration => "declaration"
  | signature => "signature"
  | value => "value"
  | list => "list"

/-- The names that rules may write for a category. -/
def aliases : Category → List String
  | expression => ["expr", "expression"]
  | statement => ["stmt", "statement"]
  | modifierSet => ["modifiers", "modifier-set"]
  | accessSpecifier => ["access", "access-specifier"]
  | declaration => ["decl", "declaration"]
  | value => ["value", "name", "identifier"]
  | c => [c.name]

/-- The category that rules write as `s`. -/
def ofName? (s : String) : Option Category := all.find? (·.aliases.contains s)

/-- The category of the nodes with a tag. -/
def ofTag : Tag → Category
  | .classDecl | .param => declaration
  | .fieldDecl => field
  | .methodDecl => method
  | .annotationUse => annotationUse
  | .block | .exprStmt | .returnStmt | .localVar => statement
  | .literal | .name | .this | .implicitReceiver | .fieldAccess | .assign | .call | .newObject
  | .binary => expression

/-- The most specific category of an entity. -/
def ofEntity : Entity → Category
  | .node n => ofTag n.tag
  | .type _ => type
  | .list items =>
    if items.all fun | .modifier _ => true | _ => false then modifierSet else list
  | .modifier m => if m.isAccess then accessSpecifier else modifier
  | .signature _ => signature
  | .value _ => value
  | .empty => any

/-- Whether every entity of the first category also belongs to the second. -/
def isAssignableTo (c target : Category) : Bool :=
  c == target || target == any ||
    match c, target with
    | field, declaration | method, declaration | accessSpecifier, modifier
    | modifierSet, list => true
    | _, _ => false

/-- Whether the entity belongs to the category. -/
def accepts (c : Category) (e : Entity) : Bool := (ofEntity e).isAssignableTo c

@[simp] theorem any_accepts (e : Entity) : any.accepts e = true := by
  simp [accepts, isAssignableTo]

end Category

/-- What is known about the types of a program. -/
structure TypeOracle where
  /-- The type of an entity. -/
  typeOf? : Entity → Option CodeType
  /-- Whether the first type is a subtype of the second. -/
  isSubtype : CodeType → CodeType → Bool

namespace Entity

/-- The type that an entity shows on its own, without looking up any name. -/
def intrinsicType? : Entity → Option CodeType
  | .node n => match n.kind with
    | .literal v => v.type?
    | .fieldDecl _ _ t _ _ | .localVar t _ _ | .param t _ | .methodDecl _ _ t _ _ _
    | .newObject t _ | .implicitReceiver t _ => some t
    | .classDecl s _ _ _ _ => some (.ofName s)
    | _ => none
  | _ => none

end Entity

namespace TypeOracle

/-- The oracle that knows no declaration: types are subtypes of themselves only. -/
def intrinsic : TypeOracle where
  typeOf? := Entity.intrinsicType?
  isSubtype t u := t == u

end TypeOracle

end CodeRules
