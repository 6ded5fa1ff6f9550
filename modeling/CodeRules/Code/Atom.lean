import CodeRules.Code.Type
import CodeRules.Text.Quoted

/-!
# Atoms of syntax

What syntax trees have at their leaves: modifiers, literals and names, operators, and the
signatures of methods.
-/

namespace CodeRules

/-- A modifier of a declaration. -/
inductive Modifier where
  | publicAccess | protectedAccess | privateAccess | static | final | abstract | synchronized
  | transient | volatile | native
deriving DecidableEq, Inhabited

namespace Modifier

/-- Every modifier, in canonical order. -/
def all : List Modifier :=
  [publicAccess, protectedAccess, privateAccess, static, final, abstract, synchronized, transient,
    volatile, native]

/-- The word for a modifier. -/
def name : Modifier → String
  | publicAccess => "public"
  | protectedAccess => "protected"
  | privateAccess => "private"
  | static => "static"
  | final => "final"
  | abstract => "abstract"
  | synchronized => "synchronized"
  | transient => "transient"
  | volatile => "volatile"
  | native => "native"

/-- The modifier that a word stands for. -/
def ofName? (s : String) : Option Modifier := all.find? (·.name == s)

/-- Whether the modifier is an access specifier. -/
def isAccess : Modifier → Bool
  | publicAccess | protectedAccess | privateAccess => true
  | _ => false

/-- The shape of a modifier: its place in the canonical order. -/
def shape (m : Modifier) : Shape := .num m.ctorIdx

/-- The modifiers in canonical order, repeated ones side by side. -/
def canonical (ms : List Modifier) : List Modifier := all.flatMap fun m => ms.filter (· == m)

end Modifier

/-- A name, or the value of a literal expression. -/
inductive Literal where
  /-- A name that a program declares or mentions. -/
  | name (s : String)
  | string (s : String)
  | int (n : Int)
  | bool (b : Bool)
  | char (c : Char)
  | null
deriving DecidableEq, Inhabited

namespace Literal

/-- The type of a literal expression; names and `null` have none. -/
def type? : Literal → Option CodeType
  | .string _ => some .string
  | .int _ => some (.primitive .int)
  | .bool _ => some (.primitive .boolean)
  | .char _ => some (.primitive .char)
  | .name _ | .null => none

/-- The text of a literal: names are bare, strings and characters quoted. -/
protected def toString : Literal → String
  | .name s => s
  | .string s => Text.quoteString s
  | .int n => toString n
  | .bool b => toString b
  | .char c => Text.quoteChar c
  | .null => "null"

instance : ToString Literal := ⟨Literal.toString⟩

/-- The shape of a literal. -/
def shape : Literal → Shape
  | .name s => .seq [.num 0, .text s]
  | .string s => .seq [.num 1, .text s]
  | .int n => .seq [.num 2, .num n]
  | .bool b => .seq [.num 3, .flag b]
  | .char c => .seq [.num 4, .num c.toNat]
  | .null => .seq [.num 5]

end Literal

/-- An operator between two expressions. -/
inductive Operator where
  | add | sub | mul | div | eq | ne | lt | gt | and | or
deriving DecidableEq, Inhabited

namespace Operator

/-- Every operator, in order. -/
def all : List Operator := [add, sub, mul, div, eq, ne, lt, gt, and, or]

/-- The symbol of an operator. -/
def symbol : Operator → String
  | add => "+"
  | sub => "-"
  | mul => "*"
  | div => "/"
  | eq => "=="
  | ne => "!="
  | lt => "<"
  | gt => ">"
  | and => "&&"
  | or => "||"

/-- The operator with a given symbol. -/
def ofSymbol? (s : String) : Option Operator := all.find? (·.symbol == s)

end Operator

/-- The name of a method and the types of its parameters. -/
structure MethodSignature where
  name : String
  params : List CodeType
deriving DecidableEq, Inhabited

namespace MethodSignature

/-- The text of a signature. -/
protected def toString (s : MethodSignature) : String :=
  s.name ++ "(" ++ ", ".intercalate (s.params.map toString) ++ ")"

instance : ToString MethodSignature := ⟨MethodSignature.toString⟩

/-- The shape of a signature. -/
def shape (s : MethodSignature) : Shape := .seq [.text s.name, .seq (s.params.map CodeType.shape)]

end MethodSignature

end CodeRules
