import CodeRules.Code.Node

/-!
# The text of a tree

Trees are written on one line in the syntax of the programs they come from.
-/

namespace CodeRules

namespace NodeKind

/-- What stands before a declaration: its annotations, then its modifiers. -/
private def heading (annotations : List String) (modifiers : List Modifier) : String :=
  String.join ((annotations ++ modifiers.map Modifier.name).map (· ++ " "))

/-- The initial value of a variable. -/
private def initializer : Option String → String
  | none => ""
  | some init => " = " ++ init

/-- Texts between braces. -/
private def braces (items : List String) : String := "\x7b " ++ " ".intercalate items ++ " \x7d"

/-- Texts between parentheses. -/
private def parens (items : List String) : String := "(" ++ ", ".intercalate items ++ ")"

/-- The text of a kind whose children are given by their texts. -/
def text : NodeKind String → String
  | classDecl n ms as sup mem =>
    let extension := match sup with
      | none => ""
      | some t => " extends " ++ toString t
    heading as ms ++ "class " ++ n ++ extension ++ " " ++ braces mem
  | fieldDecl ms as t n init => heading as ms ++ toString t ++ " " ++ n ++ initializer init ++ ";"
  | methodDecl ms as t n ps body =>
    let rest := match body with
      | none => ";"
      | some b => " " ++ b
    heading as ms ++ toString t ++ " " ++ n ++ parens ps ++ rest
  | param t n => toString t ++ " " ++ n
  | annotationUse n [] => "@" ++ n
  | annotationUse n args => "@" ++ n ++ parens args
  | block [] => "\x7b \x7d"
  | block stmts => braces stmts
  | exprStmt e => e ++ ";"
  | returnStmt none => "return;"
  | returnStmt (some v) => "return " ++ v ++ ";"
  | localVar t n init => toString t ++ " " ++ n ++ initializer init ++ ";"
  | literal v => toString v
  | name s => s
  | this => "this"
  | implicitReceiver t true => toString t
  | implicitReceiver _ false => "this"
  | fieldAccess r n => r ++ "." ++ n
  | assign t v => t ++ " = " ++ v
  | call none n args => n ++ parens args
  | call (some r) n args => r ++ "." ++ n ++ parens args
  | newObject t args => "new " ++ toString t ++ parens args
  | binary op l r => l ++ " " ++ op.symbol ++ " " ++ r

end NodeKind

namespace Node

/-- The text of a tree. -/
protected def toString : Node → String := fold fun _ k => (k.map Prod.snd).text

instance : ToString Node := ⟨Node.toString⟩

end Node

end CodeRules
