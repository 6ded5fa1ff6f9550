/-!
# Message templates

A template is text with placeholders, names between braces. `fill` puts values in their place;
a placeholder without a value stays as it is written, and so does a brace that is never closed.
What was put in is not looked at again.
-/

namespace CodeRules.Text

/-- The text of a placeholder. -/
def placeholder (value? : String → Option String) (name : List Char) : List Char :=
  match value? (String.ofList name) with
  | some value => value.toList
  | none => '\x7b' :: name ++ ['\x7d']

mutual

/-- Fill in the placeholders of a text. -/
def fillText (value? : String → Option String) : List Char → List Char
  | [] => []
  | c :: cs => if c = '\x7b' then fillName value? [] cs else c :: fillText value? cs

/-- Fill in a text that goes on inside a placeholder. `name` is what stands after the brace so far,
the last character first. -/
def fillName (value? : String → Option String) (name : List Char) : List Char → List Char
  | [] => '\x7b' :: name.reverse  -- never closed
  | c :: cs =>
    if c = '\x7d' then placeholder value? name.reverse ++ fillText value? cs
    else fillName value? (c :: name) cs

end

/-- A template with values in the place of its placeholders. -/
def fill (value? : String → Option String) (template : String) : String :=
  String.ofList (fillText value? template.toList)

end CodeRules.Text
