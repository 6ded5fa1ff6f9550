import CodeRules.Text.GraphemeExtend
import CodeRules.Text.Printable

/-!
# Quoted text

How string and character literals are written: between quotation marks, with a backslash before
what would end the literal and an escape for what would not show. Combining marks are escaped as
well, so that each escape or character stands for one character of the text.
-/

namespace CodeRules.Text

/-- The digits of `n` in base sixteen, in lower case. -/
def hexDigits (n : Nat) : String := String.ofList (Nat.toDigits 16 n)

/-- One character inside a literal that ends at `mark`. -/
def escapeChar (mark c : Char) : String :=
  if c = '\x00' then "\\0"
  else if c = '\t' then "\\t"
  else if c = '\r' then "\\r"
  else if c = '\n' then "\\n"
  else if c = '\\' then "\\\\"
  -- the other mark stands as it is
  else if c = mark then String.ofList ['\\', mark]
  else if isGraphemeExtend c || !isPrintable c then "\\u\x7b" ++ hexDigits c.toNat ++ "\x7d"
  else c.toString

/-- A string literal. -/
def quoteString (s : String) : String :=
  "\"" ++ String.join (s.toList.map (escapeChar '"')) ++ "\""

/-- A character literal. -/
def quoteChar (c : Char) : String := "'" ++ escapeChar '\'' c ++ "'"

end CodeRules.Text
