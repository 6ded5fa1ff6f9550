/-!
# Written integers

An integer is written with at most one sign before its decimal digits, and must fit in 64 bits.
-/

namespace CodeRules.Text

/-- The number that decimal digits write; there must be one at least. -/
def digits? (cs : List Char) : Option Nat :=
  if !cs.isEmpty && cs.all Char.isDigit then
    some (cs.foldl (fun n c => 10 * n + (c.toNat - '0'.toNat)) 0)
  else none

/-- The integer that a text writes, whatever its size. -/
def signed? : List Char → Option Int
  -- a second sign is no digit, so it is refused
  | '-' :: cs => (digits? cs).map fun n => -(n : Int)
  | '+' :: cs => (digits? cs).map fun n => (n : Int)
  | cs => (digits? cs).map fun n => (n : Int)

/-- The 64-bit integer that a text writes. -/
def int64? (s : String) : Option Int :=
  (signed? s.toList).filter fun i => Int64.minValue.toInt ≤ i && i ≤ Int64.maxValue.toInt

end CodeRules.Text
