/-!
# Dotted names

Names may be qualified by what stands before a dot, as in `util.List` or `Person.name`. This
module cuts such a name at its first or last dot.
-/

namespace CodeRules.Text

/-- The parts before and after the first dot. -/
def splitFirstDot? (s : String) : Option (String × String) :=
  match s.toList.span (· ≠ '.') with
  | (_, []) => none
  | (before, _ :: after) => some (String.ofList before, String.ofList after)

/-- The parts before and after the last dot. -/
def splitLastDot? (s : String) : Option (String × String) :=
  match s.toList.reverse.span (· ≠ '.') with
  | (_, []) => none
  | (after, _ :: before) => some (String.ofList before.reverse, String.ofList after.reverse)

/-- The part after the last dot, the whole name when it has no dot. -/
def afterLastDot (s : String) : String :=
  match splitLastDot? s with
  | none => s
  | some (_, last) => last

end CodeRules.Text
