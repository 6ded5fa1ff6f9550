import CodeRules.Relation.Signature

/-!
# Fragments

A fragment is a pattern whose names have been looked up. It can be used in two directions: to
recognize an entity and say what its variables stand for, and to generate an entity from what its
variables stand for.
-/

namespace CodeRules

/-- A description of entities with typed variables. -/
inductive Fragment where
  /-- A node with a fragment for each slot. -/
  | node (tag : Tag) (slots : List Fragment)
  /-- A list with a fragment for each item. -/
  | ordered (items : List Fragment)
  /-- A modifier set. The access specifier goes to `access`, the other modifiers are paired with
  `fixed` in any order, and `rest` takes what is left. -/
  | unordered (access : Option Fragment) (fixed : List Fragment) (rest : Option Fragment)
  /-- Entities of the shape of a known one. -/
  | resolved (e : Entity)
  | var (name : String) (type : ParamType)
  | wildcard
  /-- The absence of an optional part. -/
  | empty
  /-- A field of a receiver. Unless `asTarget`, the targets of assignments are refused. -/
  | fieldAccess (receiver field : Fragment) (asTarget : Bool)
  /-- An assignment to a field. -/
  | fieldAssign (target value : Fragment)
deriving Inhabited

namespace Fragment

/-- Whether the fragment is for an absent part. -/
def isEmpty : Fragment → Bool
  | empty => true
  | _ => false

mutual

/-- All occurrences of variables, from left to right. -/
def occurrences : Fragment → List String
  | node _ slots => occurrencesAll slots
  | ordered items => occurrencesAll items
  | unordered access fixed rest =>
    occurrencesOpt access ++ occurrencesAll fixed ++ occurrencesOpt rest
  | var name _ => [name]
  | fieldAccess r f _ => r.occurrences ++ f.occurrences
  | fieldAssign t v => t.occurrences ++ v.occurrences
  | resolved _ | wildcard | empty => []

/-- The occurrences of variables in several fragments. -/
def occurrencesAll : List Fragment → List String
  | [] => []
  | f :: fs => f.occurrences ++ occurrencesAll fs

/-- The occurrences of variables in a fragment that may be missing. -/
def occurrencesOpt : Option Fragment → List String
  | none => []
  | some f => f.occurrences

end

/-- The variables, each once, in the order of their first occurrence. -/
def variableNames (f : Fragment) : List String := f.occurrences.eraseDups

mutual

/-- Whether the wildcard occurs. -/
def hasWildcard : Fragment → Bool
  | node _ slots => anyWildcard slots
  | ordered items => anyWildcard items
  | unordered access fixed rest => optWildcard access || anyWildcard fixed || optWildcard rest
  | wildcard => true
  | fieldAccess r f _ => r.hasWildcard || f.hasWildcard
  | fieldAssign t v => t.hasWildcard || v.hasWildcard
  | resolved _ | var .. | empty => false

/-- Whether the wildcard occurs in one of several fragments. -/
def anyWildcard : List Fragment → Bool
  | [] => false
  | f :: fs => f.hasWildcard || anyWildcard fs

/-- Whether the wildcard occurs in a fragment that may be missing. -/
def optWildcard : Option Fragment → Bool
  | none => false
  | some f => f.hasWildcard

end

mutual

/-- The text of a fragment. -/
protected def toString : Fragment → String
  | node tag slots => toString tag ++ "(" ++ ", ".intercalate (Fragment.toStrings slots) ++ ")"
  | ordered items => "[" ++ ", ".intercalate (Fragment.toStrings items) ++ "]"
  | unordered access fixed rest =>
    "\x7b" ++ " ".intercalate
      (Fragment.optStrings access ++ Fragment.toStrings fixed ++ Fragment.optStrings rest) ++ "\x7d"
  | resolved e => toString e
  | var name _ => "`" ++ name
  | wildcard => CodeRules.wildcard
  | empty => "<empty>"
  | fieldAccess r f _ => r.toString ++ "." ++ f.toString
  | fieldAssign t v => t.toString ++ " = " ++ v.toString

/-- The texts of several fragments. -/
protected def toStrings : List Fragment → List String
  | [] => []
  | f :: fs => f.toString :: Fragment.toStrings fs

/-- The text of a fragment, when it is there. -/
protected def optStrings : Option Fragment → List String
  | none => []
  | some f => [f.toString]

end

instance : ToString Fragment := ⟨Fragment.toString⟩

end Fragment

end CodeRules
