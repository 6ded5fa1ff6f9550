import CodeRules.Diagnostic
import CodeRules.Fragment.Basic
import CodeRules.Fragment.Scope
import CodeRules.Rule.Pattern

/-!
# From patterns to fragments

`Pattern.compile` looks up the names of a pattern in a scope. A name that stands for an entity
becomes that entity, any other a variable. Accesses to fields and assignments to fields get
fragments of their own, and modifier sets are sorted into access specifier, fixed part and
remainder.
-/

namespace CodeRules

/-- Why a pattern makes no fragment. -/
inductive CompileError where
  /-- An access slot stands outside a modifier set. -/
  | accessOutsideSet (span : Span)
  /-- A modifier set says twice which access specifier it has. -/
  | repeatedAccess (span : Span)
  /-- A modifier set has two variables for what is left. -/
  | repeatedRemainder (span : Span)
  /-- A node has the wrong number of slots. -/
  | arity (span : Span) (tag : Tag) (found : Nat)
deriving Inhabited

namespace CompileError

/-- Where the mistake is. -/
def span : CompileError → Span
  | accessOutsideSet s | repeatedAccess s | repeatedRemainder s | arity s _ _ => s

/-- The message for a mistake in a pattern. -/
def message : CompileError → String
  | accessOutsideSet _ => "an access slot may only appear in a modifier set"
  | repeatedAccess _ => "a modifier set can constrain the access specifier only once"
  | repeatedRemainder _ =>
    "a modifier set may contain at most one variable besides its access specifier"
  | arity _ tag found => s!"a {tag} pattern takes {tag.slotCount} parts, found {found}"

/-- What kind of mistake it is. -/
def fault : CompileError → Fault
  | arity .. => .arityMismatch
  | _ => .unsupportedPattern

/-- The diagnostic for a mistake in a pattern. -/
def diagnostic (e : CompileError) : Diagnostic := (Diagnostic.error e.fault e.message).atSpan e.span

end CompileError

namespace Fragment

/-- Whether the fragment is for an access specifier. -/
def isAccess : Fragment → Bool
  | resolved (.modifier m) => m.isAccess
  | var _ (.category .accessSpecifier) => true
  | _ => false

/-- Whether the fragment can take what is left of a modifier set. -/
def isRemainder : Fragment → Bool
  | var .. | wildcard => true
  | _ => false

end Fragment

/-- A modifier set that is being compiled. -/
structure ModifierParts where
  access : Option Fragment := none
  fixed : List Fragment := []
  rest : Option Fragment := none
deriving Inhabited

namespace ModifierParts

/-- Add the fragment of an item. `set` is the place of the whole modifier set. -/
def add (parts : ModifierParts) (set : Span) (item : Pattern) (f : Fragment) :
    Except CompileError ModifierParts :=
  if item.isAccess || f.isAccess then
    if parts.access.isSome then .error (.repeatedAccess item.span)
    else .ok { parts with access := some f }
  else if f.isRemainder then
    if parts.rest.isSome then .error (.repeatedRemainder set)
    else .ok { parts with rest := some f }
  else .ok { parts with fixed := parts.fixed ++ [f] }

/-- The fragment of a modifier set. -/
def toFragment (parts : ModifierParts) : Fragment := .unordered parts.access parts.fixed parts.rest

end ModifierParts

namespace Scope

/-- The fragment for a name. -/
def fragment (s : Scope) (name : String) : Fragment :=
  if name = wildcard then .wildcard
  else match s.lookup name with
    | .bound e => .resolved e
    | .free type => .var name type
    | .unknown => .var name .any

/-- The fragment for the variable of an access slot. -/
def accessFragment (s : Scope) : Option String → Fragment
  | none => .wildcard
  | some name =>
    if name = wildcard then .wildcard
    else match s.lookup name with
      | .bound e => .resolved e
      | _ => .var name (.category .accessSpecifier)

end Scope

namespace Pattern

mutual

/-- The fragment that a pattern means in a scope. -/
def compile (s : Scope) : Pattern → Except CompileError Fragment
  | var _ name => .ok (s.fragment name)
  | resolved _ e => .ok (.resolved e)
  | empty _ => .ok .empty
  | list _ items => return .ordered (← compileAll s items)
  | modifierSet span items => return (← compileSet s span {} items).toFragment
  | access span _ => .error (.accessOutsideSet span)
  | node span tag slots => do
    if slots.length ≠ tag.slotCount then .error (.arity span tag slots.length)
    match tag, slots with
    | .fieldAccess, [receiver, field] =>
      return .fieldAccess (← compile s receiver) (← compile s field) false
    -- the target of an assignment would be refused by a plain access
    | .assign, [node _ .fieldAccess [receiver, field], value] =>
      let target := Fragment.fieldAccess (← compile s receiver) (← compile s field) true
      return .fieldAssign target (← compile s value)
    | tag, slots => return .node tag (← compileAll s slots)

/-- The fragments of several patterns. -/
def compileAll (s : Scope) : List Pattern → Except CompileError (List Fragment)
  | [] => .ok []
  | p :: ps => return (← compile s p) :: (← compileAll s ps)

/-- Add the items of the modifier set at `set` to its parts. -/
def compileSet (s : Scope) (set : Span) (parts : ModifierParts) :
    List Pattern → Except CompileError ModifierParts
  | [] => .ok parts
  -- only here may an access slot stand
  | access span name :: ps => do
    compileSet s set (← parts.add set (access span name) (s.accessFragment name)) ps
  | p :: ps => do compileSet s set (← parts.add set p (← compile s p)) ps

end

end Pattern

end CodeRules
