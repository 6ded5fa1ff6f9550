/-!
# Locations

A node of a program is known by its `NodeId`, and the text that it was read from by a `Span`. Nodes
that were made rather than read carry the synthetic span, which lies in no file.
-/

namespace CodeRules

/-- The number of a node, a 32-bit word. -/
structure NodeId where
  word : UInt32
deriving DecidableEq, Inhabited

namespace NodeId

instance : Ord NodeId := ⟨compareOn word⟩

instance : Std.TransOrd NodeId :=
  inferInstanceAs (Std.TransCmp (compareOn NodeId.word))

instance : Std.LawfulEqOrd NodeId where
  compare_self {a} := by
    have : compare a.word a.word = .eq := Std.ReflCmp.compare_self
    exact this
  eq_of_compare {a b} h := by
    have : a.word = b.word := Std.LawfulEqOrd.eq_of_compare h
    cases a; cases b; simp_all

/-- The number with a hash sign before it. -/
protected def toString (i : NodeId) : String := s!"#{i.word.toNat}"

instance : ToString NodeId := ⟨NodeId.toString⟩

end NodeId

/-- The characters `start` to `stop` of a file. -/
structure Span where
  file : UInt32
  start : UInt32
  stop : UInt32
deriving DecidableEq, Inhabited

namespace Span

/-- The file number that stands for no file. -/
def noFile : UInt32 := 4294967295

/-- The span of what was not read from a file. -/
def synthetic : Span := ⟨noFile, 0, 0⟩

/-- Whether the span lies in no file. -/
def isSynthetic (s : Span) : Bool := s.file == noFile

/-- The span itself when it lies in a file. -/
def location? (s : Span) : Option Span := if s.isSynthetic then none else some s

/-- The shortest span that covers two spans of one file. -/
def merge (a b : Span) : Span := ⟨a.file, min a.start b.start, max a.stop b.stop⟩

/-- Spans are ordered by file, then by start, then by end. -/
instance : Ord Span :=
  ⟨compareLex (compareOn file) (compareLex (compareOn start) (compareOn stop))⟩

end Span

/-- A value and where it was written. -/
structure Spanned (α : Type) where
  value : α
  span : Span
deriving Inhabited

namespace Spanned

variable {α β : Type}

/-- A value that was not read from a file. -/
def synthetic (value : α) : Spanned α := ⟨value, .synthetic⟩

/-- Change the value and keep its place. -/
def map (f : α → β) (s : Spanned α) : Spanned β := ⟨f s.value, s.span⟩

end Spanned

end CodeRules
