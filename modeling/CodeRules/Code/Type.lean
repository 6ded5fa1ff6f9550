import CodeRules.Order.Shape
import CodeRules.Text.Dotted

/-!
# Types of programs

The types that a program's declarations are written with: the eight primitives, `void`, named
types with type arguments, and arrays. Main statement: `CodeType.shape_injective`, so equality of
types is decidable and types are ordered by their shapes.
-/

namespace CodeRules

/-- A primitive type. -/
inductive Primitive where
  | boolean | byte | char | short | int | long | float | double
deriving DecidableEq, Inhabited

namespace Primitive

/-- Every primitive, in order. -/
def all : List Primitive := [boolean, byte, char, short, int, long, float, double]

/-- The name of a primitive. -/
def name : Primitive → String
  | boolean => "boolean"
  | byte => "byte"
  | char => "char"
  | short => "short"
  | int => "int"
  | long => "long"
  | float => "float"
  | double => "double"

/-- The primitive with a given name. -/
def ofName? (s : String) : Option Primitive := all.find? (·.name == s)

end Primitive

/-- A type as a program writes it. -/
inductive CodeType where
  | void
  | primitive (p : Primitive)
  | named (name : String) (args : List CodeType)
  | array (elem : CodeType)
deriving Inhabited

namespace CodeType

/-- The type that a plain name stands for; `void` and the primitives have names of their own. -/
def ofName (s : String) : CodeType :=
  if s = "void" then .void
  else match Primitive.ofName? s with
    | some p => .primitive p
    | none => .named s []

/-- The type of text. -/
def string : CodeType := .named "String" []

/-- The name of a named type without its qualification. -/
def simpleName? : CodeType → Option String
  | .named s _ => some (Text.afterLastDot s)
  | _ => none

/-- The name of a type without type arguments. -/
def baseName : CodeType → String
  | .void => "void"
  | .primitive p => p.name
  | .named s _ => s
  | .array t => t.baseName ++ "[]"

mutual

/-- The text of a type. -/
protected def toString : CodeType → String
  | .void => "void"
  | .primitive p => p.name
  | .named s [] => s
  | .named s (t :: ts) => s ++ "<" ++ ", ".intercalate (CodeType.toStrings (t :: ts)) ++ ">"
  | .array t => t.toString ++ "[]"

/-- The texts of several types. -/
protected def toStrings : List CodeType → List String
  | [] => []
  | t :: ts => t.toString :: CodeType.toStrings ts

end

instance : ToString CodeType := ⟨CodeType.toString⟩

mutual

/-- The shape of a type. -/
def shape : CodeType → Shape
  | .void => .seq [.num 0]
  | .primitive p => .seq [.num 1, .num p.ctorIdx]
  | .named s args => .seq [.num 2, .text s, .seq (shapes args)]
  | .array t => .seq [.num 3, t.shape]

/-- The shapes of several types. -/
def shapes : List CodeType → List Shape
  | [] => []
  | t :: ts => t.shape :: shapes ts

end

private theorem Primitive.ctorIdx_injective {p q : Primitive} (h : p.ctorIdx = q.ctorIdx) :
    p = q := by
  cases p <;> cases q <;> first | rfl | nomatch h

mutual

/-- Types with one shape are equal. -/
theorem eq_of_shape : ∀ {t u : CodeType}, t.shape = u.shape → t = u
  | .void, .void, _ => rfl
  | .primitive _, .primitive _, h => by
    simp only [shape, Shape.seq.injEq, List.cons.injEq, Shape.num.injEq, Int.natCast_inj] at h
    rw [Primitive.ctorIdx_injective h.2.1]
  | .named _ _, .named _ _, h => by
    simp only [shape, Shape.seq.injEq, List.cons.injEq, Shape.text.injEq, and_true] at h
    rw [h.2.1, eq_of_shapes h.2.2]
  | .array _, .array _, h => by
    simp only [shape, Shape.seq.injEq, List.cons.injEq, and_true] at h
    rw [eq_of_shape h.2]
  | .void, .primitive _, h => by simp [shape] at h
  | .void, .named _ _, h => by simp [shape] at h
  | .void, .array _, h => by simp [shape] at h
  | .primitive _, .void, h => by simp [shape] at h
  | .primitive _, .named _ _, h => by simp [shape] at h
  | .primitive _, .array _, h => by simp [shape] at h
  | .named _ _, .void, h => by simp [shape] at h
  | .named _ _, .primitive _, h => by simp [shape] at h
  | .named _ _, .array _, h => by simp [shape] at h
  | .array _, .void, h => by simp [shape] at h
  | .array _, .primitive _, h => by simp [shape] at h
  | .array _, .named _ _, h => by simp [shape] at h

private theorem eq_of_shapes : ∀ {ts us : List CodeType}, shapes ts = shapes us → ts = us
  | [], [], _ => rfl
  | [], _ :: _, h => by simp [shapes] at h
  | _ :: _, [], h => by simp [shapes] at h
  | _ :: _, _ :: _, h => by
    simp only [shapes, List.cons.injEq] at h
    rw [eq_of_shape h.1, eq_of_shapes h.2]

end

theorem shape_injective {t u : CodeType} : t.shape = u.shape ↔ t = u :=
  ⟨eq_of_shape, fun h => h ▸ rfl⟩

instance : DecidableEq CodeType := fun _ _ => decidable_of_iff _ shape_injective

end CodeType

end CodeRules
