import CodeRules.Code.Entity
import CodeRules.Proofs.Rule.Induction

/-!
# What shapes tell

Shapes of atoms and of kinds are injective: what is not a child can be read off the shape. With the
shapes of the children the kind itself is determined (`NodeKind.eq_of_shape`), and two kinds that
have one shape differ in their children only (`NodeKind.map_eq_map`).
-/

namespace CodeRules

namespace Shape

/-- Options can be read off their shapes. -/
theorem opt_injective {a b : Option Shape} : opt a = opt b ↔ a = b := by
  cases a <;> cases b <;> simp [opt]

/-- Truth values can be read off their shapes. -/
theorem flag_injective {a b : Bool} : flag a = flag b ↔ a = b := by
  cases a <;> cases b <;> simp [flag]

end Shape

/-! ### Atoms -/

/-- A modifier can be read off its shape. -/
theorem Modifier.shape_injective {m m' : Modifier} : m.shape = m'.shape ↔ m = m' := by
  constructor
  · intro h
    rw [Modifier.shape, Modifier.shape, Shape.num.injEq, Int.natCast_inj] at h
    cases m <;> cases m' <;> first | rfl | cases h
  · intro h
    rw [h]

/-- Modifiers can be read off their shapes. -/
theorem Modifier.map_shape_injective {ms ms' : List Modifier} :
    ms.map Modifier.shape = ms'.map Modifier.shape ↔ ms = ms' :=
  List.map_inj_right fun _ _ => Modifier.shape_injective.1

/-- Types can be read off their shapes. -/
theorem CodeType.map_shape_injective {ts ts' : List CodeType} :
    ts.map CodeType.shape = ts'.map CodeType.shape ↔ ts = ts' :=
  List.map_inj_right fun _ _ => CodeType.shape_injective.1

/-- A type that may be missing can be read off its shape. -/
theorem CodeType.optionMap_shape_injective {t t' : Option CodeType} :
    t.map CodeType.shape = t'.map CodeType.shape ↔ t = t' :=
  Option.map_inj_right fun _ _ => CodeType.shape_injective.1

/-- The index of an operator determines it. -/
theorem Operator.ctorIdx_injective {o o' : Operator} : o.ctorIdx = o'.ctorIdx ↔ o = o' := by
  constructor
  · intro h
    cases o <;> cases o' <;> first | rfl | cases h
  · intro h
    rw [h]

/-- The index of a tag determines it. -/
theorem Tag.ctorIdx_injective {t t' : Tag} : t.ctorIdx = t'.ctorIdx ↔ t = t' := by
  constructor
  · intro h
    cases t <;> cases t' <;> first | rfl | cases h
  · intro h
    rw [h]

/-- A literal can be read off its shape. -/
theorem Literal.shape_injective {v v' : Literal} : v.shape = v'.shape ↔ v = v' := by
  have hchar (c c' : Char) : (c.toNat : Int) = c'.toNat ↔ c = c' := by
    rw [Int.natCast_inj, Char.toNat_inj]
  cases v <;> cases v' <;> simp [Literal.shape, Shape.flag_injective, hchar]

/-- A signature can be read off its shape. -/
theorem MethodSignature.shape_injective {s s' : MethodSignature} : s.shape = s'.shape ↔ s = s' := by
  cases s
  cases s'
  simp [MethodSignature.shape, CodeType.map_shape_injective]

/-! ### Kinds -/

namespace NodeKind

/-- A kind can be read off its shape. -/
theorem eq_of_shape {k k' : NodeKind Shape} (h : k.shape = k'.shape) : k = k' := by
  simp only [shape, Shape.seq.injEq, List.cons.injEq, Shape.num.injEq, Int.natCast_inj] at h
  obtain ⟨hidx, h⟩ := h
  have htag := Tag.ctorIdx_injective.1 hidx
  clear hidx
  -- kinds with different tags are told apart by these, the others by their contents
  cases k <;> cases k' <;> first
    | (cases htag; done)
    | rfl
    | simpa [Int.natCast_inj, Shape.opt_injective, Shape.flag_injective,
        Modifier.map_shape_injective,
        CodeType.optionMap_shape_injective, CodeType.shape_injective, Literal.shape_injective,
        Operator.ctorIdx_injective] using h

variable {α β γ : Type}

/-- What an option holds can be read off its list. -/
private theorem toList_map_inj {g : α → γ} {o o' : Option α} (h : o.toList.map g = o'.toList.map g) :
    o.map g = o'.map g := by
  cases o <;> cases o' <;> simp_all

/-- What is the same up to the children is the same when the children are. -/
theorem map_eq_map {f : α → β} {g : α → γ} {k k' : NodeKind α} (h : k.map f = k'.map f)
    (hchildren : k.children.map g = k'.children.map g) : k.map g = k'.map g := by
  have htag : k.tag = k'.tag := by rw [← tag_map f, h, tag_map]
  have hlen {l l' : List α} (h : l.map f = l'.map f) : (l.map g).length = (l'.map g).length := by
    simpa using congrArg List.length h
  cases k <;> cases k' <;> first
    | (cases htag; done)
    -- a kind without children
    | rfl
    | simpa [map] using h
    -- the lists of children are cut at the lengths that the two kinds share
    | (simp only [map, children, List.map_append, NodeKind.classDecl.injEq, NodeKind.fieldDecl.injEq,
        NodeKind.methodDecl.injEq, NodeKind.annotationUse.injEq, NodeKind.block.injEq,
        NodeKind.exprStmt.injEq, NodeKind.returnStmt.injEq, NodeKind.localVar.injEq,
        NodeKind.fieldAccess.injEq, NodeKind.assign.injEq, NodeKind.call.injEq,
        NodeKind.newObject.injEq, NodeKind.binary.injEq] at h hchildren ⊢
       grind [List.append_inj, toList_map_inj])

end NodeKind

end CodeRules
