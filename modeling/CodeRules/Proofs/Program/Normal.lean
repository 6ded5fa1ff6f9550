import CodeRules.Goal.World
import CodeRules.Proofs.Code.Normal
import CodeRules.Proofs.Order.Catalog
import CodeRules.Proofs.Program.Relabel

/-!
# What a program says about normal forms

A program that lies below the first number of made nodes (`Program.Below`) knows nothing about made
nodes, so what it says about a uniform entity it says about the normal form as well.
-/

namespace CodeRules

/-- The nodes of the program were read, and what is known by number has a number below `base`. -/
structure Program.Below (base : UInt32) (p : Program) : Prop where
  nodes : ∀ i : NodeId, base ≤ i.word → p.nodes.find? i = none
  enclosing : ∀ i : NodeId, base ≤ i.word → p.enclosing.find? i = none
  declaring : ∀ i : NodeId, base ≤ i.word → p.declaring.find? i = none
  assignmentTargets : ∀ i : NodeId, base ≤ i.word → p.facts.assignmentTargets.contains i = false
  fieldRefs : ∀ i : NodeId, base ≤ i.word → p.facts.fieldRefs.find? i = none
  entities : ∀ e ∈ p.entities, ∀ n ∈ e.nodes, n.IsRead
  classes : ∀ c ∈ p.classes.values, ∀ n ∈ c.preorder, n.IsRead

/-! ### Entities without a program -/

namespace Entity

variable (base : UInt32)

/-- The normal form of a node has its name. -/
@[simp] theorem name?_node?_normal (e : Entity) :
    ((e.normal base).node?.bind Node.name?) = e.node?.bind Node.name? := by
  rw [normal_eq_relabel, name?_node?_relabel]

/-- The normal form of a node has its signature. -/
@[simp] theorem signature?_node?_normal (e : Entity) :
    ((e.normal base).node?.bind Node.signature?) = e.node?.bind Node.signature? := by
  rw [normal_eq_relabel, signature?_node?_relabel]

end Entity

/-! ### Look-ups -/

namespace Program.Below

variable {base : UInt32} {p : Program}

/-- Nothing is known by a number from `base` on. -/
theorem unknown (hp : p.Below base) {i : NodeId} (hi : base ≤ i.word) : p.Unknown i :=
  ⟨hp.nodes i hi, hp.enclosing i hi, hp.declaring i hi, hp.assignmentTargets i hi, hp.fieldRefs i hi⟩

/-- A node that was read keeps its number, and neither number of a made node is known. -/
theorem blind (hp : p.Below base) {n : Node} (hn : n.IsRead ∨ n.IsMade base) :
    p.Blind (.normal base) n := by
  rcases hn with hread | hmade
  · exact .inl (hread.id_normal base)
  · refine .inr ⟨hp.unknown hmade.2, hp.unknown ?_⟩
    rw [← Node.normal_eq_relabel, hmade.id_normal]
    exact UInt32.le_refl base

/-- A uniform entity and its normal form have the same type. -/
theorem typeOf?_normal (hp : p.Below base) {e : Entity} (he : e.Uniform base) :
    p.typeOf? (e.normal base) = p.typeOf? e := by
  rw [Entity.normal_eq_relabel]
  exact p.typeOf?_relabel fun n hn => hp.blind (Entity.Uniform.root (hn ▸ he))

/-- A type accepts a uniform entity if it accepts the normal form. -/
theorem accepts_normal (hp : p.Below base) {e : Entity} (he : e.Uniform base) (type : ParamType) :
    type.accepts p.types (e.normal base) = type.accepts p.types e := by
  rw [Entity.normal_eq_relabel]
  exact p.accepts_relabel (fun n hn => hp.blind (Entity.Uniform.root (hn ▸ he))) type

end Program.Below

end CodeRules
