import CodeRules.Goal.World
import CodeRules.Proofs.Fragment.Relabel

/-!
# What a program says about new numbers

Where a node keeps its number, or gets one of which the program knows as little as of the old one
(`Program.Blind`), the program says about the node with the new number what it says about the node. So
its surroundings ignore the new numbers (`Program.ignores_surroundings`).
-/

namespace CodeRules

variable {p : Program} {ρ : Relabeling}

namespace Program

/-- The program says nothing about the number. -/
structure Unknown (p : Program) (i : NodeId) : Prop where
  nodes : p.nodes.find? i = none
  enclosing : p.enclosing.find? i = none
  declaring : p.declaring.find? i = none
  assignmentTargets : p.facts.assignmentTargets.contains i = false
  fieldRefs : p.facts.fieldRefs.find? i = none

/-- The node keeps its number, or the program knows neither the old number nor the new one. -/
def Blind (p : Program) (ρ : Relabeling) (n : Node) : Prop :=
  (n.relabel ρ).id = n.id ∨ p.Unknown n.id ∧ p.Unknown (n.relabel ρ).id

/-- The type of a node is the same under a number that is as unknown as the old one. -/
theorem typeOf?_relabel {e : Entity} (h : ∀ n, e = .node n → p.Blind ρ n) :
    p.typeOf? (e.relabel ρ) = p.typeOf? e := by
  cases e with
  | node n =>
    simp only [Entity.relabel, typeOf?, Node.shape_relabel]
    rw [show (Entity.node (n.relabel ρ)).intrinsicType? = _ from
      Entity.intrinsicType?_relabel ρ (.node n)]
    rcases h n rfl with hid | ⟨hold, hnew⟩
    · rw [hid]
    · rw [show p.node? n.id = none from hold.nodes,
        show p.node? (n.relabel ρ).id = none from hnew.nodes]
      rfl
  | _ => rfl

/-- Types accept an entity under its new numbers if they accept it under the old ones. -/
theorem accepts_relabel {e : Entity} (h : ∀ n, e = .node n → p.Blind ρ n) (type : ParamType) :
    type.accepts p.types (e.relabel ρ) = type.accepts p.types e := by
  cases type with
  | category c => exact Category.accepts_relabel ρ c e
  | program t =>
    simp only [ParamType.accepts, types, p.typeOf?_relabel h, Category.accepts_relabel]
  | relation name params => rfl

namespace Blind

variable {n : Node} (h : p.Blind ρ n)
include h

/-- The declaring type is looked up under the number. -/
theorem declaringType? : p.declaringType? (n.relabel ρ).id = p.declaringType? n.id := by
  rcases h with hid | ⟨hold, hnew⟩
  · rw [hid]
  · exact hnew.declaring.trans hold.declaring.symm

/-- The receiver has the number and the span of its owner, and so has the new receiver. -/
theorem implicitReceiver : p.surroundings.implicitReceiver (n.relabel ρ) =
    (p.surroundings.implicitReceiver n).relabel ρ := by
  have henclosing : p.surroundings.enclosing? (n.relabel ρ).id = p.surroundings.enclosing? n.id := by
    rcases h with hid | ⟨hold, hnew⟩
    · rw [hid]
    · exact hnew.enclosing.trans hold.enclosing.symm
  unfold Surroundings.implicitReceiver
  rw [henclosing]
  cases p.surroundings.enclosing? n.id with
  | none => rfl
  | some m =>
    refine congrArg Entity.node ?_
    rw [Node.relabel_make, Node.id_relabel, Node.span_relabel]
    rfl

/-- Whether a node is assigned to is looked up under the number. -/
theorem isAssignmentTarget : p.surroundings.isAssignmentTarget (n.relabel ρ).id =
    p.surroundings.isAssignmentTarget n.id := by
  rcases h with hid | ⟨hold, hnew⟩
  · rw [hid]
  · exact hnew.assignmentTargets.trans hold.assignmentTargets.symm

/-- Whether a node refers to a field is looked up under the number. -/
theorem isFieldReference : p.surroundings.isFieldReference (n.relabel ρ).id =
    p.surroundings.isFieldReference n.id := by
  rcases h with hid | ⟨hold, hnew⟩
  · rw [hid]
  · exact congrArg Option.isSome (hnew.fieldRefs.trans hold.fieldRefs.symm)

end Blind

/-- The surroundings ignore new numbers to which the program is blind. -/
theorem ignores_surroundings {D : Entity → Prop} (h : ∀ n, D (.node n) → p.Blind ρ n) :
    p.surroundings.Ignores ρ D where
  accepts type _ he := p.accepts_relabel (fun n hn => h n (hn ▸ he)) type
  receiver hn := (h _ hn).implicitReceiver
  isAssignmentTarget hn := (h _ hn).isAssignmentTarget
  isFieldReference hn := (h _ hn).isFieldReference

end Program

end CodeRules
