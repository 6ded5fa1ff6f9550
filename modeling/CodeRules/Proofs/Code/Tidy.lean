import CodeRules.Proofs.Code.Copy
import CodeRules.Proofs.Code.Shape

/-!
# Copies of tidy trees

A copy puts modifiers into canonical order and leaves out receivers that were never written. So a copy
of a tree has the shape of the tree when its modifiers are in canonical order and all its nodes were
written (`Entity.leaves_copy_shape`).
-/

namespace CodeRules

open Effect

/-! ### Kinds -/

namespace NodeKind

variable {α β : Type}

/-- Modifiers do not depend on the children. -/
theorem modifiers_map (f : α → β) (k : NodeKind α) : (k.map f).modifiers = k.modifiers := by
  cases k <;> rfl

/-- A kind with modifiers in canonical order is canonical. -/
theorem canonical_eq_self {k : NodeKind α} (h : Modifier.canonical k.modifiers = k.modifiers) :
    k.canonical = k := by
  cases k <;> simp only [canonical, modifiers] at h ⊢ <;> rw [h]

/-- The child that a kind may be without. -/
def optionalChild? : NodeKind α → Option α
  | fieldDecl _ _ _ _ init => init
  | methodDecl _ _ _ _ _ body => body
  | returnStmt value => value
  | localVar _ _ init => init
  | call receiver _ _ => receiver
  | _ => none

/-- The optional child changes with the children. -/
theorem optionalChild?_map (f : α → β) (k : NodeKind α) :
    (k.map f).optionalChild? = k.optionalChild?.map f := by
  cases k <;> rfl

/-- The optional child is a child. -/
theorem mem_children_of_optionalChild? {k : NodeKind α} {c : α} (h : k.optionalChild? = some c) :
    c ∈ k.children := by
  cases k <;> simp only [optionalChild?, reduceCtorEq] at h <;> simp [children, h]

/-- Nothing is left out when the optional child was written. -/
theorem written_eq_self_of_optionalChild? {k : NodeKind Node}
    (h : ∀ c, k.optionalChild? = some c → c.kind.isImplicitReceiver = false) : k.written = k := by
  have hfilter {o : Option Node} (ho : ∀ c, o = some c → c.kind.isImplicitReceiver = false) :
      o.filter (!·.kind.isImplicitReceiver) = o := by
    cases o with
    | none => rfl
    | some c => rw [Option.filter_some, ho c rfl, Bool.not_false, if_pos rfl]
  cases k <;> simp only [written, optionalChild?] at h ⊢ <;> rw [hfilter h]

/-- Nothing is left out when all children were written. -/
theorem written_eq_self {k : NodeKind Node}
    (h : ∀ c ∈ k.children, c.kind.isImplicitReceiver = false) : k.written = k :=
  written_eq_self_of_optionalChild? fun c hc => h c (mem_children_of_optionalChild? hc)

/-- Leaving out unwritten children keeps the tag. -/
theorem tag_written (k : NodeKind Node) : k.written.tag = k.tag := by
  cases k <;> rfl

/-- Leaving out unwritten children keeps the modifiers. -/
theorem modifiers_written (k : NodeKind Node) : k.written.modifiers = k.modifiers := by
  cases k <;> rfl

/-- Leaving out unwritten children keeps what is a receiver that was never written. -/
theorem isImplicitReceiver_written (k : NodeKind Node) :
    k.written.isImplicitReceiver = k.isImplicitReceiver := by
  cases k <;> rfl

/-- The order of modifiers keeps what is a receiver that was never written. -/
theorem isImplicitReceiver_canonical (k : NodeKind α) :
    k.canonical.isImplicitReceiver = k.isImplicitReceiver := by
  cases k <;> rfl

end NodeKind

/-! ### Nodes -/

namespace Node

variable {n n' : Node}

/-- Nodes of one shape have the same kind up to the shapes of their children. -/
theorem map_shape_eq (h : n.shape = n'.shape) : n.kind.map shape = n'.kind.map shape := by
  rw [shape_eq, shape_eq n'] at h
  exact NodeKind.eq_of_shape h

/-- Whether a receiver was written shows in its shape. -/
theorem isImplicitReceiver_eq (h : n.shape = n'.shape) :
    n.kind.isImplicitReceiver = n'.kind.isImplicitReceiver := by
  rw [← NodeKind.isImplicitReceiver_map shape, map_shape_eq h, NodeKind.isImplicitReceiver_map]

/-- The modifiers are in canonical order, and no child is a receiver that was never written. -/
structure Tidy (n : Node) : Prop where
  canonical : Modifier.canonical n.kind.modifiers = n.kind.modifiers
  written : ∀ c ∈ n.children, c.kind.isImplicitReceiver = false

/-- Children of nodes of one shape match. -/
theorem forall₂_children (h : n.shape = n'.shape) :
    List.Forall₂ (fun c c' => c ∈ n.children ∧ c' ∈ n'.children ∧ c.shape = c'.shape)
      n.children n'.children := by
  have hchildren : n.children.map shape = n'.children.map shape := by
    rw [children, children, ← NodeKind.children_map, map_shape_eq h, NodeKind.children_map]
  exact List.forall₂_of_map_eq hchildren (fun _ hc => hc) fun _ hc => hc

/-- Whether a node is tidy shows in its shape. -/
theorem Tidy.of_shape (hn : n.Tidy) (h : n.shape = n'.shape) : n'.Tidy where
  canonical := by
    have hmodifiers : n'.kind.modifiers = n.kind.modifiers := by
      rw [← NodeKind.modifiers_map shape, ← map_shape_eq h, NodeKind.modifiers_map]
    rw [hmodifiers, hn.canonical]
  written c' hc' := by
    obtain ⟨c, _, hc, _, hshape⟩ := (forall₂_children h).exists_left hc'
    rw [← isImplicitReceiver_eq hshape]
    exact hn.written c hc

/-- Whether the nodes of a tree are tidy shows in its shape. -/
theorem tidy_preorder_of_shape (hn : ∀ m ∈ n.preorder, m.Tidy) (h : n.shape = n'.shape) :
    ∀ m ∈ n'.preorder, m.Tidy := by
  induction n using Node.induction generalizing n' with
  | step n ih =>
  intro m hm
  rw [preorder_eq] at hn hm
  -- the root, or a node below a child, which matches a child of `n`
  rcases List.mem_cons.1 hm with rfl | hm
  · exact (hn n (List.mem_cons_self ..)).of_shape h
  · obtain ⟨c', hc', hm⟩ := List.mem_flatMap.1 hm
    obtain ⟨c, _, hc, _, hshape⟩ := (forall₂_children h).exists_left hc'
    refine ih c hc (fun x hx => hn x ?_) hshape m hm
    exact List.mem_cons_of_mem _ (List.mem_flatMap.2 ⟨c, hc, hx⟩)

/-- A copy was written when its source was. -/
theorem isImplicitReceiver_remade (base : UInt32) (n : Node) :
    (n.remade base).kind.isImplicitReceiver = n.kind.isImplicitReceiver := by
  rw [remade_eq]
  exact (NodeKind.isImplicitReceiver_canonical _).trans
    ((NodeKind.isImplicitReceiver_written _).trans (NodeKind.isImplicitReceiver_map ..))

/-- A copy keeps the node as it is: its modifiers are in canonical order, and its optional child is no
receiver that was never written. -/
structure Copyable (n : Node) : Prop where
  canonical : Modifier.canonical n.kind.modifiers = n.kind.modifiers
  written : ∀ c, n.kind.optionalChild? = some c → c.kind.isImplicitReceiver = false

/-- Tidy nodes are copyable: the optional child is one of the children. -/
theorem Tidy.copyable (h : n.Tidy) : n.Copyable where
  canonical := h.canonical
  written c hc := h.written c (NodeKind.mem_children_of_optionalChild? hc)

/-- A copy of a tree of copyable nodes has the shape of the tree. -/
theorem shape_remade (base : UInt32) (h : ∀ m ∈ n.preorder, m.Copyable) :
    (n.remade base).shape = n.shape := by
  induction n using Node.induction with
  | step n ih =>
  rw [preorder_eq] at h
  have hn := h n (List.mem_cons_self ..)
  -- the copy of the optional child is written, so it is not left out
  have hwritten : (n.kind.map (remade base)).written = n.kind.map (remade base) := by
    apply NodeKind.written_eq_self_of_optionalChild?
    intro c hc
    rw [NodeKind.optionalChild?_map] at hc
    obtain ⟨d, hd, rfl⟩ := Option.map_eq_some_iff.1 hc
    rw [isImplicitReceiver_remade]
    exact hn.written d hd
  have hcanonical : (n.kind.map (remade base)).canonical = n.kind.map (remade base) := by
    apply NodeKind.canonical_eq_self
    rw [NodeKind.modifiers_map, hn.canonical]
  have hkind : (n.remade base).kind = n.kind.map (remade base) := by
    rw [remade_eq, hwritten]
    exact hcanonical
  rw [shape_eq, hkind, NodeKind.map_map, shape_eq n]
  refine congrArg NodeKind.shape (NodeKind.map_congr fun c hc => ih c hc fun m hm => h m ?_)
  exact List.mem_cons_of_mem _ (List.mem_flatMap.2 ⟨c, hc, hm⟩)

end Node

/-! ### Entities -/

namespace Entity

/-- All nodes of the entity are tidy. -/
def Tidy (e : Entity) : Prop := ∀ n ∈ e.nodes, n.Tidy

/-- An entity without nodes is tidy. -/
theorem tidy_of_nodes_eq_nil {e : Entity} (h : e.nodes = []) : e.Tidy := by
  intro n hn
  rw [h] at hn
  cases hn

/-- The items of a tidy list are tidy. -/
theorem Tidy.item {items : List Entity} (h : (list items).Tidy) {e : Entity} (he : e ∈ items) :
    e.Tidy := by
  intro n hn
  refine h n ?_
  rw [nodes, nodesAll_eq_flatMap]
  exact List.mem_flatMap.2 ⟨e, he, hn⟩

/-- What has the shape of a list is a list of entities of the same shapes. -/
theorem exists_list_of_shape {items : List Entity} {e : Entity} (h : e.shape = (list items).shape) :
    ∃ items', e = list items' ∧ items'.map shape = items.map shape := by
  cases e <;> simp [shape, shapes_eq_map] at h
  case list items' => exact ⟨items', rfl, h⟩

/-- What has the shape of a node is a node of this shape. -/
theorem exists_node_of_shape {n : Node} {e : Entity} (h : e.shape = (node n).shape) :
    ∃ n', e = node n' ∧ n'.shape = n.shape := by
  cases e <;> simp [shape] at h
  case node n' => exact ⟨n', rfl, h⟩

/-- What has no node can be read off its shape. -/
theorem eq_of_shape {e e' : Entity} (h : e.shape = e'.shape) (hnode : e'.node? = none)
    (hitems : ∀ items, e' ≠ list items) : e = e' := by
  cases e' with
  | node n => cases hnode
  | list items => exact absurd rfl (hitems items)
  | _ =>
    cases e <;> simp [shape, CodeType.shape_injective, Modifier.shape_injective,
      MethodSignature.shape_injective, Literal.shape_injective] at h
    all_goals first | rfl | rw [h]

/-- Entities without nodes can be read off their shapes one by one. -/
theorem eq_of_shapes {es es' : List Entity} (h : es.map shape = es'.map shape)
    (hes' : ∀ e ∈ es', e.node? = none ∧ ∀ items, e ≠ list items) : es = es' := by
  have hmatch := List.forall₂_of_map_eq h (fun _ _ => trivial) hes'
  exact List.forall₂_eq_eq_eq ▸ hmatch.imp fun e e' he => eq_of_shape he.2.2 he.2.1.1 he.2.1.2

/-- A copy of an entity of copyable nodes has the shape of the entity. -/
theorem shape_remade (base : UInt32) {e : Entity} (h : ∀ n ∈ e.nodes, n.Copyable) :
    (e.remade base).shape = e.shape := by
  induction e using Entity.induction with
  | node n => rw [remade, shape, Node.shape_remade base h, shape]
  | list items ih =>
    rw [remade, shape, shapes_eq_map, remadeAll_eq_map, List.map_map, shape, shapes_eq_map]
    rw [nodes, nodesAll_eq_flatMap] at h
    have hitems : items.map (shape ∘ remade base) = items.map shape :=
      List.map_congr_left fun e he => ih e he fun n hn => h n (List.mem_flatMap.2 ⟨e, he, hn⟩)
    rw [hitems]
  | _ => rfl

/-- Whether an entity is tidy shows in its shape. -/
theorem Tidy.of_shape {e e' : Entity} (h : e.Tidy) (hshape : e'.shape = e.shape) : e'.Tidy := by
  induction e using Entity.induction generalizing e' with
  | node n =>
    obtain ⟨n', rfl, hn⟩ := exists_node_of_shape hshape
    exact Node.tidy_preorder_of_shape h hn.symm
  | list items ih =>
    obtain ⟨items', rfl, hitems⟩ := exists_list_of_shape hshape
    intro n hn
    rw [nodes, nodesAll_eq_flatMap] at hn
    obtain ⟨x', hx', hn⟩ := List.mem_flatMap.1 hn
    have hmatch := List.forall₂_of_map_eq hitems (fun _ _ => trivial) fun _ hx => hx
    obtain ⟨x, _, _, hx, hxx⟩ := hmatch.exists_right hx'
    exact ih x hx (h.item hx) hxx n hn
  | _ =>
    obtain rfl := eq_of_shape hshape rfl (fun _ h => by cases h)
    exact h

/-- A copy of an entity of the shape of a tidy one has that shape. -/
theorem leaves_copy_shape {e e' : Entity} (h : e.Tidy) (hshape : e'.shape = e.shape) (a : Arena) :
    Leaves e'.copy a fun g _ => g.shape = e.shape := by
  refine (e'.leaves_copy 0 a).mono fun g a' hg => ?_
  obtain ⟨_, _, hnormal⟩ := hg
  rw [← g.shape_normal 0, hnormal, shape_remade 0 fun n hn => (h.of_shape hshape n hn).copyable, hshape]

end Entity

end CodeRules
