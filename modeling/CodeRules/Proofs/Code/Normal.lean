import CodeRules.Proofs.Code.Relabel

/-!
# Normal forms of entities

When rules run, nodes that were read from a file count with their numbers, and nodes that were made
count without: nothing depends on which numbers made nodes have. The normal form of an entity forgets
what does not count. `Entity.Uniform` says that all nodes were read, or all were made; of such
entities those with one shape at the same places have one normal form (`Entity.normal_eq_normal`).
-/

namespace CodeRules

/-! ### Nodes -/

namespace Node

/-- The node was read from a file. -/
def IsRead (n : Node) : Prop := n.span.isSynthetic = false

/-- The node was made, and its number is none of those below `base`. -/
def IsMade (base : UInt32) (n : Node) : Prop := n.span.isSynthetic = true ∧ base ≤ n.id.word

/-- What tells nodes of one shape apart: their numbers when they were read. -/
def mark (n : Node) : Option NodeId := if n.span.isSynthetic then none else some n.id

/-- The number and span that are kept of a node. -/
def normalPlace (base : UInt32) : Option NodeId → NodeId × Span
  | none => (⟨base⟩, .synthetic)
  | some i => (i, ⟨0, 0, 0⟩)

/-- The tree with one number for all made nodes, and one span for all that were read. -/
def normal (base : UInt32) : Node → Node :=
  fold fun n k =>
    let place := normalPlace base n.mark
    ⟨place.1, place.2, k.map Prod.snd⟩

end Node

/-- The new numbers and spans of normal forms. -/
def Relabeling.normal (base : UInt32) : Relabeling where
  place i s := Node.normalPlace base (if s.isSynthetic then none else some i)
  isSynthetic_place i s := by cases s.isSynthetic <;> rfl
  place_of_read i s h := by rw [h]; rfl

namespace Node

/-- A node that was read is marked with its number. -/
theorem IsRead.mark_eq {n : Node} (h : n.IsRead) : n.mark = some n.id :=
  if_neg (by rw [h]; exact Bool.false_ne_true)

/-- A made node has no mark. -/
theorem IsMade.mark_eq {base : UInt32} {n : Node} (h : n.IsMade base) : n.mark = none := if_pos h.1

variable (base : UInt32)

/-- The normal form of a node has the place of its mark, and the normal forms of its children. -/
theorem normal_eq (n : Node) : n.normal base = ⟨(normalPlace base n.mark).1,
    (normalPlace base n.mark).2, n.kind.map (normal base)⟩ := by
  rw [normal, fold_eq, NodeKind.map_map]
  rfl

/-- Normal forms are taken by giving the nodes new numbers and spans. -/
theorem normal_eq_relabel : normal base = relabel (.normal base) := rfl

/-- The kind stays, with the normal forms of the children. -/
@[simp] theorem kind_normal (n : Node) : (n.normal base).kind = n.kind.map (normal base) :=
  n.kind_relabel (.normal base)

/-- Made nodes stay made, and read ones read. -/
@[simp] theorem isSynthetic_normal (n : Node) :
    (n.normal base).span.isSynthetic = n.span.isSynthetic :=
  n.isSynthetic_relabel (.normal base)

/-- A node that was read keeps its number. -/
theorem IsRead.id_normal {n : Node} (h : n.IsRead) : (n.normal base).id = n.id :=
  n.id_relabel_of_read (.normal base) h

/-- All made nodes have one number in normal forms. -/
theorem IsMade.id_normal {base : UInt32} {n : Node} (h : n.IsMade base) :
    (n.normal base).id = ⟨base⟩ := by
  rw [normal_eq, h.mark_eq]
  rfl

/-- The mark of a node stays. -/
@[simp] theorem mark_normal (n : Node) : (n.normal base).mark = n.mark := by
  unfold mark
  rw [isSynthetic_normal]
  split
  · rfl
  · rename_i h
    have hread : n.IsRead := by simpa [IsRead] using h
    rw [hread.id_normal base]

/-- The normal form of a tree is its own normal form. -/
@[simp] theorem normal_normal (n : Node) : (n.normal base).normal base = n.normal base := by
  induction n using Node.induction with
  | step n ih =>
  rw [normal_eq, mark_normal, kind_normal, NodeKind.map_map, normal_eq base n]
  congr 1
  exact NodeKind.map_congr ih

/-- A tree and its normal form have one shape. -/
@[simp] theorem shape_normal (n : Node) : (n.normal base).shape = n.shape :=
  n.shape_relabel (.normal base)

/-- The numbers of read nodes tell trees of one shape apart. They can be split off one tree after the
other, since the shape says how many there are. -/
theorem normal_eq_of_marks {n n' : Node} {r r' : List (Option NodeId)} (hshape : n.shape = n'.shape)
    (hmarks : n.preorder.map mark ++ r = n'.preorder.map mark ++ r') :
    n.normal base = n'.normal base ∧ r = r' := by
  induction n using Node.induction generalizing n' r r' with
  | step n ih =>
  rw [shape_eq, shape_eq] at hshape
  have hkind := NodeKind.eq_of_shape hshape
  have hchildren : n.children.map shape = n'.children.map shape := by
    rw [children, children, ← NodeKind.children_map, hkind, NodeKind.children_map]
  rw [preorder_eq, preorder_eq, List.map_cons, List.map_cons, List.cons_append, List.cons_append,
    List.cons.injEq, List.map_flatMap, List.map_flatMap] at hmarks
  obtain ⟨hmark, hmarks⟩ := hmarks
  -- the marks of the first child are split off, then those of the next one, and so on
  obtain ⟨hnormal, hr⟩ := List.map_eq_map_of_flatMap_append (g := normal base) hchildren hmarks
    fun c hc _ _ _ => ih c hc
  refine ⟨?_, hr⟩
  rw [normal_eq, normal_eq base n', hmark, NodeKind.map_eq_map hkind hnormal]

end Node

/-! ### Entities -/

namespace Entity

mutual

/-- The entity with the normal forms of its nodes. -/
def normal (base : UInt32) : Entity → Entity
  | .node n => .node (n.normal base)
  | .list items => .list (normalAll base items)
  | e => e

/-- The normal forms of several entities. -/
def normalAll (base : UInt32) : List Entity → List Entity
  | [] => []
  | e :: es => e.normal base :: normalAll base es

end

variable (base : UInt32)

/-- Normal forms of several entities are taken one by one. -/
theorem normalAll_eq_map (es : List Entity) : normalAll base es = es.map (normal base) := by
  induction es with
  | nil => rfl
  | cons e es ih => rw [normalAll, ih, List.map_cons]

/-- Normal forms of entities are taken by giving their nodes new numbers and spans. -/
theorem normal_eq_relabel : normal base = relabel (.normal base) := by
  funext e
  induction e using Entity.induction with
  | list items ih =>
    rw [normal, relabel, normalAll_eq_map, relabelAll_eq_map]
    exact congrArg Entity.list (List.map_congr_left ih)
  | _ => rfl

/-- The nodes of the normal form are the normal forms of the nodes. -/
@[simp] theorem nodes_normal (e : Entity) :
    (e.normal base).nodes = e.nodes.map (Node.normal base) := by
  rw [normal_eq_relabel]
  exact e.nodes_relabel (.normal base)

/-- An entity and its normal form have one shape. -/
@[simp] theorem shape_normal (e : Entity) : (e.normal base).shape = e.shape := by
  rw [normal_eq_relabel, shape_relabel]

/-- The normal form of an entity is its own normal form. -/
@[simp] theorem normal_normal (e : Entity) : (e.normal base).normal base = e.normal base := by
  induction e using Entity.induction with
  | node n => rw [normal, normal, n.normal_normal base]
  | list items ih =>
    rw [normal, normal, normalAll_eq_map, normalAll_eq_map, List.map_map]
    simpa using ih
  | _ => rfl

/-- Where an entity has nodes in the program does not change. -/
@[simp] theorem locations_normal (e : Entity) : (e.normal base).locations = e.locations := by
  rw [normal_eq_relabel, locations_relabel]

/-- Normal forms keep shape and places. -/
@[simp] theorem located_normal (e : Entity) : (e.normal base).located = e.located := by
  rw [normal_eq_relabel, located_relabel]

/-- Entities have one shape when their normal forms have. -/
@[simp] theorem sameShape_normal (a b : Entity) :
    (a.normal base).sameShape (b.normal base) = a.sameShape b := by
  rw [normal_eq_relabel, sameShape_relabel]

/-- Entities alias each other when their normal forms do. -/
@[simp] theorem aliases_normal (a b : Entity) :
    (a.normal base).aliases (b.normal base) = a.aliases b := by
  rw [normal_eq_relabel, aliases_relabel]

variable {base}

/-- The numbers of read nodes tell entities of one shape apart. -/
theorem normal_eq_of_marks {e e' : Entity} {r r' : List (Option NodeId)} (hshape : e.shape = e'.shape)
    (hmarks : e.nodes.map Node.mark ++ r = e'.nodes.map Node.mark ++ r') :
    e.normal base = e'.normal base ∧ r = r' := by
  induction e using Entity.induction generalizing e' r r' with
  -- a shape tells which kind of entity it belongs to, so `e'` is of the kind of `e`
  | node n =>
    cases e' <;> simp only [shape, Shape.seq.injEq, List.cons.injEq] at hshape
    case node n' =>
      obtain ⟨hnormal, hr⟩ := Node.normal_eq_of_marks base hshape.2.1 hmarks
      exact ⟨congrArg Entity.node hnormal, hr⟩
    all_goals cases hshape.1
  | list items ih =>
    cases e' <;> simp only [shape, Shape.seq.injEq, List.cons.injEq] at hshape
    -- lists of the same shapes have as many items, so the marks are used up item by item
    case list items' =>
      rw [shapes_eq_map, shapes_eq_map] at hshape
      rw [nodes, nodes, nodesAll_eq_flatMap, nodesAll_eq_flatMap, List.map_flatMap,
        List.map_flatMap] at hmarks
      obtain ⟨hnormal, hr⟩ := List.map_eq_map_of_flatMap_append (g := normal base) hshape.2.1 hmarks
        fun c hc _ _ _ => ih c hc
      refine ⟨?_, hr⟩
      rw [normal, normal, normalAll_eq_map, normalAll_eq_map, hnormal]
    all_goals cases hshape.1
  -- what holds no nodes uses no marks
  | type t =>
    cases e' <;> simp [shape, CodeType.shape_injective] at hshape
    exact ⟨by rw [hshape], hmarks⟩
  | modifier m =>
    cases e' <;> simp [shape, Modifier.shape_injective] at hshape
    exact ⟨by rw [hshape], hmarks⟩
  | signature s =>
    cases e' <;> simp [shape, MethodSignature.shape_injective] at hshape
    exact ⟨by rw [hshape], hmarks⟩
  | value v =>
    cases e' <;> simp [shape, Literal.shape_injective] at hshape
    exact ⟨by rw [hshape], hmarks⟩
  | empty =>
    cases e' <;> simp [shape] at hshape
    exact ⟨rfl, hmarks⟩

/-! ### Uniform entities -/

/-- All nodes of the entity were read. -/
def IsRead (e : Entity) : Prop := ∀ n ∈ e.nodes, n.IsRead

/-- All nodes of the entity were made. -/
def IsMade (base : UInt32) (e : Entity) : Prop := ∀ n ∈ e.nodes, n.IsMade base

/-- All nodes of the entity were read, or all of them were made. -/
def Uniform (base : UInt32) (e : Entity) : Prop := e.IsRead ∨ e.IsMade base

/-- Parts of uniform entities are uniform. -/
theorem Uniform.of_subset {e e' : Entity} (h : e.Uniform base) (hsub : ∀ n ∈ e'.nodes, n ∈ e.nodes) :
    e'.Uniform base :=
  h.imp (fun hread n hn => hread n (hsub n hn)) fun hmade n hn => hmade n (hsub n hn)

/-- The root of a uniform tree was read or made. -/
theorem Uniform.root {n : Node} (h : (Entity.node n).Uniform base) : n.IsRead ∨ n.IsMade base := by
  have hn : n ∈ (Entity.node n).nodes := by
    rw [nodes, Node.preorder_eq]
    exact List.mem_cons_self ..
  exact h.imp (fun h => h n hn) fun h => h n hn

/-- An entity without nodes is uniform. -/
theorem uniform_of_nodes_eq_nil {e : Entity} (h : e.nodes = []) : e.Uniform base := by
  left
  intro n hn
  rw [h] at hn
  cases hn

/-- Normal forms are as uniform as the entities. -/
theorem Uniform.normal {e : Entity} (h : e.Uniform base) : (e.normal base).Uniform base := by
  refine h.imp (fun hread n hn => ?_) fun hmade n hn => ?_
  · rw [nodes_normal] at hn
    obtain ⟨m, hm, rfl⟩ := List.mem_map.1 hn
    rw [Node.IsRead, Node.isSynthetic_normal]
    exact hread m hm
  · rw [nodes_normal] at hn
    obtain ⟨m, hm, rfl⟩ := List.mem_map.1 hn
    rw [Node.IsMade, Node.isSynthetic_normal, (hmade m hm).id_normal]
    exact ⟨(hmade m hm).1, UInt32.le_refl base⟩

/-- The marks of an entity that was read are its places. -/
private theorem marks_eq_map_locations {e : Entity} (h : e.IsRead) :
    e.nodes.map Node.mark = e.locations.map some := by
  rw [locations, List.filter_eq_self.2 fun n hn => by rw [h n hn]; rfl, List.map_map]
  exact List.map_congr_left fun n hn => (h n hn).mark_eq

/-- An entity that was made has no marks, and no places. -/
private theorem marks_eq_replicate {e : Entity} (h : e.IsMade base) :
    e.nodes.map Node.mark = List.replicate e.nodes.length none ∧ e.locations = [] := by
  constructor
  · rw [← List.map_const']
    exact List.map_congr_left fun n hn => (h n hn).mark_eq
  · rw [locations, List.filter_eq_nil_iff.2 fun n hn => by simp [(h n hn).1], List.map_nil]

/-- Uniform entities of one shape at the same places have the same normal form. -/
theorem normal_eq_normal {e e' : Entity} (h : e.Uniform base) (h' : e'.Uniform base)
    (hshape : e.shape = e'.shape) (hlocations : e.locations = e'.locations) :
    e.normal base = e'.normal base := by
  -- made entities have as many marks as nodes, so the missing ones are made up for on either side
  have haligned : ∃ r r', e.nodes.map Node.mark ++ r = e'.nodes.map Node.mark ++ r' := by
    rcases h with hread | hmade
    · have hmarks := marks_eq_map_locations hread
      -- both were read: the marks are the places
      rcases h' with hread' | hmade'
      · have hmarks' := marks_eq_map_locations hread'
        exact ⟨[], [], by rw [hmarks, hmarks', hlocations]⟩
      -- only the first was read: it has no places, and so no nodes
      · obtain ⟨hmarks', hnone⟩ := marks_eq_replicate hmade'
        refine ⟨List.replicate e'.nodes.length none, [], ?_⟩
        rw [hmarks, hmarks', hlocations, hnone]
        simp
    · obtain ⟨hmarks, hnone⟩ := marks_eq_replicate hmade
      -- only the second was read: the same from the other side
      rcases h' with hread' | hmade'
      · have hmarks' := marks_eq_map_locations hread'
        refine ⟨[], List.replicate e.nodes.length none, ?_⟩
        rw [hmarks, hmarks', ← hlocations, hnone]
        simp
      -- both were made: no node has a mark
      · obtain ⟨hmarks', _⟩ := marks_eq_replicate hmade'
        refine ⟨List.replicate e'.nodes.length none, List.replicate e.nodes.length none, ?_⟩
        rw [hmarks, hmarks', List.replicate_append_replicate, List.replicate_append_replicate,
          Nat.add_comm]
  obtain ⟨r, r', hmarks⟩ := haligned
  exact (normal_eq_of_marks hshape hmarks).1

end Entity

end CodeRules
