import CodeRules.Proofs.Code.Tidy

/-!
# Comparing entities

Shapes are what is left of an entity without the numbers and spans of its nodes
(`Entity.shape_eq_iff`). Entities are compared by their shapes first and by their places after that
(`Entity.compare_located`), so the comparison cannot tell apart entities that are bare of numbers the
same and have the same places. Without made nodes these are the identical ones
(`Entity.aliases_eq_identical`). Identity is decided item by item (`Entity.identical_eq`).
-/

namespace CodeRules

/-! ### Shapes -/

namespace Shape

/-- The comparison of several shapes is the comparison of lists. -/
theorem compareAll_eq (as bs : List Shape) : Shape.compareAll as bs = compare as bs := by
  induction as generalizing bs with
  | nil => cases bs <;> rfl
  | cons a as ih =>
    cases bs with
    | nil => rfl
    | cons b bs =>
      rw [Shape.compareAll, ih, List.compare_cons_cons]
      rfl

/-- Sequences are compared as lists. -/
theorem compare_seq (as bs : List Shape) : compare (seq as) (seq bs) = compare as bs :=
  compareAll_eq as bs

/-- Texts are compared as strings. -/
theorem compare_text (s s' : String) : compare (text s) (text s') = compare s s' := rfl

/-- A missing part comes before a present one. -/
theorem compare_opt (a b : Option Shape) : compare (opt a) (opt b) = compare a b := by
  cases a <;> cases b
  case some.some a b =>
    rw [opt, opt, compare_seq, List.compare_cons_cons]
    exact Ordering.then_eq
  all_goals rfl

end Shape

namespace NodeId

/-- Numbers of nodes are compared as the naturals that they are. -/
theorem compare_num (i j : NodeId) :
    compare (Shape.num i.word.toNat) (Shape.num j.word.toNat) = compare i j := by
  show compare (i.word.toNat : Int) (j.word.toNat : Int) = compareOfLessAndEq i.word j.word
  simp only [compare, compareOfLessAndEq, UInt32.lt_iff_toNat_lt, ← UInt32.toNat_inj, Int.ofNat_lt,
    Int.ofNat_inj]

end NodeId

/-! ### Trees without numbers -/

namespace Node

/-- The tree without its numbers and spans. -/
def bare : Node → Node := fold fun _ k => ⟨⟨0⟩, .synthetic, k.map Prod.snd⟩

/-- The bare tree keeps the kind of the node, with bare children. -/
theorem bare_eq (n : Node) : n.bare = ⟨⟨0⟩, .synthetic, n.kind.map bare⟩ := by
  rw [bare, fold_eq, NodeKind.map_map]
  rfl

/-- The shape says nothing about numbers and spans. -/
theorem shape_bare (n : Node) : n.bare.shape = n.shape := by
  induction n using Node.induction with
  | step n ih =>
  rw [bare_eq, shape_eq, shape_eq n, NodeKind.map_map]
  exact congrArg NodeKind.shape (NodeKind.map_congr ih)

/-- Trees have one shape when they differ in numbers and spans only. -/
theorem shape_eq_iff {n m : Node} : n.shape = m.shape ↔ n.bare = m.bare := by
  refine ⟨fun h => ?_, fun h => by rw [← shape_bare, h, shape_bare]⟩
  induction n using Node.induction generalizing m with
  | step n ih =>
  -- the shape determines the kind up to the children, which match one by one
  have hchildren : n.children.map bare = m.children.map bare :=
    (forall₂_children h).map_eq fun c d hcd => ih c hcd.1 hcd.2.2
  rw [bare_eq, bare_eq m, NodeKind.map_eq_map (map_shape_eq h) hchildren]

/-- As many nodes stand in the tree without its numbers and spans. -/
theorem length_ids_bare (n : Node) : n.bare.ids.length = n.ids.length := by
  rw [ids, ids, List.length_map, List.length_map]
  induction n using Node.induction with
  | step n ih =>
  rw [bare_eq, preorder_eq, preorder_eq n, children, NodeKind.children_map, List.flatMap_map,
    List.length_cons, List.length_cons, List.length_flatMap, List.length_flatMap]
  exact congrArg (List.sum · + 1) (List.map_congr_left ih)

/-- Trees of one shape have the same number of nodes. -/
theorem length_ids_eq {n m : Node} (h : n.shape = m.shape) : n.ids.length = m.ids.length := by
  rw [← length_ids_bare, shape_eq_iff.1 h, length_ids_bare]

end Node

namespace Entity

mutual

/-- The entity without the numbers and spans of its nodes. -/
def bare : Entity → Entity
  | .node n => .node n.bare
  | .list items => .list (bareAll items)
  | e => e

/-- Several entities without the numbers and spans of their nodes. -/
def bareAll : List Entity → List Entity
  | [] => []
  | e :: es => e.bare :: bareAll es

end

/-- The items of a list are made bare one by one. -/
theorem bareAll_eq_map (es : List Entity) : bareAll es = es.map bare := by
  induction es with
  | nil => rfl
  | cons e es ih => rw [bareAll, ih, List.map_cons]

/-- The shape of an entity says nothing about the numbers and spans of its nodes. -/
theorem shape_bare (e : Entity) : e.bare.shape = e.shape := by
  induction e using Entity.induction with
  | node n => rw [bare, shape, n.shape_bare, shape]
  | list items ih =>
    rw [bare, shape, shapes_eq_map, bareAll_eq_map, List.map_map, shape, shapes_eq_map]
    have hitems : items.map (shape ∘ bare) = items.map shape := List.map_congr_left ih
    rw [hitems]
  | _ => rfl

/-- Entities have one shape when they differ in numbers and spans only. -/
theorem shape_eq_iff {e e' : Entity} : e.shape = e'.shape ↔ e.bare = e'.bare := by
  refine ⟨fun h => ?_, fun h => by rw [← shape_bare, h, shape_bare]⟩
  induction e using Entity.induction generalizing e' with
  | node n =>
    obtain ⟨n', rfl, hn⟩ := exists_node_of_shape h.symm
    rw [bare, bare, Node.shape_eq_iff.1 hn]
  | list items ih =>
    obtain ⟨items', rfl, hitems⟩ := exists_list_of_shape h.symm
    have hmatch := List.forall₂_of_map_eq hitems.symm (fun _ he => he) fun _ _ => trivial
    rw [bare, bare, bareAll_eq_map, bareAll_eq_map]
    exact congrArg list (hmatch.map_eq fun a b hab => ih a hab.1 hab.2.2)
  -- the other entities have no nodes, and their shape determines them
  | _ => rw [eq_of_shape h.symm rfl fun _ h => (by cases h)]

/-! ### Numbers -/

/-- A list holds the numbers of its items. -/
theorem ids_list (items : List Entity) : (list items).ids = items.flatMap ids := by
  rw [ids, nodes, nodesAll_eq_flatMap, List.map_flatMap]
  rfl

/-- Entities of one shape have the same number of nodes. -/
theorem length_ids_eq {a b : Entity} (h : a.shape = b.shape) : a.ids.length = b.ids.length := by
  induction a using Entity.induction generalizing b with
  | node n =>
    obtain ⟨m, rfl, hm⟩ := exists_node_of_shape h.symm
    exact Node.length_ids_eq hm.symm
  | list items ih =>
    obtain ⟨items', rfl, hitems⟩ := exists_list_of_shape h.symm
    have hmatch := List.forall₂_of_map_eq hitems.symm (fun _ he => he) fun _ _ => trivial
    rw [ids_list, ids_list, List.length_flatMap, List.length_flatMap]
    exact congrArg List.sum (hmatch.map_eq fun a b hab => ih a hab.1 hab.2.2)
  -- without nodes there is nothing to count
  | _ => rw [eq_of_shape h.symm rfl fun _ h => (by cases h)]

/-- The numbers in lists of one shape agree when they agree item by item. -/
private theorem flatMap_ids_eq_iff {l m : List Entity}
    (h : List.Forall₂ (fun a b => a.shape = b.shape) l m) :
    l.flatMap ids = m.flatMap ids ↔ ((l.zip m).all fun x => x.1.identical x.2) = true := by
  induction h with
  | nil => simp
  -- items of one shape are identical exactly when their numbers are the same
  | @cons a b l m hab _ ih =>
    have hidentical : a.identical b = true ↔ a.ids = b.ids := by
      simp [identical, sameShape_iff.2 hab]
    rw [List.flatMap_cons, List.flatMap_cons, List.zip_cons_cons, List.all_cons, Bool.and_eq_true,
      hidentical, ← ih]
    -- the first items have as many numbers, so all numbers can be cut after theirs
    exact ⟨fun h => List.append_inj h (length_ids_eq hab), fun h => by rw [h.1, h.2]⟩

/-- Identity goes through lists item by item, and asks for the numbers of trees. -/
theorem identical_eq (a b : Entity) : a.identical b = (a.sameShape b &&
    match a, b with
    | .node n, .node m => decide (n.ids = m.ids)
    | .list l, .list m => (l.zip m).all fun x => x.1.identical x.2
    | _, _ => true) := by
  rw [identical]
  -- two entities of different shapes are not identical in either form
  cases hshape : a.sameShape b with
  | false => rfl
  | true =>
    rw [Bool.true_and, Bool.true_and]
    have hshape := sameShape_iff.1 hshape
    cases a with
    | node n =>
      obtain ⟨m, rfl, _⟩ := exists_node_of_shape hshape.symm
      rfl
    | list l =>
      obtain ⟨m, rfl, hitems⟩ := exists_list_of_shape hshape.symm
      have hmatch : List.Forall₂ (fun a b => a.shape = b.shape) l m :=
        (List.forall₂_of_map_eq hitems.symm (fun _ _ => trivial) fun _ _ => trivial).imp
          fun _ _ h => h.2.2
      rw [Bool.eq_iff_iff, decide_eq_true_iff, ids_list, ids_list]
      exact flatMap_ids_eq_iff hmatch
    | _ =>
      rw [eq_of_shape hshape.symm rfl fun _ h => (by cases h)]
      exact decide_eq_true rfl

/-! ### Places -/

/-- Sequences of numbers are compared as lists. -/
theorem compare_idsShape (l m : List NodeId) : compare (idsShape l) (idsShape m) = compare l m := by
  rw [idsShape, idsShape, Shape.compare_seq, List.compare_map]
  simp only [NodeId.compare_num]
  rfl

/-- Entities are compared by their shapes, and those of one shape by their places. -/
theorem compare_located (a b : Entity) :
    compare a.located b.located = (compare a.shape b.shape).then (compare a.locations b.locations) := by
  rw [located, located, Shape.compare_seq, List.compare_cons_cons, List.compare_cons_cons,
    compare_idsShape]
  exact congrArg _ Ordering.then_eq

/-- Entities compare as equal when they are bare the same and at the same places. -/
theorem compare_located_eq_iff {a b : Entity} :
    compare a.located b.located = .eq ↔ a.bare = b.bare ∧ a.locations = b.locations := by
  rw [compare_located, Ordering.then_eq_eq, Std.LawfulEqOrd.compare_eq_iff_eq,
    Std.LawfulEqOrd.compare_eq_iff_eq, shape_eq_iff]

/-- Where all nodes have a place in the program, to be at one place is to be identical. -/
theorem aliases_eq_identical {a b : Entity} (ha : ∀ n ∈ a.nodes, n.span.isSynthetic = false)
    (hb : ∀ n ∈ b.nodes, n.span.isSynthetic = false) : a.aliases b = a.identical b := by
  -- no node is left out of the places
  have hlocations {e : Entity} (he : ∀ n ∈ e.nodes, n.span.isSynthetic = false) :
      e.locations = e.ids := by
    rw [locations, ids, List.filter_eq_self.2 fun n hn => by rw [he n hn, Bool.not_false]]
  rw [Bool.eq_iff_iff, aliases_iff, identical, Bool.and_eq_true, sameShape_iff, decide_eq_true_iff,
    hlocations ha, hlocations hb]

end Entity

end CodeRules
