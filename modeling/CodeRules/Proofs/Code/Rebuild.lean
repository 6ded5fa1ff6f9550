import CodeRules.Proofs.Code.Copy
import CodeRules.Proofs.Code.Slots
import Mathlib.Data.List.Flatten

/-!
# Copies and slots

A copy of a node can be made without looking at what kind of node it is: its slots are copied, and a
node with the same tag is built from them (`Entity.rebuild`). The copies of slots always fit
(`Node.exists_ofSlots_copyAll`), so this never fails and is the same as copying
(`Entity.gives_rebuild`).
-/

namespace CodeRules

open Effect

namespace Entity

/-- Nodes are copied one after the other. -/
private theorem copyAll_nodes (ns : List Node) :
    copyAll (ns.map .node) = List.map node <$> ns.mapM Node.copy := by
  induction ns with
  | nil => simp [copyAll]
  | cons n ns ih => simp [copyAll, copy, ih]

/-- Copying leaves modifiers as they are. -/
private theorem copyAll_modifiers (ms : List Modifier) :
    copyAll (ms.map .modifier) = pure (ms.map .modifier) := by
  induction ms with
  | nil => rfl
  | cons m ms ih => simp [copyAll, copy, ih]

/-- A list of nodes is copied as such a list. -/
private theorem copy_ofNodes (ns : List Node) :
    (ofNodes ns).copy = ofNodes <$> ns.mapM Node.copy := by
  rw [ofNodes, copy, copyAll_nodes, bind_pure_comp, Functor.map_map]
  rfl

/-- A node that may be absent is copied as such a node. -/
private theorem copy_ofNode? (o : Option Node) :
    (ofNode? o).copy = ofNode? <$> o.mapM Node.copy := by
  cases o <;> rfl

/-- A list of modifiers is its own copy. -/
private theorem copy_ofModifiers (ms : List Modifier) :
    (ofModifiers ms).copy = pure (ofModifiers ms) := by
  rw [ofModifiers, copy, copyAll_modifiers, pure_bind]

end Entity

namespace NodeKind

open Entity

/-- The copies of the slots are the slots of a copy. -/
theorem copyAll_slots (k : NodeKind Node) : copyAll k.slots = slots <$> k.mapM Node.copy := by
  cases k with
  | classDecl name modifiers annotations superclass members =>
    cases superclass <;>
      simp [slots, mapM, copyAll, copy_ofNodes, copy_ofModifiers, copy, Entity.name]
  | _ =>
    simp [slots, mapM, copyAll, copy_ofNodes, copy_ofModifiers, copy_ofNode?, copy, Entity.name]

/-- Changing children keeps the tag. -/
theorem tag_mapM {σ α β : Type} (f : α → StateM σ β) (k : NodeKind α) (s : σ) :
    ((k.mapM f).run s).1.tag = k.tag := by
  cases k <;> rfl

/-- Children that are carried beside their copies are copied in the same order. -/
private theorem mapM_map_copy (k : NodeKind Node) :
    (k.map fun c => (c, c.copy)).mapM Prod.snd = k.mapM Node.copy := by
  have hlist (ns : List Node) : (ns.map fun c => (c, c.copy)).mapM Prod.snd = ns.mapM Node.copy := by
    induction ns with
    | nil => rfl
    | cons n ns ih => simp [ih]
  have hoption (o : Option Node) : (o.map fun c => (c, c.copy)).mapM Prod.snd = o.mapM Node.copy := by
    cases o <;> rfl
  cases k <;> simp only [map, mapM, hlist, hoption]

end NodeKind

namespace Node

/-- One level of the copy. -/
theorem copy_eq (n : Node) : n.copy = (do
    let kind ← n.kind.mapM copy
    Arena.make { copiedFrom := some n.id } kind.written) := by
  rw [copy, fold_eq]
  exact congrArg (· >>= fun kind => Arena.make { copiedFrom := some n.id } kind.written)
    (NodeKind.mapM_map_copy n.kind)

/-- A node is copied by building a node from the copies of its slots, and these always fit. -/
theorem exists_ofSlots_copyAll (n : Node) (a : Arena) : ∃ slots kind a',
    (Entity.copyAll n.kind.slots).run a = (slots, a') ∧ NodeKind.ofSlots n.tag slots = .ok kind ∧
      n.copy.run a = (Arena.make { copiedFrom := some n.id } kind).run a' := by
  -- copying the slots is copying the children, so they are the slots of the new kind
  have hslots := congrArg (StateT.run · a) n.kind.copyAll_slots
  have hkind := NodeKind.ofSlots_slots ((n.kind.mapM copy).run a).1
  rw [NodeKind.tag_mapM] at hkind
  refine ⟨_, _, _, hslots, hkind, ?_⟩
  rw [copy_eq]
  rfl

/-- The slots of a node have fewer nodes than the node. -/
theorem length_nodes_lt {n : Node} {e : Entity} (he : e ∈ n.kind.slots) :
    e.nodes.length < n.preorder.length := by
  have hnodes := List.Sublist.flatMap (List.singleton_sublist.2 he) Entity.nodes
  rw [NodeKind.nodes_slots, List.flatMap_singleton] at hnodes
  rw [preorder_eq, List.length_cons]
  exact Nat.lt_succ_of_le hnodes.length_le

end Node

namespace Entity

/-- A copy of an entity that is made slot by slot, which fails where the copies of the slots of a node
do not fit. -/
def rebuild : Entity → ExceptT SlotError (StateM Arena) Entity
  | .node n => do
    let slots ← n.kind.slots.attach.mapM fun e => rebuild e.1
    match NodeKind.ofSlots n.tag slots with
    | .ok kind => return .node (← Arena.make { copiedFrom := some n.id } kind)
    | .error e => throw e
  | .list items => return .list (← items.attach.mapM fun e => rebuild e.1)
  | e => return e
termination_by e => (e.nodes.length, sizeOf e)
decreasing_by
  -- the slots of a node have fewer nodes, the items of a list fewer constructors
  · exact Prod.Lex.left _ _ (Node.length_nodes_lt e.2)
  · refine Prod.lex_def.2 ((Nat.lt_or_eq_of_le ?_).imp_right fun h => ⟨h, ?_⟩)
    · have hnodes := List.Sublist.flatMap (List.singleton_sublist.2 e.2) nodes
      rw [List.flatMap_singleton, ← nodesAll_eq_flatMap] at hnodes
      exact hnodes.length_le
    · have := List.sizeOf_lt_of_mem e.2
      simp only [list.sizeOf_spec]
      omega

/-- Going through the items does not depend on the proofs that they are items. -/
private theorem mapM_attach_rebuild (es : List Entity) :
    (es.attach.mapM fun e => rebuild e.1) = es.mapM rebuild := by
  rw [List.mapM_subtype (fun _ _ => rfl), List.unattach_attach]

/-- One level of copying a node slot by slot. -/
theorem rebuild_node (n : Node) : rebuild (.node n) = (do
    let slots ← n.kind.slots.mapM rebuild
    match NodeKind.ofSlots n.tag slots with
    | .ok kind => return .node (← Arena.make { copiedFrom := some n.id } kind)
    | .error e => throw e) := by
  rw [rebuild, mapM_attach_rebuild]

/-- One level of copying a list item by item. -/
theorem rebuild_list (items : List Entity) :
    rebuild (.list items) = (return .list (← items.mapM rebuild)) := by
  rw [rebuild, mapM_attach_rebuild]

/-- Several entities are copied slot by slot as each of them is. -/
private theorem gives_rebuildAll {es : List Entity}
    (h : ∀ e ∈ es, ∀ a, Gives e.rebuild a (e.copy.run a).1 (e.copy.run a).2) (a : Arena) :
    Gives (es.mapM rebuild) a ((copyAll es).run a).1 ((copyAll es).run a).2 := by
  induction es generalizing a with
  | nil => exact gives_mapM_nil.2 ⟨rfl, rfl⟩
  | cons e es ih =>
    exact gives_mapM_cons.2 ⟨_, _, _, h e (List.mem_cons_self ..) a,
      ih (fun d hd => h d (List.mem_cons_of_mem _ hd)) _, rfl⟩

/-- Copying slot by slot never fails, and makes the copy. -/
theorem gives_rebuild (e : Entity) (a : Arena) :
    Gives e.rebuild a (e.copy.run a).1 (e.copy.run a).2 := by
  induction e using rebuild.induct generalizing a with
  | case1 n ih =>
    obtain ⟨slots, kind, a₁, hslots, hkind, hcopy⟩ := n.exists_ofSlots_copyAll a
    have hall := gives_rebuildAll (fun e he => ih ⟨e, he⟩) a
    -- the slots are copied by hypothesis, and the node is built from them
    rw [hslots] at hall
    rw [rebuild_node, gives_bind]
    refine ⟨slots, a₁, hall, ?_⟩
    rw [hkind, copy, StateT.run_bind, hcopy]
    rfl
  | case2 items ih =>
    rw [rebuild_list, gives_bind]
    exact ⟨_, _, gives_rebuildAll (fun e he => ih ⟨e, he⟩) a, rfl⟩
  | case3 e hnode hlist =>
    cases e with
    | node n => exact absurd rfl (hnode n)
    | list items => exact absurd rfl (hlist items)
    | _ =>
      rw [rebuild]
      · rfl
      all_goals simp

end Entity

end CodeRules
