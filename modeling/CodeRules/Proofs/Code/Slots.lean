import CodeRules.Proofs.Code.Tidy

/-!
# Slots and kinds

What a tag says about the slots of its nodes (`Tag.slotSorts`), and that kinds are built from their
slots: entities of the shapes of the slots of a kind make a kind of the same shape
(`NodeKind.exists_ofSlots`), and the slots of a kind that was built make the kind again
(`NodeKind.ofSlots_roundTrip`).
-/

namespace CodeRules

/-! ### Sorts of slots -/

namespace Tag

/-- What the slots of a node with this tag can hold. -/
def slotSorts : Tag → List SlotSort
  | classDecl => [.name, .modifiers, .nodes, .optType, .nodes]
  | fieldDecl => [.modifiers, .nodes, .type, .name, .optNode]
  | methodDecl => [.modifiers, .nodes, .type, .name, .nodes, .optNode]
  | param => [.type, .name]
  | annotationUse => [.name, .nodes]
  | block => [.nodes]
  | exprStmt => [.node]
  | returnStmt => [.optNode]
  | localVar => [.type, .name, .optNode]
  | literal => [.literal]
  | name => [.name]
  | this => []
  | implicitReceiver => [.type, .boolean]
  | fieldAccess => [.node, .name]
  | assign => [.node, .node]
  | call => [.optNode, .name, .nodes]
  | newObject => [.type, .nodes]
  | binary => [.operator, .node, .node]

end Tag

/-- The lists among the slots are those of the sorts for lists, and modifiers are as given. -/
def SlotSort.Fits (modifiers : List Modifier) : SlotSort → Entity → Prop
  | .nodes, e => ∃ ns, e = .ofNodes ns
  | .modifiers, e => e = .ofModifiers modifiers
  | _, _ => True

/-- The slots of a kind are as its tag says. -/
theorem NodeKind.forall₂_slotSorts (k : NodeKind Node) :
    List.Forall₂ (SlotSort.Fits k.modifiers) k.tag.slotSorts k.slots := by
  cases k <;> simp [tag, Tag.slotSorts, slots, modifiers, SlotSort.Fits]

/-! ### Building from slots -/

namespace Entity

variable {e : Entity}

/-- A literal is the only entity of its shape. -/
theorem shape_eq_value {v : Literal} : e.shape = (value v).shape ↔ e = .value v :=
  ⟨fun h => eq_of_shape h rfl fun _ h => (by cases h), fun h => h ▸ rfl⟩

/-- A name is the only entity of its shape. -/
theorem shape_eq_name {s : String} : e.shape = (name s).shape ↔ e = .name s := shape_eq_value

/-- A type is the only entity of its shape. -/
theorem shape_eq_type {t : CodeType} : e.shape = (type t).shape ↔ e = .type t :=
  ⟨fun h => eq_of_shape h rfl fun _ h => (by cases h), fun h => h ▸ rfl⟩

/-- A modifier is the only entity of its shape. -/
theorem shape_eq_modifier {m : Modifier} : e.shape = (modifier m).shape ↔ e = .modifier m :=
  ⟨fun h => eq_of_shape h rfl fun _ h => (by cases h), fun h => h ▸ rfl⟩

/-- The empty entity is the only one of its shape. -/
theorem shape_eq_empty : e.shape = empty.shape ↔ e = .empty :=
  ⟨fun h => eq_of_shape h rfl fun _ h => (by cases h), fun h => h ▸ rfl⟩

/-- A type that may be missing is the only entity of its shape. -/
theorem shape_eq_optType {t : Option CodeType} :
    e.shape = ((t.map type).getD .empty).shape ↔ e = (t.map type).getD .empty := by
  cases t with
  | none => exact shape_eq_empty
  | some t => exact shape_eq_type

/-- What has the shape of a node is a node of that shape. -/
theorem shape_eq_node {n : Node} :
    e.shape = (node n).shape ↔ ∃ n', e = node n' ∧ n'.shape = n.shape := by
  refine ⟨exists_node_of_shape, ?_⟩
  rintro ⟨n', rfl, hn⟩
  rw [shape, shape, hn]

/-- What has the shape of a node that may be missing is such a node, missing or not alike. -/
theorem shape_eq_ofNode? {n : Option Node} :
    e.shape = (ofNode? n).shape ↔
      ∃ n' : Option Node, e = ofNode? n' ∧ n'.map Node.shape = n.map Node.shape := by
  cases n with
  | none => simp [ofNode?, shape_eq_empty]
  | some n =>
    rw [ofNode?, shape_eq_node]
    constructor
    · rintro ⟨n', rfl, hn⟩
      exact ⟨some n', rfl, by rw [Option.map_some, Option.map_some, hn]⟩
    · rintro ⟨o, rfl, ho⟩
      obtain ⟨n', rfl, hn⟩ := Option.map_eq_some_iff.1 ho
      exact ⟨n', rfl, hn⟩

/-- What has the shapes of nodes are nodes of these shapes. -/
private theorem exists_nodes_of_shapes {ns : List Node} {items : List Entity}
    (h : items.map shape = (ns.map node).map shape) :
    ∃ ns' : List Node, items = ns'.map node ∧ ns'.map Node.shape = ns.map Node.shape := by
  induction ns generalizing items with
  | nil => exact ⟨[], by simpa using h, rfl⟩
  | cons n ns ih =>
    cases items with
    | nil => cases h
    | cons e items =>
      rw [List.map_cons, List.map_cons, List.map_cons, List.cons.injEq] at h
      obtain ⟨n', rfl, hn⟩ := exists_node_of_shape h.1
      obtain ⟨ns', rfl, hns⟩ := ih h.2
      exact ⟨n' :: ns', rfl, by rw [List.map_cons, List.map_cons, hn, hns]⟩

/-- What has the shape of a list of nodes is a list of nodes of the same shapes. -/
theorem shape_eq_ofNodes {ns : List Node} :
    e.shape = (ofNodes ns).shape ↔
      ∃ ns' : List Node, e = ofNodes ns' ∧ ns'.map Node.shape = ns.map Node.shape := by
  constructor
  · intro h
    obtain ⟨items, rfl, hitems⟩ := exists_list_of_shape h
    obtain ⟨ns', rfl, hns⟩ := exists_nodes_of_shapes hitems
    exact ⟨ns', rfl, hns⟩
  · rintro ⟨ns', rfl, hns⟩
    -- the shape of the list shows that its items are nodes, and their shapes
    have hmap (l : List Node) : (ofNodes l).shape =
        .seq [.num 2, .seq ((l.map Node.shape).map fun x => .seq [.num 0, x])] := by
      rw [ofNodes, shape, shapes_eq_map, List.map_map, List.map_map]
      rfl
    rw [hmap, hmap, hns]

/-- Modifiers can be read off their shapes. -/
theorem eq_modifiers_of_shapes {ms : List Modifier} {items : List Entity}
    (h : items.map shape = (ms.map modifier).map shape) : items = ms.map modifier := by
  induction ms generalizing items with
  | nil => simpa using h
  | cons m ms ih =>
    cases items with
    | nil => cases h
    | cons e items =>
      rw [List.map_cons, List.map_cons, List.map_cons, List.cons.injEq] at h
      rw [shape_eq_modifier.1 h.1, ih h.2, List.map_cons]

/-- A list of modifiers is the only entity of its shape. -/
theorem shape_eq_ofModifiers {ms : List Modifier} :
    e.shape = (ofModifiers ms).shape ↔ e = ofModifiers ms := by
  refine ⟨fun h => ?_, fun h => h ▸ rfl⟩
  obtain ⟨items, rfl, hitems⟩ := exists_list_of_shape h
  rw [eq_modifiers_of_shapes hitems, ofModifiers]

end Entity

namespace NodeKind

/-- Entities of the shapes of slots are the slots of a kind of the same shape. -/
theorem exists_slots_of_shapes {k : NodeKind Node} {es : List Entity}
    (h : es.map Entity.shape = k.slots.map Entity.shape) :
    ∃ k' : NodeKind Node, es = k'.slots ∧ k'.map Node.shape = k.map Node.shape := by
  -- the entities are those of the shapes slot by slot, which differ from kind to kind
  -- taken apart slot by slot, the shapes determine all but the child nodes
  cases k <;>
    simp only [slots, List.map_cons, List.map_nil, List.map_eq_cons_iff, List.map_eq_nil_iff,
      Entity.shape_eq_name, Entity.shape_eq_type, Entity.shape_eq_value, Entity.shape_eq_node,
      Entity.shape_eq_ofNode?, Entity.shape_eq_ofNodes, Entity.shape_eq_ofModifiers,
      Entity.shape_eq_optType] at h
  case classDecl n ms _ t _ =>
    obtain ⟨_, _, rfl, rfl, _, _, rfl, rfl, _, _, rfl, ⟨as, rfl, has⟩, _, _, rfl, rfl, _, _, rfl,
      ⟨members, rfl, hmembers⟩, rfl⟩ := h
    exact ⟨classDecl n ms as t members, rfl, by simp only [map, has, hmembers]⟩
  case fieldDecl ms _ t n _ =>
    obtain ⟨_, _, rfl, rfl, _, _, rfl, ⟨as, rfl, has⟩, _, _, rfl, rfl, _, _, rfl, rfl, _, _, rfl,
      ⟨init, rfl, hinit⟩, rfl⟩ := h
    exact ⟨fieldDecl ms as t n init, rfl, by simp only [map, has, hinit]⟩
  case methodDecl ms _ t n _ _ =>
    obtain ⟨_, _, rfl, rfl, _, _, rfl, ⟨as, rfl, has⟩, _, _, rfl, rfl, _, _, rfl, rfl, _, _, rfl,
      ⟨ps, rfl, hps⟩, _, _, rfl, ⟨body, rfl, hbody⟩, rfl⟩ := h
    exact ⟨methodDecl ms as t n ps body, rfl, by simp only [map, has, hps, hbody]⟩
  case param t n =>
    obtain ⟨_, _, rfl, rfl, _, _, rfl, rfl, rfl⟩ := h
    exact ⟨param t n, rfl, rfl⟩
  case annotationUse n _ =>
    obtain ⟨_, _, rfl, rfl, _, _, rfl, ⟨args, rfl, hargs⟩, rfl⟩ := h
    exact ⟨annotationUse n args, rfl, by simp only [map, hargs]⟩
  case block =>
    obtain ⟨_, _, rfl, ⟨stmts, rfl, hstmts⟩, rfl⟩ := h
    exact ⟨block stmts, rfl, by simp only [map, hstmts]⟩
  case exprStmt =>
    obtain ⟨_, _, rfl, ⟨n, rfl, hn⟩, rfl⟩ := h
    exact ⟨exprStmt n, rfl, by simp only [map, hn]⟩
  case returnStmt =>
    obtain ⟨_, _, rfl, ⟨v, rfl, hv⟩, rfl⟩ := h
    exact ⟨returnStmt v, rfl, by simp only [map, hv]⟩
  case localVar t n _ =>
    obtain ⟨_, _, rfl, rfl, _, _, rfl, rfl, _, _, rfl, ⟨init, rfl, hinit⟩, rfl⟩ := h
    exact ⟨localVar t n init, rfl, by simp only [map, hinit]⟩
  case literal v =>
    obtain ⟨_, _, rfl, rfl, rfl⟩ := h
    exact ⟨literal v, rfl, rfl⟩
  case name s =>
    obtain ⟨_, _, rfl, rfl, rfl⟩ := h
    exact ⟨name s, rfl, rfl⟩
  case this => exact ⟨this, h, rfl⟩
  case implicitReceiver t isStatic =>
    obtain ⟨_, _, rfl, rfl, _, _, rfl, rfl, rfl⟩ := h
    exact ⟨implicitReceiver t isStatic, rfl, rfl⟩
  case fieldAccess _ n =>
    obtain ⟨_, _, rfl, ⟨r, rfl, hr⟩, _, _, rfl, rfl, rfl⟩ := h
    exact ⟨fieldAccess r n, rfl, by simp only [map, hr]⟩
  case assign =>
    obtain ⟨_, _, rfl, ⟨t, rfl, ht⟩, _, _, rfl, ⟨v, rfl, hv⟩, rfl⟩ := h
    exact ⟨assign t v, rfl, by simp only [map, ht, hv]⟩
  case call _ n _ =>
    obtain ⟨_, _, rfl, ⟨r, rfl, hr⟩, _, _, rfl, rfl, _, _, rfl, ⟨args, rfl, hargs⟩, rfl⟩ := h
    exact ⟨call r n args, rfl, by simp only [map, hr, hargs]⟩
  case newObject t _ =>
    obtain ⟨_, _, rfl, rfl, _, _, rfl, ⟨args, rfl, hargs⟩, rfl⟩ := h
    exact ⟨newObject t args, rfl, by simp only [map, hargs]⟩
  case binary op _ _ =>
    obtain ⟨_, _, rfl, rfl, _, _, rfl, ⟨l, rfl, hl⟩, _, _, rfl, ⟨r, rfl, hr⟩, rfl⟩ := h
    exact ⟨binary op l r, rfl, by simp only [map, hl, hr]⟩

/-- A name is read as it stands. -/
@[simp] theorem readName_name (s : String) : readName (.name s) = .ok s := rfl

/-- A type that may be missing is read as it stands. -/
@[simp] theorem readOptType_of (t : Option CodeType) :
    readOptType ((t.map Entity.type).getD .empty) = .ok t := by
  cases t <;> rfl

/-- A node that may be missing is read unless it was never written. -/
@[simp] theorem readOptNode_of (n : Option Node) :
    readOptNode (.ofNode? n) = .ok (n.filter (!·.kind.isImplicitReceiver)) := by
  cases n with
  | none => rfl
  | some n =>
    rw [Entity.ofNode?, readOptNode, Option.filter_some]
    cases n.kind.isImplicitReceiver <;> rfl

/-- A list of nodes is read as it stands. -/
@[simp] theorem readNodes_of (ns : List Node) : readNodes (.ofNodes ns) = .ok ns := by
  rw [Entity.ofNodes, readNodes]
  induction ns with
  | nil => rfl
  | cons n ns ih =>
    rw [List.map_cons, List.mapM_cons, ih]
    rfl

/-- A list of modifiers is read as it stands. -/
@[simp] theorem readModifiers_of (ms : List Modifier) :
    readModifiers (.ofModifiers ms) = .ok ms := by
  rw [Entity.ofModifiers, readModifiers, Except.functor_map_eq_ok]
  refine ⟨ms.map fun m => [m], Except.mapM_eq_ok.2 ?_, ?_⟩
  · exact List.forall₂_map_left_iff.2 (List.forall₂_map_right_iff.2
      (List.forall₂_same.2 fun _ _ => rfl))
  · rw [← List.flatMap_def, List.flatMap_singleton']

/-- An operator is read from its symbol. -/
@[simp] theorem readOperator_symbol (op : Operator) : readOperator (.name op.symbol) = .ok op := by
  cases op <;> rfl

/-- A kind is built from its slots, without children that were never written. -/
theorem ofSlots_slots (k : NodeKind Node) : ofSlots k.tag k.slots = .ok k.written := by
  cases k <;>
    simp [ofSlots, tag, slots, written, inSlot, readType, readNode, readLiteral, readBool]

/-- Whether a child was written shows in its shape. -/
private theorem filter_written_congr {o o' : Option Node}
    (h : o'.map Node.shape = o.map Node.shape) :
    (o'.filter (!·.kind.isImplicitReceiver)).map Node.shape =
      (o.filter (!·.kind.isImplicitReceiver)).map Node.shape := by
  cases o <;> cases o' <;> simp only [Option.map_none, Option.map_some, reduceCtorEq,
    Option.some.injEq] at h
  · rfl
  · rename_i n n'
    rw [Option.filter_some, Option.filter_some, Node.isImplicitReceiver_eq h]
    cases n.kind.isImplicitReceiver <;> simp [h]

/-- Kinds of one shape have one shape without the children that were never written. -/
theorem written_congr {k k' : NodeKind Node} (h : k'.map Node.shape = k.map Node.shape) :
    k'.written.map Node.shape = k.written.map Node.shape := by
  cases k <;> cases k' <;> simp only [map, reduceCtorEq, fieldDecl.injEq, methodDecl.injEq,
    returnStmt.injEq, localVar.injEq, call.injEq] at h
  case fieldDecl.fieldDecl => simp only [written, map, h, filter_written_congr h.2.2.2.2]
  case methodDecl.methodDecl => simp only [written, map, h, filter_written_congr h.2.2.2.2.2]
  case returnStmt.returnStmt => simp only [written, map, filter_written_congr h]
  case localVar.localVar => simp only [written, map, h, filter_written_congr h.2.2]
  case call.call => simp only [written, map, h, filter_written_congr h.1]
  all_goals simp only [written, map, h]

/-- Entities of the shapes of slots make a kind of the same shape. -/
theorem exists_ofSlots {k : NodeKind Node} {es : List Entity}
    (h : es.map Entity.shape = k.slots.map Entity.shape) :
    ∃ k', ofSlots k.tag es = .ok k' ∧ k'.map Node.shape = k.written.map Node.shape := by
  obtain ⟨k', rfl, hk⟩ := exists_slots_of_shapes h
  have htag : k.tag = k'.tag := by rw [← tag_map Node.shape, ← hk, tag_map]
  exact ⟨k'.written, htag ▸ ofSlots_slots k', written_congr hk⟩

end NodeKind

/-! ### Nodes of slots -/

namespace Entity

/-- The nodes of a list of nodes are those of its items in order. -/
@[simp] theorem nodes_ofNodes (ns : List Node) : (ofNodes ns).nodes = ns.flatMap Node.preorder := by
  rw [ofNodes, nodes, nodesAll_eq_flatMap, List.flatMap_map]
  rfl

/-- A node that may be missing has its own nodes or none. -/
@[simp] theorem nodes_ofNode? (o : Option Node) :
    (ofNode? o).nodes = o.toList.flatMap Node.preorder := by
  cases o with
  | none => rfl
  | some n => simp [ofNode?, nodes]

/-- Modifiers have no nodes. -/
@[simp] theorem nodes_ofModifiers (ms : List Modifier) : (ofModifiers ms).nodes = [] := by
  rw [ofModifiers, nodes, nodesAll_eq_flatMap, List.flatMap_map, List.flatMap_eq_nil_iff]
  exact fun _ _ => rfl

end Entity

namespace NodeKind

/-- The nodes of the slots are the nodes below the children, in the same order. -/
theorem nodes_slots (k : NodeKind Node) :
    k.slots.flatMap Entity.nodes = k.children.flatMap Node.preorder := by
  cases k with
  | classDecl name modifiers annotations superclass members =>
    cases superclass <;> simp [slots, children, Entity.name, Entity.nodes]
  | _ => simp [slots, children, Entity.name, Entity.nodes]

section

variable {e : Entity}

/-- A node is read with its nodes. -/
private theorem sublist_of_readNode {n : Node} (h : readNode e = .ok n) :
    (Entity.node n).nodes.Sublist e.nodes := by
  cases e with
  | node k => exact Except.ok.inj h ▸ List.Sublist.refl _
  | _ => cases h

/-- A node that may be missing is read with its nodes or with none. -/
private theorem sublist_of_readOptNode {o : Option Node} (h : readOptNode e = .ok o) :
    (Entity.ofNode? o).nodes.Sublist e.nodes := by
  cases e with
  | node k =>
    rw [← Except.ok.inj h]
    split
    · exact List.nil_sublist _
    · exact List.Sublist.refl _
  | empty => exact Except.ok.inj h ▸ List.nil_sublist _
  | _ => cases h

/-- Nodes are read with their nodes in order. -/
private theorem sublist_of_readNodes {ns : List Node} (h : readNodes e = .ok ns) :
    (Entity.ofNodes ns).nodes.Sublist e.nodes := by
  cases e with
  | list items =>
    have hitems := Except.mapM_eq_ok.1 h
    clear h
    rw [Entity.nodes_ofNodes, Entity.nodes, Entity.nodesAll_eq_flatMap]
    induction hitems with
    | nil => exact List.Sublist.refl _
    | @cons x n items ns hx _ ih =>
      rw [List.flatMap_cons, List.flatMap_cons]
      refine List.Sublist.append ?_ ih
      cases x with
      | node k => exact Except.ok.inj hx ▸ List.Sublist.refl _
      | _ => cases hx
  | empty => exact Except.ok.inj h ▸ List.nil_sublist _
  | _ => cases h

/-- A type has no nodes. -/
private theorem nodes_optType (t : Option CodeType) :
    ((t.map Entity.type).getD .empty).nodes = [] := by
  cases t <;> rfl

/-- Naming the slot of a mismatch changes nothing about what is read. -/
private theorem inSlot_eq_ok {α : Type} {tag : Tag} {i : Nat} {r : Except SlotMismatch α} {a : α} :
    inSlot tag i r = .ok a ↔ r = .ok a := Except.mapError_eq_ok

/-- Each slot of a kind that was built has nodes of the slot it was built from only. -/
theorem forall₂_slots_of_ofSlots {tag : Tag} {slots : List Entity} {kind : NodeKind Node}
    (h : ofSlots tag slots = .ok kind) :
    List.Forall₂ (fun e e' => e.nodes.Sublist e'.nodes) kind.slots slots := by
  -- one case per kind: each of its slots was read from the slot at the same place
  unfold ofSlots at h
  split at h
  all_goals
    first
    | (cases h; done)
    | (simp only [Except.bind_eq_ok, inSlot_eq_ok, Except.pure_eq_ok] at h
       grind [NodeKind.slots, List.forall₂_cons, List.Forall₂.nil, sublist_of_readNode,
         sublist_of_readOptNode, sublist_of_readNodes, nodes_optType, Entity.nodes_ofModifiers,
         Entity.nodes, Entity.name])

/-- The nodes below a kind that was built are nodes of its slots, in their order. -/
theorem children_sublist_of_ofSlots {tag : Tag} {slots : List Entity} {kind : NodeKind Node}
    (h : ofSlots tag slots = .ok kind) :
    (kind.children.flatMap Node.preorder).Sublist (slots.flatMap Entity.nodes) := by
  have hslots := forall₂_slots_of_ofSlots h
  clear h
  rw [← nodes_slots]
  generalize kind.slots = built at hslots ⊢
  induction hslots with
  | nil => exact List.Sublist.refl _
  | cons hnodes _ ih => exact hnodes.append ih

/-- The nodes below a kind that was built come from its slots. -/
theorem nodes_of_ofSlots {tag : Tag} {slots : List Entity} {kind : NodeKind Node}
    (h : ofSlots tag slots = .ok kind) :
    ∀ c ∈ kind.children, ∀ m ∈ c.preorder, ∃ e ∈ slots, m ∈ e.nodes := fun c hc _ hm =>
  List.mem_flatMap.1 ((children_sublist_of_ofSlots h).subset (List.mem_flatMap.2 ⟨c, hc, hm⟩))

/-! ### There and back -/

variable {tag : Tag} {slots : List Entity} {kind : NodeKind Node}

/-- What is read where a tree may be absent was written. -/
private theorem isImplicitReceiver_of_readOptNode {o : Option Node} (h : readOptNode e = .ok o)
    {c : Node} (hc : o = some c) : c.kind.isImplicitReceiver = false := by
  cases e with
  | node n =>
    rw [readOptNode, hc, Except.ok.injEq] at h
    split at h
    · cases h
    · rename_i hwritten
      rw [← Option.some.inj h]
      exact Bool.eq_false_iff.2 hwritten
  | empty =>
    rw [hc] at h
    cases h
  | _ => cases h

/-- A kind that was built has the tag that was asked for. -/
theorem tag_of_ofSlots (h : ofSlots tag slots = .ok kind) : kind.tag = tag := by
  unfold ofSlots at h
  split at h
  all_goals
    first
    | (cases h; done)
    | (simp only [Except.bind_eq_ok, inSlot_eq_ok, Except.pure_eq_ok] at h
       grind [NodeKind.tag])

/-- The optional child of a kind that was built was written. -/
theorem isImplicitReceiver_of_ofSlots (h : ofSlots tag slots = .ok kind) :
    ∀ c, kind.optionalChild? = some c → c.kind.isImplicitReceiver = false := by
  unfold ofSlots at h
  split at h
  all_goals
    first
    | (cases h; done)
    | (simp only [Except.bind_eq_ok, inSlot_eq_ok, Except.pure_eq_ok] at h
       grind [optionalChild?, isImplicitReceiver_of_readOptNode])

/-- Building from the slots of a kind gives the kind back, numbers and spans of its children included,
exactly when its optional child was written. Whatever slots a kind is built from, it has the tag that
was asked for, and its own slots give it back: building brings slots into their final form at once. -/
theorem ofSlots_roundTrip :
    (∀ k : NodeKind Node, ofSlots k.tag k.slots = .ok k ↔
      ∀ c, k.optionalChild? = some c → c.kind.isImplicitReceiver = false) ∧
    ∀ tag slots k, ofSlots tag slots = .ok k → k.tag = tag ∧ ofSlots k.tag k.slots = .ok k := by
  have hback (k : NodeKind Node)
      (h : ∀ c, k.optionalChild? = some c → c.kind.isImplicitReceiver = false) :
      ofSlots k.tag k.slots = .ok k := by
    rw [ofSlots_slots, written_eq_self_of_optionalChild? h]
  refine ⟨fun k => ⟨isImplicitReceiver_of_ofSlots, hback k⟩, fun tag slots k h => ?_⟩
  exact ⟨tag_of_ofSlots h, hback k (isImplicitReceiver_of_ofSlots h)⟩

namespace Unqualified

/-- The slots of a call whose receiver was never written and whose arguments are absent. -/
def given : List Entity :=
  [.node ⟨⟨7⟩, ⟨0, 3, 4⟩, .implicitReceiver (.named "A" []) true⟩, .name "run", .empty]

def run : NodeKind Node := .call none "run" []

/-- The call is built without the receiver and with an empty list, and then given back. -/
theorem ofSlots_roundTrip_run :
    ofSlots .call given = .ok run ∧ run.slots = [.empty, .name "run", .list []] ∧
      ofSlots .call run.slots = .ok run := by
  have h : ofSlots .call given = .ok run := rfl
  exact ⟨h, rfl, (ofSlots_roundTrip.2 .call given run h).2⟩

end Unqualified

end

end NodeKind

end CodeRules
