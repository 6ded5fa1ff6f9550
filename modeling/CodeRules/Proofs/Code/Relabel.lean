import CodeRules.Fragment.Generate
import CodeRules.Fragment.Recognize
import CodeRules.Proofs.Code.Shape
import CodeRules.Proofs.Effect
import CodeRules.Proofs.List

/-!
# New numbers and spans for nodes

A `Relabeling` gives nodes new numbers and spans, but what was read from a file keeps its number and
stays read. So what an entity is made of, where it stands in the program, its text, and the slots of
its nodes are what they were. `NodeKind.ofSlots_relabel` says the same of building a node from slots,
errors included.
-/

namespace CodeRules

/-- New numbers and spans for nodes. -/
structure Relabeling where
  /-- The new number and span of a node. -/
  place : NodeId → Span → NodeId × Span
  isSynthetic_place (i : NodeId) (s : Span) : (place i s).2.isSynthetic = s.isSynthetic
  place_of_read (i : NodeId) (s : Span) : s.isSynthetic = false → (place i s).1 = i

/-! ### Outcomes -/

namespace Except

variable {ε ε' α β γ δ : Type} {r : ε → ε'} {f : α → β} {h : γ → δ}

/-- The second outcome is the first one with its value and its error changed. -/
def Follows (r : ε → ε') (f : α → β) (x : Except ε α) (y : Except ε' β) : Prop :=
  y = (x.map f).mapError r

/-- The second outcome has a value when the first has, and it is the changed one. -/
theorem Follows.toOption_eq {x : Except ε α} {y : Except ε' β} (h : Follows r f x y) :
    y.toOption = x.toOption.map f := by
  rw [h, toOption_mapError, toOption_map]

/-- A changed value follows the value. -/
theorem follows_pure (a : α) : Follows r f (pure a) (pure (f a)) := rfl

/-- A changed error follows the error. -/
theorem follows_error (e : ε) : Follows r f (.error e) (.error (r e)) := rfl

/-- Steps that follow each other are followed by their composition. -/
theorem follows_bind {x : Except ε α} {y : Except ε' β} {k : α → Except ε γ}
    {k' : β → Except ε' δ} (hx : Follows r f x y) (hk : ∀ a, Follows r h (k a) (k' (f a))) :
    Follows r h (x >>= k) (y >>= k') := by
  obtain rfl := hx
  cases x with
  | error e => rfl
  | ok a => exact hk a

/-- Values may be changed in corresponding ways afterwards. -/
theorem follows_map {x : Except ε α} {y : Except ε' β} {k : α → γ} {k' : β → δ}
    (hx : Follows r f x y) (hk : ∀ a, k' (f a) = h (k a)) : Follows r h (k <$> x) (k' <$> y) := by
  obtain rfl := hx
  cases x with
  | error e => rfl
  | ok a => exact congrArg Except.ok (hk a)

/-- Going through changed elements changes the results, when it does for each element. -/
theorem follows_mapM {g : α → Except ε γ} {g' : β → Except ε' δ}
    (hg : ∀ a, Follows r h (g a) (g' (f a))) (l : List α) :
    Follows r (List.map h) (l.mapM g) ((l.map f).mapM g') := by
  induction l with
  | nil => rfl
  | cons a l ih =>
    rw [List.map_cons, List.mapM_cons, List.mapM_cons]
    exact follows_bind (hg a) fun b => follows_bind ih fun bs => rfl

end Except

variable (ρ : Relabeling)

/-! ### Nodes -/

namespace NodeKind

variable {α β : Type}

/-- The order of modifiers does not depend on the children. -/
theorem canonical_map (f : α → β) (k : NodeKind α) : (k.map f).canonical = k.canonical.map f := by
  cases k <;> rfl

/-- What is a receiver that was never written does not depend on the children. -/
theorem isImplicitReceiver_map (f : α → β) (k : NodeKind α) :
    (k.map f).isImplicitReceiver = k.isImplicitReceiver := by
  cases k <;> rfl

/-- Children can be changed before or after unwritten ones are left out, if the change keeps which ones were
never written. -/
theorem written_map {f : Node → Node}
    (hf : ∀ c, (f c).kind.isImplicitReceiver = c.kind.isImplicitReceiver) (k : NodeKind Node) :
    (k.map f).written = k.written.map f := by
  have hfilter (o : Option Node) : (o.map f).filter (!·.kind.isImplicitReceiver) =
      (o.filter (!·.kind.isImplicitReceiver)).map f := by
    cases o with
    | none => rfl
    | some c =>
      rw [Option.map_some, Option.filter_some, Option.filter_some, hf]
      split <;> rfl
  cases k <;> simp only [map, written, hfilter]

end NodeKind

namespace Node

/-- The tree with new numbers and spans. -/
def relabel (ρ : Relabeling) : Node → Node :=
  fold fun n k =>
    let place := ρ.place n.id n.span
    ⟨place.1, place.2, k.map Prod.snd⟩

/-- One level of a tree with new numbers and spans. -/
theorem relabel_eq (n : Node) : n.relabel ρ =
    ⟨(ρ.place n.id n.span).1, (ρ.place n.id n.span).2, n.kind.map (relabel ρ)⟩ := by
  rw [relabel, fold_eq, NodeKind.map_map]
  rfl

/-- The kind stays, with new numbers in the children. -/
@[simp] theorem kind_relabel (n : Node) : (n.relabel ρ).kind = n.kind.map (relabel ρ) := by
  rw [relabel_eq]

/-- The number is the new one of the node. -/
theorem id_relabel (n : Node) : (n.relabel ρ).id = (ρ.place n.id n.span).1 := by rw [relabel_eq]

/-- The span is the new one of the node. -/
theorem span_relabel (n : Node) : (n.relabel ρ).span = (ρ.place n.id n.span).2 := by
  rw [relabel_eq]

/-- Made nodes stay made, and read ones read. -/
@[simp] theorem isSynthetic_relabel (n : Node) :
    (n.relabel ρ).span.isSynthetic = n.span.isSynthetic := by
  rw [span_relabel, ρ.isSynthetic_place]

/-- A node that was read keeps its number. -/
theorem id_relabel_of_read {n : Node} (h : n.span.isSynthetic = false) : (n.relabel ρ).id = n.id := by
  rw [id_relabel, ρ.place_of_read _ _ h]

/-- Tags do not depend on numbers. -/
@[simp] theorem tag_relabel (n : Node) : (n.relabel ρ).tag = n.tag := by
  rw [tag, kind_relabel, NodeKind.tag_map, tag]

/-- The children get new numbers too. -/
@[simp] theorem children_relabel (n : Node) :
    (n.relabel ρ).children = n.children.map (relabel ρ) := by
  rw [children, kind_relabel, NodeKind.children_map, children]

/-- Names do not depend on numbers. -/
@[simp] theorem name?_relabel (n : Node) : (n.relabel ρ).name? = n.name? := by
  rw [name?, kind_relabel, name?]
  cases n.kind <;> rfl

/-- Signatures do not depend on numbers. -/
@[simp] theorem signature?_relabel (n : Node) : (n.relabel ρ).signature? = n.signature? := by
  rw [signature?, kind_relabel, signature?]
  cases n.kind with
  | methodDecl ms as t name ps body =>
    -- a parameter is read from its kind, which stays
    simp only [NodeKind.map, List.filterMap_map]
    refine congrArg some (congrArg (MethodSignature.mk name) (List.filterMap_congr fun p _ => ?_))
    simp only [Function.comp_apply, kind_relabel]
    cases p.kind <;> rfl
  | _ => rfl

/-- Whether a receiver was written does not depend on numbers. -/
@[simp] theorem isImplicitReceiver_relabel (n : Node) :
    (n.relabel ρ).kind.isImplicitReceiver = n.kind.isImplicitReceiver := by
  rw [kind_relabel, NodeKind.isImplicitReceiver_map]

/-- The shape of a tree shows no numbers. -/
@[simp] theorem shape_relabel (n : Node) : (n.relabel ρ).shape = n.shape := by
  induction n using Node.induction with
  | step n ih =>
  rw [shape_eq, kind_relabel, NodeKind.map_map, shape_eq n]
  exact congrArg NodeKind.shape (NodeKind.map_congr ih)

/-- The text of a tree shows no numbers. -/
@[simp] theorem toString_relabel (n : Node) : (n.relabel ρ).toString = n.toString := by
  have htext (n : Node) : n.toString = (n.kind.map Node.toString).text := by
    rw [Node.toString, fold_eq, NodeKind.map_map]
    rfl
  induction n using Node.induction with
  | step n ih =>
  rw [htext, kind_relabel, NodeKind.map_map, htext n]
  exact congrArg NodeKind.text (NodeKind.map_congr ih)

/-- The nodes of a tree get new numbers in order. -/
@[simp] theorem preorder_relabel (n : Node) :
    (n.relabel ρ).preorder = n.preorder.map (relabel ρ) := by
  induction n using Node.induction with
  | step n ih =>
  rw [preorder_eq, children_relabel, preorder_eq n, List.map_cons, List.map_flatMap,
    List.flatMap_map]
  exact congrArg (n.relabel ρ :: ·) (List.flatMap_congr ih)

/-- New numbers can be given before or after a node is made. -/
theorem relabel_make (i : NodeId) (span : Span) (kind : NodeKind Node) :
    (make i span kind).relabel ρ =
      make (ρ.place i span).1 (ρ.place i span).2 (kind.map (relabel ρ)) := by
  rw [relabel_eq, make, make, NodeKind.canonical_map]

end Node

/-! ### Entities -/

namespace Entity

mutual

/-- The entity with new numbers and spans for its nodes. -/
def relabel (ρ : Relabeling) : Entity → Entity
  | .node n => .node (n.relabel ρ)
  | .list items => .list (relabelAll ρ items)
  | e => e

/-- Several entities with new numbers and spans for their nodes. -/
def relabelAll (ρ : Relabeling) : List Entity → List Entity
  | [] => []
  | e :: es => e.relabel ρ :: relabelAll ρ es

end

/-- Several entities get new numbers one by one. -/
theorem relabelAll_eq_map (es : List Entity) : relabelAll ρ es = es.map (relabel ρ) := by
  induction es with
  | nil => rfl
  | cons e es ih => rw [relabelAll, ih, List.map_cons]

/-- The nodes of an entity get new numbers in order. -/
@[simp] theorem nodes_relabel (e : Entity) :
    (e.relabel ρ).nodes = e.nodes.map (Node.relabel ρ) := by
  induction e using Entity.induction with
  | node n => exact n.preorder_relabel ρ
  | list items ih =>
    rw [relabel, nodes, nodesAll_eq_flatMap, relabelAll_eq_map, nodes, nodesAll_eq_flatMap,
      List.map_flatMap, List.flatMap_map]
    exact List.flatMap_congr ih
  | _ => rfl

/-- The shape of an entity shows no numbers. -/
@[simp] theorem shape_relabel (e : Entity) : (e.relabel ρ).shape = e.shape := by
  induction e using Entity.induction with
  | node n => rw [relabel, shape, n.shape_relabel ρ, shape]
  | list items ih =>
    rw [relabel, shape, shapes_eq_map, relabelAll_eq_map, shape, shapes_eq_map, List.map_map]
    simpa using ih
  | _ => rfl

/-- The text of an entity shows no numbers. -/
@[simp] theorem toString_relabel (e : Entity) : (e.relabel ρ).toString = e.toString := by
  have htexts (es : List Entity) : Entity.toStrings es = es.map Entity.toString := by
    induction es with
    | nil => rfl
    | cons e es ih => rw [Entity.toStrings, ih, List.map_cons]
  induction e using Entity.induction with
  | node n => exact n.toString_relabel ρ
  | list items ih =>
    rw [relabel, Entity.toString, Entity.toString, htexts, htexts, relabelAll_eq_map, List.map_map]
    exact congrArg (fun texts => "[" ++ ", ".intercalate texts ++ "]") (List.map_congr_left ih)
  | _ => rfl

/-- Entities that are the same with new numbers have one text. -/
theorem toString_eq_of_relabel {ρ : Relabeling} {e e' : Entity} (h : e.relabel ρ = e'.relabel ρ) :
    toString e = toString e' := by
  show e.toString = e'.toString
  rw [← e.toString_relabel ρ, h, e'.toString_relabel]

/-- Where an entity has nodes in the program does not change. -/
@[simp] theorem locations_relabel (e : Entity) : (e.relabel ρ).locations = e.locations := by
  rw [locations, nodes_relabel, locations, List.filter_map, List.map_map]
  have hfilter : (fun n : Node => !n.span.isSynthetic) ∘ Node.relabel ρ =
      fun n => !n.span.isSynthetic := by
    funext n
    rw [Function.comp_apply, Node.isSynthetic_relabel]
  rw [hfilter]
  -- a node that is kept was read, so its number stays
  refine List.map_congr_left fun n hn => Node.id_relabel_of_read ρ ?_
  simpa using (List.mem_filter.1 hn).2

/-- Shape and places stay. -/
@[simp] theorem located_relabel (e : Entity) : (e.relabel ρ).located = e.located := by
  rw [located, shape_relabel, locations_relabel, located]

/-- Whether entities have one shape does not depend on numbers. -/
@[simp] theorem sameShape_relabel (a b : Entity) :
    (a.relabel ρ).sameShape (b.relabel ρ) = a.sameShape b := by
  rw [sameShape, shape_relabel, shape_relabel, sameShape]

/-- Entities alias each other also with new numbers. -/
@[simp] theorem aliases_relabel (a b : Entity) :
    (a.relabel ρ).aliases (b.relabel ρ) = a.aliases b := by
  rw [aliases, located_relabel, located_relabel, aliases]

/-- What is the same with new numbers has the same shape as something else. -/
theorem sameShape_eq_of_relabel {ρ : Relabeling} {a a' b b' : Entity}
    (ha : a.relabel ρ = a'.relabel ρ) (hb : b.relabel ρ = b'.relabel ρ) :
    a.sameShape b = a'.sameShape b' := by
  rw [← sameShape_relabel ρ, ha, hb, sameShape_relabel]

/-- Entities that are the same with new numbers alias the same. -/
theorem aliases_eq_of_relabel {ρ : Relabeling} {a a' b b' : Entity}
    (ha : a.relabel ρ = a'.relabel ρ) (hb : b.relabel ρ = b'.relabel ρ) :
    a.aliases b = a'.aliases b' := by
  rw [← aliases_relabel ρ, ha, hb, aliases_relabel]

/-- The name of an entity does not depend on numbers. -/
@[simp] theorem name?_node?_relabel (e : Entity) :
    ((e.relabel ρ).node?.bind Node.name?) = e.node?.bind Node.name? := by
  cases e with
  | node n => exact n.name?_relabel ρ
  | _ => rfl

/-- The signature of an entity does not depend on numbers. -/
@[simp] theorem signature?_node?_relabel (e : Entity) :
    ((e.relabel ρ).node?.bind Node.signature?) = e.node?.bind Node.signature? := by
  cases e with
  | node n => exact n.signature?_relabel ρ
  | _ => rfl

/-- The type that an entity itself tells does not depend on numbers. -/
@[simp] theorem intrinsicType?_relabel (e : Entity) :
    (e.relabel ρ).intrinsicType? = e.intrinsicType? := by
  cases e with
  | node n =>
    rw [relabel, intrinsicType?, Node.kind_relabel, intrinsicType?]
    cases n.kind <;> rfl
  | _ => rfl

/-- Access specifiers have no numbers. -/
@[simp] theorem isAccessSpecifier_relabel (e : Entity) :
    (e.relabel ρ).isAccessSpecifier = e.isAccessSpecifier := by
  cases e <;> rfl

/-- The items of a list get new numbers one by one. -/
@[simp] theorem items?_relabel (e : Entity) :
    (e.relabel ρ).items? = e.items?.map (List.map (relabel ρ)) := by
  cases e with
  | list items =>
    rw [relabel, items?, items?, relabelAll_eq_map]
    rfl
  | _ => rfl

/-- Whether an entity was written does not depend on numbers. -/
@[simp] theorem isUnwritten_relabel (e : Entity) : (e.relabel ρ).isUnwritten = e.isUnwritten := by
  cases e with
  | node n => exact n.isImplicitReceiver_relabel ρ
  | _ => rfl

/-- The items that a part contributes to a set. -/
def setItems : Entity → List Entity
  | .empty => []
  | .list more => more
  | item => [item]

/-- A set is put into canonical order when all its items are modifiers. -/
theorem ofSetParts_eq (parts : List Entity) : ofSetParts parts =
    match (parts.flatMap setItems).mapM modifier? with
    | some ms => .ofModifiers (Modifier.canonical ms)
    | none => .list (parts.flatMap setItems) := rfl

/-- A set can be put together before or after its parts get new numbers. -/
theorem ofSetParts_relabel (parts : List Entity) :
    ofSetParts (parts.map (relabel ρ)) = (ofSetParts parts).relabel ρ := by
  have hitems : (parts.map (relabel ρ)).flatMap setItems =
      (parts.flatMap setItems).map (relabel ρ) := by
    rw [List.flatMap_map, List.map_flatMap]
    refine List.flatMap_congr fun e _ => ?_
    cases e with
    | list items => exact relabelAll_eq_map ρ items
    | _ => rfl
  -- modifiers have no numbers, so they are found in the same items
  have hmodifiers (l : List Entity) : (l.map (relabel ρ)).mapM modifier? = l.mapM modifier? := by
    induction l with
    | nil => rfl
    | cons e l ih =>
      rw [List.map_cons, List.mapM_cons, List.mapM_cons, ih]
      cases e <;> rfl
  rw [ofSetParts_eq, ofSetParts_eq, hitems, hmodifiers]
  cases (parts.flatMap setItems).mapM modifier? with
  | none => exact congrArg Entity.list (relabelAll_eq_map ρ _).symm
  | some ms =>
    show Entity.list _ = .list (relabelAll ρ _)
    rw [relabelAll_eq_map, List.map_map]
    rfl

end Entity

namespace Category

/-- The category of an entity does not depend on numbers. -/
@[simp] theorem ofEntity_relabel (e : Entity) : ofEntity (e.relabel ρ) = ofEntity e := by
  cases e with
  | node n => rw [Entity.relabel, ofEntity, Node.tag_relabel, ofEntity]
  | list items =>
    simp only [Entity.relabel, ofEntity, Entity.relabelAll_eq_map, List.all_map]
    congr 2
    refine congrArg items.all (funext fun e => ?_)
    cases e <;> rfl
  | _ => rfl

/-- A category accepts entities also with new numbers. -/
@[simp] theorem accepts_relabel (c : Category) (e : Entity) :
    c.accepts (e.relabel ρ) = c.accepts e := by
  rw [accepts, ofEntity_relabel, accepts]

end Category

/-! ### Slots -/

/-- The error about an entity with new numbers. -/
def SlotError.relabel (ρ : Relabeling) : SlotError → SlotError
  | count tag found => count tag found
  | kind tag index expected found => kind tag index expected (found.relabel ρ)

/-- The message of an error shows no numbers. -/
@[simp] theorem SlotError.message_relabel (e : SlotError) : (e.relabel ρ).message = e.message := by
  cases e with
  | count => rfl
  | kind tag index expected found =>
    show s!"slot {index} of {tag} expects {expected.expectation}, got `{found.relabel ρ}`" =
      s!"slot {index} of {tag} expects {expected.expectation}, got `{found}`"
    rw [show toString (found.relabel ρ) = toString found from found.toString_relabel ρ]

namespace NodeKind

/-- The slots of a kind get new numbers with its children. -/
theorem slots_relabel (k : NodeKind Node) :
    (k.map (Node.relabel ρ)).slots = k.slots.map (Entity.relabel ρ) := by
  have hnodes (ns : List Node) : Entity.ofNodes (ns.map (Node.relabel ρ)) =
      (Entity.ofNodes ns).relabel ρ := by
    rw [Entity.ofNodes, Entity.ofNodes, Entity.relabel, Entity.relabelAll_eq_map, List.map_map,
      List.map_map]
    rfl
  have hnode (n : Option Node) : Entity.ofNode? (n.map (Node.relabel ρ)) =
      (Entity.ofNode? n).relabel ρ := by
    cases n <;> rfl
  have hmodifiers (ms : List Modifier) : (Entity.ofModifiers ms).relabel ρ =
      Entity.ofModifiers ms := by
    rw [Entity.ofModifiers, Entity.relabel, Entity.relabelAll_eq_map, List.map_map]
    rfl
  cases k with
  -- whether there is a superclass decides the kind of its slot
  | classDecl n ms as sup mem =>
    simp only [map, slots, hnodes, List.map_cons, hmodifiers, List.map_nil]
    cases sup <;> rfl
  | _ => simp [map, slots, hnodes, hnode, hmodifiers, Entity.relabel, Entity.name]

/-- A mismatch of an entity with new numbers. -/
abbrev SlotMismatch.relabel (ρ : Relabeling) : SlotMismatch → SlotMismatch :=
  Prod.map id (Entity.relabel ρ)

section

variable {α β : Type} {f : α → β} {x : Except SlotMismatch α} {y : Except SlotMismatch β}

/-- A mismatch is reported for the same slot. -/
private theorem follows_inSlot (h : Except.Follows (SlotMismatch.relabel ρ) f x y) (tag : Tag)
    (i : Nat) : Except.Follows (SlotError.relabel ρ) f (inSlot tag i x) (inSlot tag i y) := by
  obtain rfl := h
  cases x <;> rfl

end

variable (e : Entity)

/-- A name is read from the same entities. -/
private theorem follows_readName :
    Except.Follows (SlotMismatch.relabel ρ) id (readName e) (readName (e.relabel ρ)) := by
  cases e with
  | value v => cases v <;> rfl
  | _ => rfl

/-- A literal is read from the same entities. -/
private theorem follows_readLiteral :
    Except.Follows (SlotMismatch.relabel ρ) id (readLiteral e) (readLiteral (e.relabel ρ)) := by
  cases e <;> rfl

/-- A truth value is read from the same entities. -/
private theorem follows_readBool :
    Except.Follows (SlotMismatch.relabel ρ) id (readBool e) (readBool (e.relabel ρ)) := by
  cases e with
  | value v => cases v <;> rfl
  | _ => rfl

/-- An operator is read from the same entities. -/
private theorem follows_readOperator :
    Except.Follows (SlotMismatch.relabel ρ) id (readOperator e) (readOperator (e.relabel ρ)) := by
  cases e with
  | value v =>
    cases v with
    | name s =>
      dsimp only [Entity.relabel, readOperator, readName, bind, Except.bind]
      cases Operator.ofSymbol? s <;> rfl
    | _ => rfl
  | _ => rfl

/-- A type is read from the same entities. -/
private theorem follows_readType :
    Except.Follows (SlotMismatch.relabel ρ) id (readType e) (readType (e.relabel ρ)) := by
  cases e <;> rfl

/-- A type that may be missing is read from the same entities. -/
private theorem follows_readOptType :
    Except.Follows (SlotMismatch.relabel ρ) id (readOptType e) (readOptType (e.relabel ρ)) := by
  cases e <;> rfl

/-- A node is read with its new number. -/
private theorem follows_readNode :
    Except.Follows (SlotMismatch.relabel ρ) (Node.relabel ρ) (readNode e) (readNode (e.relabel ρ)) := by
  cases e <;> rfl

/-- A node that may be missing is read with its new number, unless it was never written. -/
private theorem follows_readOptNode : Except.Follows (SlotMismatch.relabel ρ)
    (Option.map (Node.relabel ρ)) (readOptNode e) (readOptNode (e.relabel ρ)) := by
  cases e with
  | node n =>
    simp only [Entity.relabel, readOptNode, Node.isImplicitReceiver_relabel]
    split <;> rfl
  | _ => rfl

/-- Nodes are read with their new numbers. -/
private theorem follows_readNodes : Except.Follows (SlotMismatch.relabel ρ)
    (List.map (Node.relabel ρ)) (readNodes e) (readNodes (e.relabel ρ)) := by
  cases e with
  | list items =>
    simp only [Entity.relabel, Entity.relabelAll_eq_map, readNodes]
    refine Except.follows_mapM (fun x => ?_) items
    cases x <;> rfl
  | _ => rfl

/-- Modifiers are read from the same entities. -/
private theorem follows_readModifiers :
    Except.Follows (SlotMismatch.relabel ρ) id (readModifiers e) (readModifiers (e.relabel ρ)) := by
  cases e with
  | list items =>
    simp only [Entity.relabel, Entity.relabelAll_eq_map, readModifiers]
    refine Except.follows_map (Except.follows_mapM (h := id) (fun x => ?_) items) fun ms => ?_
    · cases x <;> rfl
    · rw [List.map_id, id]
  | _ => rfl

/-- Slots with new numbers make the kind with new numbers, or are rejected for the same reason. -/
theorem ofSlots_relabel (tag : Tag) (slots : List Entity) :
    Except.Follows (SlotError.relabel ρ) (map (Node.relabel ρ)) (ofSlots tag slots)
      (ofSlots tag (slots.map (Entity.relabel ρ))) := by
  rcases slots with _ | ⟨a, _ | ⟨b, _ | ⟨c, _ | ⟨d, _ | ⟨e, _ | ⟨f, _ | ⟨g, slots⟩⟩⟩⟩⟩⟩⟩ <;>
    cases tag
  all_goals
    simp only [List.map_cons, List.map_nil, ofSlots, List.length_cons, List.length_map]
    try exact Except.follows_error _
  -- the slots are read in the same order
  all_goals
    repeat first
      | refine Except.follows_bind (follows_inSlot ρ (follows_readName ρ _) _ _) fun _ => ?_
      | refine Except.follows_bind (follows_inSlot ρ (follows_readLiteral ρ _) _ _) fun _ => ?_
      | refine Except.follows_bind (follows_inSlot ρ (follows_readBool ρ _) _ _) fun _ => ?_
      | refine Except.follows_bind (follows_inSlot ρ (follows_readOperator ρ _) _ _) fun _ => ?_
      | refine Except.follows_bind (follows_inSlot ρ (follows_readType ρ _) _ _) fun _ => ?_
      | refine Except.follows_bind (follows_inSlot ρ (follows_readOptType ρ _) _ _) fun _ => ?_
      | refine Except.follows_bind (follows_inSlot ρ (follows_readNode ρ _) _ _) fun _ => ?_
      | refine Except.follows_bind (follows_inSlot ρ (follows_readOptNode ρ _) _ _) fun _ => ?_
      | refine Except.follows_bind (follows_inSlot ρ (follows_readNodes ρ _) _ _) fun _ => ?_
      | refine Except.follows_bind (follows_inSlot ρ (follows_readModifiers ρ _) _ _) fun _ => ?_
    exact Except.follows_pure _

end NodeKind

end CodeRules
