import CodeRules.Code.Render

/-!
# Entities

An entity is anything that a pattern variable can stand for: a tree, a type, a list, or one of the
atoms that trees hold.

There are three notions of sameness. `Entity.sameShape` compares what entities are made of.
`Entity.aliases` asks in addition for the same places in the program, where made nodes have no
place. `Entity.identical` asks for equal numbers on all nodes. The first two are equality of
`Entity.shape` and of `Entity.located`, and entities are ordered by these shapes.
-/

namespace CodeRules

/-- Anything that a pattern variable can be bound to. -/
inductive Entity where
  | node (n : Node)
  | type (t : CodeType)
  | list (items : List Entity)
  | modifier (m : Modifier)
  | signature (s : MethodSignature)
  | value (v : Literal)
  /-- An optional part that is absent. -/
  | empty
deriving Inhabited

namespace Entity

/-- A name. -/
def name (s : String) : Entity := .value (.name s)

/-- The tree that the entity is. -/
def node? : Entity → Option Node
  | .node n => some n
  | _ => none

/-- The number of the tree that the entity is. -/
def nodeId? (e : Entity) : Option NodeId := e.node?.map Node.id

mutual

/-- Every node in the entity, each before its children. -/
def nodes : Entity → List Node
  | .node n => n.preorder
  | .list items => nodesAll items
  | _ => []

/-- Every node in a list of entities. -/
def nodesAll : List Entity → List Node
  | [] => []
  | e :: es => e.nodes ++ nodesAll es

end

mutual

/-- What the entity is made of, apart from numbers and spans of nodes. -/
def shape : Entity → Shape
  | .node n => .seq [.num 0, n.shape]
  | .type t => .seq [.num 1, t.shape]
  | .list items => .seq [.num 2, .seq (shapes items)]
  | .modifier m => .seq [.num 3, m.shape]
  | .signature s => .seq [.num 4, s.shape]
  | .value v => .seq [.num 5, v.shape]
  | .empty => .seq [.num 6]

/-- The shapes of several entities. -/
def shapes : List Entity → List Shape
  | [] => []
  | e :: es => e.shape :: shapes es

end

mutual

/-- The text of an entity. -/
protected def toString : Entity → String
  | .node n => toString n
  | .type t => toString t
  | .list items => "[" ++ ", ".intercalate (Entity.toStrings items) ++ "]"
  | .modifier m => m.name
  | .signature s => toString s
  | .value v => toString v
  | .empty => "<empty>"

/-- The texts of several entities. -/
protected def toStrings : List Entity → List String
  | [] => []
  | e :: es => e.toString :: Entity.toStrings es

end

instance : ToString Entity := ⟨Entity.toString⟩

theorem nodesAll_eq_flatMap (es : List Entity) : nodesAll es = es.flatMap nodes := by
  induction es with
  | nil => rfl
  | cons e es ih => simp [nodesAll, ih]

theorem shapes_eq_map (es : List Entity) : shapes es = es.map shape := by
  induction es with
  | nil => rfl
  | cons e es ih => simp [shapes, ih]

/-- The numbers of all nodes in the entity. -/
def ids (e : Entity) : List NodeId := e.nodes.map Node.id

/-- The numbers of the nodes that have a place in the program. -/
def locations (e : Entity) : List NodeId :=
  (e.nodes.filter fun n => !n.span.isSynthetic).map Node.id

/-- The shape of a list of node numbers. -/
def idsShape (ids : List NodeId) : Shape := .seq (ids.map fun i => .num i.word.toNat)

/-- The shape together with the places in the program. -/
def located (e : Entity) : Shape := .seq [e.shape, idsShape e.locations]

/-- Whether two entities are made of the same things. -/
def sameShape (a b : Entity) : Bool := decide (a.shape = b.shape)

/-- Whether two entities are made of the same things at the same places. -/
def aliases (a b : Entity) : Bool := decide (a.located = b.located)

/-- Whether two entities are made of the same things, with equal numbers on all nodes. -/
def identical (a b : Entity) : Bool := sameShape a b && decide (a.ids = b.ids)

theorem sameShape_iff {a b : Entity} : a.sameShape b = true ↔ a.shape = b.shape := by
  simp [sameShape]

theorem aliases_iff {a b : Entity} :
    a.aliases b = true ↔ a.shape = b.shape ∧ a.locations = b.locations := by
  -- node numbers are told apart by their shapes
  have inj {l m : List NodeId} : idsShape l = idsShape m ↔ l = m := by
    refine ⟨fun h => ?_, fun h => h ▸ rfl⟩
    simp only [idsShape, Shape.seq.injEq] at h
    refine (List.map_inj_right fun i j h => ?_).1 h
    have : i.word.toNat = j.word.toNat := Int.ofNat_inj.1 (Shape.num.inj h)
    cases i; cases j; simpa using UInt32.toNat_inj.1 this
  simp [aliases, located, inj]

end Entity

end CodeRules
