import CodeRules.Proofs.Goal.Values

/-!
# The domain of a world

What solving can meet in a world are finitely many entities: the parts of what the world and its
relations hold, receivers that were never written, and what functions say about these. The list of
them is closed in the sense of `World.Closes` (`World.closes_domain`).
-/

namespace CodeRules

namespace Entity

mutual

/-- The entity, and the items of the lists in it. -/
def members : Entity → List Entity
  | list items => list items :: membersAll items
  | e => [e]

/-- The entities of a list, and the items of the lists in them. -/
def membersAll : List Entity → List Entity
  | [] => []
  | e :: es => e.members ++ membersAll es

end

/-- The members of a list are those of its items. -/
theorem membersAll_eq_flatMap (es : List Entity) : membersAll es = es.flatMap members := by
  induction es with
  | nil => rfl
  | cons e es ih => rw [membersAll, ih, List.flatMap_cons]

/-- Everything that the entity can be taken apart to, itself included. -/
def parts (e : Entity) : List Entity :=
  e.members ++ e.nodes.flatMap fun n => .node n :: n.kind.slots.flatMap members

variable {e x : Entity} {items : List Entity} {n : Node}

/-- An entity is one of its members. -/
theorem mem_members_self (e : Entity) : e ∈ e.members := by
  cases e <;> exact List.mem_cons_self ..

/-- The items of a list among the members are members. -/
private theorem item_mem_members (h : .list items ∈ e.members) (hx : x ∈ items) : x ∈ e.members := by
  -- by induction on lists in lists
  induction e using Entity.induction with
  | list l ih =>
    rw [members, membersAll_eq_flatMap, List.mem_cons] at h ⊢
    rcases h with h | h
    · obtain rfl := list.inj h
      exact .inr (List.mem_flatMap.2 ⟨x, hx, x.mem_members_self⟩)
    · obtain ⟨y, hy, h⟩ := List.mem_flatMap.1 h
      exact .inr (List.mem_flatMap.2 ⟨y, hy, ih y hy h⟩)
  | _ => exact absurd (List.mem_singleton.1 h) (by simp)

/-- A node among the members is a node of the entity. -/
private theorem mem_nodes_of_mem_members (h : .node n ∈ e.members) : n ∈ e.nodes := by
  induction e using Entity.induction with
  | list l ih =>
    rw [members, membersAll_eq_flatMap, List.mem_cons] at h
    rcases h with h | h
    · cases h
    · obtain ⟨y, hy, h⟩ := List.mem_flatMap.1 h
      rw [nodes, nodesAll_eq_flatMap]
      exact List.mem_flatMap.2 ⟨y, hy, ih y hy h⟩
  | node m =>
    obtain rfl := node.inj (List.mem_singleton.1 h)
    exact n.mem_preorder_self
  | _ => exact absurd (List.mem_singleton.1 h) (by simp)

/-- The nodes below a node of the entity are nodes of the entity. -/
theorem mem_nodes_trans (hn : n ∈ e.nodes) {m : Node} (hm : m ∈ n.preorder) : m ∈ e.nodes := by
  induction e using Entity.induction with
  | list l ih =>
    rw [nodes, nodesAll_eq_flatMap] at hn ⊢
    obtain ⟨y, hy, hn⟩ := List.mem_flatMap.1 hn
    exact List.mem_flatMap.2 ⟨y, hy, ih y hy hn⟩
  | node k => exact Node.mem_preorder_trans hn hm
  | _ => cases hn

/-- An entity is one of its parts. -/
theorem mem_parts_self (e : Entity) : e ∈ e.parts := List.mem_append_left _ e.mem_members_self

/-- A part is a member, a node, or a member of a slot of a node. -/
private theorem mem_parts_iff : x ∈ e.parts ↔ x ∈ e.members ∨
    ∃ n ∈ e.nodes, x = .node n ∨ ∃ slot ∈ n.kind.slots, x ∈ slot.members := by
  simp only [parts, List.mem_append, List.mem_flatMap, List.mem_cons]

/-- A node among the parts is a node of the entity. -/
theorem mem_nodes_of_mem_parts (h : .node n ∈ e.parts) : n ∈ e.nodes := by
  rcases mem_parts_iff.1 h with h | ⟨m, hm, h | ⟨slot, hslot, h⟩⟩
  · exact mem_nodes_of_mem_members h
  · exact node.inj h ▸ hm
  -- a node in a slot of a node is below it
  · obtain ⟨c, hc, hn⟩ := NodeKind.nodes_of_mem_slots hslot (mem_nodes_of_mem_members h)
    exact mem_nodes_trans hm (Node.mem_preorder_of_child hc hn)

/-- The items of a list among the parts are parts. -/
theorem item_mem_parts (h : .list items ∈ e.parts) (hx : x ∈ items) : x ∈ e.parts := by
  refine mem_parts_iff.2 ?_
  rcases mem_parts_iff.1 h with h | ⟨m, hm, h | ⟨slot, hslot, h⟩⟩
  · exact .inl (item_mem_members h hx)
  · cases h
  · exact .inr ⟨m, hm, .inr ⟨slot, hslot, item_mem_members h hx⟩⟩

/-- The slots of a node among the parts are parts. -/
theorem slot_mem_parts (h : .node n ∈ e.parts) (hx : x ∈ n.kind.slots) : x ∈ e.parts :=
  mem_parts_iff.2 (.inr ⟨n, mem_nodes_of_mem_parts h, .inr ⟨x, hx, x.mem_members_self⟩⟩)

end Entity

/-- A receiver that was never written has itself as its receiver. -/
theorem Surroundings.implicitReceiver_of_mem_parts {s : Surroundings} {n m : Node}
    (h : .node m ∈ (s.implicitReceiver n).parts) : s.implicitReceiver m = .node m := by
  have hm := Entity.mem_nodes_of_mem_parts h
  unfold implicitReceiver at hm
  split at hm
  -- a receiver that was never written has no parts but itself, and lies in the same class
  · rename_i found henclosing
    rw [Entity.nodes, Node.preorder_eq] at hm
    obtain rfl := List.mem_singleton.1 hm
    unfold implicitReceiver
    rw [show s.enclosing? (Node.make n.id n.span _).id = some found from henclosing]
    rfl
  · cases hm

namespace World

variable (w : World) (a : Arena) (known : List Entity)

/-- The entities that the world holds, apart from its relations. -/
def ground : List Entity :=
  .empty :: w.program.entities ++ w.overlay ++ w.program.classes.values.map .node

/-- What known entities and those of the world can be taken apart to. -/
def reachable : List Entity := (w.ground ++ known).flatMap Entity.parts

/-- The receivers of known nodes that were never written, and what these can be taken apart to. -/
def receivers : List Entity := (w.reachable known).flatMap fun e =>
  match e with
  | .node n => (w.program.surroundings.implicitReceiver n).parts
  | _ => []

/-- All that functions say about an entity. -/
def said (e : Entity) : List Entity := EntityFunction.all.filterMap fun func => w.call? a func e

/-- All entities that solving can meet when it starts with known ones. -/
def domain : List Entity :=
  let found := w.reachable known ++ w.receivers known
  found ++ found.flatMap (w.said a)

variable {w a known} {e x : Entity}

/-- What is reachable is a part of what is known or held. -/
theorem mem_reachable_iff : x ∈ w.reachable known ↔ ∃ e ∈ w.ground ++ known, x ∈ e.parts :=
  List.mem_flatMap

/-- The receivers are parts of what stands for receivers of reachable nodes. -/
theorem mem_receivers_iff : x ∈ w.receivers known ↔
    ∃ n, .node n ∈ w.reachable known ∧ x ∈ (w.program.surroundings.implicitReceiver n).parts := by
  rw [receivers, List.mem_flatMap]
  constructor
  · rintro ⟨e, he, hx⟩
    cases e with
    | node n => exact ⟨n, he, hx⟩
    | _ => cases hx
  · rintro ⟨n, hn, hx⟩
    exact ⟨.node n, hn, hx⟩

/-- What is said about an entity is the value of a function. -/
theorem mem_said_iff : x ∈ w.said a e ↔ ∃ func, w.call? a func e = some x := by
  rw [said, List.mem_filterMap]
  refine exists_congr fun func => and_iff_right ?_
  -- every function is in the list of functions
  cases func <;> simp [EntityFunction.all]

/-- What is known or held is reachable. -/
theorem mem_reachable_of_mem (h : e ∈ w.ground ++ known) : e ∈ w.reachable known :=
  mem_reachable_iff.2 ⟨e, h, e.mem_parts_self⟩

/-- Parts of what was found were found. -/
private theorem part_mem (hparts : ∀ y : Entity, x ∈ y.parts → e ∈ y.parts)
    (h : x ∈ w.reachable known ++ w.receivers known) :
    e ∈ w.reachable known ++ w.receivers known := by
  rcases List.mem_append.1 h with h | h
  · obtain ⟨y, hy, hx⟩ := mem_reachable_iff.1 h
    exact List.mem_append_left _ (mem_reachable_iff.2 ⟨y, hy, hparts y hx⟩)
  · obtain ⟨n, hn, hx⟩ := mem_receivers_iff.1 h
    exact List.mem_append_right _ (mem_receivers_iff.2 ⟨n, hn, hparts _ hx⟩)

/-- A found node has a receiver that was found. -/
private theorem receiver_mem {n : Node} (h : .node n ∈ w.reachable known ++ w.receivers known) :
    w.program.surroundings.implicitReceiver n ∈ w.reachable known ++ w.receivers known := by
  rcases List.mem_append.1 h with hn | hn
  · exact List.mem_append_right _ (mem_receivers_iff.2 ⟨n, hn, Entity.mem_parts_self _⟩)
  · obtain ⟨m, _, hn⟩ := mem_receivers_iff.1 hn
    -- the receiver of a receiver is the receiver itself
    rw [Surroundings.implicitReceiver_of_mem_parts hn]
    exact h

/-- What is declared is a class of the program. -/
private theorem declaration_mem_ground (h : w.call? a .declarationOf e = some x) : x ∈ w.ground := by
  simp only [call?] at h
  split at h
  · obtain ⟨c, hc, rfl⟩ := Option.map_eq_some_iff.1 h
    refine List.mem_append_right _ (List.mem_map_of_mem ?_)
    unfold Program.declarationOf? at hc
    split at hc
    -- a name refers to a class that was indexed, in a scope or at the top
    · rw [ClassTable.class?, Option.orElse_eq_orElse, Option.orElse_eq_or, Option.or_eq_some_iff] at hc
      rcases hc with hc | ⟨_, hc⟩ <;> exact Dict.mem_values_iff.2 ⟨_, hc⟩
    · cases hc
  · cases h

/-- What a function says is a class of the program, or neither a node nor a list. -/
private theorem atom_of_said (h : x ∈ w.said a e) :
    x ∈ w.ground ∨ x.node? = none ∧ ∀ items, x ≠ .list items := by
  obtain ⟨func, h⟩ := mem_said_iff.1 h
  cases func with
  | declarationOf => exact .inl (declaration_mem_ground h)
  | _ =>
    obtain ⟨_, _, rfl⟩ := Option.map_eq_some_iff.1 h
    exact .inr ⟨rfl, fun _ hlist => by cases hlist⟩

/-- About an entity that is no node, functions say that it is a type, and name its class. -/
private theorem said_of_atom (hx : x.node? = none) (h : e ∈ w.said a x) : e = x ∨ e ∈ w.ground := by
  obtain ⟨func, h⟩ := mem_said_iff.1 h
  cases func with
  | declarationOf => exact .inr (declaration_mem_ground h)
  | typeOf =>
    cases x with
    | type t => exact .inl (Option.some.inj h).symm
    | node n => cases hx
    | _ => cases h
  | _ =>
    simp only [call?, Entity.nodeId?, hx] at h
    cases h

/-- Solving that starts with known entities does not lead out of the domain. -/
theorem closes_domain : w.Closes a (· ∈ w.domain a known) := by
  have hfound {e : Entity} (h : e ∈ w.reachable known ++ w.receivers known) :
      e ∈ w.domain a known := List.mem_append_left _ h
  have hground {e : Entity} (h : e ∈ w.ground) : e ∈ w.reachable known ++ w.receivers known :=
    List.mem_append_left _ (mem_reachable_of_mem (List.mem_append_left _ h))
  -- nodes and lists of the domain are no values of functions, unless these were found
  have hcases {e : Entity} (h : e ∈ w.domain a known) :
      e ∈ w.reachable known ++ w.receivers known ∨ e.node? = none ∧ ∀ items, e ≠ .list items := by
    rcases List.mem_append.1 h with h | h
    · exact .inl h
    · obtain ⟨x, _, h⟩ := List.mem_flatMap.1 h
      exact (atom_of_said h).imp_left hground
  have hparts : w.program.surroundings.Closes (· ∈ w.domain a known) := by
    constructor
    case empty => exact hfound (hground (List.mem_cons_self ..))
    case item =>
      intro items e hitems he
      rcases hcases hitems with h | ⟨_, h⟩
      · exact hfound (part_mem (fun y hy => Entity.item_mem_parts hy he) h)
      · exact absurd rfl (h items)
    case slot =>
      intro n e hn he
      rcases hcases hn with h | ⟨h, _⟩
      · exact hfound (part_mem (fun y hy => Entity.slot_mem_parts hy he) h)
      · cases h
    case receiver =>
      intro n hn
      rcases hcases hn with h | ⟨h, _⟩
      · exact hfound (receiver_mem h)
      · cases h
  constructor
  case toCloses => exact hparts
  case call =>
    -- a function says something new about what was found only, and names or types say nothing more
    intro func e v he hv
    have hsaid := mem_said_iff.2 ⟨func, hv⟩
    rcases List.mem_append.1 he with h | h
    · exact List.mem_append_right _ (List.mem_flatMap.2 ⟨e, h, hsaid⟩)
    · obtain ⟨x, _, h⟩ := List.mem_flatMap.1 h
      rcases atom_of_said h with h | ⟨h, _⟩
      · exact List.mem_append_right _ (List.mem_flatMap.2 ⟨e, hground h, hsaid⟩)
      · rcases said_of_atom h hsaid with rfl | hv
        · exact he
        · exact hfound (hground hv)
  case known =>
    intro e he
    exact hfound (hground (List.mem_append_left _ (List.mem_append_left _
      (List.mem_cons_of_mem _ he))))
  case made =>
    intro e he
    exact hfound (hground (List.mem_append_left _ (List.mem_append_right _ he)))

/-- The domain holds the known entities. -/
theorem mem_domain_of_mem (h : e ∈ known) : e ∈ w.domain a known :=
  List.mem_append_left _ (List.mem_append_left _ (mem_reachable_of_mem (List.mem_append_right _ h)))

end World

end CodeRules
