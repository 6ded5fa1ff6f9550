import CodeRules.Program.Builtins
import CodeRules.Proofs.Program.Below
import CodeRules.Proofs.Relation.Tuple

/-!
# What built-in relations hold

The tuples of the built-in relations of a program hold types and nodes of its classes.
-/

namespace CodeRules

namespace ClassTable

variable {table : ClassTable} {c : Node}

/-- A class that is found by a name is in the table. -/
theorem mem_values_of_class? {name : String} (h : table.class? name = some c) : c ∈ table.values := by
  rw [class?] at h
  cases hfull : table.find? name with
  | some d =>
    rw [hfull] at h
    exact Option.some.inj h ▸ Dict.mem_values_iff.2 ⟨_, hfull⟩
  | none =>
    rw [hfull] at h
    exact Dict.mem_values_iff.2 ⟨_, h⟩

end ClassTable

namespace BuiltinRelation

/-- The tuples of a built-in relation are for its signature. -/
theorem signature_of_mem_tuples {name : String} {params : List (String × Category)}
    {rows : List (List Entity)} {u : Tuple} (hu : u ∈ (ofRows name params rows).tuples) :
    u.signature = (ofRows name params rows).signature := by
  obtain ⟨row, hrow, hu⟩ := List.mem_filterMap.1 hu
  exact (Tuple.ofValues_eq_ok.1 (Except.toOption_eq_some_iff.1 hu)).1

/-- The values of a built-in relation come from its rows. -/
theorem mem_rows_of_mem_tuples {name : String} {params : List (String × Category)}
    {rows : List (List Entity)} {u : Tuple} (hu : u ∈ (ofRows name params rows).tuples) :
    u.values ∈ rows := by
  obtain ⟨row, hrow, hu⟩ := List.mem_filterMap.1 hu
  obtain ⟨_, hvalues, _⟩ := Tuple.ofValues_eq_ok.1 (Except.toOption_eq_some_iff.1 hu)
  rwa [hvalues]

end BuiltinRelation

namespace Program

variable {p : Program} {base : UInt32} {given : List Node} {free : UInt32}

/-- What is found by its number is a node of a class. -/
theorem mem_of_node? {i : NodeId} {n : Node}
    (h : ((ofClasses given).withIdBase free).node? i = some n) :
    ∃ c ∈ ((ofClasses given).withIdBase free).classes.values, n ∈ c.preorder := by
  have hmem : (i, n) ∈ (ClassTable.ofNodes given).values.flatMap fun c =>
      c.preorder.map fun n => (n.id, n) :=
    Catalog.mem_of_mem_ofListLast (Dict.find?_eq_some_iff.1 h)
  obtain ⟨c, hc, hn⟩ := List.mem_flatMap.1 hmem
  obtain ⟨m, hm, heq⟩ := List.mem_map.1 hn
  obtain ⟨_, rfl⟩ := Prod.mk.inj heq
  exact ⟨c, hc, hm⟩

/-- What is found by its number has this number. -/
theorem id_of_node? {i : NodeId} {n : Node}
    (h : ((ofClasses given).withIdBase free).node? i = some n) : n.id = i := by
  have hmem : (i, n) ∈ (ClassTable.ofNodes given).values.flatMap fun c =>
      c.preorder.map fun n => (n.id, n) :=
    Catalog.mem_of_mem_ofListLast (Dict.find?_eq_some_iff.1 h)
  obtain ⟨c, _, hn⟩ := List.mem_flatMap.1 hmem
  obtain ⟨m, _, heq⟩ := List.mem_map.1 hn
  obtain ⟨hid, rfl⟩ := Prod.mk.inj heq
  exact hid

/-- The nodes of classes were read. -/
theorem Below.isRead_node (hp : p.Below base) {c n : Node} (hc : c ∈ p.classes.values)
    (hn : n ∈ c.preorder) : (Entity.node n).IsRead :=
  fun m hm => hp.classes c hc m (Node.mem_preorder_trans hn hm)

/-- A member that stands with the type that declares it belongs to a class. -/
private theorem exists_class_of_mem_members {t : CodeType} {m : Node}
    (h : (t, m) ∈ p.classes.values.flatMap fun c => c.kind.members.map fun m => (c.declares, m)) :
    ∃ c ∈ p.classes.values, m ∈ c.preorder := by
  obtain ⟨c, hc, h⟩ := List.mem_flatMap.1 h
  obtain ⟨k, hk, heq⟩ := List.mem_map.1 h
  obtain ⟨_, rfl⟩ := Prod.mk.inj heq
  exact ⟨c, hc, Node.mem_preorder_of_child (NodeKind.mem_children_of_mem_members hk) k.mem_preorder_self⟩

/-- The tuples of built-in relations hold types and nodes of classes. -/
theorem values_of_builtins {D : Entity → Prop} (htype : ∀ t, D (.type t))
    (hnode : ∀ c ∈ p.classes.values, ∀ n ∈ c.preorder, D (.node n))
    (hnodes : ∀ i n, p.node? i = some n → ∃ c ∈ p.classes.values, n ∈ c.preorder)
    {b : BuiltinRelation} (hb : b ∈ p.builtins) {u : Tuple} (hu : u ∈ b.tuples) {e : Entity}
    (he : e ∈ u.values) : D e := by
  -- all rows are pairs
  have hpair {x y : Entity} (heq : [x, y] = u.values) (hx : D x) (hy : D y) : D e := by
    rw [← heq, List.mem_cons, List.mem_singleton] at he
    rcases he with rfl | rfl
    · exact hx
    · exact hy
  have hmember {t : CodeType} {m n : Node} (h : (t, m) ∈ p.classes.values.flatMap fun c =>
      c.kind.members.map fun m => (c.declares, m)) (hn : n ∈ m.preorder) : D (.node n) := by
    obtain ⟨c, hc, hm⟩ := exists_class_of_mem_members h
    exact hnode c hc n (Node.mem_preorder_trans hm hn)
  have hdeclares {tag : Tag} (h : u.values ∈ ((p.classes.values.flatMap fun c =>
      c.kind.members.map fun m => (c.declares, m)).filter (·.2.tag == tag)).map fun x =>
        [.type x.1, .node x.2]) : D e := by
    obtain ⟨⟨t, m⟩, hm, heq⟩ := List.mem_map.1 h
    exact hpair heq (htype t) (hmember (List.mem_of_mem_filter hm) m.mem_preorder_self)
  simp only [builtins, List.mem_cons, List.not_mem_nil, or_false] at hb
  rcases hb with rfl | rfl | rfl | rfl | rfl | rfl | rfl | rfl <;>
    have hrow := BuiltinRelation.mem_rows_of_mem_tuples hu
  case inl => exact hdeclares hrow
  case inr.inl => exact hdeclares hrow
  case inr.inr.inl =>
    -- the uses of annotations
    obtain ⟨c, hc, hrow⟩ := List.mem_flatMap.1 hrow
    obtain ⟨n, hn, hrow⟩ := List.mem_flatMap.1 hrow
    obtain ⟨a, ha, heq⟩ := List.mem_map.1 hrow
    have ha := Node.mem_preorder_of_child (NodeKind.mem_children_of_mem_annotations ha) a.mem_preorder_self
    exact hpair heq (hnode c hc n hn) (hnode c hc a (Node.mem_preorder_trans hn ha))
  case inr.inr.inr.inl =>
    -- the calls in methods
    obtain ⟨⟨t, m⟩, hm, hrow⟩ := List.mem_flatMap.1 hrow
    obtain ⟨call, hcall, heq⟩ := List.mem_map.1 hrow
    have hm := List.mem_of_mem_filter hm
    exact hpair heq (hmember hm m.mem_preorder_self) (hmember hm (List.mem_of_mem_filter hcall))
  case inr.inr.inr.inr.inl =>
    -- the methods that calls go to
    obtain ⟨⟨i, j⟩, _, heq⟩ := List.mem_filterMap.1 hrow
    simp only [Option.bind_eq_bind, Option.bind_eq_some_iff, Option.pure_def, Option.some.injEq] at heq
    obtain ⟨call, hcall, method, hmethod, heq⟩ := heq
    obtain ⟨c, hc, hn⟩ := hnodes i call hcall
    obtain ⟨c', hc', hn'⟩ := hnodes j method hmethod
    exact hpair heq (hnode c hc call hn) (hnode c' hc' method hn')
  case inr.inr.inr.inr.inr.inl =>
    -- the types that declare members
    obtain ⟨⟨t, m⟩, hm, heq⟩ := List.mem_map.1 hrow
    exact hpair heq (hmember hm m.mem_preorder_self) (htype t)
  case inr.inr.inr.inr.inr.inr.inl =>
    -- the superclasses
    obtain ⟨c, _, heq⟩ := List.mem_filterMap.1 hrow
    split at heq
    · exact hpair (Option.some.inj heq) (htype _) (htype _)
    · cases heq
  case inr.inr.inr.inr.inr.inr.inr => cases hrow

end Program

end CodeRules
