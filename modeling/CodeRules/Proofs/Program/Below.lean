import CodeRules.Proofs.Code.Copy
import CodeRules.Proofs.Program.Normal

/-!
# Indexes of classes

The walk over bodies notes something about the nodes that it meets only (`Inference.keeps_node`), and
the other parts of an index are about nodes of the classes. So the index of classes that were read,
with numbers below some first number, lies below that number (`Program.below_ofClasses`).
-/

namespace CodeRules

open Effect

namespace NodeKind

variable {α : Type} {k : NodeKind α} {c : α}

/-- Members are children. -/
theorem mem_children_of_mem_members (h : c ∈ k.members) : c ∈ k.children := by
  cases k <;> simp only [members, children] at h ⊢ <;> grind

/-- Annotations are children. -/
theorem mem_children_of_mem_annotations (h : c ∈ k.annotations) : c ∈ k.children := by
  cases k <;> simp only [annotations, children] at h ⊢ <;> grind

end NodeKind

/-! ### The walk over bodies -/

/-- What is assigned to, and what refers to fields, are nodes with these numbers. -/
structure BodyFacts.About (P : NodeId → Prop) (facts : BodyFacts) : Prop where
  assignmentTargets : ∀ i ∈ facts.assignmentTargets.toList, P i
  fieldRefs : ∀ i f, facts.fieldRefs.find? i = some f → P i

namespace Inference

variable {P : NodeId → Prop} {table : ClassTable} {owner : CodeType} {α β : Type}

/-- The walk notes something about nodes with these numbers only. -/
def Keeps (P : NodeId → Prop) (x : StateM Walk α) : Prop :=
  ∀ w, w.facts.About P → Leaves x w fun _ w' => w'.facts.About P

/-- A walk that is over notes nothing. -/
theorem keeps_pure (a : α) : Keeps P (pure a : StateM Walk α) := fun _ h => h

/-- Looking at the state notes nothing. -/
theorem keeps_get : Keeps P (get : StateM Walk Walk) := fun _ h => h

/-- One part of the walk after the other. -/
theorem keeps_bind {x : StateM Walk α} {f : α → StateM Walk β} (hx : Keeps P x)
    (hf : ∀ a, Keeps P (f a)) : Keeps P (x >>= f) := by
  intro w h
  rw [leaves_bind]
  exact (hx w h).mono fun a w' h' => hf a w' h'

/-- A walk whose type is not asked for. -/
theorem keeps_discard {x : StateM Walk α} (hx : Keeps P x) : Keeps P (discard x) := hx

/-- The variables in scope may change. -/
theorem keeps_locals (f : Walk → List (String × CodeType)) :
    Keeps P (modify fun w : Walk => { w with locals := f w }) := fun _ h => h

/-- A note about nodes with these numbers may be made. -/
theorem keeps_note {f : BodyFacts → BodyFacts} (h : ∀ facts, facts.About P → (f facts).About P) :
    Keeps P (note f) := fun w hw => h w.facts hw

/-- The walk over several parts, from the walks over each of them. -/
theorem keeps_all {parts : List Typing} (h : ∀ t ∈ parts, Keeps P t) : Keeps P (all parts) := by
  induction parts with
  | nil => exact keeps_pure ()
  | cons t parts ih =>
    show Keeps P (discard t >>= fun _ => all parts)
    have ht := keeps_discard (h t (List.mem_cons_self ..))
    exact keeps_bind ht fun _ => ih fun s hs => h s (List.mem_cons_of_mem _ hs)

/-- A name is noted under its own number only. -/
theorem keeps_name {i : NodeId} (hi : P i) (s : String) : Keeps P (name table owner i s) := by
  unfold name
  apply keeps_bind keeps_get
  intro w
  split
  · exact keeps_pure _
  · split
    · exact keeps_pure _
    · rename_i f _
      refine keeps_bind (keeps_note fun facts h => ⟨h.assignmentTargets, fun j g hj => ?_⟩)
        fun _ => keeps_pure _
      rw [Dict.find?_set] at hj
      split at hj
      · rename_i hij
        exact hij ▸ hi
      · exact h.fieldRefs j g hj

/-- Where a call leads to is noted elsewhere. -/
theorem keeps_call (i : NodeId) (receiver : CodeType) (method : String) (arity : Nat) :
    Keeps P (call table i receiver method arity) := by
  unfold call
  split
  · exact keeps_pure _
  · exact keeps_bind (keeps_note fun facts h => ⟨h.assignmentTargets, h.fieldRefs⟩)
      fun _ => keeps_pure _

/-- What holds of the walks holds for the pairs of parts and walks. -/
private theorem forall_map_snd {l : List (Node × Typing)} {Q : Typing → Prop} (h : ∀ c ∈ l, Q c.2) :
    ∀ t ∈ l.map Prod.snd, Q t := by
  intro t ht
  obtain ⟨c, hc, rfl⟩ := List.mem_map.1 ht
  exact h c hc

/-- The walk over a node notes something about the node and its children only. -/
theorem keeps_kind {n : Node} {k : NodeKind (Node × Typing)} (hn : P n.id)
    (hids : ∀ c ∈ k.children, P c.1.id) (h : ∀ c ∈ k.children, Keeps P c.2) :
    Keeps P (kind table owner n k) := by
  cases k with
  -- Only names, assignments and calls make notes of their own; the others pass on what the walks over their
  -- parts note.
  | classDecl | fieldDecl | methodDecl | param | annotationUse | literal | this
  | implicitReceiver => exact keeps_pure _
  | name s => exact keeps_name hn s
  | fieldAccess receiver f =>
    apply keeps_bind (h receiver (List.mem_singleton_self _))
    intro t
    cases t <;> exact keeps_pure _
  -- The target is noted, and it is a child of the assignment.
  | assign target value =>
    have htarget : target ∈ (NodeKind.assign target value).children := List.mem_cons_self ..
    have hvalue : value ∈ (NodeKind.assign target value).children := by simp [NodeKind.children]
    apply keeps_bind
    · refine keeps_note fun facts hfacts => ⟨fun i hi => ?_, hfacts.fieldRefs⟩
      rcases Catalog.mem_of_mem_insert hi with rfl | hi
      · exact hids target htarget
      · exact hfacts.assignmentTargets i hi
    · intro _
      exact keeps_bind (keeps_discard (h value hvalue)) fun _ => h target htarget
  | call receiver method args =>
    apply keeps_bind
    · exact keeps_all (forall_map_snd fun c hc => h c (by simp [NodeKind.children, hc]))
    · intro _
      cases receiver with
      | none => exact keeps_call n.id owner method args.length
      | some r =>
        apply keeps_bind (h r (by simp [NodeKind.children]))
        intro t
        cases t with
        | none => exact keeps_pure _
        | some t => exact keeps_call n.id t method args.length
  | newObject t args =>
    exact keeps_bind (keeps_all (forall_map_snd h)) fun _ => keeps_pure _
  | binary op left right =>
    refine keeps_bind (h left (by simp [NodeKind.children])) fun _ => ?_
    exact keeps_bind (h right (by simp [NodeKind.children])) fun _ => keeps_pure _
  | block stmts =>
    refine keeps_bind keeps_get fun outer => keeps_bind (keeps_all (forall_map_snd h)) fun _ => ?_
    exact keeps_bind (keeps_locals _) fun _ => keeps_pure _
  | exprStmt e =>
    exact keeps_bind (keeps_discard (h e (List.mem_singleton_self _))) fun _ => keeps_pure _
  | returnStmt v =>
    exact keeps_bind (keeps_all (forall_map_snd h)) fun _ => keeps_pure _
  | localVar t s init =>
    refine keeps_bind (keeps_all (forall_map_snd h)) fun _ => ?_
    exact keeps_bind (keeps_locals _) fun _ => keeps_pure _

/-- The walk over a tree notes something about its nodes only. -/
theorem keeps_node {n : Node} (h : ∀ m ∈ n.preorder, P m.id) : Keeps P (node table owner n) := by
  induction n using Node.induction with
  | step n ih =>
  have hbelow : ∀ c ∈ n.kind.children, ∀ m ∈ c.preorder, P m.id :=
    fun c hc m hm => h m (Node.mem_preorder_of_child hc hm)
  -- The children of the node are paired with their walks, which notice no more than what is below them.
  rw [node, Node.fold_eq]
  have hkind : Keeps P (kind table owner n (n.kind.map fun c => (c, node table owner c))) := by
    apply keeps_kind (h n n.mem_preorder_self)
    · intro c hc
      rw [NodeKind.children_map] at hc
      obtain ⟨d, hd, rfl⟩ := List.mem_map.1 hc
      exact hbelow d hd d d.mem_preorder_self
    · intro c hc
      rw [NodeKind.children_map] at hc
      obtain ⟨d, hd, rfl⟩ := List.mem_map.1 hc
      exact ih d hd (hbelow d hd)
  apply keeps_bind hkind
  -- Last the type of the node is noted, which does not count.
  intro type
  cases type with
  | none => exact keeps_pure _
  | some t =>
    exact keeps_bind (keeps_note fun facts h => ⟨h.assignmentTargets, h.fieldRefs⟩)
      fun _ => keeps_pure _

/-- The walk over a member notes something about its nodes only. -/
theorem about_member {facts : BodyFacts} (hfacts : facts.About P) {m : Node}
    (h : ∀ n ∈ m.preorder, P n.id) : (member table owner facts m).About P := by
  have hbelow {c : Node} (hc : c ∈ m.kind.children) : ∀ n ∈ c.preorder, P n.id :=
    fun n hn => h n (Node.mem_preorder_of_child hc hn)
  unfold member
  split
  -- Code stands in initial values of fields and in bodies of methods.
  · rename_i init heq
    exact keeps_node (hbelow (by simp [heq, NodeKind.children])) ⟨[], facts⟩ hfacts
  · rename_i params body heq
    exact keeps_node (hbelow (by simp [heq, NodeKind.children])) ⟨parameters params, facts⟩ hfacts
  · exact hfacts

end Inference

/-- What bodies say is about nodes of the classes. -/
theorem BodyFacts.about_ofClasses {P : NodeId → Prop} {table : ClassTable}
    (h : ∀ c ∈ table.values, ∀ n ∈ c.preorder, P n.id) : (BodyFacts.ofClasses table).About P := by
  have hempty : ({} : BodyFacts).About P := ⟨fun i hi => (by cases hi), fun i f hi => (by cases hi)⟩
  -- Class by class, and in each class member by member, the notes stay about nodes of the classes.
  refine List.foldlRecOn (motive := About P) _ _ hempty ?_
  intro facts hfacts c hc
  refine List.foldlRecOn (motive := About P) _ _ hfacts ?_
  intro facts hfacts m hm
  apply Inference.about_member hfacts
  exact fun n hn => h c hc n (Node.mem_preorder_of_child (NodeKind.mem_children_of_mem_members hm) hn)

/-! ### Indexes -/

/-- The classes of a table were given. -/
theorem ClassTable.mem_of_mem_values_ofNodes {given : List Node} {c : Node}
    (h : c ∈ (ofNodes given).values) : c ∈ given := by
  have hfold : ∀ c ∈ (ofNodes given).values, c ∈ given := by
    unfold ofNodes
    -- A declaration is put into the table or left out, so only what was given comes in.
    refine List.foldlRecOn (motive := fun table => ∀ c ∈ Dict.values table, c ∈ given) _ _
      (fun c hc => by cases hc) ?_
    intro table htable n hn c hc
    split at hc
    · rw [Dict.mem_values_iff] at hc
      obtain ⟨name, hname⟩ := hc
      rw [Dict.find?_set] at hname
      split at hname
      · exact Option.some.inj hname ▸ hn
      · exact htable c (Dict.mem_values_iff.2 ⟨name, hname⟩)
    · exact htable c hc
  exact hfold c h

namespace Program

variable {base : UInt32} {given : List Node}

/-- A dictionary of entries for other keys has nothing under a key. -/
private theorem find?_ofListLast_eq_none {ν : Type} {entries : List (NodeId × ν)} {i : NodeId}
    (h : ∀ x ∈ entries, x.1 ≠ i) : Dict.find? (Catalog.ofListLast entries) i = none := by
  rw [Dict.find?_eq_none_iff]
  intro hi
  obtain ⟨x, hx, rfl⟩ := List.mem_map.1 hi
  exact h x (Catalog.mem_of_mem_ofListLast hx) rfl

/-- The index of classes that were read, with numbers below `base`, lies below `base`. -/
theorem below_ofClasses (h : ∀ c ∈ given, ∀ n ∈ c.preorder, n.IsRead ∧ n.id.word < base) :
    (ofClasses given).Below base := by
  have hclasses : ∀ c ∈ (ClassTable.ofNodes given).values, ∀ n ∈ c.preorder,
      n.IsRead ∧ n.id.word < base :=
    fun c hc => h c (ClassTable.mem_of_mem_values_ofNodes hc)
  -- A number from `base` on belongs to no node of the classes, so it is no key of the dictionaries, which
  -- are keyed by nodes of the classes.
  have hne {c n : Node} (hc : c ∈ (ClassTable.ofNodes given).values) (hn : n ∈ c.preorder)
      {i : NodeId} (hi : base ≤ i.word) : n.id ≠ i := by
    rintro rfl
    exact UInt32.not_le.2 (hclasses c hc n hn).2 hi
  have hmember {c m : Node} (hm : m ∈ c.kind.members) {n : Node} (hn : n ∈ m.preorder) :
      n ∈ c.preorder :=
    Node.mem_preorder_of_child (NodeKind.mem_children_of_mem_members hm) hn
  have hfacts : (BodyFacts.ofClasses (ClassTable.ofNodes given)).About fun i => i.word < base :=
    BodyFacts.about_ofClasses fun c hc n hn => (hclasses c hc n hn).2
  constructor
  case nodes =>
    intro i hi
    apply find?_ofListLast_eq_none
    intro x hx
    obtain ⟨c, hc, hx⟩ := List.mem_flatMap.1 hx
    obtain ⟨n, hn, rfl⟩ := List.mem_map.1 hx
    exact hne hc hn hi
  case enclosing =>
    intro i hi
    apply find?_ofListLast_eq_none
    intro x hx
    obtain ⟨c, hc, hx⟩ := List.mem_flatMap.1 hx
    rcases List.mem_append.1 hx with hx | hx
    · obtain ⟨a, ha, rfl⟩ := List.mem_map.1 hx
      have ha := NodeKind.mem_children_of_mem_annotations ha
      exact hne hc (Node.mem_preorder_of_child ha a.mem_preorder_self) hi
    · obtain ⟨m, hm, hx⟩ := List.mem_flatMap.1 hx
      obtain ⟨n, hn, rfl⟩ := List.mem_map.1 hx
      exact hne hc (hmember hm hn) hi
  case declaring =>
    intro i hi
    apply find?_ofListLast_eq_none
    intro x hx
    obtain ⟨c, hc, hx⟩ := List.mem_flatMap.1 hx
    obtain ⟨m, hm, rfl⟩ := List.mem_map.1 hx
    exact hne hc (hmember hm m.mem_preorder_self) hi
  case assignmentTargets =>
    intro i hi
    rw [← Bool.not_eq_true, Catalog.contains_iff]
    rintro ⟨j, hj, rfl⟩
    exact UInt32.not_le.2 (hfacts.assignmentTargets j hj) hi
  case fieldRefs =>
    intro i hi
    rw [Option.eq_none_iff_forall_ne_some]
    intro f hf
    exact UInt32.not_le.2 (hfacts.fieldRefs i f hf) hi
  case entities =>
    intro e he n hn
    rcases List.mem_append.1 he with he | he
    · rcases List.mem_append.1 he with he | he
      · obtain ⟨m, hm, rfl⟩ := List.mem_map.1 he
        obtain ⟨c, hc, hm⟩ := List.mem_flatMap.1 hm
        exact (hclasses c hc n (Node.mem_preorder_trans hm hn)).1
      · obtain ⟨t, _, rfl⟩ := List.mem_map.1 he
        cases hn
    · obtain ⟨s, _, rfl⟩ := List.mem_map.1 he
      cases hn
  case classes => exact fun c hc n hn => (hclasses c hc n hn).1

/-- Which numbers are free does not matter. -/
theorem Below.withIdBase {p : Program} (h : p.Below base) (free : UInt32) :
    (p.withIdBase free).Below base :=
  ⟨h.nodes, h.enclosing, h.declaring, h.assignmentTargets, h.fieldRefs, h.entities, h.classes⟩

end Program

end CodeRules
