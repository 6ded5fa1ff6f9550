import CodeRules.Proofs.Code.Scope
import CodeRules.Proofs.Program.Inheritance
import CodeRules.Relation.Category

/-!
# What bodies refer to

The walk over a body finds the bare names that refer to fields and the nodes that are assigned to. It
keeps the local variables in scope in a stack; here it is shown to find what the tree says without one
(`Inference.finds_node`), whatever types are unknown. Main statement: `Program.references_iff`, how
names resolve in all bodies of a program.
-/

namespace CodeRules

open Effect

/-! ### Findings -/

/-- That the bare name with a number refers to a field, or that the node with a number is assigned to. -/
inductive Finding where
  | fieldRef (i : NodeId)
  | target (i : NodeId)

namespace Finding

/-- The number of the node that the finding is about. -/
def id : Finding → NodeId
  | fieldRef i | target i => i

end Finding

/-- What was found about references. -/
def BodyFacts.findings (facts : BodyFacts) : Set Finding := {x | match x with
  | .fieldRef i => (facts.fieldRefs.find? i).isSome = true
  | .target i => facts.assignmentTargets.contains i = true}

namespace BodyFacts

variable {facts : BodyFacts} {i : NodeId}

/-- A name that refers to a field was found when a field is known for its number. -/
theorem fieldRef_mem_findings :
    .fieldRef i ∈ facts.findings ↔ (facts.fieldRefs.find? i).isSome = true := Iff.rfl

/-- A node that is assigned to was found when its number was noted. -/
theorem target_mem_findings :
    .target i ∈ facts.findings ↔ facts.assignmentTargets.contains i = true := Iff.rfl

/-- Noting the field of a name finds the name. -/
theorem findings_set_fieldRef (i f : NodeId) (facts : BodyFacts) :
    { facts with fieldRefs := facts.fieldRefs.set i f }.findings =
      facts.findings ∪ {.fieldRef i} := by
  ext x
  cases x with
  | fieldRef j =>
    simp only [Set.mem_union, Set.mem_singleton_iff, fieldRef_mem_findings, Finding.fieldRef.injEq,
      Dict.find?_set]
    split <;> simp_all
  | target j =>
    simp only [Set.mem_union, Set.mem_singleton_iff, target_mem_findings, reduceCtorEq, or_false]

/-- Noting a target finds the target. -/
theorem findings_insert_target (i : NodeId) (facts : BodyFacts) :
    { facts with assignmentTargets := facts.assignmentTargets.insert i }.findings =
      facts.findings ∪ {.target i} := by
  ext x
  cases x with
  | fieldRef j =>
    simp only [Set.mem_union, Set.mem_singleton_iff, fieldRef_mem_findings, reduceCtorEq, or_false]
  | target j =>
    simp only [Set.mem_union, Set.mem_singleton_iff, target_mem_findings, Finding.target.injEq]
    rw [Catalog.contains_insert, or_comm]
    rfl

end BodyFacts

namespace Node

variable {n c r : Node} {free : Set String} {x : Finding}

/-- The tree consists of statements and expressions, with local variables directly inside blocks. -/
structure IsCode (r : Node) : Prop where
  sort : ∀ n ∈ r.preorder, Category.ofTag n.tag = .statement ∨ Category.ofTag n.tag = .expression
  locals : ∀ n ∈ r.preorder, ∀ c ∈ n.children, c.tag = .localVar → n.tag = .block

instance : DecidablePred IsCode := fun r =>
  decidable_of_iff ((∀ n ∈ r.preorder, Category.ofTag n.tag = .statement ∨
      Category.ofTag n.tag = .expression) ∧
    ∀ n ∈ r.preorder, ∀ c ∈ n.children, c.tag = .localVar → n.tag = .block)
    ⟨fun h => ⟨h.1, h.2⟩, fun h => ⟨h.sort, h.locals⟩⟩

/-- The children of code are code. -/
theorem IsCode.child (h : n.IsCode) (hc : c ∈ n.children) : c.IsCode where
  sort m hm := h.sort m (mem_preorder_of_child hc hm)
  locals m hm := h.locals m (mem_preorder_of_child hc hm)

/-- What is to be found about references in a tree where the names `free` are those of fields. -/
def findings (free : Set String) (r : Node) : Set Finding := {x | match x with
  | .fieldRef i => ∃ n ∈ r.preorder, n.id = i ∧ ∃ s ∈ free, n.kind = .name s ∧ ¬ r.Hides s n
  | .target i => ∃ a ∈ r.preorder, ∃ t v, a.kind = .assign t v ∧ t.id = i}

/-- What is to be found in several trees. -/
def findingsAll (free : Set String) (l : List Node) : Set Finding :=
  {x | ∃ c ∈ l, x ∈ c.findings free}

/-- There is nothing to be found in no tree. -/
@[simp] theorem findingsAll_nil : findingsAll free [] = ∅ := by simp [findingsAll]

/-- What is to be found in the first tree and in the others. -/
@[simp] theorem findingsAll_cons (l : List Node) :
    findingsAll free (c :: l) = c.findings free ∪ findingsAll free l := by
  ext x
  simp [findingsAll]

/-- What is to be found in trees and in further ones. -/
@[simp] theorem findingsAll_append (l l' : List Node) :
    findingsAll free (l ++ l') = findingsAll free l ∪ findingsAll free l' := by
  ext x
  simp [findingsAll, or_and_right, exists_or]

/-- What is to be found in the root alone. -/
def ownFindings (free : Set String) (n : Node) : Set Finding :=
  match n.kind with
  | .name s => {x | s ∈ free ∧ x = .fieldRef n.id}
  | .assign t _ => {.target t.id}
  | _ => ∅

/-- The left side of an assignment in a tree is in the tree. -/
theorem target_mem_preorder {a t v : Node} (ha : a ∈ r.preorder) (hkind : a.kind = .assign t v) :
    t ∈ r.preorder := by
  have ht : t ∈ a.kind.children := by simp [hkind, NodeKind.children]
  exact mem_preorder_trans ha (mem_preorder_of_child ht t.mem_preorder_self)

/-- Findings are about nodes of the tree. -/
theorem exists_of_mem_findings (h : x ∈ r.findings free) : ∃ n ∈ r.preorder, n.id = x.id := by
  cases x with
  | fieldRef i =>
    obtain ⟨n, hn, hid, _⟩ := h
    exact ⟨n, hn, hid⟩
  | target i =>
    obtain ⟨a, ha, t, v, hkind, hid⟩ := h
    exact ⟨t, target_mem_preorder ha hkind, hid⟩

/-- A root that is a free name is found as the name of a field. -/
theorem fieldRef_mem_ownFindings {i : NodeId} :
    .fieldRef i ∈ n.ownFindings free ↔ n.id = i ∧ ∃ s ∈ free, n.kind = .name s := by
  rw [ownFindings]
  split <;> simp_all [eq_comm, and_comm]

/-- A root that is an assignment is where its target is found. -/
theorem target_mem_ownFindings {i : NodeId} :
    .target i ∈ n.ownFindings free ↔ ∃ t v, n.kind = .assign t v ∧ t.id = i := by
  rw [ownFindings]
  split <;> simp_all [eq_comm]

/-- One level of what is to be found: a block hides its variables from the statements after them. -/
theorem mem_findings_iff (h : n.ids.Nodup) : x ∈ n.findings free ↔ x ∈ n.ownFindings free ∨
    ∃ c ∈ n.children, x ∈ c.findings {s ∈ free | ¬ n.DeclaresBefore s c} := by
  cases x with
  | fieldRef i =>
    rw [fieldRef_mem_ownFindings]
    constructor
    -- Below a child a name is hidden by a variable before the child or by a block below the child.
    · rintro ⟨m, hm, hid, s, hs, hkind, hhides⟩
      rcases mem_preorder_iff.1 hm with rfl | ⟨c, hc, hm⟩
      · exact .inl ⟨hid, s, hs, hkind⟩
      · rw [hides_child_iff h hc hm, not_or] at hhides
        exact .inr ⟨c, hc, m, hm, hid, s, ⟨hs, hhides.1⟩, hkind, hhides.2⟩
    · rintro (⟨hid, s, hs, hkind⟩ | ⟨c, hc, m, hm, hid, s, ⟨hs, hbefore⟩, hkind, hhides⟩)
      · exact ⟨n, n.mem_preorder_self, hid, s, hs, hkind, not_hides_self h⟩
      · refine ⟨m, mem_preorder_of_child hc hm, hid, s, hs, hkind, ?_⟩
        rw [hides_child_iff h hc hm, not_or]
        exact ⟨hbefore, hhides⟩
  | target i =>
    rw [target_mem_ownFindings]
    constructor
    · rintro ⟨a, ha, hassign⟩
      rcases mem_preorder_iff.1 ha with rfl | ⟨c, hc, ha⟩
      · exact .inl hassign
      · exact .inr ⟨c, hc, a, ha, hassign⟩
    · rintro (hassign | ⟨c, hc, a, ha, hassign⟩)
      · exact ⟨n, n.mem_preorder_self, hassign⟩
      · exact ⟨a, mem_preorder_of_child hc ha, hassign⟩

/-- Only blocks hide names from their children. -/
theorem findings_eq_of_ne_block (h : n.ids.Nodup) (hblock : n.tag ≠ .block) :
    n.findings free = n.ownFindings free ∪ findingsAll free n.children := by
  have hbefore (s : String) (c : Node) : ¬ n.DeclaresBefore s c := by
    rintro ⟨before, after, hkind, _⟩
    exact hblock (by rw [tag, hkind]; rfl)
  ext x
  simp only [mem_findings_iff h, hbefore, not_false_eq_true, and_true, Set.ofPred_mem_eq, Set.mem_union,
    findingsAll, Set.mem_ofPred_eq]

end Node

/-! ### The walk -/

namespace Inference

variable {table : ClassTable} {owner : CodeType} {α β : Type} {locals locals' : List (String × CodeType)}
  {found found' : Set Finding}

/-- The walk changes the variables in scope like this, and finds this besides what was found. -/
def Finds (locals locals' : List (String × CodeType)) (found : Set Finding) (x : StateM Walk α) : Prop :=
  ∀ facts, Leaves x ⟨locals, facts⟩ fun _ w =>
    w.locals = locals' ∧ w.facts.findings = facts.findings ∪ found

/-- What is found may be written in another way. -/
theorem Finds.congr {x : StateM Walk α} (h : Finds locals locals' found x) (heq : found = found') :
    Finds locals locals' found' x := heq ▸ h

/-- Nothing is found when the walk is over. -/
theorem finds_pure (a : α) : Finds locals locals ∅ (pure a : StateM Walk α) :=
  fun _ => ⟨rfl, (Set.union_empty _).symm⟩

/-- One part of the walk after the other, in the scope that the first leaves. -/
theorem finds_bind {x : StateM Walk α} {f : α → StateM Walk β} {locals₁ : List (String × CodeType)}
    (hx : Finds locals locals₁ found x) (hf : ∀ a, Finds locals₁ locals' found' (f a)) :
    Finds locals locals' (found ∪ found') (x >>= f) := by
  intro facts
  rw [leaves_bind]
  refine (hx facts).mono fun a w h => ?_
  obtain ⟨hlocals, hfound⟩ := h
  have hw : w = ⟨locals₁, w.facts⟩ := by rw [← hlocals]
  rw [← Set.union_assoc, ← hfound, hw]
  exact hf a w.facts

/-- What comes after a walk need not find anything. -/
theorem finds_then {x : StateM Walk α} {f : α → StateM Walk β} (hx : Finds locals locals' found x)
    (hf : ∀ a, Finds locals' locals' ∅ (f a)) : Finds locals locals' found (x >>= f) :=
  (finds_bind hx hf).congr (Set.union_empty _)

/-- Looking at the state finds nothing. -/
theorem finds_get {f : Walk → StateM Walk β}
    (h : ∀ facts, Finds locals locals' found (f ⟨locals, facts⟩)) :
    Finds locals locals' found (get >>= f) := fun facts => h facts facts

/-- A walk whose type is not asked for finds what it finds. -/
theorem finds_discard {x : StateM Walk α} (h : Finds locals locals' found x) :
    Finds locals locals' found (discard x) := h

/-- Changing the variables in scope finds nothing. -/
theorem finds_locals (f : List (String × CodeType) → List (String × CodeType)) :
    Finds locals (f locals) ∅ (modify fun w : Walk => { w with locals := f w.locals }) :=
  fun _ => ⟨rfl, (Set.union_empty _).symm⟩

/-- A note finds what it adds to the findings. -/
theorem finds_note {f : BodyFacts → BodyFacts}
    (h : ∀ facts, (f facts).findings = facts.findings ∪ found) :
    Finds locals locals found (note f) := fun facts => ⟨rfl, h facts⟩

/-- Notes about other things find nothing. -/
theorem finds_note_other {f : BodyFacts → BodyFacts}
    (h : ∀ facts, (f facts).findings = facts.findings) :
    Finds locals locals ∅ (note f) :=
  finds_note fun facts => by rw [h, Set.union_empty]

/-- The names of fields that no variable in scope hides. -/
def freeNames (table : ClassTable) (owner : CodeType) (locals : List (String × CodeType)) : Set String :=
  {s | (¬ ∃ y ∈ locals, y.1 = s) ∧ (table.field? owner s).isSome = true}

/-- A name is found when it is free and is that of a field. -/
theorem finds_name (i : NodeId) (s : String) :
    Finds locals locals {x | s ∈ freeNames table owner locals ∧ x = .fieldRef i}
      (name table owner i s) := by
  refine finds_get fun facts => ?_
  have hbound (h : s ∉ freeNames table owner locals) (type : Option CodeType) :
      Finds locals locals {x | s ∈ freeNames table owner locals ∧ x = .fieldRef i}
        (pure type : Typing) := by
    simpa [h] using finds_pure type
  dsimp only
  split
  -- A variable in scope has the name.
  · rename_i t hlocal
    refine hbound (fun hs => hs.1 ?_) _
    exact ⟨_, List.mem_of_find?_eq_some hlocal, by simpa using List.find?_some hlocal⟩
  · rename_i hlocal
    split
    -- The name is not that of a field.
    · rename_i hfield
      exact hbound (fun hs => by simpa [hfield] using hs.2) _
    · rename_i f hfield
      have hs : s ∈ freeNames table owner locals := by
        refine ⟨fun ⟨y, hy, heq⟩ => ?_, by rw [hfield, Option.isSome_some]⟩
        simpa [heq] using List.find?_eq_none.1 hlocal y hy
      have hnote : Finds locals locals {.fieldRef i} _ :=
        finds_note (BodyFacts.findings_set_fieldRef i f.id)
      simpa [hs] using finds_then hnote fun _ => finds_pure f.kind.declaredType?

/-- A call finds nothing: where it leads to is noted elsewhere. -/
theorem finds_call (i : NodeId) (receiver : CodeType) (method : String) (arity : Nat) :
    Finds locals locals ∅ (call table i receiver method arity) := by
  unfold call
  split
  · exact finds_pure _
  · rename_i m _
    have hnote : Finds locals locals ∅ (note fun facts =>
        { facts with callTargets := facts.callTargets.set i m.id }) := finds_note_other fun _ => rfl
    exact finds_then hnote fun _ => finds_pure m.kind.declaredType?

/-- The walk over nodes that bring nothing into scope. -/
theorem finds_all {free : Set String} {l : List Node}
    (h : ∀ c ∈ l, Finds locals locals (c.findings free) (node table owner c)) :
    Finds locals locals (Node.findingsAll free l) (all (l.map (node table owner))) := by
  induction l with
  | nil =>
    rw [Node.findingsAll_nil]
    exact finds_pure ()
  | cons c l ih =>
    rw [Node.findingsAll_cons]
    have hc := finds_discard (h c (List.mem_cons_self ..))
    exact finds_bind hc fun _ => ih fun d hd => h d (List.mem_cons_of_mem _ hd)

/-- The variables in scope after some statements. -/
def scopeAfter (locals : List (String × CodeType)) (stmts : List Node) : List (String × CodeType) :=
  stmts.foldl (fun locals c => c.declared ++ locals) locals

/-- Names are free after some statements unless one of those declares them. -/
theorem freeNames_scopeAfter (stmts : List Node) : freeNames table owner (scopeAfter locals stmts) =
    {s ∈ freeNames table owner locals | ¬ ∃ l ∈ stmts, l.Declares s} := by
  induction stmts generalizing locals with
  | nil => simp [scopeAfter]
  | cons c stmts ih =>
    show freeNames table owner (scopeAfter (c.declared ++ locals) stmts) = _
    rw [ih]
    ext s
    have hmem : (∃ y ∈ c.declared ++ locals, y.1 = s) ↔ c.Declares s ∨ ∃ y ∈ locals, y.1 = s := by
      simp only [List.mem_append, or_and_right, exists_or, Node.mem_declared_iff]
    simp only [freeNames, hmem, Set.mem_ofPred_eq, List.mem_cons, exists_eq_or_imp, not_or]
    grind

/-- The walk over statements, each of which may bring a variable into scope for those after it. -/
theorem finds_stmts {stmts : List Node} (h : ∀ c ∈ stmts, ∀ locals, Finds locals (c.declared ++ locals)
      (c.findings (freeNames table owner locals)) (node table owner c)) :
    Finds locals (scopeAfter locals stmts) {x | ∃ before c after, stmts = before ++ c :: after ∧
      x ∈ c.findings (freeNames table owner (scopeAfter locals before))}
      (all (stmts.map (node table owner))) := by
  induction stmts generalizing locals with
  | nil => exact (finds_pure ()).congr (by simp)
  | cons c stmts ih =>
    have hc := finds_discard (h c (List.mem_cons_self ..) locals)
    refine (finds_bind hc fun _ => ih fun d hd => h d (List.mem_cons_of_mem _ hd)).congr ?_
    ext x
    symm
    constructor
    -- A statement is the first one or comes later, and in the second case the first one is among those
    -- before it.
    · rintro ⟨before, d, after, heq, hx⟩
      cases before with
      | nil =>
        obtain ⟨rfl, rfl⟩ := List.cons.inj heq
        exact .inl hx
      | cons b before =>
        obtain ⟨rfl, rfl⟩ := List.cons.inj heq
        exact .inr ⟨before, d, after, rfl, hx⟩
    · rintro (hx | ⟨before, d, after, rfl, hx⟩)
      · exact ⟨[], c, stmts, rfl, hx⟩
      · exact ⟨c :: before, d, after, rfl, hx⟩

/-- The walk over a node that is no block, from the walks over its children. -/
theorem finds_kind {n : Node} (hn : n.IsCode) (hids : n.ids.Nodup) (hblock : n.tag ≠ .block)
    (h : ∀ c ∈ n.children, Finds locals locals (c.findings (freeNames table owner locals))
      (node table owner c)) :
    Finds locals (n.declared ++ locals) (n.findings (freeNames table owner locals))
      (kind table owner n (n.kind.map fun c => (c, node table owner c))) := by
  rw [Node.findings_eq_of_ne_block hids hblock]
  have hsort := hn.sort n n.mem_preorder_self
  have hparts (l : List Node) (hl : ∀ c ∈ l, c ∈ n.children) :
      Finds locals locals (Node.findingsAll (freeNames table owner locals) l)
        (all ((l.map fun c => (c, node table owner c)).map Prod.snd)) := by
    rw [List.map_map]
    exact finds_all fun c hc => h c (hl c hc)
  obtain ⟨i, span, k⟩ := n
  cases k
  -- the root, then the children in the order they are written
  all_goals simp only [Node.ownFindings, Node.children, NodeKind.children, List.mem_cons,
    List.mem_append, List.not_mem_nil, or_false, forall_eq_or_imp, forall_eq, Node.findingsAll_nil,
    Node.findingsAll_cons, Node.findingsAll_append, Set.empty_union, Set.union_empty] at h hparts ⊢
  case classDecl | fieldDecl | methodDecl | param | annotationUse =>
    simp [Node.tag, NodeKind.tag, Category.ofTag] at hsort
  case block => exact absurd rfl hblock
  case literal | this | implicitReceiver => exact finds_pure _
  case name s => exact finds_name i s
  case fieldAccess receiver f =>
    -- A receiver is walked for its type, and its findings are those of the only child.
    refine finds_then h fun t => ?_
    cases t <;> exact finds_pure _
  case assign target value =>
    obtain ⟨htarget, hvalue⟩ := h
    have hnote : Finds locals locals {.target target.id} _ :=
      finds_note (BodyFacts.findings_insert_target target.id)
    -- the value is walked before the target
    rw [Set.union_comm (target.findings _)]
    exact finds_bind hnote fun _ => finds_bind (finds_discard hvalue) fun _ => htarget
  case call receiver method args =>
    -- The arguments are walked before the receiver.
    have hargs := hparts args fun c hc => .inr hc
    cases receiver with
    | none =>
      rw [Option.toList_none, Node.findingsAll_nil, Set.empty_union]
      exact finds_then hargs fun _ => finds_call i owner method _
    | some r =>
      rw [Option.toList_some, Node.findingsAll_cons, Node.findingsAll_nil, Set.union_empty,
        Set.union_comm]
      refine finds_bind hargs fun _ => finds_then (h r (by simp)) fun t => ?_
      cases t with
      | none => exact finds_pure _
      | some t => exact finds_call i t method _
  case newObject t args => exact finds_then (hparts args fun c hc => hc) fun _ => finds_pure _
  case binary op left right =>
    exact finds_bind h.1 fun _ => finds_then h.2 fun _ => finds_pure _
  case exprStmt e => exact finds_then (finds_discard h) fun _ => finds_pure _
  case returnStmt v =>
    have hvalue := hparts v.toList fun c hc => hc
    rw [← Option.toList_map] at hvalue
    exact finds_then hvalue fun _ => finds_pure _
  case localVar t s init =>
    have hinit := hparts init.toList fun c hc => hc
    rw [← Option.toList_map] at hinit
    refine (finds_bind hinit fun _ => ?_).congr (Set.union_empty _)
    exact finds_then (finds_locals ((s, t) :: ·)) fun _ => finds_pure _

/-- The walk over a block. -/
theorem finds_block {n : Node} {stmts : List Node} (hids : n.ids.Nodup) (hkind : n.kind = .block stmts)
    (h : ∀ c ∈ stmts, ∀ locals, Finds locals (c.declared ++ locals)
      (c.findings (freeNames table owner locals)) (node table owner c)) :
    Finds locals locals (n.findings (freeNames table owner locals))
      (kind table owner n (n.kind.map fun c => (c, node table owner c))) := by
  have hstmts : Finds locals _ _ _ := finds_stmts h
  have hpairs : stmts.map (node table owner) =
      (stmts.map fun c => (c, node table owner c)).map Prod.snd := by
    rw [List.map_map]
    rfl
  rw [hpairs] at hstmts
  rw [hkind]
  -- after the statements the variables are those of before again
  refine (finds_get fun facts => finds_bind hstmts fun _ =>
    finds_then (finds_locals fun _ => locals) fun _ => finds_pure none).congr ?_
  ext x
  rw [Set.union_empty, Node.mem_findings_iff hids, Node.ownFindings, hkind, Node.children, hkind]
  simp only [Set.mem_empty_iff_false, false_or]
  have hfree {before c after} (heq : stmts = before ++ c :: after) :
      freeNames table owner (scopeAfter locals before) =
        {s ∈ freeNames table owner locals | ¬ n.DeclaresBefore s c} := by
    simp only [freeNames_scopeAfter, Node.declaresBefore_iff hids (heq ▸ hkind)]
  constructor
  · rintro ⟨before, c, after, heq, hx⟩
    exact ⟨c, heq ▸ List.mem_append_cons_self, hfree heq ▸ hx⟩
  · rintro ⟨c, hc, hx⟩
    obtain ⟨before, after, heq⟩ := List.append_of_mem hc
    exact ⟨before, c, after, heq, hfree heq ▸ hx⟩

/-- The walk over a tree finds what the tree says, and brings its variable into scope. -/
theorem finds_node {n : Node} (hn : n.IsCode) (hids : n.ids.Nodup) :
    Finds locals (n.declared ++ locals) (n.findings (freeNames table owner locals))
      (node table owner n) := by
  induction n using Node.induction generalizing locals with
  | step n ih =>
  have hbelow {c : Node} (hc : c ∈ n.children) (locals : List (String × CodeType)) :
      Finds locals (c.declared ++ locals) (c.findings (freeNames table owner locals))
        (node table owner c) :=
    ih c hc (hn.child hc) (Node.nodup_ids_child hids hc)
  have hkind : Finds locals (n.declared ++ locals) (n.findings (freeNames table owner locals))
      (kind table owner n (n.kind.map fun c => (c, node table owner c))) := by
    -- only the children of blocks bring something into scope
    by_cases hblock : n.tag = .block
    · obtain ⟨stmts, hkind⟩ := Node.exists_block_of_tag hblock
      have hdeclared : n.declared = [] := by rw [Node.declared, hkind]
      rw [hdeclared]
      exact finds_block hids hkind fun c hc => hbelow (by rwa [Node.children, hkind])
    · refine finds_kind hn hids hblock fun c hc => ?_
      have hdeclared := Node.declared_eq_nil fun hlocal =>
        hblock (hn.locals n n.mem_preorder_self c hc hlocal)
      simpa [hdeclared] using hbelow hc locals
  rw [node, Node.fold_eq]
  refine finds_then hkind fun type => ?_
  cases type with
  | none => exact finds_pure _
  | some t =>
    have hnote : Finds (n.declared ++ locals) (n.declared ++ locals) ∅ (note fun facts =>
        { facts with types := facts.types.set n.id t }) := finds_note_other fun _ => rfl
    exact finds_then hnote fun _ => finds_pure (some t)

end Inference

/-! ### Members and classes -/

namespace Node

/-- The code of a member that has some: the parameters in scope, and the tree. -/
def code? (m : Node) : Option (List Node × Node) :=
  match m.kind with
  | .fieldDecl _ _ _ _ (some init) => some ([], init)
  | .methodDecl _ _ _ _ params (some body) => some (params, body)
  | _ => none

/-- The code of a member is a child of it. -/
theorem mem_children_of_code? {m r : Node} {params : List Node} (h : m.code? = some (params, r)) :
    r ∈ m.children := by
  rw [code?] at h
  split at h
  · rename_i hkind
    obtain ⟨rfl, rfl⟩ := Prod.mk.inj (Option.some.inj h)
    simp [children, hkind, NodeKind.children]
  · rename_i hkind
    obtain ⟨rfl, rfl⟩ := Prod.mk.inj (Option.some.inj h)
    simp [children, hkind, NodeKind.children]
  · cases h

/-- What is to be found in the code of a member. -/
def codeFindings (table : ClassTable) (owner : CodeType) (m : Node) : Set Finding :=
  {x | ∃ params r, m.code? = some (params, r) ∧
    x ∈ r.findings (Inference.freeNames table owner (Inference.parameters params))}

end Node

namespace Inference

variable {table : ClassTable} {owner : CodeType}

/-- The walk over a member is the walk over its code, with the parameters in scope. -/
theorem member_eq (facts : BodyFacts) (m : Node) : member table owner facts m =
    match m.code? with
    | some (params, r) => ((node table owner r).run ⟨parameters params, facts⟩).2.facts
    | none => facts := by
  obtain ⟨i, span, k⟩ := m
  cases k with
  | fieldDecl _ _ _ _ init => cases init <;> rfl
  | methodDecl _ _ _ _ params body => cases body <;> rfl
  | _ => rfl

/-- The walk over a member finds what its code says. -/
theorem findings_member {m : Node} (hcode : ∀ params r, m.code? = some (params, r) → r.IsCode)
    (hids : m.ids.Nodup) (facts : BodyFacts) :
    (member table owner facts m).findings = facts.findings ∪ m.codeFindings table owner := by
  rw [member_eq, Node.codeFindings]
  cases h : m.code? with
  | none => simp
  | some code =>
    obtain ⟨params, r⟩ := code
    have hr := Node.nodup_ids_child hids (Node.mem_children_of_code? h)
    simpa using (finds_node (hcode params r h) hr facts).2

end Inference

namespace BodyFacts

/-- What several steps find when each finds something besides what was found. -/
theorem findings_foldl {α : Type} {f : BodyFacts → α → BodyFacts} {found : α → Set Finding} {l : List α}
    (h : ∀ a ∈ l, ∀ facts, (f facts a).findings = facts.findings ∪ found a) (facts : BodyFacts) :
    (l.foldl f facts).findings = facts.findings ∪ {x | ∃ a ∈ l, x ∈ found a} := by
  induction l generalizing facts with
  | nil => simp
  | cons a l ih =>
    rw [List.foldl_cons, ih fun b hb => h b (List.mem_cons_of_mem _ hb), h a (List.mem_cons_self ..),
      Set.union_assoc]
    congr 1
    ext x
    simp

/-- The walk over all bodies finds what their trees say. -/
theorem findings_ofClasses {table : ClassTable}
    (hcode : ∀ c ∈ table.values, ∀ m ∈ c.kind.members, ∀ params r,
      m.code? = some (params, r) → r.IsCode)
    (hids : ∀ c ∈ table.values, c.ids.Nodup) :
    (ofClasses table).findings =
      {x | ∃ c ∈ table.values, ∃ m ∈ c.kind.members, x ∈ m.codeFindings table c.declares} := by
  have hempty : ({} : BodyFacts).findings = ∅ :=
    Set.eq_empty_iff_forall_notMem.2 fun x hx => by cases x <;> cases hx
  have hclass : ∀ c ∈ table.values, ∀ facts : BodyFacts,
      (c.kind.members.foldl (Inference.member table c.declares) facts).findings =
        facts.findings ∪ {x | ∃ m ∈ c.kind.members, x ∈ m.codeFindings table c.declares} := by
    -- In each class the findings of the members are added, and then those of the other classes.
    refine fun c hc => findings_foldl fun m hm => Inference.findings_member (hcode c hc m hm) ?_
    exact Node.nodup_ids_child (hids c hc) (NodeKind.mem_children_of_mem_members hm)
  rw [ofClasses, findings_foldl hclass, hempty, Set.empty_union]
  rfl

end BodyFacts

/-! ### Resolution -/

/-- The type that a name stands for has this name. -/
theorem CodeType.baseName_ofName (s : String) : (ofName s).baseName = s := by
  rw [ofName]
  split
  · rename_i hs
    exact hs.symm
  · split
    · rename_i p hp
      rw [Primitive.ofName?] at hp
      have hname := List.find?_some hp
      exact beq_iff_eq.1 hname
    · rfl

namespace ClassTable

variable {t : ClassTable} {given : List Node} {c : Node} {s : String}

/-- Of classes with different names each one stands under its name. -/
theorem find?_ofNodes (hnames : (given.map Node.name?).Nodup) (hc : c ∈ given) {ms : List Modifier}
    {as mem : List Node} {sup : Option CodeType} (hkind : c.kind = .classDecl s ms as sup mem) :
    (ofNodes given).find? s = some c := by
  obtain ⟨before, after, rfl⟩ := List.append_of_mem hc
  have hname : c.name? = some s := by rw [Node.name?, hkind, NodeKind.name?]
  rw [ofNodes, List.foldl_append, List.foldl_cons, hkind]
  -- The class is put in at its turn, and later classes have other names.
  refine List.foldlRecOn (motive := fun table => Dict.find? table s = some c) _ _ ?_ ?_
  · rw [Dict.find?_set, if_pos rfl]
  · intro table htable d hd
    split
    · rename_i s' _ _ _ _ hkind'
      rw [Dict.find?_set, if_neg, htable]
      rintro rfl
      have hnotMem : c.name? ∉ after.map Node.name? := by
        rw [List.map_append, List.map_cons] at hnames
        have := (List.nodup_middle.1 hnames).notMem
        rw [List.mem_append, not_or] at this
        exact this.2
      refine hnotMem (List.mem_map.2 ⟨d, hd, ?_⟩)
      rw [hname, Node.name?, hkind', NodeKind.name?]
    · exact htable

/-- A class is found by the type that it declares. -/
theorem class?_declares (hc : t.find? s = some c) (hname : c.name? = some s) :
    t.class? c.declares.baseName = some c := by
  rw [Node.declares, hname, Option.getD_some, CodeType.baseName_ofName, class?, hc]
  rfl

/-- A class has the fields that it or a class above it declares. -/
theorem isSome_field?_iff (ht : t.Distinct) {type : CodeType} (hc : t.class? type.baseName = some c) :
    (t.field? type s).isSome = true ↔
      ∃ d, t.Inherits c d ∧ ∃ f ∈ d.kind.members, f.tag = .fieldDecl ∧ f.name? = some s := by
  simp only [field?, members, List.find?_isSome, List.mem_flatMap, mem_chain_iff ht, hc,
    Option.some.injEq, exists_eq_left', Bool.and_eq_true, beq_iff_eq]
  constructor
  · rintro ⟨f, ⟨d, hd, hf⟩, hfield⟩
    exact ⟨d, hd, f, hf, hfield⟩
  · rintro ⟨d, hd, f, hf, hfield⟩
    exact ⟨f, ⟨d, hd, hf⟩, hfield⟩

end ClassTable

/-- Only classes have members. -/
theorem NodeKind.exists_of_mem_members {α : Type} {k : NodeKind α} {c : α} (h : c ∈ k.members) :
    ∃ name ms as sup mem, k = .classDecl name ms as sup mem := by
  cases k with
  | classDecl name ms as sup mem => exact ⟨name, ms, as, sup, mem, rfl⟩
  | _ => cases h

/-- Where only the parameters are in scope, the names of fields that no parameter has are free. -/
theorem Inference.mem_freeNames_parameters {table : ClassTable} {owner : CodeType} {params : List Node}
    {s : String} : s ∈ freeNames table owner (parameters params) ↔
      (∀ p ∈ params, ∀ t, p.kind ≠ .param t s) ∧ (table.field? owner s).isSome = true := by
  have hparam : (∃ y ∈ parameters params, y.1 = s) ↔ ∃ p ∈ params, ∃ t, p.kind = .param t s := by
    simp only [parameters, List.mem_reverse, List.mem_filterMap]
    constructor
    · rintro ⟨y, ⟨p, hp, hy⟩, rfl⟩
      split at hy
      · rename_i t s' hkind
        obtain rfl := Option.some.inj hy
        exact ⟨p, hp, t, hkind⟩
      · cases hy
    · rintro ⟨p, hp, t, hkind⟩
      exact ⟨(s, t), ⟨p, hp, by rw [hkind]⟩, rfl⟩
  rw [freeNames, Set.mem_ofPred_eq, hparam]
  simp only [not_exists, not_and, ne_eq]

namespace Program

variable {given : List Node} {c m r n : Node} {params : List Node} {x : Finding}

/-- What is known about a node of a body was found in that body. -/
theorem mem_findings_iff (hnames : (given.map Node.name?).Nodup) (hids : (given.flatMap Node.ids).Nodup)
    (hcode : ∀ c ∈ given, ∀ m ∈ c.kind.members, ∀ params r, m.code? = some (params, r) → r.IsCode)
    (hc : c ∈ given) (hm : m ∈ c.kind.members) (hr : m.code? = some (params, r)) (hn : n ∈ r.preorder)
    (hx : n.id = x.id) : x ∈ (ofClasses given).facts.findings ↔
      x ∈ r.findings (Inference.freeNames (ofClasses given).classes c.declares
        (Inference.parameters params)) := by
  have hgiven {c : Node} : c ∈ (ofClasses given).classes.values → c ∈ given :=
    ClassTable.mem_of_mem_values_ofNodes
  have hchild {c m : Node} (hm : m ∈ c.kind.members) : m ∈ c.children :=
    NodeKind.mem_children_of_mem_members hm
  have hbelow {m r n : Node} {params : List Node} (hr : m.code? = some (params, r))
      (hn : n ∈ r.preorder) : n ∈ m.preorder :=
    Node.mem_preorder_of_child (Node.mem_children_of_code? hr) hn
  have hfound : (ofClasses given).facts.findings = _ :=
    BodyFacts.findings_ofClasses (fun c hc => hcode c (hgiven hc))
      fun c hc => Node.nodup_ids_of_mem hids (hgiven hc)
  rw [hfound]
  constructor
  · rintro ⟨c', hc', m', hm', params', r', hr', hx'⟩
    obtain ⟨n', hn', hid⟩ := Node.exists_of_mem_findings hx'
    -- the number of the node decides the class, and in the class the member
    have hmem := hbelow hr hn
    have hmem' := hbelow hr' hn'
    obtain ⟨rfl, rfl⟩ := Node.eq_of_id_eq hids (hgiven hc') hc
      (Node.mem_preorder_of_child (hchild hm') hmem') (Node.mem_preorder_of_child (hchild hm) hmem)
      (hid.trans hx.symm)
    obtain ⟨rfl, _⟩ := Node.eq_of_id_eq
      (Node.nodup_ids_children (Node.nodup_ids_of_mem hids hc)) (hchild hm') (hchild hm) hmem' hmem rfl
    obtain ⟨rfl, rfl⟩ := Prod.mk.inj (Option.some.inj (hr'.symm.trans hr))
    exact hx'
  · intro hx'
    refine ⟨c, ?_, m, hm, params, r, hr, hx'⟩
    obtain ⟨name, ms, as, sup, mem, hkind⟩ := NodeKind.exists_of_mem_members hm
    exact Dict.mem_values_iff.2 ⟨name, ClassTable.find?_ofNodes hnames hc hkind⟩

/-- In the bodies of classes with different names and numbers, a bare name refers to a field exactly
when no parameter of its method has the name, no local variable declared before it in a block around
it has the name, and its class declares or inherits a field with the name; and exactly the left sides
of assignments are assigned to. -/
theorem references_iff (given : List Node) (hnames : (given.map Node.name?).Nodup)
    (hids : (given.flatMap Node.ids).Nodup)
    (hcode : ∀ c ∈ given, ∀ m ∈ c.kind.members, ∀ params r, m.code? = some (params, r) → r.IsCode) :
    ∀ c ∈ given, ∀ m ∈ c.kind.members, ∀ params r, m.code? = some (params, r) → ∀ n ∈ r.preorder,
      (∀ s, n.kind = .name s →
        ((ofClasses given).surroundings.isFieldReference n.id = true ↔
          (∀ p ∈ params, ∀ t, p.kind ≠ .param t s) ∧ ¬ r.Hides s n ∧
            ∃ d, (ofClasses given).classes.Inherits c d ∧
              ∃ f ∈ d.kind.members, f.tag = .fieldDecl ∧ f.name? = some s)) ∧
      ((ofClasses given).surroundings.isAssignmentTarget n.id = true ↔
        ∃ a ∈ r.preorder, ∃ v, a.kind = .assign n v) := by
  intro c hc m hm params r hr n hn
  have hids' : r.ids.Nodup := by
    have hm' := Node.nodup_ids_child (Node.nodup_ids_of_mem hids hc)
      (NodeKind.mem_children_of_mem_members hm)
    exact Node.nodup_ids_child hm' (Node.mem_children_of_code? hr)
  -- numbers are unique, so a node of the body with this number is this node
  have heq {k : Node} (hk : k ∈ r.preorder) (hid : k.id = n.id) : k = n :=
    List.inj_on_of_nodup_map hids' hk hn hid
  constructor
  · intro s hs
    obtain ⟨name, ms, as, sup, mem, hkind⟩ := NodeKind.exists_of_mem_members hm
    have hclass : (ofClasses given).classes.class? c.declares.baseName = some c :=
      ClassTable.class?_declares (ClassTable.find?_ofNodes hnames hc hkind)
        (by rw [Node.name?, hkind, NodeKind.name?])
    have hfields := ClassTable.isSome_field?_iff (s := s)
      (ClassTable.distinct_ofNodes (Node.nodup_map_id hids)) hclass
    refine (mem_findings_iff (x := .fieldRef n.id) hnames hids hcode hc hm hr hn rfl).trans ?_
    constructor
    -- The finding is about a node with the number of the name, which is the name itself.
    · rintro ⟨k, hk, hid, s', hfree, hs', hhides⟩
      obtain rfl := heq hk hid
      obtain rfl := NodeKind.name.inj (hs.symm.trans hs')
      obtain ⟨hparams, hfield⟩ := Inference.mem_freeNames_parameters.1 hfree
      exact ⟨hparams, hhides, hfields.1 hfield⟩
    · rintro ⟨hparams, hhides, hfield⟩
      have hfree := Inference.mem_freeNames_parameters.2 ⟨hparams, hfields.2 hfield⟩
      exact ⟨n, hn, rfl, s, hfree, hs, hhides⟩
  -- the target of an assignment is recorded with its number
  · refine (mem_findings_iff (x := .target n.id) hnames hids hcode hc hm hr hn rfl).trans ?_
    constructor
    · rintro ⟨a, ha, t, v, hkind, hid⟩
      exact ⟨a, ha, v, heq (Node.target_mem_preorder ha hkind) hid ▸ hkind⟩
    · rintro ⟨a, ha, v, hkind⟩
      exact ⟨a, ha, n, v, hkind, rfl⟩

namespace Nested

/-- A node as it was read at some place. -/
def read (id : UInt32) (kind : NodeKind Node) : Node := ⟨⟨id⟩, ⟨0, id, id⟩, kind⟩

/-- A local variable with the name of a field, whose value is that of the field. -/
def copyOfField : Node := read 7 (.localVar (.primitive .int) "x" (some (read 8 (.name "x"))))

/-- An assignment of the parameter to the variable. -/
def update : Node :=
  read 9 (.exprStmt (read 10 (.assign (read 11 (.name "x")) (read 12 (.name "p")))))

def body : Node := read 6 (.block [copyOfField, update])

def method : Node :=
  read 4 (.methodDecl [] [] .void "m" [read 5 (.param (.primitive .int) "p")] (some body))

/-- Two classes that inherit from each other, one with the field and one with the method. -/
def classes : List Node :=
  [read 1 (.classDecl "A" [] [] (some (.named "B" []))
      [read 2 (.fieldDecl [] [] (.primitive .int) "x" none)]),
    read 3 (.classDecl "B" [] [] (some (.named "A" [])) [method])]

/-- The variable is not hidden in its own initial value, and hides the field after that. -/
theorem references_iff_nested :
    ((ofClasses classes).surroundings.isFieldReference ⟨8⟩ = true ∧
      ¬ body.Hides "x" (read 8 (.name "x"))) ∧
    (ofClasses classes).surroundings.isFieldReference ⟨11⟩ = false ∧
    (ofClasses classes).surroundings.isFieldReference ⟨12⟩ = false ∧
    (ofClasses classes).surroundings.isAssignmentTarget ⟨11⟩ = true := by
  have hcode : ∀ c ∈ classes, ∀ m ∈ c.kind.members, ∀ code ∈ m.code?, code.2.IsCode := by decide
  have hbody := references_iff classes (by decide) (by decide)
    (fun c hc m hm _ _ h => hcode c hc m hm _ h)
    _ (List.mem_cons_of_mem _ (List.mem_cons_self ..)) method (List.mem_cons_self ..) _ body rfl
  have hinitial := hbody (read 8 (.name "x")) (List.mem_of_getElem? (i := 2) rfl)
  have htarget := hbody (read 11 (.name "x")) (List.mem_of_getElem? (i := 5) rfl)
  have hvalue := hbody (read 12 (.name "p")) (List.mem_of_getElem? (i := 6) rfl)
  have hfield : (ofClasses classes).surroundings.isFieldReference ⟨8⟩ = true := rfl
  have hhides : body.Hides "x" (read 11 (.name "x")) :=
    ⟨body, body.mem_preorder_self, update,
      ⟨[copyOfField], [], rfl, copyOfField, List.mem_singleton_self _, _, _, rfl⟩,
      List.mem_of_getElem? (i := 2) rfl⟩
  refine ⟨⟨hfield, ((hinitial.1 "x" rfl).1 hfield).2.1⟩, Bool.eq_false_iff.2 fun h => ?_,
    Bool.eq_false_iff.2 fun h => ?_, htarget.2.2 ?_⟩
  · exact ((htarget.1 "x" rfl).1 h).2.1 hhides
  · exact ((hvalue.1 "p" rfl).1 h).1 _ (List.mem_singleton_self _) _ rfl
  · exact ⟨_, List.mem_of_getElem? (i := 4) rfl, _, rfl⟩

end Nested

end Program

end CodeRules
