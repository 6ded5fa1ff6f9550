import CodeRules.Code.Node
import Mathlib.Data.List.Nodup
import Mathlib.Data.List.Pairwise

/-!
# Local variables in scope

A local variable is in scope in the statements that come after it in its block. What a tree hides from
one of its nodes (`Node.Hides`) is known from what its children hide from the node and, for a block,
from the variables that are declared in it before (`Node.hides_child_iff`). The numbers in the tree
must be different, for a node to have one place in it.
-/

namespace CodeRules

namespace Node

variable {n m c r : Node} {s : String}

/-! ### Trees with different numbers -/

/-- The numbers of a tree are that of its root and those of its children. -/
theorem ids_eq (n : Node) : n.ids = n.id :: n.children.flatMap ids := by
  rw [ids, preorder_eq, List.map_cons, List.map_flatMap]
  rfl

/-- A node of a tree is its root or stands below a child. -/
theorem mem_preorder_iff : m ∈ n.preorder ↔ m = n ∨ ∃ c ∈ n.children, m ∈ c.preorder := by
  rw [preorder_eq, List.mem_cons, List.mem_flatMap]

/-- The number of a node of a tree is among the numbers of the tree. -/
theorem id_mem_ids (h : m ∈ n.preorder) : m.id ∈ n.ids := List.mem_map_of_mem h

/-- The numbers of the children of a tree with different numbers are different. -/
theorem nodup_ids_children (h : n.ids.Nodup) : (n.children.flatMap ids).Nodup := by
  rw [ids_eq] at h
  exact (List.nodup_cons.1 h).2

/-- Each of several trees with different numbers has different numbers. -/
theorem nodup_ids_of_mem {l : List Node} (h : (l.flatMap ids).Nodup) (hc : c ∈ l) : c.ids.Nodup :=
  (List.nodup_flatMap.1 h).1 c hc

/-- A child of a tree with different numbers has different numbers. -/
theorem nodup_ids_child (h : n.ids.Nodup) (hc : c ∈ n.children) : c.ids.Nodup :=
  nodup_ids_of_mem (nodup_ids_children h) hc

/-- A node is found in one of several trees only, and at one place. -/
theorem eq_of_id_eq {l : List Node} (h : (l.flatMap ids).Nodup) {a b : Node} (ha : a ∈ l) (hb : b ∈ l)
    (hm : m ∈ a.preorder) (hn : n ∈ b.preorder) (hid : m.id = n.id) : a = b ∧ m = n := by
  have hab : a = b := by
    by_contra hne
    have : Std.Symm (Function.onFun List.Disjoint ids) := ⟨fun _ _ h => List.disjoint_symm h⟩
    -- two different trees of the list share no number
    have hdisjoint := (List.nodup_flatMap.1 h).2.forall ha hb hne
    exact hdisjoint (id_mem_ids hm) (hid ▸ id_mem_ids hn)
  subst hab
  exact ⟨rfl, List.inj_on_of_nodup_map (nodup_ids_of_mem h ha) hm hn hid⟩

/-- Trees with different numbers are different. -/
theorem nodup_of_nodup_ids {l : List Node} (h : (l.flatMap ids).Nodup) : l.Nodup := by
  refine (List.nodup_flatMap.1 h).2.imp ?_
  rintro a _ hdisjoint rfl
  exact hdisjoint (id_mem_ids a.mem_preorder_self) (id_mem_ids a.mem_preorder_self)

/-- The roots of trees with different numbers have different numbers. -/
theorem nodup_map_id {l : List Node} (h : (l.flatMap ids).Nodup) : (l.map id).Nodup :=
  (nodup_of_nodup_ids h).map_on fun a ha b hb hid =>
    (eq_of_id_eq h ha hb a.mem_preorder_self b.mem_preorder_self hid).1

/-- No node is below itself. -/
theorem notMem_preorder_child (h : n.ids.Nodup) (hc : c ∈ n.children) : n ∉ c.preorder := by
  intro hn
  rw [ids_eq, List.nodup_cons] at h
  exact h.1 (List.mem_flatMap.2 ⟨c, hc, id_mem_ids hn⟩)

/-! ### Hiding -/

/-- The node declares a local variable. -/
def Declares (n : Node) (s : String) : Prop := ∃ t init, n.kind = .localVar t s init

/-- The local variables that a statement brings into scope. -/
def declared (n : Node) : List (String × CodeType) :=
  match n.kind with
  | .localVar t s _ => [(s, t)]
  | _ => []

/-- A statement brings into scope what it declares. -/
theorem mem_declared_iff : (∃ y ∈ n.declared, y.1 = s) ↔ n.Declares s := by
  rw [declared, Declares]
  split
  · rename_i t s' init hkind
    simp [hkind]
  · rename_i hkind
    simp only [List.not_mem_nil, false_and, exists_false, false_iff, not_exists]
    exact fun t init => hkind t s init

/-- Only declarations bring local variables into scope. -/
theorem declared_eq_nil (h : n.tag ≠ .localVar) : n.declared = [] := by
  rw [declared]
  split
  · rename_i hkind
    exact absurd (by rw [tag, hkind]; rfl) h
  · rfl

/-- A node with the tag of a block is one. -/
theorem exists_block_of_tag (h : n.tag = .block) : ∃ stmts, n.kind = .block stmts := by
  rw [tag] at h
  cases hkind : n.kind with
  | block stmts => exact ⟨stmts, rfl⟩
  | _ => rw [hkind] at h; cases h

/-- The node is a block that declares a local variable before it comes to a statement. -/
def DeclaresBefore (n : Node) (s : String) (stmt : Node) : Prop :=
  ∃ before after, n.kind = .block (before ++ stmt :: after) ∧ ∃ l ∈ before, l.Declares s

/-- A block of the tree around the node declares the local variable before. -/
def Hides (r : Node) (s : String) (n : Node) : Prop :=
  ∃ b ∈ r.preorder, ∃ stmt, b.DeclaresBefore s stmt ∧ n ∈ stmt.preorder

/-- The statement that a variable is declared before is a child of the block. -/
theorem DeclaresBefore.mem_children {stmt : Node} (h : n.DeclaresBefore s stmt) :
    stmt ∈ n.children := by
  obtain ⟨before, after, hkind, _⟩ := h
  rw [children, hkind]
  exact List.mem_append_cons_self

/-- What is declared before a statement does not depend on where the statement is found. -/
theorem declaresBefore_iff (h : n.ids.Nodup) {before after : List Node} {stmt : Node}
    (hkind : n.kind = .block (before ++ stmt :: after)) :
    n.DeclaresBefore s stmt ↔ ∃ l ∈ before, l.Declares s := by
  refine ⟨?_, fun hl => ⟨before, after, hkind, hl⟩⟩
  rintro ⟨before', after', hkind', hl⟩
  have hnodup : (before ++ stmt :: after).Nodup := by
    have := nodup_of_nodup_ids (nodup_ids_children h)
    rwa [children, hkind] at this
  -- no statement stands in a block twice, so it splits the block in one way
  have hmem : stmt ∉ before ∧ stmt ∉ after := by
    have := (List.nodup_middle.1 hnodup).notMem
    rwa [List.mem_append, not_or] at this
  have hsplit : before ++ stmt :: after = before' ++ stmt :: after' :=
    NodeKind.block.inj (hkind.symm.trans hkind')
  rw [((List.append_cons_inj_of_notMem hmem.1 hmem.2).1 hsplit).1]
  exact hl

/-- Nothing is hidden from the root: no statement has it below itself. -/
theorem not_hides_self (h : n.ids.Nodup) : ¬ n.Hides s n := by
  rintro ⟨b, hb, stmt, hbefore, hn⟩
  rcases mem_preorder_iff.1 hb with rfl | ⟨c, hc, hb⟩
  · exact notMem_preorder_child h hbefore.mem_children hn
  · have hstmt := mem_preorder_of_child hbefore.mem_children hn
    exact notMem_preorder_child h hc (mem_preorder_trans hb hstmt)

/-- What is hidden from a node below a child is declared before the child, or hidden in it. -/
theorem hides_child_iff (h : n.ids.Nodup) (hc : c ∈ n.children) (hm : m ∈ c.preorder) :
    n.Hides s m ↔ n.DeclaresBefore s c ∨ c.Hides s m := by
  constructor
  · rintro ⟨b, hb, stmt, hbefore, hmem⟩
    -- the block is the root, or the child that the node is below
    rcases mem_preorder_iff.1 hb with rfl | ⟨d, hd, hb⟩
    · rw [← (eq_of_id_eq (nodup_ids_children h) hbefore.mem_children hc hmem hm rfl).1]
      exact .inl hbefore
    · have hmd := mem_preorder_trans hb (mem_preorder_of_child hbefore.mem_children hmem)
      rw [← (eq_of_id_eq (nodup_ids_children h) hd hc hmd hm rfl).1]
      exact .inr ⟨b, hb, stmt, hbefore, hmem⟩
  · rintro (hbefore | ⟨b, hb, stmt, hbefore, hmem⟩)
    · exact ⟨n, n.mem_preorder_self, c, hbefore, hm⟩
    · exact ⟨b, mem_preorder_of_child hc hb, stmt, hbefore, hmem⟩

end Node

end CodeRules
