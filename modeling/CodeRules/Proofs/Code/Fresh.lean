import CodeRules.Proofs.Code.Rebuild
import Mathlib.Data.List.Flatten
import Mathlib.Data.List.Perm.Subperm

/-!
# Numbers of new nodes

Making nodes only adds records to the arena (`Arena.Extends`). As long as numbers do not run out, the
nodes that are made have numbers of their own, and none that was given out before (`Arena.Fresh`). A
copy is such a tree (`Entity.leaves_copy_fresh`).
-/

namespace CodeRules

open Effect

/-! ### Arenas -/

namespace Arena

variable {a a' a'' : Arena}

/-- All records of an arena are kept, and others may follow them. -/
structure Extends (a a' : Arena) : Prop where
  base : a'.base = a.base
  records : a.records.toList <+: a'.records.toList

/-- An arena extends itself. -/
theorem Extends.refl (a : Arena) : a.Extends a := ⟨rfl, List.prefix_rfl⟩

/-- Records that are kept twice are kept. -/
theorem Extends.trans (h : a.Extends a') (h' : a'.Extends a'') : a.Extends a'' :=
  ⟨h'.base.trans h.base, h.records.trans h'.records⟩

/-- No records are lost. -/
theorem Extends.size_le (h : a.Extends a') : a.size ≤ a'.size := h.records.length_le

/-- Giving out a number adds one record. -/
@[simp] theorem size_alloc (a : Arena) (p : Provenance) : (a.alloc p).2.size = a.size + 1 :=
  Array.size_push ..

/-- Giving out a number keeps all records. -/
theorem extends_alloc (a : Arena) (p : Provenance) : a.Extends (a.alloc p).2 :=
  ⟨rfl, by simp [alloc]⟩

/-- The numbers given out so far are all different. -/
def Fits (a : Arena) : Prop := a.base.toNat + a.size ≤ UInt32.size

/-- If the numbers of a later arena do not run out, those of an earlier one did not. -/
theorem Extends.fits (h : a.Extends a') (ha' : a'.Fits) : a.Fits := by
  have hsize := h.size_le
  rw [Fits, h.base] at ha'
  rw [Fits]
  omega

/-- The number at a place, when the sum does not wrap round. -/
theorem toNat_idAt {k : Nat} (h : a.base.toNat + k < UInt32.size) :
    (a.idAt k).word.toNat = a.base.toNat + k := by
  rw [UInt32.size] at h
  have hof : (UInt32.ofNat k).toNat = k := by
    rw [UInt32.toNat_ofNat']
    omega
  rw [idAt, UInt32.toNat_add, hof, Nat.mod_eq_of_lt (by omega)]

/-- Numbers that are yet to be given out are not of the arena. -/
theorem contains_eq_false {i : NodeId} (h : a.base.toNat + a.size ≤ i.word.toNat) :
    a.contains i = false := by
  rw [contains, index?, Option.isSome_eq_false_iff, Option.isNone_iff_eq_none, if_neg]
  rintro ⟨hbase, hplace⟩
  rw [UInt32.toNat_sub_of_le _ _ hbase] at hplace
  omega

/-- Nodes that lie in no file and whose numbers were given out after `a` and up to `a'`, each to one
node. -/
structure Fresh (a a' : Arena) (ns : List Node) : Prop where
  synthetic : ∀ n ∈ ns, n.span = .synthetic
  allocated : a'.Fits → ∀ n ∈ ns, a.base.toNat + a.size ≤ n.id.word.toNat ∧
    n.id.word.toNat < a'.base.toNat + a'.size
  nodup : a'.Fits → (ns.map Node.id).Nodup

variable {ms ns : List Node}

/-- No nodes are all new. -/
theorem fresh_nil : Fresh a a' [] where
  synthetic := by simp
  allocated := by simp
  nodup := by simp

/-- Some of the nodes, in whatever order. -/
theorem Fresh.subperm (h : Fresh a a' ns) (hms : ms.Subperm ns) : Fresh a a' ms where
  synthetic n hn := h.synthetic n (hms.subset hn)
  allocated hfits n hn := h.allocated hfits n (hms.subset hn)
  nodup hfits := by
    obtain ⟨l, hperm, hsublist⟩ := hms
    exact (hperm.map Node.id).nodup_iff.1 ((h.nodup hfits).sublist (hsublist.map Node.id))

/-- What is made later has other numbers. -/
theorem Fresh.append (h : Fresh a a' ms) (h' : Fresh a' a'' ns) (ha : a.Extends a')
    (ha' : a'.Extends a'') : Fresh a a'' (ms ++ ns) where
  synthetic n hn := (List.mem_append.1 hn).elim (h.synthetic n) (h'.synthetic n)
  allocated hfits n hn := by
    have hsize := ha.size_le
    have hsize' := ha'.size_le
    rw [ha'.base, ha.base]
    -- made before `a'`, and so before the end
    rcases List.mem_append.1 hn with hn | hn
    · have hbounds := h.allocated (ha'.fits hfits) n hn
      rw [ha.base] at hbounds
      -- made after `a'`, whose numbers start where those of `a` have ended
      omega
    · have hbounds := h'.allocated hfits n hn
      rw [ha'.base, ha.base] at hbounds
      omega
  nodup hfits := by
    rw [List.map_append]
    refine List.nodup_append.2 ⟨h.nodup (ha'.fits hfits), h'.nodup hfits, fun i hi j hj heq => ?_⟩
    obtain ⟨n, hn, rfl⟩ := List.mem_map.1 hi
    obtain ⟨m, hm, rfl⟩ := List.mem_map.1 hj
    -- a number of the first nodes lies below the ones of the others
    have hbelow := (h.allocated (ha'.fits hfits) n hn).2
    have habove := (h'.allocated hfits m hm).1
    rw [heq] at hbelow
    omega

/-- A node with the next number. -/
theorem fresh_alloc (a : Arena) (p : Provenance) {n : Node} (hid : n.id = (a.alloc p).1)
    (hspan : n.span = .synthetic) : Fresh a (a.alloc p).2 [n] where
  synthetic m hm := List.mem_singleton.1 hm ▸ hspan
  allocated hfits m hm := by
    have hbase : (a.alloc p).2.base = a.base := rfl
    rw [Fits, size_alloc, hbase] at hfits
    have hnext : (a.idAt a.size).word.toNat = a.base.toNat + a.size := toNat_idAt (by omega)
    rw [List.mem_singleton.1 hm, hid, size_alloc, hbase]
    show a.base.toNat + a.size ≤ (a.idAt a.size).word.toNat ∧
      (a.idAt a.size).word.toNat < a.base.toNat + (a.size + 1)
    omega
  nodup _ := List.nodup_singleton _

end Arena

/-! ### Kinds -/

namespace NodeKind

variable {m : Type → Type} [Monad m] [LawfulMonad m] {α β : Type}

/-- Changing what an option holds changes its only element. -/
private theorem toList_mapM (f : α → m β) (o : Option α) :
    Option.toList <$> o.mapM f = o.toList.mapM f := by
  cases o with
  | none => simp
  | some x => simp

/-- The children are changed in the order they are written. -/
theorem children_mapM (f : α → m β) (k : NodeKind α) :
    children <$> k.mapM f = k.children.mapM f := by
  cases k <;> simp [mapM, children, List.mapM_append, ← toList_mapM]

/-- An option that is filtered keeps what it held or nothing. -/
private theorem filter_sublist (p : α → Bool) (o : Option α) :
    (o.filter p).toList.Sublist o.toList := by
  cases o with
  | none => exact List.Sublist.refl _
  | some x =>
    rw [Option.filter_some]
    split
    · exact List.Sublist.refl _
    · exact List.nil_sublist _

/-- Leaving out unwritten children keeps the others in order. -/
theorem children_written_sublist (k : NodeKind Node) :
    k.written.children.Sublist k.children := by
  cases k with
  | fieldDecl | methodDecl => exact List.Sublist.append_left (filter_sublist ..) _
  | returnStmt | localVar => exact filter_sublist ..
  | call => exact List.Sublist.append_right (filter_sublist ..) _
  | _ => exact List.Sublist.refl _

end NodeKind

/-! ### Copies -/

/-- What is made for the elements of a list is new, if it is for each of them. -/
theorem Effect.leaves_mapM_fresh {α β : Type} {f : α → StateM Arena β} {nodes : β → List Node}
    {l : List α} (h : ∀ x ∈ l, ∀ a, Leaves (f x) a fun y a' =>
      a.Extends a' ∧ a.Fresh a' (nodes y)) (a : Arena) :
    Leaves (l.mapM f) a fun ys a' => a.Extends a' ∧ a.Fresh a' (ys.flatMap nodes) := by
  induction l generalizing a with
  | nil => exact ⟨.refl a, Arena.fresh_nil⟩
  | cons x l ih =>
    rw [List.mapM_cons, leaves_bind]
    refine (h x (List.mem_cons_self ..) a).mono fun y a₁ hy => ?_
    rw [leaves_bind]
    refine (ih (fun z hz => h z (List.mem_cons_of_mem _ hz)) a₁).mono fun ys a₂ hys => ?_
    rw [leaves_pure, List.flatMap_cons]
    exact ⟨hy.1.trans hys.1, hy.2.append hys.2 hy.1 hys.1⟩

namespace Node

/-- Making a node gives it the next number. -/
theorem leaves_make_iff {p : Provenance} {kind : NodeKind Node} {a : Arena} {Q : Node → Arena → Prop} :
    Leaves (Arena.make p kind) a Q ↔ Q (make (a.alloc p).1 .synthetic kind) (a.alloc p).2 := Iff.rfl

/-- The nodes of a new node are itself and those of its children. -/
theorem preorder_make (i : NodeId) (span : Span) (kind : NodeKind Node) :
    (make i span kind).preorder = make i span kind :: kind.children.flatMap preorder := by
  rw [preorder_eq, children, show (make i span kind).kind = kind.canonical from rfl,
    NodeKind.children_canonical]

/-- A new node has a new number, and its children those that they had. -/
theorem leaves_make_fresh {a₀ a : Arena} (ha : a₀.Extends a) {kind : NodeKind Node}
    (h : a₀.Fresh a (kind.children.flatMap preorder)) (p : Provenance) :
    Leaves (Arena.make p kind) a fun n a' => a.Extends a' ∧ a₀.Fresh a' n.preorder := by
  have hgrows := a.extends_alloc p
  rw [leaves_make_iff, preorder_make]
  have hnew : a.Fresh (a.alloc p).2 [make (a.alloc p).1 .synthetic kind] :=
    Arena.fresh_alloc a p rfl rfl
  -- the node gets its number after those of its children, but stands before them
  exact ⟨hgrows, (h.append hnew ha hgrows).subperm (List.perm_append_singleton ..).symm.subperm⟩

/-- The nodes of a copy are new. -/
theorem leaves_copy_fresh (n : Node) (a : Arena) :
    Leaves n.copy a fun m a' => a.Extends a' ∧ a.Fresh a' m.preorder := by
  induction n using Node.induction generalizing a with
  | step n ih =>
  rw [copy_eq, leaves_bind]
  have hchildren := leaves_mapM_fresh ih a
  rw [← NodeKind.children_mapM, leaves_map] at hchildren
  refine hchildren.mono fun kind a₁ hkind => ?_
  obtain ⟨hgrows, hfresh⟩ := hkind
  -- unwritten receivers are copied too, and left out of the copy
  have hwritten := hfresh.subperm (kind.children_written_sublist.flatMap preorder).subperm
  refine (leaves_make_fresh hgrows hwritten _).mono fun m a₂ hm => ⟨hgrows.trans hm.1, hm.2⟩

end Node

namespace Entity

/-- Several entities are copied one after the other. -/
theorem copyAll_eq_mapM (es : List Entity) : copyAll es = es.mapM copy := by
  induction es with
  | nil => rfl
  | cons e es ih => rw [copyAll, List.mapM_cons, ih]

/-- The nodes of a copy are new. -/
theorem leaves_copy_fresh (e : Entity) (a : Arena) :
    Leaves e.copy a fun m a' => a.Extends a' ∧ a.Fresh a' m.nodes := by
  induction e using Entity.induction generalizing a with
  | node n => exact n.leaves_copy_fresh a
  | list items ih =>
    rw [copy, leaves_bind, copyAll_eq_mapM]
    refine (leaves_mapM_fresh ih a).mono fun ms a' hms => ?_
    rw [leaves_pure, nodes, nodesAll_eq_flatMap]
    exact hms
  | _ => exact ⟨.refl a, Arena.fresh_nil⟩

end Entity

end CodeRules
