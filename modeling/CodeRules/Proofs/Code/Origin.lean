import CodeRules.Fragment.Generate
import CodeRules.Proofs.Code.Fresh

/-!
# Where copies come from

A copy of an entity whose nodes are copyable is the entity again, node by node: it has as many nodes,
and the record of each says that it was copied from the node at the same position
(`Generating.copy_faithful`). Nodes get their numbers after the nodes below them, so positions in the
arena are no positions in the tree; the induction follows the tree and keeps the records of the nodes
that were made before.
-/

namespace CodeRules

open Effect

/-! ### Records -/

namespace Arena

variable {a a' a'' : Arena}

/-- The record at the place of a number, as long as numbers do not run out. -/
theorem get?_idAt (hfits : a.Fits) {k : Nat} (hk : k < a.size) : a.get? (a.idAt k) = a.records[k]? := by
  have hbase : a.base.toNat + k < UInt32.size := Nat.lt_of_lt_of_le (Nat.add_lt_add_left hk _) hfits
  have hplace := toNat_idAt hbase
  have hle : a.base ≤ (a.idAt k).word := by
    rw [UInt32.le_iff_toNat_le]
    omega
  have hdiff : ((a.idAt k).word - a.base).toNat = k := by
    rw [UInt32.toNat_sub_of_le _ _ hle]
    omega
  rw [get?, index?, hdiff, if_pos ⟨hle, hk⟩]
  rfl

/-- The node was made, and its record says that it was copied from the node of the number `i`. -/
def CopiedFrom (a : Arena) (n : Node) (i : NodeId) : Prop :=
  ∃ k p, n.id = a.idAt k ∧ a.records[k]? = some p ∧ p.copiedFrom = some i

/-- A record stays when others are added. -/
theorem CopiedFrom.extends {n : Node} {i : NodeId} (h : a.CopiedFrom n i) (ha : a.Extends a') :
    a'.CopiedFrom n i := by
  obtain ⟨k, p, hid, hp, hcopied⟩ := h
  refine ⟨k, p, ?_, ?_, hcopied⟩
  · rw [hid, idAt, idAt, ha.base]
  · obtain ⟨later, hrecords⟩ := ha.records
    have hk := (Array.getElem?_eq_some_iff.1 hp).1
    rw [← Array.getElem?_toList] at hp ⊢
    rw [← hrecords, List.getElem?_append_left (by simpa using hk), hp]

/-- A node with the next number has the record that was given for it. -/
theorem copiedFrom_alloc (a : Arena) {p : Provenance} {i : NodeId} (hp : p.copiedFrom = some i)
    {n : Node} (hid : n.id = (a.alloc p).1) : (a.alloc p).2.CopiedFrom n i :=
  ⟨a.size, p, hid, by simp [alloc, size], hp⟩

/-- The record names the source, as long as numbers do not run out. -/
theorem CopiedFrom.source? {n : Node} {i : NodeId} (h : a.CopiedFrom n i) (hfits : a.Fits) :
    a.source? n.id = some i := by
  obtain ⟨k, p, hid, hp, hcopied⟩ := h
  have hk : k < a.size := (Array.getElem?_eq_some_iff.1 hp).1
  rw [Arena.source?, hid, get?_idAt hfits hk, hp, Option.bind_some, hcopied]

end Arena

/-! ### Copies, node by node -/

/-- The new nodes `ms` are copies of `ns`, position by position, and nothing else was made. -/
structure CopiesOf (a a' : Arena) (ms ns : List Node) : Prop where
  grows : a.Extends a'
  size : a'.size = a.size + ns.length
  sources : List.Forall₂ (fun m n => a'.CopiedFrom m n.id) ms ns

namespace CopiesOf

variable {a a' a'' : Arena} {ms ms' ns ns' : List Node}

/-- No copies are made of no nodes. -/
theorem nil (a : Arena) : CopiesOf a a [] [] := ⟨.refl a, rfl, .nil⟩

/-- Copies that are made one time after the other are copies of all the nodes in order. -/
theorem append (h : CopiesOf a a' ms ns) (h' : CopiesOf a' a'' ms' ns') :
    CopiesOf a a'' (ms ++ ms') (ns ++ ns') where
  grows := h.grows.trans h'.grows
  size := by
    rw [h'.size, h.size, List.length_append]
    omega
  sources := List.rel_append (h.sources.imp fun _ _ hm => hm.extends h'.grows) h'.sources

end CopiesOf

/-- The elements of a list are copied node by node, if each of them is. -/
theorem Effect.leaves_mapM_copies {α : Type} {f : α → StateM Arena α} {nodes : α → List Node}
    {l : List α} (h : ∀ x ∈ l, ∀ a, Leaves (f x) a fun y a' => CopiesOf a a' (nodes y) (nodes x))
    (a : Arena) :
    Leaves (l.mapM f) a fun ys a' => CopiesOf a a' (ys.flatMap nodes) (l.flatMap nodes) := by
  induction l generalizing a with
  | nil => exact .nil a
  | cons x l ih =>
    rw [List.mapM_cons, leaves_bind]
    refine (h x (List.mem_cons_self ..) a).mono fun y a₁ hy => ?_
    rw [leaves_bind]
    refine (ih (fun z hz => h z (List.mem_cons_of_mem _ hz)) a₁).mono fun ys a₂ hys => ?_
    rw [leaves_pure, List.flatMap_cons, List.flatMap_cons]
    exact hy.append hys

namespace Node

/-- A copy is a receiver that was never written when its source is. -/
private theorem leaves_copy_isImplicitReceiver (n : Node) (a : Arena) :
    Leaves n.copy a fun m a' => a.KeptBy 0 a' ∧
      m.kind.isImplicitReceiver = n.kind.isImplicitReceiver := by
  refine (n.leaves_copy 0 a).mono fun m _ hm => ⟨hm.1, ?_⟩
  obtain ⟨-, -, hnormal⟩ := hm
  rw [← m.isImplicitReceiver_normal, hnormal, isImplicitReceiver_remade]

/-- The copies of the children of a copyable node are all written. -/
private theorem leaves_mapM_written {n : Node} (hn : n.Copyable) (a : Arena) :
    Leaves (n.kind.mapM copy) a fun kind _ => kind.written = kind := by
  -- the copies are such receivers exactly when the children are
  have hchildren := NodeKind.leaves_mapM (r := Arena.KeptBy 0) (P := fun _ _ => True) (f := copy)
    (g := fun m => m.kind.isImplicitReceiver) (h := fun c => c.kind.isImplicitReceiver)
    (k := n.kind) (fun _ _ _ _ _ => trivial)
    (fun c _ a => (c.leaves_copy_isImplicitReceiver a).mono fun _ _ hm => ⟨hm.1, trivial, hm.2⟩) a
  refine hchildren.mono fun kind _ hkind => ?_
  obtain ⟨-, -, hmap⟩ := hkind
  refine NodeKind.written_eq_self_of_optionalChild? fun c hc => ?_
  -- the optional child is written in the source, so its copy is written
  have hoptional := congrArg NodeKind.optionalChild? hmap
  rw [NodeKind.optionalChild?_map, NodeKind.optionalChild?_map, hc] at hoptional
  obtain ⟨d, hd, heq⟩ := Option.map_eq_some_iff.1 hoptional.symm
  exact heq.symm.trans (hn.written d hd)

/-- A copy of a tree of copyable nodes is a copy node by node. -/
theorem leaves_copy_copies {n : Node} (h : ∀ m ∈ n.preorder, m.Copyable) (a : Arena) :
    Leaves n.copy a fun m a' => CopiesOf a a' m.preorder n.preorder := by
  induction n using Node.induction generalizing a with
  | step n ih =>
  have hchildren : Leaves (n.kind.children.mapM copy) a fun ms a' =>
      CopiesOf a a' (ms.flatMap preorder) (n.kind.children.flatMap preorder) :=
    leaves_mapM_copies (fun c hc a => ih c hc (fun m hm => h m (mem_preorder_of_child hc hm)) a) a
  rw [← NodeKind.children_mapM, leaves_map] at hchildren
  have hwritten := leaves_mapM_written (h n n.mem_preorder_self) a
  rw [copy_eq, leaves_bind]
  refine (hchildren.and hwritten).mono fun kind a₁ hkind => ?_
  obtain ⟨hcopies, hwritten⟩ := hkind
  -- the copy itself gets its number last, and its record names the node
  have hgrows := a₁.extends_alloc { copiedFrom := some n.id }
  rw [hwritten, leaves_make_iff, preorder_make, preorder_eq]
  exact {
    grows := hcopies.grows.trans hgrows
    size := by
      rw [Arena.size_alloc, hcopies.size, List.length_cons, children]
      omega
    sources := .cons (a₁.copiedFrom_alloc rfl rfl) <|
      hcopies.sources.imp fun _ _ hc => hc.extends hgrows }

end Node

namespace Entity

/-- A copy of an entity of copyable nodes is a copy node by node. -/
theorem leaves_copy_copies {e : Entity} (h : ∀ n ∈ e.nodes, n.Copyable) (a : Arena) :
    Leaves e.copy a fun c a' => CopiesOf a a' c.nodes e.nodes := by
  induction e using Entity.induction generalizing a with
  | node n => exact n.leaves_copy_copies h a
  | list items ih =>
    rw [nodes, nodesAll_eq_flatMap] at h
    rw [copy, leaves_bind, copyAll_eq_mapM]
    have hitems (e : Entity) (he : e ∈ items) (a : Arena) :
        Leaves e.copy a fun c a' => CopiesOf a a' c.nodes e.nodes :=
      ih e he (fun n hn => h n (List.mem_flatMap.2 ⟨e, he, hn⟩)) a
    refine (leaves_mapM_copies hitems a).mono fun ms a' hms => ?_
    rw [leaves_pure, nodes, nodes, nodesAll_eq_flatMap, nodesAll_eq_flatMap]
    exact hms
  | _ => exact .nil a

end Entity

/-- Copying never fails, and makes the copy that is made slot by slot. When modifiers are in canonical
order and no optional child is a receiver that was never written, the copy has the shape of the
entity, there is one new record for each node, and the record of each node of the copy names the node
at the same position. -/
theorem Generating.copy_faithful (e : Entity) (w : Workshop) :
    ∃ c w', Gives (Generating.copy e) w c w' ∧ Gives e.rebuild w.arena c w'.arena ∧
      ((∀ n ∈ e.nodes, Modifier.canonical n.kind.modifiers = n.kind.modifiers) →
        (∀ n ∈ e.nodes, ∀ c ∈ n.kind.optionalChild?, c.kind.isImplicitReceiver = false) →
        c.shape = e.shape ∧ w'.arena.size = w.arena.size + e.nodes.length ∧
          (w'.arena.base.toNat + w'.arena.size ≤ UInt32.size →
            c.nodes.map (fun n => w'.arena.source? n.id) = e.nodes.map fun n => some n.id)) := by
  refine ⟨_, _, rfl, e.gives_rebuild w.arena, fun hcanonical hwritten => ?_⟩
  have h (n : Node) (hn : n ∈ e.nodes) : n.Copyable := ⟨hcanonical n hn, hwritten n hn⟩
  have hcopies : CopiesOf w.arena (e.copy.run w.arena).2 (e.copy.run w.arena).1.nodes e.nodes :=
    Entity.leaves_copy_copies h w.arena
  refine ⟨?_, hcopies.size, fun hfits => ?_⟩
  -- the shape is that of the normal form, which is known before copying
  · obtain ⟨-, -, hnormal⟩ := e.leaves_copy 0 w.arena
    calc (e.copy.run w.arena).1.shape
      _ = ((e.copy.run w.arena).1.normal 0).shape := (Entity.shape_normal 0 _).symm
      _ = (e.remade 0).shape := congrArg Entity.shape hnormal
      _ = e.shape := Entity.shape_remade 0 h
  · exact hcopies.sources.map_eq fun m n hm => hm.source? hfits

namespace InitialValue

/-- `private final int count = 3;`. -/
def field : Node :=
  .make ⟨1⟩ ⟨0, 0, 20⟩ (.fieldDecl [.privateAccess, .final] [] (.primitive .int) "count"
    (some (.make ⟨2⟩ ⟨0, 15, 16⟩ (.literal (.int 3)))))

/-- The field, and its value once more. -/
def entity : Entity := .list [.node field, .node (.make ⟨2⟩ ⟨0, 15, 16⟩ (.literal (.int 3)))]

/-- One node was made before. -/
def before : Workshop := { arena := { base := 5, records := #[{}] } }

/-- All three nodes are copied, each from the node at its position. -/
theorem copy_faithful_field : ∃ c w', Gives (Generating.copy entity) before c w' ∧
    c.shape = entity.shape ∧ w'.arena.size = 4 ∧
      c.nodes.map (fun n => w'.arena.source? n.id) = [some ⟨1⟩, some ⟨2⟩, some ⟨2⟩] := by
  obtain ⟨c, w', hgives, -, hfaithful⟩ := Generating.copy_faithful entity before
  have hrun : Gives (Generating.copy entity) before (entity.copy.run before.arena).1
      ⟨(entity.copy.run before.arena).2, []⟩ := rfl
  obtain ⟨rfl, rfl⟩ := hrun.unique hgives
  obtain ⟨hshape, hsize, hsources⟩ := hfaithful (by decide +kernel) (by decide +kernel)
  exact ⟨_, _, hgives, hshape, hsize, hsources (by decide +kernel)⟩

end InitialValue

end CodeRules
