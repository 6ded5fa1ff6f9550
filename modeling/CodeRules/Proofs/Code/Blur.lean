import CodeRules.Proofs.Code.Copy
import CodeRules.Proofs.Code.Fresh

/-!
# Numbers that are yet to be given out

`Relabeling.blur` forgets which numbers made nodes have, from some number on. What is made from that
number on is the same after blurring, whichever arena its numbers came from (`Entity.leaves_copy_blur`).
Arenas are twins (`Arena.Twin`) as long as neither tells more than the other one about any number.
-/

namespace CodeRules

open Effect

/-- One number for all made nodes that have one of the numbers from `first` on. -/
def Relabeling.blur (first : Nat) : Relabeling where
  place i s := if s.isSynthetic ∧ first ≤ i.word.toNat then (⟨UInt32.ofNat first⟩, s) else (i, s)
  isSynthetic_place i s := by split <;> rfl
  place_of_read i s h := by simp [h]

/-- Blurring moves made nodes with numbers from `first` on, and no others. -/
theorem Relabeling.place_blur (first : Nat) (i : NodeId) (s : Span) : (blur first).place i s =
    if s.isSynthetic ∧ first ≤ i.word.toNat then (⟨UInt32.ofNat first⟩, s) else (i, s) := rfl

/-! ### Arenas that grow -/

namespace Arena

variable {a a' a'' b b' : Arena} {first k l : Nat}

/-- The type that a made node is meant for. -/
def declared? (a : Arena) (i : NodeId) : Option CodeType :=
  (a.get? i).bind Provenance.declaringType

/-- The second arena has given out `k` numbers after the first one, for no type. -/
structure GrownBy (k : Nat) (a a' : Arena) : Prop extends a.Extends a' where
  size : a'.size = a.size + k
  declared : ∀ i, a'.declared? i = a.declared? i
  undeclared : ∀ r ∈ a'.records, r ∈ a.records ∨ r.declaringType = none

/-- The second arena has given out more numbers than the first one, for no type. -/
def Grown (a a' : Arena) : Prop := ∃ k, a.GrownBy k a'

/-- An arena has given out no numbers after itself. -/
theorem GrownBy.refl (a : Arena) : a.GrownBy 0 a := ⟨.refl a, rfl, fun _ => rfl, fun _ => .inl⟩

/-- Numbers given out one time after the other add up. -/
theorem GrownBy.trans (h : a.GrownBy k a') (h' : a'.GrownBy l a'') : a.GrownBy (k + l) a'' where
  toExtends := h.toExtends.trans h'.toExtends
  size := by rw [h'.size, h.size, Nat.add_assoc]
  declared i := (h'.declared i).trans (h.declared i)
  undeclared r hr := (h'.undeclared r hr).elim (h.undeclared r) .inr

/-- An arena is among those that it grows to. -/
theorem Grown.refl (a : Arena) : a.Grown a := ⟨0, .refl a⟩

/-- An arena that has grown twice has grown. -/
theorem Grown.trans (h : a.Grown a') (h' : a'.Grown a'') : a.Grown a'' := by
  obtain ⟨k, hk⟩ := h
  obtain ⟨l, hl⟩ := h'
  exact ⟨k + l, hk.trans hl⟩

/-- The records of an arena stay as they are. -/
theorem Grown.extends (h : a.Grown a') : a.Extends a' := by
  obtain ⟨k, hk⟩ := h
  exact hk.toExtends

/-- Numbers that fit in the end did so before. -/
theorem Grown.fits (h : a.Grown a') (ha' : a'.Fits) : a.Fits := h.extends.fits ha'

/-- Growing never loses numbers. -/
theorem Grown.size_le (h : a.Grown a') : a.size ≤ a'.size := by
  obtain ⟨k, hk⟩ := h
  rw [hk.size]
  exact Nat.le_add_right _ k

instance : Std.Refl Grown := ⟨Grown.refl⟩

instance : IsTrans Arena Grown := ⟨fun _ _ _ => Grown.trans⟩

/-- No made node is meant for a type after growing if none was before. -/
theorem Grown.undeclared {base : UInt32} (h : a.Grown a') (ha : a.Undeclared base) :
    a'.Undeclared base := by
  obtain ⟨k, hk⟩ := h
  exact ⟨hk.base.trans ha.base_eq, fun r hr => (hk.undeclared r hr).elim (ha.undeclared r) id⟩

/-- Numbers that are yet to be given out have no record. -/
theorem declared?_eq_none {i : NodeId} (h : a.base.toNat + a.size ≤ i.word.toNat) :
    a.declared? i = none := by
  have hindex : a.index? i = none := by simpa [contains] using contains_eq_false h
  rw [declared?, get?, hindex]
  rfl

/-- The record of a number stands at its distance from the base. -/
private theorem get?_eq (a : Arena) (i : NodeId) : a.get? i =
    if a.base ≤ i.word then a.records[(i.word - a.base).toNat]? else none := by
  unfold get? index?
  by_cases hbase : a.base ≤ i.word
  · by_cases hplace : (i.word - a.base).toNat < a.size
    · rw [if_pos ⟨hbase, hplace⟩, if_pos hbase]
      rfl
    · rw [if_neg fun h => hplace h.2, if_pos hbase]
      exact (Array.getElem?_eq_none (Nat.le_of_not_lt hplace)).symm
  · rw [if_neg fun h => hbase h.1, if_neg hbase]
    rfl

/-- Giving out a number for no type grows the arena by one. -/
theorem grownBy_alloc (a : Arena) {p : Provenance} (hp : p.declaringType = none) :
    a.GrownBy 1 (a.alloc p).2 where
  toExtends := a.extends_alloc p
  size := a.size_alloc p
  declared i := by
    have hrecords : (a.alloc p).2.records = a.records.push p := rfl
    rw [declared?, declared?, get?_eq, get?_eq, hrecords,
      show (a.alloc p).2.base = a.base from rfl, Array.getElem?_push]
    -- the record of a number is an old one, or the new one, which declares no type
    split
    · split
      · rename_i hlast
        rw [hlast, Array.getElem?_eq_none (Nat.le_refl _)]
        exact hp
      · rfl
    · rfl
  undeclared r hr := by
    rcases Array.mem_push.1 hr with hr | rfl
    · exact .inl hr
    · exact .inr hp

/-- Two arenas that tell the same about all numbers, and nothing about those from `first` on, from
which the next ones are given out. The second one has given out at least as many. -/
structure Twin (first : Nat) (a b : Arena) : Prop where
  base : b.base = a.base
  size_le : a.size ≤ b.size
  first_le : first ≤ a.base.toNat + a.size
  declared : ∀ i, b.declared? i = a.declared? i
  undeclared : ∀ i : NodeId, first ≤ i.word.toNat → a.declared? i = none

/-- An arena is its own twin, with the next number as the first. -/
theorem twin_self (a : Arena) : a.Twin (a.base.toNat + a.size) a where
  base := rfl
  size_le := Nat.le_refl _
  first_le := Nat.le_refl _
  declared _ := rfl
  undeclared _ := declared?_eq_none

/-- Twins stay twins when both give out equally many numbers. -/
theorem Twin.grow (h : a.Twin first b) (ha : a.GrownBy k a') (hb : b.GrownBy k b') :
    a'.Twin first b' where
  base := by rw [hb.base, ha.base, h.base]
  size_le := by
    rw [ha.size, hb.size]
    exact Nat.add_le_add_right h.size_le k
  first_le := by
    rw [ha.base, ha.size]
    exact Nat.le_trans h.first_le (by omega)
  declared i := by rw [hb.declared, ha.declared, h.declared]
  undeclared i hi := by rw [ha.declared, h.undeclared i hi]

/-- Twins stay twins when the second one gives out numbers. -/
theorem Twin.grow_right (h : a.Twin first b) (hb : b.Grown b') : a.Twin first b' := by
  obtain ⟨k, hk⟩ := hb
  exact ⟨hk.base.trans h.base, Nat.le_trans h.size_le (hk.size ▸ Nat.le_add_right _ k), h.first_le,
    fun i => (hk.declared i).trans (h.declared i), h.undeclared⟩

/-- Numbers that fit in the second twin fit in the first. -/
theorem Twin.fits (h : a.Twin first b) (hb : b.Fits) : a.Fits := by
  have hsize := h.size_le
  rw [Fits, h.base] at hb
  rw [Fits]
  omega

/-- The numbers from `first` on are yet to be given out in the second twin too. -/
theorem Twin.first_le_right (h : a.Twin first b) : first ≤ b.base.toNat + b.size := by
  rw [h.base]
  exact Nat.le_trans h.first_le (Nat.add_le_add_left h.size_le _)

end Arena

/-! ### New nodes -/

namespace Node

variable {first : Nat}

/-- From `first` on blurred trees are normal forms. -/
theorem relabel_blur_eq_normal {n : Node}
    (h : ∀ m ∈ n.preorder, m.span = .synthetic ∧ first ≤ m.id.word.toNat) :
    n.relabel (.blur first) = n.normal (UInt32.ofNat first) := by
  induction n using Node.induction with
  | step n ih =>
  obtain ⟨hspan, hid⟩ := h n n.mem_preorder_self
  have hplace : (Relabeling.blur first).place n.id n.span = (⟨UInt32.ofNat first⟩, .synthetic) := by
    rw [hspan]
    exact if_pos ⟨rfl, hid⟩
  have hmark : n.mark = none := if_pos (hspan ▸ rfl)
  -- the node itself has the blurred place and the mark of a normal form, the children by hypothesis
  rw [relabel_eq, normal_eq, hplace, hmark]
  exact congrArg (Node.mk _ _) (NodeKind.map_congr fun c hc => ih c hc fun m hm =>
    h m (mem_preorder_of_child hc hm))

/-- A new node that is made of known parts. -/
theorem leaves_make_blur (first : Nat) {p : Provenance} (hp : p.declaringType = none)
    (kind : NodeKind Node) (a : Arena) : Leaves (Arena.make p kind) a fun n a' => a.GrownBy 1 a' ∧
      (first ≤ a.base.toNat + a.size → a'.Fits →
        n.relabel (.blur first) =
          madeOf (UInt32.ofNat first) (kind.map (relabel (.blur first)))) := by
  rw [leaves_make_iff]
  refine ⟨a.grownBy_alloc hp, fun hfirst hfits => ?_⟩
  -- the number is one of those from `first` on because no number is given out twice
  have hnew : a.Fresh (a.alloc p).2 [make (a.alloc p).1 .synthetic kind] :=
    Arena.fresh_alloc a p rfl rfl
  have hid : first ≤ (a.alloc p).1.word.toNat :=
    Nat.le_trans hfirst (hnew.allocated hfits _ (List.mem_singleton_self _)).1
  have hplace : (Relabeling.blur first).place (a.alloc p).1 .synthetic =
      (⟨UInt32.ofNat first⟩, .synthetic) := if_pos ⟨rfl, hid⟩
  rw [relabel_make, hplace]
  rfl

/-- Numbers given out for the elements of a list add up. -/
private theorem leaves_mapM_grownBy {α β : Type} {f : α → StateM Arena β} {cost : α → Nat}
    {l : List α} (h : ∀ x ∈ l, ∀ a, Leaves (f x) a fun _ a' => a.GrownBy (cost x) a') (a : Arena) :
    Leaves (l.mapM f) a fun _ a' => a.GrownBy (l.map cost).sum a' := by
  induction l generalizing a with
  | nil => exact .refl a
  | cons x l ih =>
    rw [List.mapM_cons, leaves_bind, List.map_cons, List.sum_cons]
    refine (h x (List.mem_cons_self ..) a).mono fun _ a₁ h₁ => ?_
    rw [leaves_bind]
    exact (ih (fun y hy => h y (List.mem_cons_of_mem _ hy)) a₁).mono fun _ _ h₂ => h₁.trans h₂

/-- Copying gives out one number for each node, also for receivers that are left out. -/
theorem leaves_copy_grownBy (n : Node) (a : Arena) :
    Leaves n.copy a fun _ a' => a.GrownBy n.preorder.length a' := by
  induction n using Node.induction generalizing a with
  | step n ih =>
  rw [copy_eq, leaves_bind]
  have hchildren := leaves_mapM_grownBy ih a
  rw [← NodeKind.children_mapM, leaves_map] at hchildren
  refine hchildren.mono fun kind a₁ h₁ => ?_
  -- one number for each node of the children, and one for the copy itself
  have hsize : n.preorder.length = (n.kind.children.map fun c => c.preorder.length).sum + 1 := by
    rw [preorder_eq, List.length_cons, List.length_flatMap, children]
  rw [leaves_make_iff, hsize]
  exact h₁.trans (a₁.grownBy_alloc rfl)

end Node

namespace Entity

variable {first : Nat}

/-- From `first` on blurred entities are normal forms. -/
theorem relabel_blur_eq_normal {e : Entity}
    (h : ∀ m ∈ e.nodes, m.span = .synthetic ∧ first ≤ m.id.word.toNat) :
    e.relabel (.blur first) = e.normal (UInt32.ofNat first) := by
  induction e using Entity.induction with
  | node n => exact congrArg Entity.node (Node.relabel_blur_eq_normal h)
  | list items ih =>
    rw [relabel, normal, relabelAll_eq_map, normalAll_eq_map]
    refine congrArg Entity.list (List.map_congr_left fun e he => ih e he fun m hm => h m ?_)
    rw [nodes, nodesAll_eq_flatMap]
    exact List.mem_flatMap.2 ⟨e, he, hm⟩
  | _ => rfl

/-- Copying an entity gives out one number for each of its nodes. -/
theorem leaves_copy_grownBy (e : Entity) (a : Arena) :
    Leaves e.copy a fun _ a' => a.GrownBy e.nodes.length a' := by
  induction e using Entity.induction generalizing a with
  | node n => exact n.leaves_copy_grownBy a
  | list items ih =>
    rw [copy, leaves_bind, copyAll_eq_mapM, nodes, nodesAll_eq_flatMap, List.length_flatMap]
    exact Node.leaves_mapM_grownBy ih a
  | _ => exact .refl a

/-- A copy is the same after blurring, whatever was made before. -/
theorem leaves_copy_blur (first : Nat) (e : Entity) (a : Arena) :
    Leaves e.copy a fun m a' => a.GrownBy e.nodes.length a' ∧
      (first ≤ a.base.toNat + a.size → a'.Fits →
        m.relabel (.blur first) = e.remade (UInt32.ofNat first)) := by
  have hgrown := e.leaves_copy_grownBy a
  have hfresh := e.leaves_copy_fresh a
  have hremade := e.leaves_copy (UInt32.ofNat first) a
  refine ((hgrown.and hfresh).and hremade).mono fun m a' h => ?_
  obtain ⟨⟨hgrown, _, hfresh⟩, _, _, hnormal⟩ := h
  refine ⟨hgrown, fun hfirst hfits => ?_⟩
  -- all nodes of a copy are new, and blurring them all is taking the normal form
  rw [relabel_blur_eq_normal fun x hx => ⟨hfresh.synthetic x hx,
    Nat.le_trans hfirst (hfresh.allocated hfits x hx).1⟩, hnormal]

end Entity

end CodeRules
