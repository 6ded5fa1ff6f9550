import CodeRules.Proofs.Code.CopyChain

/-!
# Where nodes come from

A node is `Arena.Traced` when it is given from outside, or was made anew, or is a copy of such a node.
Making and copying nodes leads to a later arena (`Arena.Later`), and what is made of traced nodes is
traced (`Entity.leaves_copy_traced`). A traced node has a chain of copies that ends at a node that was
given or made anew (`Arena.Traced.exists_chain`).
-/

namespace CodeRules

open Effect

namespace Arena

variable {a a' a'' : Arena} {i j : NodeId}

/-! ### Later arenas -/

/-- Numbers were given out since, and copies have still greater numbers than the nodes they were copied
from. Which types the nodes are meant for may have changed. -/
structure Later (a a' : Arena) : Prop where
  base : a'.base = a.base
  sources : a.records.toList.map Provenance.copiedFrom <+:
    a'.records.toList.map Provenance.copiedFrom
  ordered : a'.Fits → a.Ordered → a'.Ordered

/-- An arena is later than itself. -/
theorem Later.refl (a : Arena) : a.Later a := ⟨rfl, List.prefix_rfl, fun _ h => h⟩

/-- A later arena has at least as many records. -/
theorem Later.size_le (h : a.Later a') : a.size ≤ a'.size := by
  simpa [size] using h.sources.length_le

/-- If the numbers of a later arena do not run out, those of an earlier one did not. -/
theorem Later.fits (h : a.Later a') (ha' : a'.Fits) : a.Fits := by
  have hsize := h.size_le
  rw [Fits, h.base] at ha'
  rw [Fits]
  omega

/-- What is later than a later arena is later. -/
theorem Later.trans (h : a.Later a') (h' : a'.Later a'') : a.Later a'' where
  base := h'.base.trans h.base
  sources := h.sources.trans h'.sources
  ordered hfits ha := h'.ordered hfits (h.ordered (h'.fits hfits) ha)

instance : Std.Refl Later := ⟨Later.refl⟩

instance : IsTrans Arena Later := ⟨fun _ _ _ => Later.trans⟩

/-- The numbers of an arena lie behind its base, as far as it has records. -/
theorem contains_iff :
    a.contains i = true ↔ ∃ place, i.word.toNat = a.base.toNat + place ∧ place < a.size := by
  simp only [contains, Option.isSome_iff_exists, index?_eq_some_iff]

/-- The source of a node as it stands in the list of all sources. -/
theorem source?_eq_some_iff : a.source? i = some j ↔ ∃ place,
    i.word.toNat = a.base.toNat + place ∧
      (a.records.toList.map Provenance.copiedFrom)[place]? = some (some j) := by
  constructor
  · intro h
    obtain ⟨place, hplace, hword, hcopied⟩ := Link.exists_record h
    exact ⟨place, hword, by simp [hplace, hcopied]⟩
  · rintro ⟨place, hword, hrecord⟩
    rw [List.getElem?_map, Array.getElem?_toList] at hrecord
    obtain ⟨p, hp, hcopied⟩ := Option.map_eq_some_iff.1 hrecord
    have hplace : place < a.size := (Array.getElem?_eq_some_iff.1 hp).1
    simp [source?, get?, index?_eq_some_iff.2 ⟨hword, hplace⟩, hp, hcopied]

namespace Later

/-- A number that was given out stays so. -/
theorem contains (h : a.Later a') (hi : a.contains i = true) : a'.contains i = true := by
  obtain ⟨place, hword, hplace⟩ := contains_iff.1 hi
  exact contains_iff.2 ⟨place, h.base ▸ hword, Nat.lt_of_lt_of_le hplace h.size_le⟩

/-- A made node keeps its source. -/
theorem source?_eq (h : a.Later a') (hi : a.contains i = true) : a'.source? i = a.source? i := by
  obtain ⟨place, hword, hplace⟩ := contains_iff.1 hi
  have hsame : (a'.records.toList.map Provenance.copiedFrom)[place]? =
      (a.records.toList.map Provenance.copiedFrom)[place]? := by
    obtain ⟨more, hmore⟩ := h.sources
    rw [← hmore, List.getElem?_append_left (by simpa [size] using hplace)]
  refine Option.ext fun j => ?_
  rw [source?_eq_some_iff, source?_eq_some_iff, h.base]
  constructor
  -- a number has one place only, as far as its distance from the base tells
  · rintro ⟨place', hword', hrecord⟩
    obtain rfl : place' = place := by omega
    exact ⟨place', hword', hsame ▸ hrecord⟩
  · rintro ⟨place', hword', hrecord⟩
    obtain rfl : place' = place := by omega
    exact ⟨place', hword', hsame ▸ hrecord⟩

end Later

/-- A copy has a number of the arena. -/
theorem Link.contains (h : a.Link i j) : a.contains i = true := by
  obtain ⟨place, hplace, hword, -⟩ := h.exists_record
  exact contains_iff.2 ⟨place, hword, hplace⟩

/-- A link stays. -/
theorem Later.link (h : a.Later a') (hlink : a.Link i j) : a'.Link i j :=
  (h.source?_eq hlink.contains).trans hlink

/-- A number is given out, and the node that has it is a copy of none or of an earlier one. -/
theorem later_alloc (a : Arena) {p : Provenance}
    (hp : (a.alloc p).2.Fits → ∀ j ∈ p.copiedFrom, j.word.toNat < a.base.toNat + a.size) :
    a.Later (a.alloc p).2 where
  base := rfl
  sources := by simp [alloc]
  ordered hfits ha k hk j hj := by
    have hbound : a.base.toNat + a.size < UInt32.size := by
      rw [Fits, size_alloc] at hfits
      exact hfits
    change k < (a.records.push p).size at hk
    change j ∈ ((a.records.push p)[k]).copiedFrom at hj
    show j.word < (a.idAt k).word
    rw [Array.getElem_push] at hj
    split at hj
    -- an old record, with the order that it had
    · exact ha k ‹_› j hj
    -- the last record is the new one, and what it names lies below its number
    · have hk : k = a.size := by
        rw [Array.size_push] at hk
        rw [size]
        omega
      rw [UInt32.lt_iff_toNat_lt, hk, toNat_idAt hbound]
      exact hp hfits j hj

/-- Noting the type that a node is meant for leads to a later arena. -/
theorem later_setDeclaringType (a : Arena) (i : NodeId) (t : CodeType) :
    a.Later (a.setDeclaringType i t) := by
  unfold setDeclaringType
  split
  · exact .refl a
  · rename_i place _
    -- only the type is changed in a record, so all sources stay as they are
    have hget (k : Nat) : ((a.records.modify place fun p => { p with declaringType := some t })[k]?).map
        Provenance.copiedFrom = (a.records[k]?).map Provenance.copiedFrom := by
      rw [Array.getElem?_modify]
      split
      · simp [Function.comp_def]
      · rfl
    have hsources : (a.records.modify place fun p => { p with declaringType := some t }).toList.map
        Provenance.copiedFrom = a.records.toList.map Provenance.copiedFrom := by
      refine List.ext_getElem? fun k => ?_
      rw [List.getElem?_map, List.getElem?_map, Array.getElem?_toList, Array.getElem?_toList, hget]
    refine ⟨rfl, hsources ▸ List.prefix_rfl, fun _ ha k hk j hj => ?_⟩
    rw [Array.size_modify] at hk
    refine ha k hk j ?_
    have hk' := hget k
    rw [Array.getElem?_eq_getElem hk, Array.getElem?_eq_getElem (by simpa using hk)] at hk'
    exact Option.some.inj hk' ▸ hj

/-! ### Traced nodes -/

/-- The node is given, or was made anew, or is a copy of such a node. -/
inductive Traced (given : Node → Prop) (a : Arena) : Node → Prop
  | given {n : Node} (h : given n) : Traced given a n
  | made {n : Node} (hin : a.contains n.id = true) (hnew : a.source? n.id = none) : Traced given a n
  | copied {n o : Node} (ho : Traced given a o) (hlink : a.Link n.id o.id)
    (hshape : n.shape = (o.remade 0).shape) : Traced given a n

variable {given : Node → Prop} {n : Node}

namespace Traced

/-- A traced node stays traced. -/
theorem later (h : a.Traced given n) (ha : a.Later a') : a'.Traced given n := by
  induction h with
  | given h => exact .given h
  | made hin hnew => exact .made (ha.contains hin) ((ha.source?_eq hin).trans hnew)
  | copied _ hlink hshape ih => exact .copied ih (ha.link hlink) hshape

/-- A traced node is given or made. -/
theorem given_or_contains (h : a.Traced given n) : given n ∨ a.contains n.id = true := by
  cases h with
  | given h => exact .inl h
  | made hin _ => exact .inr hin
  | copied _ hlink _ => exact .inr hlink.contains

/-- The number of a traced node was given out before the next one. -/
theorem lt_next (hgiven : ∀ n, given n → n.id.word < a.base) (h : a.Traced given n) :
    n.id.word.toNat < a.base.toNat + a.size := by
  rcases h.given_or_contains with h | h
  · exact Nat.lt_of_lt_of_le (UInt32.lt_iff_toNat_lt.1 (hgiven n h)) (Nat.le_add_right _ _)
  · obtain ⟨place, hword, hplace⟩ := contains_iff.1 h
    omega

/-- The chain of copies that leads to a traced node starts at a node that is given or was made anew. -/
theorem exists_chain (h : a.Traced given n) : ∃ k o, Steps a.Link k n.id o.id ∧
    (given o ∨ a.contains o.id = true ∧ a.source? o.id = none) := by
  induction h with
  | given h => exact ⟨0, _, .refl _, .inl h⟩
  | made hin hnew => exact ⟨0, _, .refl _, .inr ⟨hin, hnew⟩⟩
  | copied _ hlink _ ih =>
    obtain ⟨k, o, hsteps, ho⟩ := ih
    exact ⟨k + 1, o, .head hlink hsteps, ho⟩

end Traced

end Arena

/-! ### Making and copying -/

/-- What is made for the elements of a list in later and later arenas stays as promised. -/
theorem Effect.leaves_mapM_later {σ α β : Type} {r : σ → σ → Prop} [Std.Refl r] [IsTrans σ r]
    {f : α → StateM σ β} {P : β → σ → Prop} {l : List α} {s : σ}
    (hP : ∀ b s' s'', r s' s'' → P b s' → P b s'')
    (h : ∀ x ∈ l, ∀ s', r s s' → Leaves (f x) s' fun b s'' => r s' s'' ∧ P b s'') :
    Leaves (l.mapM f) s fun bs s' => r s s' ∧ ∀ b ∈ bs, P b s' := by
  induction l generalizing s with
  | nil => exact ⟨Std.Refl.refl s, fun _ hb => absurd hb List.not_mem_nil⟩
  | cons x l ih =>
    rw [List.mapM_cons, leaves_bind]
    refine (h x (List.mem_cons_self ..) s (Std.Refl.refl s)).mono fun b s₁ hb => ?_
    rw [leaves_bind]
    refine (ih (s := s₁) fun y hy s₂ h₂ => h y (List.mem_cons_of_mem _ hy) s₂
      (IsTrans.trans _ _ _ hb.1 h₂)).mono fun bs s₂ hbs => ?_
    rw [leaves_pure]
    exact ⟨IsTrans.trans _ _ _ hb.1 hbs.1, List.forall_mem_cons.2 ⟨hP b s₁ s₂ hbs.1 hb.2, hbs.2⟩⟩

namespace Entity

/-- All nodes of the entity are traced, unless numbers ran out. -/
def Traced (given : Node → Prop) (a : Arena) (e : Entity) : Prop :=
  a.Fits → ∀ n ∈ e.nodes, a.Traced given n

variable {given : Node → Prop} {a a' : Arena} {e : Entity}

/-- A traced entity stays traced. -/
theorem Traced.later (h : e.Traced given a) (ha : a.Later a') : e.Traced given a' :=
  fun hfits n hn => (h (ha.fits hfits) n hn).later ha

/-- Parts of a traced entity are traced. -/
theorem Traced.of_subset {e' : Entity} (h : e.Traced given a) (hsub : ∀ n ∈ e'.nodes, n ∈ e.nodes) :
    e'.Traced given a := fun hfits n hn => h hfits n (hsub n hn)

/-- An entity without nodes is traced. -/
theorem traced_of_nodes_eq_nil (h : e.nodes = []) : e.Traced given a := by
  intro _ n hn
  rw [h] at hn
  cases hn

/-- An entity whose nodes are all given is traced. -/
theorem traced_of_given (h : ∀ n ∈ e.nodes, given n) : e.Traced given a :=
  fun _ n hn => .given (h n hn)

end Entity

namespace Arena

variable {a : Arena}

/-- The record of a new number is the last one. -/
theorem index?_alloc (a : Arena) (p : Provenance) (hfits : (a.alloc p).2.Fits) :
    (a.alloc p).2.index? (a.alloc p).1 = some a.size := by
  rw [Fits, size_alloc] at hfits
  have hnext : (a.idAt a.size).word.toNat = a.base.toNat + a.size := toNat_idAt hfits
  exact index?_eq_some_iff.2 ⟨hnext, (a.size_alloc p).symm ▸ Nat.lt_succ_self _⟩

/-- A number that is given out is of the arena. -/
theorem contains_alloc (a : Arena) (p : Provenance) (hfits : (a.alloc p).2.Fits) :
    (a.alloc p).2.contains (a.alloc p).1 = true := by
  rw [contains, a.index?_alloc p hfits, Option.isSome_some]

/-- The source of a new node is the one in its record. -/
theorem source?_alloc (a : Arena) (p : Provenance) (hfits : (a.alloc p).2.Fits) :
    (a.alloc p).2.source? (a.alloc p).1 = p.copiedFrom := by
  rw [source?, get?, a.index?_alloc p hfits]
  simp [alloc, size]

end Arena

namespace Node

variable {given : Node → Prop} {a : Arena}

/-- A new node is traced when its children are. -/
theorem leaves_make_traced {kind : NodeKind Node}
    (h : a.Fits → ∀ c ∈ kind.children, ∀ m ∈ c.preorder, a.Traced given m) :
    Leaves (Arena.make {} kind) a fun n a' => a.Later a' ∧ (Entity.node n).Traced given a' := by
  have hlater : a.Later (a.alloc {}).2 := a.later_alloc fun _ j hj => by cases hj
  rw [leaves_make_iff]
  refine ⟨hlater, fun hfits m hm => ?_⟩
  rw [Entity.nodes, preorder_make] at hm
  -- the new node was made anew, the others are those of its children
  rcases List.mem_cons.1 hm with rfl | hm
  · exact .made (a.contains_alloc _ hfits) (a.source?_alloc _ hfits)
  · obtain ⟨c, hc, hm⟩ := List.mem_flatMap.1 hm
    exact (h (hlater.fits hfits) c hc m hm).later hlater

/-- The copies of traced nodes are traced, and each is linked to the node it was copied from. -/
theorem leaves_copy_traced {n : Node} (hgiven : ∀ n, given n → n.id.word < a.base)
    (h : (Entity.node n).Traced given a) :
    Leaves n.copy a fun m a' => a.Later a' ∧ (Entity.node m).Traced given a' ∧
      (a'.Fits → a'.Link m.id n.id) := by
  induction n using Node.induction generalizing a with
  | step n ih =>
  have hchild (c : Node) (hc : c ∈ n.kind.children) : (Entity.node c).Traced given a :=
    h.of_subset fun m hm => mem_preorder_of_child hc hm
  have hchildren : Leaves (n.kind.children.mapM copy) a fun ms a' => a.Later a' ∧
      ∀ m ∈ ms, (Entity.node m).Traced given a' :=
    leaves_mapM_later (fun _ _ _ hlater hm => hm.later hlater) fun c hc a₁ h₁ =>
      (ih c hc (fun o ho => h₁.base ▸ hgiven o ho) ((hchild c hc).later h₁)).mono
        fun _ _ hm => ⟨hm.1, hm.2.1⟩
  rw [← NodeKind.children_mapM, leaves_map] at hchildren
  -- the shape of the copy is known, whatever the numbers of its nodes
  have hshape := n.leaves_copy 0 a
  rw [copy_eq, leaves_bind] at hshape ⊢
  refine (hchildren.and hshape).mono fun kind a₁ hkind => ?_
  obtain ⟨⟨h₁, hkind⟩, hshape⟩ := hkind
  rw [leaves_make_iff] at hshape ⊢
  have hself : a.Fits → a.Traced given n := fun hfits => h hfits n n.mem_preorder_self
  -- the record names `n`, whose number was given out before
  have hlater : a₁.Later (a₁.alloc { copiedFrom := some n.id }).2 := by
    refine a₁.later_alloc fun hfits j hj => ?_
    obtain rfl := Option.some.inj hj
    have hfits₁ : a₁.Fits := by
      rw [Arena.Fits, Arena.size_alloc] at hfits
      rw [Arena.Fits]
      exact Nat.le_of_succ_le hfits
    have hbefore := (hself (h₁.fits hfits₁)).lt_next hgiven
    rw [h₁.base]
    exact Nat.lt_of_lt_of_le hbefore (Nat.add_le_add_left h₁.size_le _)
  have hlink (hfits : (a₁.alloc { copiedFrom := some n.id }).2.Fits) :
      (a₁.alloc { copiedFrom := some n.id }).2.Link (a₁.alloc { copiedFrom := some n.id }).1 n.id :=
    a₁.source?_alloc _ hfits
  refine ⟨h₁.trans hlater, fun hfits m hm => ?_, hlink⟩
  have hfits₁ := hlater.fits hfits
  rw [Entity.nodes, preorder_make] at hm
  -- the copy itself is linked to `n`, and its children are traced by hypothesis
  rcases List.mem_cons.1 hm with rfl | hm
  · refine .copied (((hself (h₁.fits hfits₁)).later h₁).later hlater) (hlink hfits) ?_
    rw [← Node.shape_normal 0, hshape.2.2]
  · obtain ⟨c, hc, hm⟩ := List.mem_flatMap.1 hm
    exact (hkind c (NodeKind.mem_children_of_mem_written hc) hfits₁ m hm).later hlater

end Node

/-- A copy of a traced entity is traced, and when it is a node it is linked to the one it was copied
from. -/
theorem Entity.leaves_copy_traced {given : Node → Prop} {a : Arena} {e : Entity}
    (hgiven : ∀ n, given n → n.id.word < a.base) (h : e.Traced given a) :
    Leaves e.copy a fun c a' => a.Later a' ∧ c.Traced given a' ∧
      ∀ i ∈ e.nodeId?, ∀ j ∈ c.nodeId?, a'.Fits → a'.Link j i := by
  induction e using Entity.induction generalizing a with
  | node n =>
    rw [copy, leaves_bind]
    refine (n.leaves_copy_traced hgiven h).mono fun m a' hm => ?_
    obtain ⟨hlater, hm, hlink⟩ := hm
    refine ⟨hlater, hm, fun i hi j hj => ?_⟩
    -- a node has a number, and so has its copy
    obtain rfl := Option.some.inj hi
    obtain rfl := Option.some.inj hj
    exact hlink
  | list items ih =>
    have hitem (e : Entity) (he : e ∈ items) : e.Traced given a := h.of_subset fun n hn => by
      rw [nodes, nodesAll_eq_flatMap]
      exact List.mem_flatMap.2 ⟨e, he, hn⟩
    -- the items are copied one after the other, and what was copied before stays traced
    rw [copy, leaves_bind, copyAll_eq_mapM]
    refine (leaves_mapM_later (r := Arena.Later) (P := fun c a' => Entity.Traced given a' c)
      (fun _ _ _ hlater hc => hc.later hlater) fun e he a₁ h₁ =>
        (ih e he (fun o ho => h₁.base ▸ hgiven o ho) ((hitem e he).later h₁)).mono
          fun _ _ hc => ⟨hc.1, hc.2.1⟩).mono fun cs a' hcs => ?_
    rw [leaves_pure]
    refine ⟨hcs.1, fun hfits n hn => ?_, fun i hi => by cases hi⟩
    rw [nodes, nodesAll_eq_flatMap] at hn
    obtain ⟨c, hc, hn⟩ := List.mem_flatMap.1 hn
    exact hcs.2 c hc hfits n hn
  | _ => exact ⟨.refl a, traced_of_nodes_eq_nil rfl, fun i hi => by cases hi⟩

end CodeRules
