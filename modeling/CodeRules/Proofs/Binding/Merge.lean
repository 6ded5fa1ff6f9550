import CodeRules.Proofs.Binding.View
import CodeRules.Proofs.Effect

/-!
# The laws of merging

Up to aliasing, bindings are a view of what their variables stand for and a result that may be
missing. The result can be read as a view too, one that has it under every name, so a merge joins two
pairs of views (`Bindings.JoinsTo`), and its laws are the laws of `View.Joins`. Which of the two sides
is merged into the other depends on their sizes, but not what the merge holds up to aliasing.
-/

namespace CodeRules

theorem Replacement.injective_shape : Function.Injective Replacement.shape := by
  have hid {i j : NodeId} (h : (i.word.toNat : Int) = j.word.toNat) : i = j := by
    obtain ⟨i⟩ := i
    obtain ⟨j⟩ := j
    exact congrArg NodeId.mk (UInt32.toNat_inj.1 (Int.ofNat_inj.1 h))
  rintro ⟨source, copy⟩ ⟨source', copy'⟩ h
  simp only [Replacement.shape, Shape.seq.injEq, List.cons.injEq, Shape.num.injEq, and_true] at h
  rw [hid h.1, hid h.2]

namespace Bindings

variable {b b' c c' d d' m m' x : Bindings}

/-- The result, if there is one, under every name. -/
def resultView (b : Bindings) : View := fun _ => b.result.map Entity.located

theorem resultView_eq_some_iff {n : String} {k : Shape} :
    b.resultView n = some k ↔ ∃ e, b.result = some e ∧ e.located = k := Option.map_eq_some_iff

theorem resultView_of_result {e : Entity} (h : b.result = some e) (n : String) :
    b.resultView n = some e.located := by rw [resultView, h, Option.map_some]

/-- Bindings are equal when both their views are. -/
theorem shape_eq_iff_views : b.shape = c.shape ↔ b.view = c.view ∧ b.resultView = c.resultView := by
  rw [shape_eq_iff]
  exact and_congr_right fun _ => ⟨fun h => funext fun _ => h, fun h => congrFun h ""⟩

/-! ### JoinsTo -/

/-- Where both bindings have an entity, for a variable or as their result, the entities alias each
other. -/
structure Agree (b c : Bindings) : Prop where
  vars : ∀ n e e', b.find? n = some e → c.find? n = some e' → e.aliases e' = true
  result : ∀ e e', b.result = some e → c.result = some e' → e.aliases e' = true

/-- The first two bindings agree, and the third has, up to aliasing, what they have. -/
structure JoinsTo (b c d : Bindings) : Prop where
  vars : View.Joins b.view c.view d.view
  result : View.Joins b.resultView c.resultView d.resultView

namespace JoinsTo

theorem empty_left (b : Bindings) : JoinsTo .empty b b := ⟨.none_left _, .none_left _⟩

theorem comm (h : JoinsTo b c d) : JoinsTo c b d := ⟨h.vars.comm, h.result.comm⟩

/-- What two bindings join to is unique up to equality. -/
theorem unique (h : JoinsTo b c d) (h' : JoinsTo b c d') : d.shape = d'.shape :=
  shape_eq_iff_views.2 ⟨h.vars.unique h'.vars, h.result.unique h'.result⟩

/-- Equal bindings have the same joins. -/
theorem congr (h : JoinsTo b c d) (hb : b.shape = b'.shape) (hc : c.shape = c'.shape)
    (hd : d.shape = d'.shape) : JoinsTo b' c' d' := by
  obtain ⟨hbvars, hbresult⟩ := shape_eq_iff_views.1 hb
  obtain ⟨hcvars, hcresult⟩ := shape_eq_iff_views.1 hc
  obtain ⟨hdvars, hdresult⟩ := shape_eq_iff_views.1 hd
  exact ⟨hbvars ▸ hcvars ▸ hdvars ▸ h.vars, hbresult ▸ hcresult ▸ hdresult ▸ h.result⟩

theorem agree (h : JoinsTo b c d) : b.Agree c where
  vars n _ _ he he' := decide_eq_true (h.vars.agree n _ _ (view_of_find? he) (view_of_find? he'))
  result _ _ he he' :=
    decide_eq_true (h.result.agree "" _ _ (resultView_of_result he "") (resultView_of_result he' ""))

/-- What the first bindings have, a join has too, up to aliasing. -/
theorem exists_find?_of_left (h : JoinsTo b c d) {n : String} {e : Entity} (he : b.find? n = some e) :
    ∃ e', d.find? n = some e' ∧ e'.aliases e = true := by
  obtain ⟨e', he', heq⟩ := view_eq_some_iff.1 (h.vars.of_left (view_of_find? he))
  exact ⟨e', he', decide_eq_true heq⟩

theorem exists_result_of_left (h : JoinsTo b c d) {e : Entity} (he : b.result = some e) :
    ∃ e', d.result = some e' ∧ e'.aliases e = true := by
  obtain ⟨e', he', heq⟩ := resultView_eq_some_iff.1 (h.result.of_left (resultView_of_result he ""))
  exact ⟨e', he', decide_eq_true heq⟩

/-- A join binds the variables of both sides, and no others. -/
theorem binds_iff (h : JoinsTo b c d) (n : String) :
    d.binds n = true ↔ b.binds n = true ∨ c.binds n = true := by
  have hview (b : Bindings) : b.binds n = (b.view n).isSome := Option.isSome_map.symm
  rw [hview, hview, hview, h.vars.eq, Option.isSome_or, Bool.or_eq_true]

theorem isSome_result_iff (h : JoinsTo b c d) :
    d.result.isSome = true ↔ b.result.isSome = true ∨ c.result.isSome = true := by
  have hview (b : Bindings) : b.result.isSome = (b.resultView "").isSome := Option.isSome_map.symm
  rw [hview, hview, hview, h.result.eq, Option.isSome_or, Bool.or_eq_true]

end JoinsTo

/-! ### Merges -/

section

variable {agree : Entity → Entity → Bool}

private theorem resultView_joins_of_mergeInto? (h : mergeInto? Entity.aliases b c = some d) :
    View.Joins b.resultView c.resultView d.resultView where
  agree n k k' hk hk' := by
    obtain ⟨e, he, rfl⟩ := resultView_eq_some_iff.1 hk
    obtain ⟨e', he', rfl⟩ := resultView_eq_some_iff.1 hk'
    exact of_decide_eq_true ((result_of_mergeInto? h).2 e e' he he')
  eq n := by
    rw [resultView, (result_of_mergeInto? h).1, resultView, resultView]
    cases b.result <;> rfl

theorem replacements_of_mergeInto? (h : mergeInto? agree b c = some d) :
    d.replacements = b.replacements.union c.replacements := by
  obtain ⟨vars, hvars, h⟩ := Option.bind_eq_some_iff.1 h
  obtain ⟨result, hresult, h⟩ := Option.bind_eq_some_iff.1 h
  rw [← Option.some.inj h]

end

/-- A merge is a join. -/
theorem JoinsTo.of_consistentMerge? (h : b.consistentMerge? c = some m) : JoinsTo b c m where
  vars := joins_of_consistentMerge? h
  result := by
    unfold consistentMerge? mergeWith? at h
    split at h
    · exact resultView_joins_of_mergeInto? h
    · exact (resultView_joins_of_mergeInto? h).comm

/-- Bindings that agree can be merged. -/
theorem Agree.exists_consistentMerge? (h : b.Agree c) : ∃ m, b.consistentMerge? c = some m := by
  have hswap {e e' : Entity} (ha : e.aliases e' = true) : e'.aliases e = true :=
    decide_eq_true (of_decide_eq_true ha).symm
  unfold consistentMerge? mergeWith?
  split
  · exact exists_mergeInto? h.vars h.result
  · exact exists_mergeInto? (fun n e e' he he' => hswap (h.vars n e' e he' he))
      fun e e' he he' => hswap (h.result e' e he' he)

/-- Bindings that have a join can be merged, and the merge is equal to the join. -/
theorem JoinsTo.exists_consistentMerge? (h : JoinsTo b c d) :
    ∃ m, b.consistentMerge? c = some m ∧ m.shape = d.shape := by
  obtain ⟨m, hm⟩ := h.agree.exists_consistentMerge?
  exact ⟨m, hm, (of_consistentMerge? hm).unique h⟩

/-- Joining three bindings from the left can be done from the right. -/
theorem JoinsTo.assoc (h : JoinsTo b c x) (h' : JoinsTo x d m) :
    ∃ y, JoinsTo c d y ∧ JoinsTo b y m := by
  obtain ⟨v, hv, hvm⟩ := h.vars.assoc h'.vars
  obtain ⟨r, hr, hrm⟩ := h.result.assoc h'.result
  -- the views of `c` and `d` have a join, so the bindings agree and their merge has this view
  have hagree : c.Agree d :=
    { vars := fun n e e' he he' => decide_eq_true <|
        hv.agree n _ _ (view_of_find? he) (view_of_find? he')
      result := fun e e' he he' => decide_eq_true <|
        hr.agree "" _ _ (resultView_of_result he "") (resultView_of_result he' "") }
  obtain ⟨y, hy⟩ := hagree.exists_consistentMerge?
  have hjoin := of_consistentMerge? hy
  refine ⟨y, hjoin, ?_, ?_⟩
  · rwa [hjoin.vars.unique hv]
  · rwa [hjoin.result.unique hr]

/-- Joining three bindings from the right can be done from the left. -/
theorem JoinsTo.assoc' (h : JoinsTo c d x) (h' : JoinsTo b x m) :
    ∃ y, JoinsTo b c y ∧ JoinsTo y d m := by
  obtain ⟨y, hy, hm⟩ := h.comm.assoc h'.comm
  exact ⟨y, hy.comm, hm.comm⟩

/-- A merge records the replacements of both sides. -/
theorem mem_replacements_of_consistentMerge? (h : b.consistentMerge? c = some m) (r : Replacement) :
    r ∈ m.replacements.toList ↔ r ∈ b.replacements.toList ∨ r ∈ c.replacements.toList := by
  unfold consistentMerge? mergeWith? at h
  split at h
  · rw [replacements_of_mergeInto? h, Catalog.mem_union_iff Replacement.injective_shape]
  · rw [replacements_of_mergeInto? h, Catalog.mem_union_iff Replacement.injective_shape, or_comm]

/-! ### Idempotence and identity -/

private theorem foldlM_mergeVar?_of_find? {vars : NameMap Entity} {l : List (String × Entity)}
    (h : ∀ x ∈ l, vars.find? x.1 = some x.2) :
    l.foldlM (mergeVar? Entity.aliases) vars = some vars := by
  induction l with
  | nil => rfl
  | cons x l ih =>
    have hx : mergeVar? Entity.aliases vars x = some vars := by
      rw [mergeVar?, h x (List.mem_cons_self ..)]
      exact if_pos (decide_eq_true rfl)
    rw [List.foldlM_cons, hx]
    exact ih fun y hy => h y (List.mem_cons_of_mem _ hy)

/-- Merging bindings with themselves changes nothing. -/
theorem consistentMerge?_self (b : Bindings) : b.consistentMerge? b = some b := by
  have hvars : b.vars.toList.foldlM (mergeVar? Entity.aliases) b.vars = some b.vars :=
    foldlM_mergeVar?_of_find? fun x hx => Dict.find?_eq_some_iff.2 hx
  have hresult : mergeResult? Entity.aliases b.result b.result = some b.result := by
    cases b.result with
    | none => rfl
    | some e => exact if_pos (decide_eq_true rfl)
  rw [consistentMerge?, mergeWith?, if_pos (Nat.le_refl _), mergeInto?, hvars, hresult,
    Catalog.union_self]
  rfl

private theorem mergeInto?_empty (b : Bindings) : mergeInto? Entity.aliases b .empty = some b := by
  have hresult : mergeResult? Entity.aliases b.result none = some b.result := by
    cases b.result <;> rfl
  show (mergeResult? Entity.aliases b.result none).bind _ = _
  rw [hresult]
  rfl

/-- Merging with the empty bindings changes nothing. -/
theorem consistentMerge?_empty (b : Bindings) : b.consistentMerge? .empty = some b := by
  have hsize : Bindings.empty.size ≤ b.size := Nat.zero_le b.size
  rw [consistentMerge?, mergeWith?, if_pos hsize, mergeInto?_empty]

/-- Merging into the empty bindings changes nothing. -/
theorem empty_consistentMerge? (b : Bindings) : Bindings.empty.consistentMerge? b = some b := by
  rw [consistentMerge?, mergeWith?]
  -- which side is merged into the other depends on whether `b` has variables
  split
  · rename_i hsize
    obtain ⟨vars, result, replacements⟩ := b
    -- without variables there are only a result and replacements to merge
    obtain rfl : vars = ∅ := Catalog.ext (List.length_eq_zero_iff.1 (Nat.le_zero.1 hsize))
    show some (⟨∅, result, (∅ : Catalog Replacement.shape).union replacements⟩ : Bindings) = _
    rw [Catalog.empty_union]
  · exact mergeInto?_empty b

/-! ### The laws -/

/-- Equal bindings that record the same replacements. -/
structure Same (b c : Bindings) : Prop where
  shape : b.shape = c.shape
  replacements : b.replacements = c.replacements

private theorem Same.intro (hshape : b.shape = c.shape)
    (h : ∀ r, r ∈ b.replacements.toList ↔ r ∈ c.replacements.toList) : Same b c :=
  ⟨hshape, Catalog.ext_mem h⟩

/-- The merge does not depend on which side is merged into the other. -/
theorem exists_consistentMerge?_comm (h : b.consistentMerge? c = some m) :
    ∃ m', c.consistentMerge? b = some m' ∧ Same m m' := by
  obtain ⟨m', hm', hshape⟩ := (JoinsTo.of_consistentMerge? h).comm.exists_consistentMerge?
  refine ⟨m', hm', .intro hshape.symm fun r => ?_⟩
  rw [mem_replacements_of_consistentMerge? h, mem_replacements_of_consistentMerge? hm', or_comm]

/-- Bindings merged from the left can be merged from the right. -/
theorem exists_consistentMerge?_assoc (h : b.consistentMerge? c = some x)
    (h' : x.consistentMerge? d = some m) :
    ∃ y m', c.consistentMerge? d = some y ∧ b.consistentMerge? y = some m' ∧ Same m m' := by
  obtain ⟨z, hz, hjoin⟩ := (JoinsTo.of_consistentMerge? h).assoc (.of_consistentMerge? h')
  obtain ⟨y, hy, hyz⟩ := hz.exists_consistentMerge?
  obtain ⟨m', hm', hshape⟩ := (hjoin.congr rfl hyz.symm rfl).exists_consistentMerge?
  refine ⟨y, m', hy, hm', .intro hshape.symm fun r => ?_⟩
  rw [mem_replacements_of_consistentMerge? h', mem_replacements_of_consistentMerge? h,
    mem_replacements_of_consistentMerge? hm', mem_replacements_of_consistentMerge? hy, or_assoc]

/-- Bindings merged from the right can be merged from the left. -/
theorem exists_consistentMerge?_assoc' (h : c.consistentMerge? d = some x)
    (h' : b.consistentMerge? x = some m) :
    ∃ y m', b.consistentMerge? c = some y ∧ y.consistentMerge? d = some m' := by
  obtain ⟨z, hz, hjoin⟩ := (JoinsTo.of_consistentMerge? h).assoc' (.of_consistentMerge? h')
  obtain ⟨y, hy, hyz⟩ := hz.exists_consistentMerge?
  obtain ⟨m', hm', _⟩ := (hjoin.congr hyz.symm rfl rfl).exists_consistentMerge?
  exact ⟨y, m', hy, hm'⟩

/-- The bindings have exactly the variables and replacements of two others, and a result when one of
them has; and whatever one of the two has for a variable or as its result, they have an entity that
aliases it. -/
structure IsUnionOf (m b c : Bindings) : Prop where
  binds : ∀ n, m.binds n = true ↔ b.binds n = true ∨ c.binds n = true
  vars : ∀ n e, b.find? n = some e ∨ c.find? n = some e →
    ∃ e', m.find? n = some e' ∧ e'.aliases e = true
  isSome_result : m.result.isSome = true ↔ b.result.isSome = true ∨ c.result.isSome = true
  result : ∀ e, b.result = some e ∨ c.result = some e →
    ∃ e', m.result = some e' ∧ e'.aliases e = true
  replacements : ∀ r,
    r ∈ m.replacements.toList ↔ r ∈ b.replacements.toList ∨ r ∈ c.replacements.toList

theorem isUnionOf_of_consistentMerge? (h : b.consistentMerge? c = some m) : m.IsUnionOf b c :=
  have hjoin := JoinsTo.of_consistentMerge? h
  { binds := hjoin.binds_iff
    vars := fun _ _ he => he.elim hjoin.exists_find?_of_left hjoin.comm.exists_find?_of_left
    isSome_result := hjoin.isSome_result_iff
    result := fun _ he => he.elim hjoin.exists_result_of_left hjoin.comm.exists_result_of_left
    replacements := mem_replacements_of_consistentMerge? h }

/-- Merging is commutative, associative and idempotent, with the empty bindings as identity, where two
ways of merging both fail or give equal bindings with the same replacements. Bindings can be merged
exactly when they agree, and a merge is their union. -/
theorem consistentMerge?_laws (b c d : Bindings) :
    Option.Rel Same (b.consistentMerge? c) (c.consistentMerge? b) ∧
    Option.Rel Same ((b.consistentMerge? c).bind fun x => x.consistentMerge? d)
      ((c.consistentMerge? d).bind fun x => b.consistentMerge? x) ∧
    b.consistentMerge? b = some b ∧
    (b.consistentMerge? .empty = some b ∧ Bindings.empty.consistentMerge? b = some b) ∧
    ((∃ m, b.consistentMerge? c = some m) ↔ b.Agree c) ∧
    ∀ m, b.consistentMerge? c = some m → m.IsUnionOf b c := by
  refine ⟨?_, ?_, consistentMerge?_self b, ⟨consistentMerge?_empty b, empty_consistentMerge? b⟩,
    ⟨?_, Agree.exists_consistentMerge?⟩, fun m => isUnionOf_of_consistentMerge?⟩
  -- merging two maps in either order
  · refine Option.rel_of_exists (fun _ => exists_consistentMerge?_comm) fun m hm => ?_
    obtain ⟨m', hm', _⟩ := exists_consistentMerge?_comm hm
    exact ⟨m', hm'⟩
  · -- one way of merging succeeds if the other does, and then the merges are the same
    refine Option.rel_of_exists (fun m hm => ?_) fun m hm => ?_
    · obtain ⟨x, hx, hm⟩ := Option.bind_eq_some_iff.1 hm
      obtain ⟨y, m', hy, hm', hsame⟩ := exists_consistentMerge?_assoc hx hm
      exact ⟨m', Option.bind_eq_some_iff.2 ⟨y, hy, hm'⟩, hsame⟩
    · obtain ⟨x, hx, hm⟩ := Option.bind_eq_some_iff.1 hm
      obtain ⟨y, m', hy, hm'⟩ := exists_consistentMerge?_assoc' hx hm
      exact ⟨m', Option.bind_eq_some_iff.2 ⟨y, hy, hm'⟩⟩
  · rintro ⟨m, hm⟩
    exact (JoinsTo.of_consistentMerge? hm).agree

namespace Merged

/-- A receiver at a place of the program. -/
def receiver (place : UInt32) : Entity := .node ⟨⟨place⟩, ⟨0, 0, 4⟩, .this⟩

/-- A receiver that was made. -/
def madeReceiver : Entity := .node ⟨⟨9⟩, .synthetic, .this⟩

def left : Bindings :=
  ((Bindings.empty.bind "x" (receiver 1)).bind "y" madeReceiver).record ⟨⟨1⟩, ⟨9⟩⟩

def right : Bindings := { (Bindings.empty.bind "x" (receiver 1)) with result := some madeReceiver }

def lookAlike : Bindings := Bindings.empty.bind "x" (receiver 2)

def both : Bindings := { left with result := some madeReceiver }

/-- One receiver is merged with itself, but not with the receiver at another place. -/
theorem consistentMerge?_laws_receivers :
    right.consistentMerge? left = some both ∧ both.IsUnionOf right left ∧
      left.Agree right ∧ ¬ left.Agree lookAlike := by
  have hmerge : right.consistentMerge? left = some both := rfl
  obtain ⟨_, _, _, _, _, hunion⟩ := consistentMerge?_laws right left lookAlike
  obtain ⟨_, _, _, _, hagree, _⟩ := consistentMerge?_laws left right lookAlike
  obtain ⟨_, _, _, _, hdiffer, _⟩ := consistentMerge?_laws left lookAlike right
  refine ⟨hmerge, hunion _ hmerge, hagree.1 ⟨both, rfl⟩, fun h => ?_⟩
  obtain ⟨m, hm⟩ := hdiffer.2 h
  have hnone : left.consistentMerge? lookAlike = none := rfl
  rw [hnone] at hm
  cases hm

end Merged

end Bindings

end CodeRules
