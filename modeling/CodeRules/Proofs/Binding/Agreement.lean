import CodeRules.Proofs.Binding.Normal
import CodeRules.Proofs.Binding.Pairing
import CodeRules.Proofs.Effect

/-!
# Bindings that agree

Bindings in normal form are equal as soon as they are the same solution (`Bindings.IsNormal.ext`), and
merging them consistently is taking their union. `Bindings.AgreeOn` compares bindings along pairs of
variables, `Bindings.ExtendedBy` says that only some variables were bound.
-/

namespace CodeRules

/-! ### Normal forms -/

/-- The entity is uniform and its own normal form. -/
structure Entity.IsNormal (base : UInt32) (e : Entity) : Prop where
  uniform : e.Uniform base
  normal : e.normal base = e

/-- The bindings are uniform and their own normal form. -/
structure Bindings.IsNormal (base : UInt32) (b : Bindings) : Prop where
  uniform : b.Uniform base
  normal : b.normal base = b

variable {base : UInt32}

/-- The normal form of a uniform entity is its own normal form. -/
theorem Entity.Uniform.isNormal {e : Entity} (h : e.Uniform base) : (e.normal base).IsNormal base :=
  ⟨h.normal, e.normal_normal base⟩

/-- The normal form of uniform bindings is its own normal form. -/
theorem Bindings.Uniform.isNormal {b : Bindings} (h : b.Uniform base) :
    (b.normal base).IsNormal base := ⟨h.normal, b.normal_normal base⟩

/-- Bindings in normal form that are the same solution are equal. -/
theorem Bindings.IsNormal.ext {b b' : Bindings} (h : b.IsNormal base) (h' : b'.IsNormal base)
    (hshape : b.shape = b'.shape) : b = b' := by
  rw [← h.normal, ← h'.normal]
  exact normal_eq_normal h.uniform h'.uniform hshape

/-- Forgetting variables keeps a normal form. -/
theorem Bindings.IsNormal.erase {b : Bindings} (h : b.IsNormal base) (names : List String) :
    (b.erase names).IsNormal base where
  uniform := h.uniform.erase names
  normal := by rw [normal_erase, h.normal]

/-- Entities in normal form are equal when they are the same entity at the same place. -/
theorem Entity.IsNormal.eq_of_aliases {e e' : Entity} (h : e.IsNormal base) (h' : e'.IsNormal base)
    (halias : e.aliases e' = true) : e = e' := by
  obtain ⟨hshape, hplaces⟩ := aliases_iff.1 halias
  rw [← h.normal, ← h'.normal]
  exact normal_eq_normal h.uniform h'.uniform hshape hplaces

namespace Bindings

variable {b b' c c' d d' m m' : Bindings} {N : Pairing} {V W : String → Prop} {n name name' : String}
  {e : Entity}

/-- What a normal form binds is in normal form. -/
theorem IsNormal.find? (h : b.IsNormal base) (he : b.find? n = some e) : e.IsNormal base := by
  refine ⟨h.uniform.vars n e he, ?_⟩
  -- looking up commutes with taking normal forms, and these bindings are one
  have hmap := b.find?_normal base n
  rw [h.normal, he, Option.map_some] at hmap
  exact (Option.some.inj hmap).symm

/-- The result of a normal form is in normal form. -/
theorem IsNormal.result (h : b.IsNormal base) (he : b.result = some e) : e.IsNormal base := by
  refine ⟨h.uniform.result e he, ?_⟩
  have hmap : (b.normal base).result = b.result.map (Entity.normal base) := rfl
  rw [h.normal, he, Option.map_some] at hmap
  exact (Option.some.inj hmap).symm

/-! ### Merges of normal forms -/

/-- What both bind is the same. -/
structure Compatible (b c : Bindings) : Prop where
  vars : ∀ n e e', b.find? n = some e → c.find? n = some e' → e = e'
  result : ∀ e e', b.result = some e → c.result = some e' → e = e'

/-- What both bind is the same, whichever comes first. -/
theorem Compatible.symm (h : b.Compatible c) : c.Compatible b :=
  ⟨fun n e e' he he' => (h.vars n e' e he' he).symm, fun e e' he he' => (h.result e' e he' he).symm⟩

/-- `d` has what one of the two binds. -/
structure Joins (b c d : Bindings) : Prop where
  find?_eq : ∀ n, d.find? n = (b.find? n).or (c.find? n)
  result_eq : d.result = b.result.or c.result

/-- Where both bind the same it does not matter whose entities the union takes. -/
theorem Joins.symm (h : b.Joins c d) (hbc : b.Compatible c) : c.Joins b d where
  find?_eq n := by
    rw [h.find?_eq]
    cases hb : b.find? n with
    | none => rw [Option.none_or, Option.or_none]
    | some e =>
      -- both bind the variable, so they bind it to the same entity
      cases hc : c.find? n with
      | none => rfl
      | some e' => rw [hbc.vars n e e' hb hc, Option.some_or]
  result_eq := by
    rw [h.result_eq]
    cases hb : b.result with
    | none => rw [Option.none_or, Option.or_none]
    | some e =>
      cases hc : c.result with
      | none => rfl
      | some e' => rw [hbc.result e e' hb hc, Option.some_or]

/-- Merging normal forms into one another joins them. -/
private theorem joins_of_mergeInto? (hb : b.IsNormal base) (hc : c.IsNormal base)
    (h : mergeInto? Entity.aliases b c = some d) : b.Compatible c ∧ b.Joins c d := by
  obtain ⟨hresult, hagree⟩ := result_of_mergeInto? h
  refine ⟨⟨fun n e e' he he' => ?_, fun e e' he he' => ?_⟩, fun n => find?_of_mergeInto? h n, hresult⟩
  -- what both bind are aliases, and aliases in normal form are equal
  · exact (hb.find? he).eq_of_aliases (hc.find? he') (agree_of_mergeInto? h he he')
  · exact (hb.result he).eq_of_aliases (hc.result he') (hagree e e' he he')

/-- A consistent merge of normal forms joins what is the same where both bind it. -/
theorem IsNormal.joins (hb : b.IsNormal base) (hc : c.IsNormal base)
    (h : b.consistentMerge? c = some d) : b.Compatible c ∧ b.Joins c d := by
  unfold consistentMerge? mergeWith? at h
  -- the smaller bindings are merged into the larger ones, so either side may be taken as the first
  split at h
  · exact joins_of_mergeInto? hb hc h
  · obtain ⟨hcompatible, hjoins⟩ := joins_of_mergeInto? hc hb h
    exact ⟨hcompatible.symm, hjoins.symm hcompatible⟩

/-- A consistent merge of normal forms is one. -/
theorem IsNormal.consistentMerge? (hb : b.IsNormal base) (hc : c.IsNormal base)
    (h : b.consistentMerge? c = some d) : d.IsNormal base := by
  refine ⟨hb.uniform.consistentMerge? hc.uniform h, ?_⟩
  have hmap := b.normal_consistentMerge? base c
  rw [hb.normal, hc.normal, h] at hmap
  exact Option.some.inj hmap

/-- Bindings can be merged when what both bind is the same. -/
theorem Compatible.exists_merge (h : b.Compatible c) : ∃ d, b.consistentMerge? c = some d := by
  -- equal entities are aliases, so no variable stands in the way
  have hself {e e' : Entity} (he : e = e') : e.aliases e' = true := he ▸ Entity.aliases_iff.2 ⟨rfl, rfl⟩
  unfold Bindings.consistentMerge? mergeWith?
  split
  · exact exists_mergeInto? (fun n e e' he he' => hself (h.vars n e e' he he'))
      fun e e' he he' => hself (h.result e e' he he')
  · exact exists_mergeInto? (fun n e e' he he' => hself (h.vars n e' e he' he).symm)
      fun e e' he he' => hself (h.result e' e he' he).symm

/-! ### Agreement -/

/-- Variables that are paired have the same entity or none, and the result is the same. -/
structure AgreeOn (N : Pairing) (b b' : Bindings) : Prop where
  vars : ∀ n m, N n m → b.find? n = b'.find? m
  result : b.result = b'.result

/-- `c` has all that `b` binds, and binds no other variables besides `V`. -/
structure ExtendedBy (V : String → Prop) (b c : Bindings) : Prop where
  kept : ∀ n e, b.find? n = some e → c.find? n = some e
  others : ∀ n, ¬ V n → c.find? n = b.find? n
  result : c.result = none ∨ c.result = b.result

/-- Agreement can be read from the other side, with the pairs turned round. -/
theorem AgreeOn.symm (h : b.AgreeOn N b') : b'.AgreeOn N.symm b :=
  ⟨fun m n hn => (h.vars n m hn).symm, h.result.symm⟩

/-- Bindings extend themselves. -/
theorem ExtendedBy.refl (b : Bindings) : b.ExtendedBy V b := ⟨fun _ _ h => h, fun _ _ => rfl, .inr rfl⟩

/-- Equal bindings extend each other. -/
theorem ExtendedBy.of_eq (h : c = b) : b.ExtendedBy V c := by
  subst h
  exact .refl c

/-- Extensions can be extended. -/
theorem ExtendedBy.trans (h : b.ExtendedBy V c) (h' : c.ExtendedBy V d) : b.ExtendedBy V d where
  kept n e he := h'.kept n e (h.kept n e he)
  others n hn := (h'.others n hn).trans (h.others n hn)
  result := h'.result.elim .inl fun hd => hd ▸ h.result

/-- Agreement does not depend on results. -/
theorem AgreeOn.withoutResult (h : b.AgreeOn N b') : b.withoutResult.AgreeOn N b'.withoutResult :=
  ⟨h.vars, rfl⟩

/-- Bindings without their result extend what they were. -/
theorem extendedBy_withoutResult (b : Bindings) : b.ExtendedBy V b.withoutResult :=
  ⟨fun _ _ h => h, fun _ _ => rfl, .inl rfl⟩

/-- Unions of bindings that agree agree. -/
theorem AgreeOn.joins (hm : m.AgreeOn N m') (hb : b.AgreeOn N b') (h : m.Joins b c)
    (h' : m'.Joins b' c') : c.AgreeOn N c' where
  vars n k hn := by rw [h.find?_eq, h'.find?_eq, hm.vars n k hn, hb.vars n k hn]
  result := by rw [h.result_eq, h'.result_eq, hm.result, hb.result]

/-- What can be merged into bindings has a counterpart that can be merged into others that agree with
them. -/
theorem AgreeOn.merge (h : b.AgreeOn N b') (hmm' : m.AgreeOn N m') (hm : m.IsNormal base)
    (hm' : m'.IsNormal base) (hb : b.IsNormal base) (hb' : b'.IsNormal base)
    (hrange : ∀ n e, m'.find? n = some e → N.range n) (hc : m.consistentMerge? b = some c) :
    ∃ c', m'.consistentMerge? b' = some c' ∧ c.AgreeOn N c' := by
  obtain ⟨hcompatible, hjoins⟩ := hm.joins hb hc
  -- what the second merge has in common comes, along the pairs, from the first one
  have hcompatible' : m'.Compatible b' := by
    refine ⟨fun n e e' he he' => ?_, fun e e' he he' => hcompatible.result e e' ?_ ?_⟩
    · obtain ⟨k, hk⟩ := hrange n e he
      exact hcompatible.vars k e e' ((hmm'.vars k n hk).trans he) ((h.vars k n hk).trans he')
    -- results are not paired, they are the same on both sides
    · exact hmm'.result.trans he
    · exact h.result.trans he'
  obtain ⟨c', hc'⟩ := hcompatible'.exists_merge
  exact ⟨c', hc', hmm'.joins h hjoins (hm'.joins hb' hc').2⟩

/-- Merging variables into bindings extends these. -/
theorem extendedBy_of_merge (hm : m.IsNormal base) (hb : b.IsNormal base)
    (hV : ∀ n e, m.find? n = some e → V n) (hresult : m.result = none)
    (hc : m.consistentMerge? b = some c) : b.ExtendedBy V c := by
  obtain ⟨hcompatible, hjoins⟩ := hm.joins hb hc
  refine ⟨fun n e he => ?_, fun n hn => ?_, .inr ?_⟩
  · rw [(hjoins.symm hcompatible).find?_eq, he, Option.some_or]
  -- variables that are not in `V` are not in what is merged
  · rw [hjoins.find?_eq, Option.eq_none_iff_forall_ne_some.2 fun e he => hn (hV n e he),
      Option.none_or]
  · rw [hjoins.result_eq, hresult, Option.none_or]

/-! ### Single bindings -/

/-- Binding a variable changes what it stands for if nothing was bound, and no other variable. -/
theorem find?_bind?_eq (h : b.bind? name e = some c) :
    c.find? n = if n = name ∧ name ≠ wildcard then some ((b.find? name).getD e) else b.find? n := by
  unfold Bindings.bind? at h
  split at h
  · rename_i hname
    obtain rfl := Option.some.inj h
    simp [hname]
  · rename_i hname
    split at h
    · rename_i old hold
      split at h
      · obtain rfl := Option.some.inj h
        -- the variable was bound before, so nothing changes
        split
        · rename_i hn
          rw [hn.1, hold, Option.getD_some]
        · rfl
      · cases h
    · rename_i hnone
      -- the variable was not bound
      obtain rfl := Option.some.inj h
      rw [Bindings.find?, Dict.find?_set, hnone]
      simp [hname, Bindings.find?]

/-- Binding a variable extends the bindings. -/
theorem extendedBy_of_bind? (hname : name ≠ wildcard → V name) (h : b.bind? name e = some c) :
    b.ExtendedBy V c where
  kept n x hx := by
    rw [find?_bind?_eq h]
    split
    · rename_i hn
      rw [← hn.1, hx, Option.getD_some]
    · exact hx
  others n hn := by
    rw [find?_bind?_eq h, if_neg]
    -- the wildcard is never bound, so no variable outside `V` is
    rintro ⟨rfl, hself⟩
    exact hn (hname hself)
  result := .inr (result_of_bind? h)

/-- Paired variables are bound alike in bindings that agree. -/
theorem AgreeOn.bind? (hN : N.Proper) (h : b.AgreeOn N b') (hname : N name name')
    (hc : b.bind? name e = some c) : ∃ c', b'.bind? name' e = some c' ∧ c.AgreeOn N c' := by
  have hwildcard := hN.wildcard_iff hname
  -- the partner can be bound: it stands for the same before, or for nothing
  have hbound : ∃ c', b'.bind? name' e = some c' := by
    unfold Bindings.bind? at hc ⊢
    rw [← h.vars name name' hname]
    by_cases hself : name = wildcard
    · rw [if_pos (hwildcard.1 hself)]
      exact ⟨b', rfl⟩
    · rw [if_neg (mt hwildcard.2 hself)]
      rw [if_neg hself] at hc
      split at hc
      · split at hc
        · rename_i hshape
          simp only [hshape, ↓reduceIte]
          exact ⟨b', rfl⟩
        · cases hc
      · exact ⟨_, rfl⟩
  obtain ⟨c', hc'⟩ := hbound
  refine ⟨c', hc', fun n m hn => ?_, by rw [result_of_bind? hc, result_of_bind? hc', h.result]⟩
  -- a pair is that of the bound variables on both sides or on none
  have hiff : (n = name ∧ name ≠ wildcard) ↔ (m = name' ∧ name' ≠ wildcard) :=
    and_congr (hN.eq_iff hn hname) (not_congr hwildcard)
  rw [find?_bind?_eq hc, find?_bind?_eq hc', h.vars name name' hname, h.vars n m hn]
  exact if_congr hiff rfl rfl

/-- Paired variables can be bound together or not at all. -/
theorem AgreeOn.rel_bind? (hN : N.Proper) (h : b.AgreeOn N b') (hname : N name name') (e : Entity) :
    Option.Rel (AgreeOn N) (b.bind? name e) (b'.bind? name' e) :=
  Option.rel_of_exists (fun _ hc => h.bind? hN hname hc) fun _ hc' =>
    (h.symm.bind? hN.symm hname hc').imp fun _ hc => hc.1

/-- Binding a variable where possible extends the bindings. -/
theorem extendedBy_bind (hname : name ≠ wildcard → V name) (b : Bindings) (e : Entity) :
    b.ExtendedBy V (b.bind name e) := by
  rw [Bindings.bind]
  cases hc : b.bind? name e with
  | none => exact .refl b
  | some c => exact extendedBy_of_bind? hname hc

/-- Paired variables are bound alike where that is possible. -/
theorem AgreeOn.bind (hN : N.Proper) (h : b.AgreeOn N b') (hname : N name name') (e : Entity) :
    (b.bind name e).AgreeOn N (b'.bind name' e) := by
  have hrel := h.rel_bind? hN hname e
  rw [Bindings.bind, Bindings.bind]
  generalize b.bind? name e = o at hrel
  generalize b'.bind? name' e = o' at hrel
  cases hrel with
  | none => exact h
  | some h => exact h

/-! ### Quantified variables -/

/-- Variables that are forgotten are unbound, and the others stay. -/
theorem find?_erase (b : Bindings) (names : List String) (n : String) :
    (b.erase names).find? n = if n ∈ names then none else b.find? n := by
  -- bindings are a sorted list of entries, of which some are dropped
  have hmem (e : Entity) : (b.erase names).find? n = some e ↔ n ∉ names ∧ b.find? n = some e := by
    rw [Bindings.find?, Bindings.find?, Dict.find?_eq_some_iff, Dict.find?_eq_some_iff, Bindings.erase,
      Catalog.mem_filter, and_comm]
    simp
  refine Option.ext fun e => ?_
  rw [hmem]
  split
  · simp_all
  · simp_all

/-- Forgetting the bound variables on both sides leaves agreement under the binders. -/
theorem AgreeOn.erase (h : b.AgreeOn N b') {names names' : List String} :
    (b.erase names).AgreeOn (N.under names names') (b'.erase names') := by
  refine ⟨fun n m hn => ?_, h.result⟩
  rw [find?_erase, find?_erase]
  -- a variable is among the binders if its partner is
  by_cases hbound : n ∈ names
  · rw [if_pos hbound, if_pos ((Pairing.mem_binders_iff hn).1 hbound)]
  · rw [if_neg hbound, if_neg (mt (Pairing.mem_binders_iff hn).2 hbound)]
    exact h.vars n m (Pairing.pairs_of_under hn hbound)

/-- Extensions that forget the quantified variables can be merged with what was there before. -/
theorem ExtendedBy.exists_merge {names : List String} (h : (b.erase names).ExtendedBy W d) :
    ∃ c, (d.erase names).consistentMerge? b = some c := by
  refine Compatible.exists_merge ⟨fun n e e' he he' => ?_, fun e e' he he' => ?_⟩
  · rw [find?_erase] at he
    split at he
    · cases he
    -- a variable that is not quantified was kept by the extension
    · rename_i hn
      have hkept := h.kept n e' (by rw [find?_erase, if_neg hn, he'])
      exact Option.some.inj (he.symm.trans hkept)
  · rcases h.result with hnone | hsame
    · cases he.symm.trans hnone
    · exact Option.some.inj (he.symm.trans (hsame.trans he'))

/-- Merging what the extension forgot extends the bindings that were there before. -/
theorem ExtendedBy.merge_erase {names : List String} (h : (b.erase names).ExtendedBy W d)
    (hW : ∀ n, W n → n ∉ names → V n) (hd : d.IsNormal base) (hb : b.IsNormal base)
    (hc : (d.erase names).consistentMerge? b = some c) : b.ExtendedBy V c := by
  obtain ⟨hcompatible, hjoins⟩ := (hd.erase names).joins hb hc
  refine ⟨fun n e he => ?_, fun n hn => ?_, .inr ?_⟩
  · rw [(hjoins.symm hcompatible).find?_eq, he, Option.some_or]
  · rw [hjoins.find?_eq, find?_erase]
    split
    · rw [Option.none_or]
    · rename_i hnot
      -- a variable outside both sets is as it was before the quantifier
      rw [h.others n fun hWn => hn (hW n hWn hnot), find?_erase, if_neg hnot, Option.or_self]
  · rw [hjoins.result_eq]
    show d.result.or b.result = b.result
    rcases h.result with hnone | hsame
    · rw [hnone, Option.none_or]
    · rw [hsame]
      exact Option.or_self

/-- Outside the quantified variables solutions that agree under quantifiers agree with what was bound
before. -/
theorem AgreeOn.merge_erase (hN : N.Proper) {names names' : List String} (h : b.AgreeOn N b')
    (hd : d.AgreeOn (N.under names names') d')
    (hext : (b.erase names).ExtendedBy (N.under names names').domain d)
    (hext' : (b'.erase names').ExtendedBy (N.under names names').range d')
    (hjoins : (d.erase names).Joins b c) (hjoins' : (d'.erase names').Joins b' c') :
    c.AgreeOn N c' := by
  refine ⟨fun n m hn => ?_, ?_⟩
  · rw [hjoins.find?_eq, hjoins'.find?_eq, find?_erase, find?_erase]
    by_cases hbound : n ∈ names
    · by_cases hbound' : m ∈ names'
      · rw [if_pos hbound, if_pos hbound', h.vars n m hn]
      · -- the partner of a hidden variable has no other partner under the quantifier
        have hout : ¬ (N.under names names').range m := by
          rintro ⟨k, hk⟩
          have hfree := mt (Pairing.mem_binders_iff hk).1 hbound'
          obtain rfl := hN.biUnique.1 (Pairing.pairs_of_under hk hfree) hn
          exact hfree hbound
        rw [if_pos hbound, if_neg hbound', hext'.others m hout, find?_erase, if_neg hbound',
          h.vars n m hn, Option.none_or, Option.or_self]
    · by_cases hbound' : m ∈ names'
      -- the partner is quantified, and the same holds from the other side
      · have hout : ¬ (N.under names names').domain n := by
          rintro ⟨k, hk⟩
          obtain rfl := hN.biUnique.2 (Pairing.pairs_of_under hk hbound) hn
          exact hbound ((Pairing.mem_binders_iff hk).2 hbound')
        rw [if_neg hbound, if_pos hbound', hext.others n hout, find?_erase, if_neg hbound,
          h.vars n m hn, Option.none_or, Option.or_self]
      -- neither is quantified, so the pair is one under the binders too
      · rw [if_neg hbound, if_neg hbound', hd.vars n m (.inr ⟨hbound, hbound', hn⟩), h.vars n m hn]
  · rw [hjoins.result_eq, hjoins'.result_eq]
    show d.result.or b.result = d'.result.or b'.result
    rw [hd.result, h.result]

end Bindings

end CodeRules
