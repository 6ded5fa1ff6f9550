import CodeRules.Fragment.Recognize
import CodeRules.Proofs.Binding.Bindings

/-!
# Bindings that unify

Two bindings unify when what they share has the same shapes, and this is all that joining a part asks
for (`Bindings.exists_joinPart_iff`). `Bindings.Unites` says what several parts are joined to: it
unifies with others exactly when each of the parts does (`Bindings.Unites.unifies_iff`), so parts can
be joined one after the other when any two of them unify.
-/

namespace CodeRules

namespace Bindings

variable {b c d p q : Bindings} {parts : List Bindings} {name : String} {e : Entity}

/-- What both bind has the same shape. -/
def Unifies (b c : Bindings) : Prop :=
  ∀ n e e', b.find? n = some e → c.find? n = some e' → e.shape = e'.shape

/-- The order of two bindings that unify does not matter. -/
theorem Unifies.symm (h : b.Unifies c) : c.Unifies b :=
  fun n e e' he he' => (h n e' e he' he).symm

/-- Bindings without variables unify with all others. -/
theorem unifies_of_find?_eq_none (h : ∀ n, b.find? n = none) : b.Unifies c :=
  fun n e e' he _ => by simp [h n] at he

/-- Bindings that are covered by the same bindings unify. -/
theorem Covers.unifies (hb : d.Covers b) (hc : d.Covers c) : b.Unifies c := by
  intro n e e' he he'
  obtain ⟨x, hx, hshape⟩ := hb n e he
  obtain ⟨x', hx', hshape'⟩ := hc n e' he'
  obtain rfl := Option.some.inj (hx.symm.trans hx')
  exact hshape.symm.trans hshape'

/-- What is covered unifies with all that its cover unifies with. -/
theorem Covers.unifies_of_unifies (hb : d.Covers b) (h : d.Unifies c) : b.Unifies c := by
  intro n e e' he he'
  obtain ⟨x, hx, hshape⟩ := hb n e he
  exact hshape.symm.trans (h n x e' hx he')

/-! ### Merging two bindings -/

/-- Merged bindings bind what one of the two binds. -/
theorem find?_of_unifyMerge? (h : b.unifyMerge? c = some d) (he : d.find? name = some e) :
    b.find? name = some e ∨ c.find? name = some e := by
  unfold unifyMerge? mergeWith? at h
  split at h
  · rw [find?_of_mergeInto? h, Option.or_eq_some_iff] at he
    exact he.imp_right And.right
  · rw [find?_of_mergeInto? h, Option.or_eq_some_iff] at he
    exact (he.imp_right And.right).symm

/-- Bindings that unify can be merged when only one of them has a result. -/
theorem Unifies.exists_unifyMerge? (h : b.Unifies c) (hc : c.result = none) :
    ∃ d, b.unifyMerge? c = some d := by
  unfold unifyMerge? mergeWith?
  split
  · refine exists_mergeInto? (fun n e e' he he' => Entity.sameShape_iff.2 (h n e e' he he'))
      fun e e' _ he' => ?_
    cases hc.symm.trans he'
  · refine exists_mergeInto? (fun n e e' he he' => Entity.sameShape_iff.2 (h.symm n e e' he he'))
      fun e e' he _ => ?_
    cases hc.symm.trans he

/-- A part can be joined exactly when it was found and unifies. -/
theorem exists_joinPart_iff {part : Option Bindings} :
    (∃ d, b.joinPart part = some d) ↔ ∃ p, part = some p ∧ b.Unifies p := by
  constructor
  · rintro ⟨d, h⟩
    obtain ⟨p, rfl, h⟩ := Option.bind_eq_some_iff.1 h
    obtain ⟨hb, hp⟩ := covers_of_unifyMerge? h
    exact ⟨p, rfl, hb.unifies hp⟩
  · rintro ⟨p, rfl, h⟩
    exact Unifies.exists_unifyMerge? (c := p.withoutResult) h rfl

/-! ### Joining several parts -/

/-- The bindings cover all parts and bind only what one of them binds. -/
structure Unites (c : Bindings) (parts : List Bindings) : Prop where
  covers : ∀ p ∈ parts, c.Covers p
  origin : ∀ n e, c.find? n = some e → ∃ p ∈ parts, p.find? n = some e

/-- Parts that are united unify pairwise. -/
theorem Unites.pairwise (h : c.Unites parts) : parts.Pairwise Unifies :=
  List.pairwise_of_forall_mem_list fun p hp q hq => (h.covers p hp).unifies (h.covers q hq)

/-- What a part is joined to unites it with the bindings before. -/
theorem unites_of_joinPart (h : b.joinPart (some p) = some c) : c.Unites [b, p] where
  covers q hq := by
    obtain ⟨hb, hp⟩ := covers_of_unifyMerge? (c := p.withoutResult) h
    rcases List.mem_cons.1 hq with rfl | hq
    · exact hb
    · exact List.mem_singleton.1 hq ▸ hp
  origin n e he := by
    rcases find?_of_unifyMerge? (c := p.withoutResult) h he with he | he
    · exact ⟨b, by simp, he⟩
    · exact ⟨p, by simp, he⟩

/-- Parts can be joined to what others are joined to. -/
theorem Unites.trans {others : List Bindings} (h : d.Unites (c :: others)) (hc : c.Unites parts) :
    d.Unites (parts ++ others) where
  covers p hp := by
    rcases List.mem_append.1 hp with hp | hp
    · exact (h.covers c (List.mem_cons_self ..)).trans (hc.covers p hp)
    · exact h.covers p (List.mem_cons_of_mem _ hp)
  origin n e he := by
    obtain ⟨p, hp, he⟩ := h.origin n e he
    rcases List.mem_cons.1 hp with rfl | hp
    · obtain ⟨q, hq, he⟩ := hc.origin n e he
      exact ⟨q, List.mem_append_left _ hq, he⟩
    · exact ⟨p, List.mem_append_right _ hp, he⟩

/-- Parts that bind nothing may be left out. -/
theorem Unites.of_subset {parts' : List Bindings} (h : c.Unites parts) (hsub : parts' ⊆ parts)
    (hnothing : ∀ p ∈ parts, p ∉ parts' → ∀ n, p.find? n = none) : c.Unites parts' where
  covers p hp := h.covers p (hsub hp)
  origin n e he := by
    obtain ⟨p, hp, he⟩ := h.origin n e he
    by_cases hmem : p ∈ parts'
    · exact ⟨p, hmem, he⟩
    · rw [hnothing p hp hmem n] at he
      cases he

/-- A first part without variables may be left out. -/
theorem Unites.of_cons (h : c.Unites (b :: parts)) (hb : ∀ n, b.find? n = none) : c.Unites parts :=
  h.of_subset (List.subset_cons_self b parts) fun _ hp hmem =>
    (List.mem_cons.1 hp).resolve_right hmem ▸ hb

/-- Uniting the same two parts binds the same, where nothing else has the shape of what the second
part binds. -/
theorem Unites.find?_eq_some {c' : Bindings} (h : c.Unites [b, p]) (h' : c'.Unites [b, p])
    (hp : ∀ n e e', p.find? n = some e → e'.shape = e.shape → e' = e)
    (he : c.find? name = some e) : c'.find? name = some e := by
  -- in both united bindings the entity comes from one of the two parts
  obtain ⟨q, hq, hqe⟩ := h.origin name e he
  obtain ⟨e', he', hshape⟩ := h'.covers q hq name e hqe
  obtain ⟨q', hq', hqe'⟩ := h'.origin name e' he'
  suffices e' = e from this ▸ he'
  simp only [List.mem_cons, List.not_mem_nil, or_false] at hq hq'
  rcases hq with rfl | rfl
  -- both from `b`: one variable of the same bindings
  · rcases hq' with rfl | rfl
    · exact Option.some.inj (hqe'.symm.trans hqe)
    · exact (hp name e' e hqe' hshape.symm).symm
  · exact hp name e e' hqe hshape

/-- United parts unify with others exactly when each of them does. -/
theorem Unites.unifies_iff (h : c.Unites parts) : c.Unifies d ↔ ∀ p ∈ parts, p.Unifies d := by
  refine ⟨fun hd p hp => (h.covers p hp).unifies_of_unifies hd, fun hd n e e' he he' => ?_⟩
  obtain ⟨p, hp, he⟩ := h.origin n e he
  exact hd p hp n e e' he he'

/-- What some parts are united to unifies with the others when all of them unify pairwise. -/
theorem Unites.pairwise_cons {others : List Bindings} (h : c.Unites parts)
    (hparts : (parts ++ others).Pairwise Unifies) : (c :: others).Pairwise Unifies := by
  obtain ⟨_, hothers, hbetween⟩ := List.pairwise_append.1 hparts
  exact List.pairwise_cons.2 ⟨fun q hq => h.unifies_iff.2 fun p hp => hbetween p hp q hq, hothers⟩

end Bindings

end CodeRules
