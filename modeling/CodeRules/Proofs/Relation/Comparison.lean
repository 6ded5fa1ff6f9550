import CodeRules.Proofs.Binding.Merge
import CodeRules.Proofs.Code.Comparison
import CodeRules.Relation.Tuple

/-!
# Comparing tuples and bindings

Sets of tuples and of bindings are ordered by comparisons that look at what things are made of first
and at where they stand in the program after that. Main statement: `comparisons_preorder`, that these
comparisons and that of entities are total preorders, and what they cannot tell apart.
-/

namespace CodeRules

namespace Tuple

/-- Tuples are compared by their traits, then by the shapes of their values, then by the places of
these. -/
theorem compare_shape_eq (t u : Tuple) : compare t.shape u.shape =
    (compare t.signature.name u.signature.name).then
      ((compare (t.values.map Entity.shape) (u.values.map Entity.shape)).then
        (compare (t.values.map Entity.locations) (u.values.map Entity.locations))) := by
  simp only [shape, Shape.compare_seq, List.compare_cons_cons, Shape.compare_text,
    List.compare_nil_nil, Ordering.then_eq]
  rw [List.compare_map (fun e : Entity => Entity.idsShape e.locations),
    List.compare_map Entity.locations]
  simp only [Entity.compare_idsShape]

/-- Tuples that compare equal have one trait, and their values alias each other in turn. -/
theorem compare_eq_iff {t u : Tuple} : compare t.shape u.shape = .eq ↔
    t.signature.name = u.signature.name ∧
      List.Forall₂ (fun a b => a.aliases b = true) t.values u.values := by
  rw [compare_shape_eq]
  simp only [Ordering.then_eq_eq, Std.LawfulEqOrd.compare_eq_iff_eq]
  refine and_congr_right fun _ => ⟨?_, fun h => ⟨?_, ?_⟩⟩
  · rintro ⟨hshapes, hplaces⟩
    -- shapes and places agree value by value, which is what aliasing asks for
    have hpairs := congrArg₂ List.zip hshapes hplaces
    rw [List.zip_map', List.zip_map'] at hpairs
    refine (List.forall₂_of_map_eq hpairs (fun _ _ => trivial) fun _ _ => trivial).imp fun a b h => ?_
    exact Entity.aliases_iff.2 (Prod.mk.inj h.2.2)
  · exact h.map_eq fun a b hab => (Entity.aliases_iff.1 hab).1
  · exact h.map_eq fun a b hab => (Entity.aliases_iff.1 hab).2

end Tuple

namespace Bindings

variable {b c : Bindings}

/-- Bindings are compared by their variables with the shapes of what these stand for, then by the
shapes of their results, then by the places of all of it. -/
theorem compare_shape_eq (b c : Bindings) : compare b.shape c.shape =
    (List.compareLex (fun x y => (compare x.1 y.1).then (compare x.2.shape y.2.shape))
      b.vars.toList c.vars.toList).then
      ((compare (b.result.map Entity.shape) (c.result.map Entity.shape)).then
        (compare (b.entities.map Entity.locations) (c.entities.map Entity.locations))) := by
  simp only [shape, Shape.compare_seq, Shape.compare_opt, List.compare_cons_cons,
    List.compare_nil_nil, Ordering.then_eq]
  rw [List.compare_map, List.compare_map (fun e : Entity => Entity.idsShape e.locations),
    List.compare_map Entity.locations]
  simp only [Entity.compare_idsShape, Shape.compare_seq, Shape.compare_text, List.compare_cons_cons,
    List.compare_nil_nil, Ordering.then_eq]

/-- Bindings with one view bind the same names. -/
theorem names_eq_of_view_eq (h : b.view = c.view) : b.names = c.names := by
  refine Catalog.map_key_eq fun n => ?_
  have hmem {d : Bindings} : Catalog.contains d.vars n = true ↔ (d.view n).isSome = true := by
    rw [view, Option.isSome_map, find?, Dict.find?, Option.isSome_map]
    rfl
  rw [hmem, hmem, h]

/-- Bindings of the same names whose values alias each other have one view. -/
theorem view_eq_of_names_eq (hnames : b.names = c.names)
    (h : ∀ n e e', b.find? n = some e → c.find? n = some e' → e.aliases e' = true) :
    b.view = c.view := by
  funext n
  have hmem {d : Bindings} : n ∈ d.names ↔ (d.find? n).isSome = true := Dict.isSome_find?_iff.symm
  have hbound : (b.find? n).isSome = true ↔ (c.find? n).isSome = true := by rw [← hmem, hnames, hmem]
  rw [view, view]
  cases hb : b.find? n with
  | none =>
    rw [hb, Option.isSome_none, Bool.false_eq_true, false_iff, Bool.not_eq_true,
      Option.isSome_eq_false_iff, Option.isNone_iff_eq_none] at hbound
    rw [hbound]
  | some e =>
    rw [hb] at hbound
    obtain ⟨e', hc⟩ := Option.isSome_iff_exists.1 (hbound.1 Option.isSome_some)
    rw [hc]
    exact congrArg some (of_decide_eq_true (h n e e' hb hc))

/-- Bindings that compare equal have the same variables, agree on them, and have results that agree or none.
-/
theorem compare_eq_iff : compare b.shape c.shape = .eq ↔
    b.names = c.names ∧ b.result.isSome = c.result.isSome ∧ b.Agree c := by
  rw [Std.LawfulEqOrd.compare_eq_iff_eq, shape_eq_iff]
  constructor
  -- The view gives the names and what they stand for, up to aliasing; the shapes of the results are
  -- compared apart from it.
  · rintro ⟨hview, hresult⟩
    refine ⟨names_eq_of_view_eq hview, ?_, fun n e e' he he' => ?_, fun e e' he he' => ?_⟩
    · rw [← Option.isSome_map, hresult, Option.isSome_map]
    · have heq := congrFun hview n
      rw [view_of_find? he, view_of_find? he'] at heq
      exact decide_eq_true (Option.some.inj heq)
    · rw [he, he'] at hresult
      exact decide_eq_true (Option.some.inj hresult)
  · rintro ⟨hnames, hresult, hagree⟩
    refine ⟨view_eq_of_names_eq hnames hagree.vars, ?_⟩
    cases hb : b.result <;> cases hc : c.result
    case some.some e e' => exact congrArg some (of_decide_eq_true (hagree.result e e' hb hc))
    case none.none => rfl
    all_goals
      rw [hb, hc] at hresult
      cases hresult

end Bindings

/-- The comparisons of entities, tuples and bindings go by what these are made of and then by places,
and are total preorders: they are turned round with their arguments (so nothing differs from itself)
and transitive. They cannot tell apart entities that are the same up to numbers and spans and have the
same places; tuples of one trait whose values alias each other in turn; and bindings of the same
variables, with a result both or neither, that agree on all of it. Roots and replacements do not count.
Entities without made nodes alias each other when they are identical. -/
theorem comparisons_preorder :
    ((Std.ReflCmp (compareOn Entity.located) ∧ Std.TransCmp (compareOn Entity.located)) ∧
      ∀ a b, compareOn Entity.located a b =
          (compare a.shape b.shape).then (compare a.locations b.locations) ∧
        (compareOn Entity.located a b = .eq ↔ a.bare = b.bare ∧ a.locations = b.locations) ∧
        (a.aliases b = true ↔ compareOn Entity.located a b = .eq)) ∧
    ((Std.ReflCmp (compareOn Tuple.shape) ∧ Std.TransCmp (compareOn Tuple.shape)) ∧
      ∀ t u root, (compareOn Tuple.shape t u = .eq ↔ t.signature.name = u.signature.name ∧
          List.Forall₂ (fun a b => a.aliases b = true) t.values u.values) ∧
        compareOn Tuple.shape (t.withRoot root) u = compareOn Tuple.shape t u) ∧
    ((Std.ReflCmp (compareOn Bindings.shape) ∧ Std.TransCmp (compareOn Bindings.shape)) ∧
      ∀ b c replacements, (compareOn Bindings.shape b c = .eq ↔
          b.names = c.names ∧ b.result.isSome = c.result.isSome ∧ b.Agree c) ∧
        compareOn Bindings.shape { b with replacements } c = compareOn Bindings.shape b c) ∧
    ∀ a b : Entity, (∀ n ∈ a.nodes, n.span.isSynthetic = false) →
      (∀ n ∈ b.nodes, n.span.isSynthetic = false) → a.aliases b = a.identical b := by
  refine ⟨⟨⟨inferInstance, inferInstance⟩, fun a b => ⟨a.compare_located b, ?_, ?_⟩⟩,
    ⟨⟨inferInstance, inferInstance⟩, fun t u root => ⟨Tuple.compare_eq_iff, rfl⟩⟩,
    ⟨⟨inferInstance, inferInstance⟩, fun b c replacements => ⟨Bindings.compare_eq_iff, rfl⟩⟩,
    fun a b => Entity.aliases_eq_identical⟩
  -- locations are compared where the shapes are equal
  · exact Entity.compare_located_eq_iff
  · rw [Entity.aliases, decide_eq_true_iff]
    exact Std.LawfulEqOrd.compare_eq_iff_eq.symm

namespace Twins

/-- A receiver as it was read at some place. -/
def receiver (id : UInt32) : Entity := .list [.node ⟨⟨id⟩, ⟨0, id, id + 4⟩, .this⟩]

/-- Receivers of one shape at two places neither alias each other nor are identical. -/
theorem comparisons_preorder_receivers :
    (receiver 1).sameShape (receiver 2) = true ∧
    (receiver 1).aliases (receiver 2) = (receiver 1).identical (receiver 2) ∧
    (receiver 1).identical (receiver 2) = false ∧
    compareOn Entity.located (receiver 1) (receiver 2) ≠ .eq := by
  obtain ⟨⟨_, hentities⟩, _, _, hread⟩ := comparisons_preorder
  have hplaces := hread (receiver 1) (receiver 2) (by decide) (by decide)
  have hdiffer : (receiver 1).identical (receiver 2) = false := rfl
  refine ⟨rfl, hplaces, hdiffer, fun heq => ?_⟩
  rw [(hentities _ _).2.2.2 heq, hdiffer] at hplaces
  cases hplaces

end Twins

end CodeRules
