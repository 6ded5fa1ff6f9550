import CodeRules.Proofs.Effect
import CodeRules.Proofs.Order.Catalog
import CodeRules.Relation.Tuple

/-!
# Tuples

What the ways of making a tuple promise, and the names of its values.
-/

namespace CodeRules

namespace Tuple

/-- Two tuples with the same signature, values and root are equal. -/
theorem ext' {t u : Tuple} (hs : t.signature = u.signature) (hv : t.values = u.values)
    (hr : t.root = u.root) : t = u := by
  cases t
  cases u
  simp only at hs hv hr
  subst hs hv hr
  rfl

/-- Tuples are made of as many values as there are parameters, and their root follows from the values. -/
theorem ofValues_eq_ok {s : Signature} {values : List Entity} {t : Tuple} :
    ofValues s values = .ok t ↔
      t.signature = s ∧ t.values = values ∧ t.root = rootOf values := by
  unfold ofValues
  split
  · constructor
    · intro h
      rw [← Except.ok.inj h]
      exact ⟨rfl, rfl, rfl⟩
    · rintro ⟨hs, hv, hr⟩
      exact congrArg Except.ok (ext' hs.symm hv.symm hr.symm)
  · rename_i hlen
    constructor
    · intro h
      cases h
    · rintro ⟨rfl, rfl, _⟩
      exact absurd t.complete hlen

/-- All names are found, or the first that is not is told. -/
private theorem mapM_find?_eq_ok {trait : String} {names : List String}
    {find? : String → Option Entity} {values : List Entity} :
    names.mapM (fun name =>
      match find? name with
      | some e => Except.ok e
      | none => Except.error (TupleError.missing trait name)) = .ok values ↔
        names.map find? = values.map some := by
  rw [Except.mapM_eq_ok, ← List.forall₂_eq_eq_eq, List.forall₂_map_left_iff,
    List.forall₂_map_right_iff]
  refine Iff.of_eq (congrArg (List.Forall₂ · names values) ?_)
  funext name e
  cases find? name <;> simp

/-- The values of a tuple are found under the names of the parameters. -/
theorem ofLookup_eq_ok {s : Signature} {find? : String → Option Entity} {t : Tuple} :
    ofLookup s find? = .ok t ↔ t.signature = s ∧ s.paramNames.map find? = t.values.map some ∧
      t.root = rootOf t.values := by
  simp only [ofLookup, Except.bind_eq_ok, ofValues_eq_ok]
  constructor
  · rintro ⟨values, h, rfl, rfl, hr⟩
    exact ⟨rfl, mapM_find?_eq_ok.1 h, hr⟩
  · rintro ⟨rfl, h, hr⟩
    exact ⟨t.values, mapM_find?_eq_ok.2 h, rfl, rfl, hr⟩

/-- Each value is named after a parameter. -/
theorem mem_paramNames_of_mem_byName {t : Tuple} {entry : String × Entity}
    (h : entry ∈ t.byName.toList) : entry.1 ∈ t.signature.paramNames :=
  (List.of_mem_zip (Catalog.mem_of_mem_ofListLast h)).1

end Tuple

end CodeRules
