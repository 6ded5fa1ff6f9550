import CodeRules.Proofs.Binding.Unify

/-!
# Outlines of bindings

The outline of bindings is what their variables stand for, by shape. Whether bindings unify depends on
their outlines only (`Bindings.unifies_iff`), and united bindings have the outlines of their parts
(`Bindings.Unites.outline_eq_some_iff`). Places and results play no part, so bindings that were found
in different ways can be compared.
-/

namespace CodeRules

namespace Bindings

variable {b c : Bindings} {parts : List Bindings} {n name : String} {e : Entity} {k : Shape}

/-- What variables stand for, by shape. -/
def outline (b : Bindings) (n : String) : Option Shape := (b.find? n).map Entity.shape

/-- An outline tells the shape of what a variable stands for. -/
theorem outline_eq_some_iff : b.outline n = some k ↔ ∃ e, b.find? n = some e ∧ e.shape = k :=
  Option.map_eq_some_iff

/-- A variable with an entity has its shape in the outline. -/
theorem outline_of_find? (h : b.find? n = some e) : b.outline n = some e.shape :=
  outline_eq_some_iff.2 ⟨e, h, rfl⟩

/-- The variables with an outline are those that are bound. -/
theorem binds_iff_outline : b.binds n = true ↔ ∃ k, b.outline n = some k := by
  rw [binds, ← Option.isSome_iff_exists, outline, Option.isSome_map]

/-- A variable without an outline is not bound. -/
theorem outline_eq_none_iff : b.outline n = none ↔ ¬ b.binds n = true := by
  rw [binds_iff_outline, ← Option.isSome_iff_exists, Option.not_isSome_iff_eq_none]

/-- Binding a new variable adds the shape of its entity. -/
theorem outline_bind (hname : name ≠ wildcard) (h : b.find? name = none) (e : Entity) (n : String) :
    (b.bind name e).outline n = if n = name then some e.shape else b.outline n := by
  split
  · rename_i hn
    rw [hn]
    exact outline_of_find? (find?_bind_self hname h e)
  · rename_i hn
    rw [outline, find?_bind_of_ne hn, outline]

/-- Bindings unify when their outlines agree on the variables of both. -/
theorem unifies_iff : b.Unifies c ↔
    ∀ n k k', b.outline n = some k → c.outline n = some k' → k = k' := by
  constructor
  · intro h n k k' hk hk'
    obtain ⟨e, he, rfl⟩ := outline_eq_some_iff.1 hk
    obtain ⟨e', he', rfl⟩ := outline_eq_some_iff.1 hk'
    exact h n e e' he he'
  · intro h n e e' he he'
    exact h n _ _ (outline_of_find? he) (outline_of_find? he')

/-- What covers bindings has the outline of all that they bind. -/
theorem Covers.outline (h : c.Covers b) (hk : b.outline n = some k) : c.outline n = some k := by
  obtain ⟨e, he, rfl⟩ := outline_eq_some_iff.1 hk
  exact outline_eq_some_iff.2 (h n e he)

/-- In united bindings a variable stands for what it stands for in one of the parts. -/
theorem Unites.outline_eq_some_iff (h : c.Unites parts) :
    c.outline n = some k ↔ ∃ p ∈ parts, p.outline n = some k := by
  constructor
  · intro hk
    obtain ⟨e, he, rfl⟩ := Bindings.outline_eq_some_iff.1 hk
    obtain ⟨p, hp, he⟩ := h.origin n e he
    exact ⟨p, hp, outline_of_find? he⟩
  · rintro ⟨p, hp, hk⟩
    exact (h.covers p hp).outline hk

/-- United bindings bind what one of the parts binds. -/
theorem Unites.binds_iff (h : c.Unites parts) :
    c.binds n = true ↔ ∃ p ∈ parts, p.binds n = true := by
  simp only [binds_iff_outline, h.outline_eq_some_iff]
  exact ⟨fun ⟨k, p, hp, hk⟩ => ⟨p, hp, k, hk⟩, fun ⟨p, hp, k, hk⟩ => ⟨k, p, hp, hk⟩⟩

end Bindings

end CodeRules
