import CodeRules.Goal.Solve
import CodeRules.Proofs.Code.Relabel
import CodeRules.Proofs.Order.Catalog

/-!
# Bindings with new numbers

Binding, merging and erasing compare entities by shape and place, so they do to entities with new
numbers and spans what they do to the entities themselves. The record of copies does not count and is
left out.
-/

namespace CodeRules

variable (ρ : Relabeling)

namespace Bindings

/-- What is bound, with new numbers and spans for the nodes. -/
def relabel (ρ : Relabeling) (b : Bindings) : Bindings where
  vars := Dict.mapValues (Entity.relabel ρ) b.vars
  result := b.result.map (Entity.relabel ρ)

/-! ### Single bindings -/

/-- A variable stands for what it stood for, with new numbers. -/
@[simp] theorem find?_relabel (b : Bindings) (name : String) :
    (b.relabel ρ).find? name = (b.find? name).map (Entity.relabel ρ) :=
  Dict.find?_mapValues _ b.vars name

/-- New numbers do not change how many variables are bound. -/
@[simp] theorem size_relabel (b : Bindings) : (b.relabel ρ).size = b.size :=
  Dict.size_mapValues _ b.vars

/-- Bindings are equal when all their parts are. -/
theorem ext {b b' : Bindings} (hvars : b.vars = b'.vars) (hresult : b.result = b'.result)
    (hreplacements : b.replacements = b'.replacements) : b = b' := by
  cases b
  cases b'
  simp only at hvars hresult hreplacements
  rw [hvars, hresult, hreplacements]

/-- A result gets new numbers like any entity. -/
@[simp] theorem relabel_ofResult (e : Entity) :
    (ofResult e).relabel ρ = ofResult (e.relabel ρ) := rfl

/-- Dropping the result can be done before or after. -/
@[simp] theorem relabel_withoutResult (b : Bindings) :
    b.withoutResult.relabel ρ = (b.relabel ρ).withoutResult := rfl

/-- With new numbers bindings are the same solution. -/
@[simp] theorem shape_relabel (b : Bindings) : (b.relabel ρ).shape = b.shape := by
  have hentities : (b.relabel ρ).entities = b.entities.map (Entity.relabel ρ) := by
    simp only [entities, relabel, Dict.values, Dict.mapValues, Catalog.toList_mapEntries,
      List.map_append, List.map_map]
    cases b.result <;> rfl
  simp only [shape, hentities, List.map_map]
  simp [relabel, Dict.mapValues, Function.comp_def]

/-- A variable can be bound with new numbers when it can be bound at all. -/
theorem relabel_bind? (b : Bindings) (name : String) (e : Entity) :
    (b.bind? name e).map (relabel ρ) = (b.relabel ρ).bind? name (e.relabel ρ) := by
  simp only [bind?, find?_relabel]
  split
  · rfl
  · cases b.find? name with
    -- a new variable: writing it commutes with renumbering all entities
    | none =>
      exact congrArg some (ext (Dict.mapValues_set _ b.vars name e) rfl rfl)
    -- an entity is there already, and whether the shapes agree does not depend on numbers
    | some old =>
      simp only [Option.map_some, Entity.sameShape_relabel]
      split <;> rfl

/-- Binding a variable can be done before or after renumbering. -/
theorem relabel_bind (b : Bindings) (name : String) (e : Entity) :
    (b.bind name e).relabel ρ = (b.relabel ρ).bind name (e.relabel ρ) := by
  rw [bind, bind, ← relabel_bind?]
  cases b.bind? name e <;> rfl

/-- Forgetting variables can be done before or after renumbering. -/
theorem relabel_erase (b : Bindings) (names : List String) :
    (b.erase names).relabel ρ = (b.relabel ρ).erase names :=
  ext (Dict.mapValues_filter _ b.vars fun name => !names.contains name) rfl rfl

/-! ### Merges -/

section

variable {agree : Entity → Entity → Bool}

/-- Adding one entry can be done before or after renumbering, if the test of agreement does not depend on
numbers. -/
private theorem mapValues_mergeVar? (hagree : ∀ e e', agree (e.relabel ρ) (e'.relabel ρ) = agree e e')
    (vars : NameMap Entity) (x : String × Entity) :
    (mergeVar? agree vars x).map (Dict.mapValues (Entity.relabel ρ)) =
      mergeVar? agree (Dict.mapValues (Entity.relabel ρ) vars) (x.1, x.2.relabel ρ) := by
  simp only [mergeVar?, Dict.find?_mapValues]
  cases vars.find? x.1 with
  | none => exact congrArg some (Dict.mapValues_set _ vars x.1 x.2)
  | some old =>
    simp only [Option.map_some, hagree]
    split <;> rfl

/-- A merge commutes with renumbering if its test of agreement does not depend on numbers. -/
private theorem relabel_mergeInto? (hagree : ∀ e e', agree (e.relabel ρ) (e'.relabel ρ) = agree e e')
    (b c : Bindings) : (mergeInto? agree b c).map (relabel ρ) =
      mergeInto? agree (b.relabel ρ) (c.relabel ρ) := by
  -- the variables, entry by entry; the first entry that does not agree ends both folds
  have hvars (l : List (String × Entity)) (vars : NameMap Entity) :
      (l.foldlM (mergeVar? agree) vars).map (Dict.mapValues (Entity.relabel ρ)) =
        (l.map fun x => (x.1, x.2.relabel ρ)).foldlM (mergeVar? agree)
          (Dict.mapValues (Entity.relabel ρ) vars) := by
    induction l generalizing vars with
    | nil => rfl
    | cons x l ih =>
      rw [List.foldlM_cons, List.map_cons, List.foldlM_cons, ← mapValues_mergeVar? ρ hagree]
      cases mergeVar? agree vars x with
      | none => rfl
      | some vars' => exact ih vars'
  have hresult : (mergeResult? agree b.result c.result).map (Option.map (Entity.relabel ρ)) =
      mergeResult? agree (b.relabel ρ).result (c.relabel ρ).result := by
    simp only [relabel]
    cases b.result with
    | none => rfl
    | some old =>
      cases c.result with
      | none => rfl
      | some new =>
        simp only [mergeResult?, Option.map_some, hagree]
        split <;> rfl
  simp only [mergeInto?]
  rw [← hresult, show (c.relabel ρ).vars.toList =
    c.vars.toList.map (fun x => (x.1, x.2.relabel ρ)) from rfl,
    show (b.relabel ρ).vars = Dict.mapValues (Entity.relabel ρ) b.vars from rfl, ← hvars]
  cases c.vars.toList.foldlM (mergeVar? agree) b.vars with
  | none => rfl
  | some vars => cases mergeResult? agree b.result c.result <;> rfl

/-- Which side is merged into the other does not depend on numbers. -/
private theorem relabel_mergeWith? (hagree : ∀ e e', agree (e.relabel ρ) (e'.relabel ρ) = agree e e')
    (b c : Bindings) : (mergeWith? agree b c).map (relabel ρ) =
      mergeWith? agree (b.relabel ρ) (c.relabel ρ) := by
  simp only [mergeWith?, size_relabel]
  split
  · exact relabel_mergeInto? ρ hagree b c
  · exact relabel_mergeInto? ρ hagree c b

end

/-- Bindings can be merged consistently before or after renumbering. -/
theorem relabel_consistentMerge? (b c : Bindings) :
    (b.consistentMerge? c).map (relabel ρ) = (b.relabel ρ).consistentMerge? (c.relabel ρ) :=
  relabel_mergeWith? ρ (Entity.aliases_relabel ρ) b c

/-- Bindings can be unified before or after renumbering. -/
theorem relabel_unifyMerge? (b c : Bindings) :
    (b.unifyMerge? c).map (relabel ρ) = (b.relabel ρ).unifyMerge? (c.relabel ρ) :=
  relabel_mergeWith? ρ (Entity.sameShape_relabel ρ) b c

/-- A part can be joined before or after renumbering, or is missing in both. -/
theorem relabel_joinPart (b : Bindings) (part : Option Bindings) :
    (b.joinPart part).map (relabel ρ) = (b.relabel ρ).joinPart (part.map (relabel ρ)) := by
  cases part with
  | none => rfl
  | some p => exact relabel_unifyMerge? ρ b p.withoutResult

end Bindings

/-! ### Sets of solutions -/

namespace Solutions

/-- The solutions with new numbers and spans for the nodes. -/
def relabel (ρ : Relabeling) (s : Solutions) : Solutions :=
  Catalog.mapEntries (Bindings.relabel ρ) (Bindings.shape_relabel ρ) s

/-- There are as many solutions with new numbers. -/
@[simp] theorem isEmpty_relabel (s : Solutions) : (s.relabel ρ).isEmpty = s.isEmpty :=
  Catalog.isEmpty_mapEntries s

/-- A union can be taken before or after renumbering. -/
theorem relabel_union (s t : Solutions) :
    relabel ρ (Catalog.union s t) = (s.relabel ρ).union (t.relabel ρ) :=
  Catalog.mapEntries_union s t

/-- A solution can be added before or after renumbering. -/
theorem relabel_insert (s : Solutions) (b : Bindings) :
    relabel ρ (Catalog.insert s b) = Catalog.insert (s.relabel ρ) (b.relabel ρ) :=
  Catalog.mapEntries_insert s b

/-- Renumbering keeps the first of equal solutions. -/
theorem relabel_ofListFirst (l : List Bindings) :
    relabel ρ (Catalog.ofListFirst l) = Catalog.ofListFirst (l.map (Bindings.relabel ρ)) :=
  Catalog.mapEntries_ofListFirst l

/-- A test gives the bindings that pass it with new numbers. -/
theorem relabel_test (holds : Bool) (b : Bindings) :
    (test holds b).relabel ρ = test holds (b.relabel ρ) := by
  unfold test
  split <;> rfl

/-- What may be missing is missing with new numbers too. -/
theorem relabel_ofOption (b : Option Bindings) :
    (ofOption b).relabel ρ = ofOption (b.map (Bindings.relabel ρ)) := by
  cases b <;> rfl

/-! What is the same with new numbers gives solutions that are. -/

variable {ρ} {s t : Solutions} {b c : Bindings}

/-- Solutions that are the same with new numbers are both empty or both not. -/
theorem isEmpty_eq_of_relabel (h : s.relabel ρ = t.relabel ρ) : s.isEmpty = t.isEmpty := by
  rw [← s.isEmpty_relabel ρ, h, t.isEmpty_relabel]

/-- Tests that agree give the same with new numbers. -/
theorem relabel_test_eq {p q : Bool} (hpq : p = q) (hb : b.relabel ρ = c.relabel ρ) :
    (test p b).relabel ρ = (test q c).relabel ρ := by
  rw [relabel_test, relabel_test, hpq, hb]

/-- Options that are the same with new numbers give the same solutions. -/
theorem relabel_ofOption_eq {o o' : Option Bindings}
    (h : o.map (Bindings.relabel ρ) = o'.map (Bindings.relabel ρ)) :
    (ofOption o).relabel ρ = (ofOption o').relabel ρ := by
  rw [relabel_ofOption, relabel_ofOption, h]

/-- Bindings that are the same with new numbers are the same as single solutions. -/
theorem relabel_singleton_eq (hb : b.relabel ρ = c.relabel ρ) :
    relabel ρ (Catalog.singleton b) = relabel ρ (Catalog.singleton c) :=
  relabel_test_eq (p := true) rfl hb

end Solutions

end CodeRules
