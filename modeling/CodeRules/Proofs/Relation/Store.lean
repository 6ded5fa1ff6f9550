import CodeRules.Proofs.Order.Catalog
import CodeRules.Relation.Store

/-!
# Stores

Look-ups in stores after each way of changing them. A store is `Named` when every relation stands
under its own name, and nothing that is done to a store spoils this.
-/

namespace CodeRules

namespace Relation

/-- Tuples are added to a relation without changing its signature. -/
@[simp] theorem signature_insert (r : Relation) (t : Tuple) :
    (r.insert t).signature = r.signature := rfl

/-- Adding tuples in turn does not change the signature either. -/
theorem signature_foldl_insert (ts : List Tuple) (r : Relation) :
    (ts.foldl Relation.insert r).signature = r.signature := by
  induction ts generalizing r with
  | nil => rfl
  | cons t ts ih => rw [List.foldl_cons, ih, signature_insert]

end Relation

namespace Store

variable {s : Store}

/-- Every relation stands under its own name. -/
def Named (s : Store) : Prop := ∀ name r, s.find? name = some r → r.name = name

/-- Nothing stands in the empty store. -/
theorem named_empty : Named ∅ := by
  intro name r h
  cases h

/-- A relation that is registered stands under its name, unless one stood there before. -/
theorem find?_register (s : Store) (r : Relation) (name : String) :
    (s.register r).find? name =
      if name = r.name then some ((s.find? r.name).getD r) else s.find? name :=
  Dict.find?_insert s r.name name r

/-- A relation may be put under its own name. -/
theorem Named.set (h : s.Named) {name : String} {r : Relation} (hr : r.name = name) :
    Named (Dict.set s name r) := by
  intro n r' hr'
  rw [Dict.find?_set] at hr'
  split at hr'
  · rename_i e
    exact Option.some.inj hr' ▸ e ▸ hr
  · exact h n r' hr'

/-- Putting a relation under its own name. -/
theorem Named.put (h : s.Named) (r : Relation) : (s.put r).Named := h.set rfl

/-- Seeding adds the tuples to the relation of the signature, which is made if there is none. -/
theorem find?_seed (s : Store) (signature : Signature) (tuples : List Tuple) (name : String) :
    (s.seed signature tuples).find? name =
      if name = signature.name then
        some (tuples.foldl Relation.insert
          ((s.find? signature.name).getD { signature, isStatic := true }))
      else s.find? name := by
  rw [seed, Dict.update, Dict.find?_set]

/-- Seeding puts a relation under the name of its signature. -/
theorem Named.seed (h : s.Named) (signature : Signature) (tuples : List Tuple) :
    (s.seed signature tuples).Named := by
  refine h.set ?_
  rw [Relation.name, Relation.signature_foldl_insert]
  -- The relation has the signature, or is the old one, which stands under its own name.
  cases hs : s.find? signature.name with
  | none => rfl
  | some old => exact h _ old hs

end Store

end CodeRules
