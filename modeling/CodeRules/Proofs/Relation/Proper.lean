import CodeRules.Proofs.Relation.Tuple
import CodeRules.Relation.Store

/-!
# Proper relations

A relation is proper when its parameters have different names and every tuple in it is one for its
signature, with entities of the right kinds. Then a tuple gives entities to exactly the parameters, and
each of these is what the type of its parameter takes (`Tuple.IsOf.isSome_get?`,
`Tuple.IsOf.accepts_get?`).
-/

namespace CodeRules

/-- A tuple for a signature, with an entity of the right kind for every parameter. -/
structure Tuple.IsOf (types : TypeOracle) (s : Signature) (u : Tuple) : Prop where
  signature : u.signature = s
  accepts : ∀ x ∈ s.params.zip u.values, x.1.type.accepts types x.2 = true

/-- The tuples are for the signature of the relation. -/
def Relation.Signed (r : Relation) : Prop := ∀ u ∈ r.tuples.toList, u.signature = r.signature

/-- The parameters have different names, and the tuples are of the signature. -/
structure Relation.Proper (types : TypeOracle) (r : Relation) : Prop where
  nodup : r.signature.paramNames.Nodup
  tuples : ∀ u ∈ r.tuples.toList, u.IsOf types r.signature

namespace Tuple

variable {types : TypeOracle} {s : Signature} {u : Tuple}

/-- The entries of a tuple are named after the parameters, one each. -/
private theorem keys_entries (u : Tuple) : u.entries.map Prod.fst = u.signature.paramNames := by
  refine List.map_fst_zip (le_of_eq ?_)
  rw [Signature.paramNames, List.length_map, u.complete, Signature.arity]

/-- When the parameters have different names, each value is found under its own. -/
theorem get?_eq_some_iff (h : u.signature.paramNames.Nodup) {n : String} {e : Entity} :
    u.get? n = some e ↔ (n, e) ∈ u.entries := by
  rw [get?, Dict.find?_eq_some_iff]
  refine ⟨fun hmem => Catalog.mem_of_mem_ofListLast hmem, fun hmem => ?_⟩
  -- Entries with one name are one entry, as the names are different.
  have hunique : ∀ x ∈ u.entries, x.1 = n → x = (n, e) := fun x hx hn =>
    List.inj_on_of_nodup_map (keys_entries u ▸ h) hx hmem hn
  exact (Catalog.get?_eq_some_iff.1 (Catalog.get?_ofListLast hmem hunique)).1

namespace IsOf

variable (h : u.IsOf types s) (hs : s.paramNames.Nodup)
include h

/-- Exactly the parameters have values. -/
theorem isSome_get? (n : String) : (u.get? n).isSome = true ↔ n ∈ s.paramNames := by
  rw [get?, Dict.isSome_find?_iff, ← h.signature, ← keys_entries, Dict.keys]
  simp only [List.mem_map]
  constructor
  · rintro ⟨x, hx, rfl⟩
    exact ⟨x, Catalog.mem_of_mem_ofListLast hx, rfl⟩
  · rintro ⟨x, hx, rfl⟩
    exact Catalog.contains_iff.1 (Catalog.contains_ofListLast.2 ⟨x, hx, rfl⟩)

include hs

/-- The value of a parameter is one that its type takes. -/
theorem accepts_get? {p : Param} (hp : p ∈ s.params) {e : Entity} (he : u.get? p.name = some e) :
    p.type.accepts types e = true := by
  rw [get?_eq_some_iff (h.signature ▸ hs), entries, h.signature, Signature.paramNames,
    List.zip_map_left, List.mem_map] at he
  obtain ⟨x, hx, heq⟩ := he
  obtain ⟨hname, rfl⟩ := Prod.mk.inj heq
  -- the parameter of the entry has the name of `p`, so it is `p`
  obtain rfl := List.inj_on_of_nodup_map hs (List.of_mem_zip hx).1 hp hname
  exact h.accepts x hx

end IsOf

end Tuple

namespace Relation.Signed

variable {r : Relation}

/-- A relation without tuples. -/
theorem of_empty (hempty : r.tuples = ∅) : r.Signed := fun u hu => by
  rw [hempty] at hu
  cases hu

/-- A tuple for the signature may be added. -/
theorem insert (h : r.Signed) {u : Tuple} (hu : u.signature = r.signature) : (r.insert u).Signed :=
  fun v hv => (Catalog.mem_of_mem_insert hv).elim (fun heq => heq ▸ hu) (h v)

/-- Tuples for the signature may be added. -/
theorem foldl_insert (h : r.Signed) {us : List Tuple} (hus : ∀ u ∈ us, u.signature = r.signature) :
    (us.foldl Relation.insert r).Signed := by
  induction us generalizing r with
  | nil => exact h
  | cons u us ih =>
    exact ih (h.insert (hus u (List.mem_cons_self ..))) fun v hv => hus v (List.mem_cons_of_mem _ hv)

end Relation.Signed

namespace Relation.Proper

variable {types : TypeOracle} {r : Relation}

/-- A relation without tuples whose parameters have different names. -/
theorem of_empty (hnodup : r.signature.paramNames.Nodup) (hempty : r.tuples = ∅) : r.Proper types where
  nodup := hnodup
  tuples u hu := by
    rw [hempty] at hu
    cases hu

/-- The tuples of a proper relation are for its signature. -/
theorem signed (h : r.Proper types) : r.Signed := fun u hu => (h.tuples u hu).signature

/-- A tuple for the signature with entities of the right kinds may be added. -/
theorem insert (h : r.Proper types) {u : Tuple} (hu : u.IsOf types r.signature) :
    (r.insert u).Proper types where
  nodup := h.nodup
  tuples v hv := (Catalog.mem_of_mem_insert hv).elim (fun heq => heq ▸ hu) (h.tuples v)

end Relation.Proper

end CodeRules
