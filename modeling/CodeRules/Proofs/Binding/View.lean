import CodeRules.Proofs.Binding.Normal

/-!
# Bindings up to aliasing

The view of bindings is what their variables stand for, where entities that alias each other count as
one. Bindings without a result are equal exactly when their views are (`Bindings.shape_eq_iff`).
Merging bindings joins their views: it fails exactly when the views disagree about a name
(`Bindings.joins_of_consistentMerge?`, `Bindings.exists_consistentMerge?`), so the laws of merging are
those of `View.Joins`.
-/

namespace CodeRules

/-- What names stand for, up to aliasing. -/
abbrev View := String → Option Shape

namespace View

/-- The view of no bindings. -/
def none : View := fun _ => .none

/-- The view of a single variable. -/
def single (name : String) (k : Shape) : View := fun n => if n = name then some k else .none

/-- The view without some names. -/
def hide (u : View) (names : List String) : View := fun n => if n ∈ names then .none else u n

/-- The first two views agree on the names of both, and the third has the names of either. -/
structure Joins (u v w : View) : Prop where
  agree : ∀ n k k', u n = some k → v n = some k' → k = k'
  eq : ∀ n, w n = (u n).or (v n)

variable {u v w x y z : View}

namespace Joins

/-- The view of no bindings joins any view to itself. -/
theorem none_left (u : View) : Joins none u u where
  agree _ k _ hk _ := absurd hk (Option.some_ne_none k).symm
  eq _ := rfl

/-- What two views join to is determined name by name. -/
theorem unique (h : Joins u v w) (h' : Joins u v x) : w = x :=
  funext fun n => (h.eq n).trans (h'.eq n).symm

/-- The order of two views does not matter, since they agree where both have something. -/
theorem comm (h : Joins u v w) : Joins v u w where
  agree n k k' hk hk' := (h.agree n k' k hk' hk).symm
  eq n := by
    rw [h.eq]
    cases hu : u n with
    | none => rw [Option.none_or, Option.or_none]
    | some k =>
      cases hv : v n with
      | none => rfl
      | some k' => rw [h.agree n k k' hu hv, Option.some_or]

/-- What the first view has, the join has. -/
theorem of_left (h : Joins u v w) {n : String} {k : Shape} (hk : u n = some k) : w n = some k := by
  rw [h.eq, hk, Option.some_or]

/-- What the second view has, the join has, since it agrees with the first. -/
theorem of_right (h : Joins u v w) {n : String} {k : Shape} (hk : v n = some k) : w n = some k :=
  h.comm.of_left hk

/-- A name of the join comes from one of the two views. -/
theorem eq_some_iff (h : Joins u v w) {n : String} {k : Shape} :
    w n = some k ↔ u n = some k ∨ v n = some k := by
  refine ⟨fun hk => ?_, fun hk => hk.elim h.of_left h.of_right⟩
  rw [h.eq, Option.or_eq_some_iff] at hk
  exact hk.imp_right And.right

/-- A variable that stands for an entity already can be joined. -/
theorem of_single {n : String} {k : Shape} (hk : u n = some k) : Joins u (single n k) u where
  agree m l l' hl hl' := by
    unfold single at hl'
    split at hl'
    · rename_i heq
      rw [heq, hk] at hl
      exact Option.some.inj (hl.symm.trans hl')
    · cases hl'
  eq m := by
    rw [single]
    split
    · rename_i heq
      rw [heq, hk, Option.some_or]
    · rw [Option.or_none]

/-- Views that agree have a join. -/
theorem exists_of_agree (h : ∀ n k k', u n = some k → v n = some k' → k = k') :
    ∃ w, Joins u v w := ⟨fun n => (u n).or (v n), h, fun _ => rfl⟩

/-- Joining three views from the left can be done from the right. -/
theorem assoc (h : Joins u v x) (h' : Joins x w z) : ∃ y, Joins v w y ∧ Joins u y z := by
  -- `v` and `w` agree because `x` has all of `v`
  obtain ⟨y, hy⟩ := exists_of_agree fun n k k' hk hk' => h'.agree n k k' (h.of_right hk) hk'
  refine ⟨y, hy, fun n k k' hk hk' => ?_, fun n => ?_⟩
  -- `u` agrees with what comes from `v` by the first join, with what comes from `w` by the second
  · rcases hy.eq_some_iff.1 hk' with hk' | hk'
    · exact h.agree n k k' hk hk'
    · exact h'.agree n k k' (h.of_left hk) hk'
  · rw [h'.eq, h.eq, hy.eq, Option.or_assoc]

/-- Joining three views from the right can be done from the left. -/
theorem assoc' (h : Joins v w y) (h' : Joins u y z) : ∃ x, Joins u v x ∧ Joins x w z := by
  obtain ⟨x, hx, hz⟩ := h.comm.assoc h'.comm
  exact ⟨x, hx.comm, hz.comm⟩

end Joins

end View

namespace Bindings

variable {b c d : Bindings}

/-- What the variables stand for, up to aliasing. -/
def view (b : Bindings) : View := fun n => (b.find? n).map Entity.located

/-- The empty bindings have the empty view. -/
@[simp] theorem view_empty : Bindings.empty.view = View.none := rfl

/-- A view tells where and what the entity of a variable is. -/
theorem view_eq_some_iff {n : String} {k : Shape} :
    b.view n = some k ↔ ∃ e, b.find? n = some e ∧ e.located = k := Option.map_eq_some_iff

/-- A variable with an entity has it in the view. -/
theorem view_of_find? {n : String} {e : Entity} (h : b.find? n = some e) :
    b.view n = some e.located := by rw [view, h, Option.map_some]

/-- A variable without an entity is not in the view. -/
theorem view_eq_none_iff {n : String} : b.view n = none ↔ b.find? n = none :=
  Option.map_eq_none_iff

/-- Binding a variable leaves the result alone. -/
theorem result_bind (b : Bindings) (name : String) (e : Entity) : (b.bind name e).result = b.result := by
  rw [bind]
  cases h : b.bind? name e with
  | none => rfl
  | some c => exact result_of_bind? h

/-- Binding a variable that has no entity joins it to the view. -/
theorem joins_bind {name : String} (hname : name ≠ wildcard) (h : b.find? name = none) (e : Entity) :
    View.Joins b.view (.single name e.located) (b.bind name e).view where
  agree n k k' hk hk' := by
    unfold View.single at hk'
    split at hk'
    · rename_i heq
      rw [heq, view, h] at hk
      cases hk
    · cases hk'
  eq n := by
    rw [View.single]
    split
    · rename_i heq
      rw [heq, view, view, find?_bind_self hname h, h]
      rfl
    · rename_i hne
      rw [view, view, find?_bind_of_ne hne, Option.or_none]

/-- Forgetting variables hides them. -/
theorem view_erase (b : Bindings) (names : List String) : (b.erase names).view = b.view.hide names := by
  funext n
  rw [View.hide]
  have hmem : (names.contains n) = true ↔ n ∈ names := List.contains_iff_mem
  unfold view find? erase
  split
  -- a forgotten name is the key of no entry that is kept
  · rename_i hn
    rw [Option.map_eq_none_iff, Dict.find?_eq_none_iff]
    intro hkey
    obtain ⟨x, hx, rfl⟩ := List.mem_map.1 hkey
    have hkeep := (Catalog.mem_filter.1 hx).2
    rw [hmem.2 hn] at hkeep
    cases hkeep
  · rename_i hn
    congr 1
    refine Option.ext fun e => ?_
    rw [Dict.find?_eq_some_iff, Dict.find?_eq_some_iff, Catalog.mem_filter]
    simp [hn]

/-! ### Equality -/

/-- The variables with what they stand for, up to aliasing. -/
private def places (b : Bindings) : NameMap Shape where
  toList := b.vars.toList.map fun x => (x.1, x.2.located)
  increasing := List.pairwise_map.2 b.vars.increasing

/-- The sorted list of places is the view. -/
private theorem find?_places (b : Bindings) (n : String) : b.places.find? n = b.view n := by
  refine Option.ext fun k => ?_
  rw [Dict.find?_eq_some_iff, view_eq_some_iff]
  refine List.mem_map.trans ⟨?_, ?_⟩
  · rintro ⟨x, hx, heq⟩
    obtain ⟨rfl, rfl⟩ := Prod.mk.inj heq
    exact ⟨x.2, Dict.find?_eq_some_iff.2 hx, rfl⟩
  · rintro ⟨e, he, rfl⟩
    exact ⟨(n, e), Dict.find?_eq_some_iff.1 he, rfl⟩

/-- Entities that are located alike have one shape and one place. -/
private theorem located_injective {e e' : Entity} : e.located = e'.located ↔
    e.shape = e'.shape ∧ Entity.idsShape e.locations = Entity.idsShape e'.locations := by
  simp [Entity.located]

/-- Bindings are equal when they have one view and their results alias each other. -/
theorem shape_eq_iff : b.shape = c.shape ↔
    b.view = c.view ∧ b.result.map Entity.located = c.result.map Entity.located := by
  -- views of sorted lists are equal when the lists are
  have hview : b.view = c.view ↔ b.places.toList = c.places.toList := by
    refine ⟨fun h => congrArg Catalog.toList (Dict.ext_find? fun n => ?_), fun h => funext fun n => ?_⟩
    · rw [find?_places, find?_places, h]
    · rw [← find?_places, ← find?_places, Catalog.ext h]
  rw [hview]
  simp only [shape, Shape.seq.injEq, List.cons.injEq, and_true, Shape.opt_injective, entities,
    Dict.values, List.map_append, List.map_map]
  constructor
  -- from the shapes: names, shapes and places agree position by position
  · rintro ⟨hvars, hresult, hplaces⟩
    have hlen : b.vars.toList.length = c.vars.toList.length := by
      simpa using congrArg List.length hvars
    obtain ⟨hvarPlaces, hresultPlaces⟩ := List.append_inj hplaces (by simpa using hlen)
    have hpairs := congrArg₂ List.zip hvars hvarPlaces
    rw [List.zip_map', List.zip_map'] at hpairs
    refine ⟨(List.forall₂_of_map_eq hpairs (fun _ _ => trivial) fun _ _ => trivial).map_eq
      fun x y h => ?_, ?_⟩
    · simp only [Prod.mk.injEq, Shape.seq.injEq, List.cons.injEq, Shape.text.injEq, and_true,
        Function.comp_apply] at h
      rw [h.2.2.1.1, located_injective.2 ⟨h.2.2.1.2, h.2.2.2⟩]
    · revert hresult hresultPlaces
      cases b.result <;> cases c.result <;> simp +contextual [Entity.located]
  -- and back: entries that agree in name, shape and place give all three lists of the shape
  · rintro ⟨hplaces, hresult⟩
    have hmatch := List.forall₂_of_map_eq (P := fun _ => True) (Q := fun _ => True) hplaces
      (fun _ _ => trivial) fun _ _ => trivial
    simp only [Prod.mk.injEq, located_injective] at hmatch
    refine ⟨hmatch.map_eq fun x y h => ?_, ?_, congrArg₂ (· ++ ·) (hmatch.map_eq fun x y h => ?_) ?_⟩
    · rw [h.2.2.1, h.2.2.2.1]
    · revert hresult
      cases b.result <;> cases c.result <;> simp +contextual [Entity.located]
    · exact h.2.2.2.2
    · revert hresult
      cases b.result <;> cases c.result <;> simp +contextual [Entity.located]

/-! ### Merges -/

/-- Entities that alias each other are located alike. -/
private theorem located_eq {e e' : Entity} (h : e.aliases e' = true) : e.located = e'.located :=
  of_decide_eq_true h

/-- Merging into others joins the views. -/
private theorem view_joins_of_mergeInto? (h : mergeInto? Entity.aliases b c = some d) :
    View.Joins b.view c.view d.view where
  agree n k k' hk hk' := by
    obtain ⟨e, he, rfl⟩ := view_eq_some_iff.1 hk
    obtain ⟨e', he', rfl⟩ := view_eq_some_iff.1 hk'
    exact located_eq (agree_of_mergeInto? h he he')
  eq n := by
    rw [view, find?_of_mergeInto? h, view, view]
    cases b.find? n <;> rfl

/-- Merging bindings joins their views. -/
theorem joins_of_consistentMerge? (h : b.consistentMerge? c = some d) :
    View.Joins b.view c.view d.view := by
  unfold consistentMerge? mergeWith? at h
  split at h
  · exact view_joins_of_mergeInto? h
  · exact (view_joins_of_mergeInto? h).comm

/-- Bindings without results are merged to such bindings. -/
theorem result_of_consistentMerge? (h : b.consistentMerge? c = some d) (hb : b.result = none)
    (hc : c.result = none) : d.result = none := by
  unfold consistentMerge? mergeWith? at h
  split at h
  · rw [(result_of_mergeInto? h).1, hb, hc, Option.none_or]
  · rw [(result_of_mergeInto? h).1, hb, hc, Option.none_or]

/-- Bindings without results can be merged when their views agree. -/
theorem exists_consistentMerge? (hb : b.result = none) (hc : c.result = none)
    (h : ∀ n k k', b.view n = some k → c.view n = some k' → k = k') :
    ∃ d, b.consistentMerge? c = some d := by
  -- the views tell when two entities alias each other
  have hvars {n : String} {e e' : Entity} (he : b.find? n = some e) (he' : c.find? n = some e') :
      e.located = e'.located := h n _ _ (view_of_find? he) (view_of_find? he')
  unfold consistentMerge? mergeWith?
  split
  · refine exists_mergeInto? (fun n e e' he he' => decide_eq_true (hvars he he')) fun e e' he => ?_
    rw [hb] at he
    cases he
  · refine exists_mergeInto? (fun n e e' he he' => decide_eq_true (hvars he' he).symm)
      fun e e' he => ?_
    rw [hc] at he
    cases he

end Bindings

end CodeRules
