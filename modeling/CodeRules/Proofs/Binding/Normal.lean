import CodeRules.Proofs.Binding.Bindings
import CodeRules.Proofs.Binding.Relabel
import CodeRules.Proofs.Code.Normal

/-!
# Normal forms of bindings

The normal form of bindings has the normal forms of all that is bound, and no record of copies.
Binding, merging and erasing give the same on normal forms as on the bindings themselves, because
they compare entities by shape and place. Bindings of uniform entities that count as the same
solution have one normal form (`Bindings.normal_eq_normal`).
-/

namespace CodeRules

namespace Entity

/-- Entities of one shape are at the same places when their places have one shape. -/
theorem locations_eq_of_idsShape {e e' : Entity} (hshape : e.shape = e'.shape)
    (h : idsShape e.locations = idsShape e'.locations) : e.locations = e'.locations := by
  have halias : e.aliases e' = true := by
    rw [aliases, located, located, hshape, h]
    exact decide_eq_true rfl
  exact (aliases_iff.1 halias).2

end Entity

namespace Bindings

/-- The normal forms of all that is bound. -/
def normal (base : UInt32) (b : Bindings) : Bindings where
  vars := Dict.mapValues (Entity.normal base) b.vars
  result := b.result.map (Entity.normal base)

/-- All that is bound is uniform. -/
structure Uniform (base : UInt32) (b : Bindings) : Prop where
  vars : ∀ name e, b.find? name = some e → e.Uniform base
  result : ∀ e ∈ b.result, e.Uniform base

variable (base : UInt32)

/-! ### Single bindings -/

/-- Normal forms are taken by giving the nodes new numbers and spans. -/
theorem normal_eq_relabel : normal base = relabel (.normal base) := by
  funext b
  rw [normal, Entity.normal_eq_relabel, relabel]

/-- A variable stands for the normal form of what it stood for. -/
@[simp] theorem find?_normal (b : Bindings) (name : String) :
    (b.normal base).find? name = (b.find? name).map (Entity.normal base) := by
  rw [normal_eq_relabel, find?_relabel, Entity.normal_eq_relabel]

/-- Normal forms are their own normal forms. -/
@[simp] theorem normal_normal (b : Bindings) : (b.normal base).normal base = b.normal base := by
  have hmap (o : Option Entity) :
      (o.map (Entity.normal base)).map (Entity.normal base) = o.map (Entity.normal base) := by
    rw [Option.map_map]
    exact Option.map_congr fun e _ => e.normal_normal base
  refine ext (Dict.ext_find? fun name => ?_) (hmap b.result) rfl
  show ((b.normal base).normal base).find? name = (b.normal base).find? name
  rw [find?_normal, find?_normal, hmap]

/-- Dropping the result can be done before or after. -/
@[simp] theorem normal_withoutResult (b : Bindings) :
    b.withoutResult.normal base = (b.normal base).withoutResult := rfl

/-- Bindings and their normal form are the same solution. -/
@[simp] theorem shape_normal (b : Bindings) : (b.normal base).shape = b.shape := by
  rw [normal_eq_relabel, shape_relabel]

/-- A variable can be bound in the normal form when it can be bound at all. -/
theorem normal_bind? (b : Bindings) (name : String) (e : Entity) :
    (b.bind? name e).map (normal base) = (b.normal base).bind? name (e.normal base) := by
  rw [normal_eq_relabel, relabel_bind?, Entity.normal_eq_relabel]

/-- Binding a variable can be done before or after taking the normal form. -/
theorem normal_bind (b : Bindings) (name : String) (e : Entity) :
    (b.bind name e).normal base = (b.normal base).bind name (e.normal base) := by
  rw [normal_eq_relabel, relabel_bind, Entity.normal_eq_relabel]

/-- Forgetting variables can be done before or after taking the normal form. -/
theorem normal_erase (b : Bindings) (names : List String) :
    (b.erase names).normal base = (b.normal base).erase names := by
  rw [normal_eq_relabel, relabel_erase]

/-- A merge has the normal form that the normal forms merge to. -/
theorem normal_consistentMerge? (b c : Bindings) :
    (b.consistentMerge? c).map (normal base) = (b.normal base).consistentMerge? (c.normal base) := by
  rw [normal_eq_relabel, relabel_consistentMerge?]

/-! ### Uniform bindings -/

variable {base}

/-- Nothing is bound, so all of it is uniform. -/
theorem uniform_empty : Bindings.empty.Uniform base where
  vars name e h := by cases h
  result e h := by cases h

/-- Dropping the result keeps bindings uniform. -/
theorem Uniform.withoutResult {b : Bindings} (h : b.Uniform base) : b.withoutResult.Uniform base where
  vars := h.vars
  result e he := by cases he

/-- Binding a variable to a uniform entity keeps bindings uniform. -/
theorem Uniform.bind? {b b' : Bindings} (h : b.Uniform base) {name : String} {e : Entity}
    (he : e.Uniform base) (hb : b.bind? name e = some b') : b'.Uniform base := by
  unfold Bindings.bind? at hb
  split at hb
  · exact Option.some.inj hb ▸ h
  · split at hb
    · split at hb
      · exact Option.some.inj hb ▸ h
      · cases hb
    · obtain rfl := Option.some.inj hb
      refine ⟨fun n e' he' => ?_, h.result⟩
      -- what a name stands for is the new entity or what it stood for before
      rw [find?, Dict.find?_set] at he'
      split at he'
      · obtain rfl := Option.some.inj he'
        exact he
      · exact h.vars n e' he'

/-- Bindings stay uniform also when the variable cannot be bound. -/
theorem Uniform.bind {b : Bindings} (h : b.Uniform base) {e : Entity} (he : e.Uniform base)
    (name : String) : (b.bind name e).Uniform base := by
  rw [Bindings.bind]
  cases hb : b.bind? name e with
  | none => exact h
  | some b' => exact h.bind? he hb

/-- Normal forms of uniform bindings are uniform. -/
theorem Uniform.normal {b : Bindings} (h : b.Uniform base) : (b.normal base).Uniform base where
  vars name e he := by
    rw [find?_normal] at he
    obtain ⟨x, hx, rfl⟩ := Option.map_eq_some_iff.1 he
    exact (h.vars name x hx).normal
  result e he := by
    obtain ⟨x, hx, rfl⟩ := Option.map_eq_some_iff.1 he
    exact (h.result x hx).normal

/-- Forgetting variables keeps bindings uniform. -/
theorem Uniform.erase {b : Bindings} (h : b.Uniform base) (names : List String) :
    (b.erase names).Uniform base where
  vars name e he := by
    have hmem := (Catalog.mem_filter.1 (Dict.find?_eq_some_iff.1 he)).1
    exact h.vars name e (Dict.find?_eq_some_iff.2 hmem)
  result := h.result

/-- All that a merge has comes from one of the two sides. -/
private theorem uniform_of_mergeInto? {agree : Entity → Entity → Bool} {b c d : Bindings}
    (hb : b.Uniform base) (hc : c.Uniform base) (hd : mergeInto? agree b c = some d) :
    d.Uniform base where
  vars name e he := by
    rw [find?_of_mergeInto? hd, Option.or_eq_some_iff] at he
    exact he.elim (hb.vars name e) fun h => hc.vars name e h.2
  result e he := by
    rw [Option.mem_def, (result_of_mergeInto? hd).1, Option.or_eq_some_iff] at he
    exact he.elim (hb.result e) fun h => hc.result e h.2

/-- A merge of uniform bindings is uniform, whichever side is merged into the other. -/
private theorem uniform_of_mergeWith? {agree : Entity → Entity → Bool} {b c d : Bindings}
    (hb : b.Uniform base) (hc : c.Uniform base) (hd : mergeWith? agree b c = some d) :
    d.Uniform base := by
  unfold mergeWith? at hd
  split at hd
  · exact uniform_of_mergeInto? hb hc hd
  · exact uniform_of_mergeInto? hc hb hd

/-- A consistent merge of uniform bindings is uniform. -/
theorem Uniform.consistentMerge? {b c d : Bindings} (hb : b.Uniform base) (hc : c.Uniform base)
    (hd : b.consistentMerge? c = some d) : d.Uniform base := uniform_of_mergeWith? hb hc hd

/-- Uniform bindings that are the same solution have one normal form. -/
theorem normal_eq_normal {b b' : Bindings} (h : b.Uniform base) (h' : b'.Uniform base)
    (hshape : b.shape = b'.shape) : b.normal base = b'.normal base := by
  -- one shape means the same names with the same shapes, and the same places in order
  simp only [shape, Shape.seq.injEq, List.cons.injEq, and_true, Shape.opt_injective] at hshape
  obtain ⟨hvars, hresult, hplaces⟩ := hshape
  have hlen : b.vars.toList.length = b'.vars.toList.length := by
    simpa using congrArg List.length hvars
  simp only [entities, Dict.values, List.map_append, List.map_map] at hplaces
  obtain ⟨hvarPlaces, hresultPlaces⟩ := List.append_inj hplaces (by simpa using hlen)
  -- each variable of `b` is matched with the one of `b'` that has its name, shape and place
  have hpairs := congrArg₂ List.zip hvars hvarPlaces
  rw [List.zip_map', List.zip_map'] at hpairs
  have hmatch := List.forall₂_of_map_eq hpairs
    (fun x hx => h.vars x.1 x.2 (Dict.find?_eq_some_iff.2 hx))
    (fun x hx => h'.vars x.1 x.2 (Dict.find?_eq_some_iff.2 hx))
  refine ext (Catalog.ext ?_) ?_ rfl
  · refine hmatch.map_eq fun x y hxy => ?_
    obtain ⟨hx, hy, hshapes⟩ := hxy
    simp only [Prod.mk.injEq, Shape.seq.injEq, List.cons.injEq, Shape.text.injEq, and_true,
      Function.comp_apply] at hshapes
    obtain ⟨⟨hname, hshape⟩, hplace⟩ := hshapes
    rw [hname, Entity.normal_eq_normal hx hy hshape (Entity.locations_eq_of_idsShape hshape hplace)]
  -- the places of the results come after those of the variables
  · show b.result.map _ = b'.result.map _
    have hu := h.result
    have hu' := h'.result
    cases hr : b.result with
    | none =>
      rw [hr, Option.map_none, eq_comm, Option.map_eq_none_iff] at hresult
      rw [hresult]
    | some e =>
      rw [hr, Option.map_some, eq_comm, Option.map_eq_some_iff] at hresult
      obtain ⟨e', hr', hshape⟩ := hresult
      rw [hr, hr'] at hresultPlaces
      have hplace := Entity.locations_eq_of_idsShape hshape.symm (by simpa using hresultPlaces)
      rw [hr', Option.map_some, Option.map_some,
        Entity.normal_eq_normal (hu e hr) (hu' e' hr') hshape.symm hplace]

end Bindings

/-! ### Sets of solutions -/

namespace Solutions

variable (base : UInt32)

/-- The normal forms of all solutions. -/
def normal (s : Solutions) : Solutions :=
  Catalog.mapEntries (Bindings.normal base) (Bindings.shape_normal base) s

/-- All solutions are uniform. -/
def Uniform (s : Solutions) : Prop := ∀ b ∈ s.toList, b.Uniform base

/-- The normal forms stand in the order of the solutions. -/
@[simp] theorem toList_normal (s : Solutions) :
    (s.normal base).toList = s.toList.map (Bindings.normal base) := rfl

/-- There are as many normal forms as solutions. -/
@[simp] theorem isEmpty_normal (s : Solutions) : (s.normal base).isEmpty = s.isEmpty :=
  Catalog.isEmpty_mapEntries s

/-- Normal forms of a union are those of its sides. -/
theorem normal_union (s t : Solutions) :
    normal base (Catalog.union s t) = (s.normal base).union (t.normal base) :=
  Catalog.mapEntries_union s t

/-- A solution can be added before or after taking normal forms. -/
theorem normal_insert (s : Solutions) (b : Bindings) :
    normal base (Catalog.insert s b) = Catalog.insert (s.normal base) (b.normal base) :=
  Catalog.mapEntries_insert s b

/-- Taking normal forms keeps the first of equal solutions. -/
theorem normal_ofListFirst (l : List Bindings) :
    normal base (Catalog.ofListFirst l) = Catalog.ofListFirst (l.map (Bindings.normal base)) :=
  Catalog.mapEntries_ofListFirst l

/-- A test gives the normal form of the bindings that pass it. -/
theorem normal_test (holds : Bool) (b : Bindings) :
    (test holds b).normal base = test holds (b.normal base) := by
  unfold test
  split <;> rfl

/-- The normal form of what may be missing is missing with it. -/
theorem normal_ofOption (b : Option Bindings) :
    (ofOption b).normal base = ofOption (b.map (Bindings.normal base)) := by
  cases b <;> rfl

end Solutions

end CodeRules
