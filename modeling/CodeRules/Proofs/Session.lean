import CodeRules.Proofs.Table.Consistent

/-!
# Relations of registered instances

Whatever instances a session holds, the tuples of their relations are for the signatures of these
relations, because every table is solved from a constructed one (`Session.Reachable.signed`). So a
relation of an instance can be given to another option as it is: only the names of its parameters
change (`Session.Reachable.carries_relation`).
-/

namespace CodeRules

/-- A constructed table after any number of attempts to solve it. -/
def Table.IsBuilt (t : Table) : Prop :=
  ∃ program settings solved? interface option args t₀ n,
    Table.construct program settings solved? interface option args = .ok t₀ ∧
      t = (fun t => t.solve.2)^[n] t₀

/-- The tuples of a built table are for the signatures of its relations. -/
theorem Table.IsBuilt.signed {t : Table} (h : t.IsBuilt) {name : String} {r : Relation}
    (hr : t.relation? name = some r) : r.Signed := by
  obtain ⟨_, _, _, _, _, _, t₀, n, hconstruct, rfl⟩ := h
  exact ((sound_of_construct hconstruct).iterate_solve n).signed name r hr

namespace Session

/-- The sessions that there can be: tables are registered with a new session in turn. -/
inductive Reachable : Session → Prop where
  | start (rules : RuleModule) (program : Program) (settings : Settings) :
    Reachable { rules, program, settings }
  | register {s s' : Session} {name : String} {t : Table} (hs : s.Reachable) (ht : t.IsBuilt)
    (h : s.register name t = .ok s') : Reachable s'

namespace Reachable

variable {s s' : Session}

/-- What is registered was built. -/
theorem instances_isBuilt (hs : s.Reachable) {name : String} {t : Table}
    (ht : s.instances.find? name = some t) : t.IsBuilt := by
  induction hs with
  | start rules program settings => cases ht
  | @register s s' n u hs hu h ih =>
    unfold Session.register at h
    split at h
    · cases h
    · split at h
      · cases h
      · obtain rfl := Except.ok.inj h
        -- The table is the one that is registered now, or was registered before.
        rw [Dict.find?_set] at ht
        split at ht
        · exact Option.some.inj ht ▸ hu
        · exact ih ht

/-- The tuples of a registered relation are for its signature. -/
theorem signed (hs : s.Reachable) {name relation : String} {r : Relation}
    (hr : s.relation? name relation = some r) : r.Signed := by
  obtain ⟨t, ht, hr⟩ := Option.bind_eq_some_iff.1 hr
  exact (hs.instances_isBuilt ht).signed hr

/-- An instance of an option is registered after it was constructed and solved. -/
theorem instantiate (hs : s.Reachable) {name option : String} {args : List Argument} {t : Table}
    (h : s.instantiate name option args = .ok (t, s')) : s'.Reachable := by
  simp only [Session.instantiate, Except.bind_eq_ok, Except.pure_eq_ok, Prod.mk.injEq] at h
  obtain ⟨t₀, hconstruct, _, _, s'', hregister, -, rfl⟩ := h
  refine .register hs ?_ hregister
  unfold construct at hconstruct
  split at hconstruct
  · cases hconstruct
  · split at hconstruct
    · cases hconstruct
    · exact ⟨_, _, _, _, _, _, t₀, 1, hconstruct, rfl⟩

/-- A relation of an instance whose name has no dot is given to a parameter with all its tuples, in the
same order, with the same values and roots. It is refused exactly when it has another number of
parameters or a value that the parameter in its place does not take. -/
theorem carries_relation (hs : s.Reachable) {name relation : String} (hname : '.' ∉ name.toList)
    {t : Table} (ht : s.instances.find? name = some t) {r : Relation}
    (hr : t.relation? relation = some r) (u : Table) {p : ParamDecl TypeExpr} {owner : String}
    {params : List Param} (hp : ParamType.resolve p.name.value p.type = .ok (.relation owner params)) :
    (∀ u', u.bindArgument s.relation? p (.text (name ++ "." ++ relation)) = .ok u' →
      ∃ r', u'.relation? p.name.value = some r' ∧
        r'.signature = ⟨p.name.value, params, { isAbstract := true }⟩ ∧ r'.Signed ∧
        r'.tuples.toList.map (fun v => (v.values, v.root)) =
          r.tuples.toList.map (fun v => (v.values, v.root))) ∧
    ((∃ e, u.bindArgument s.relation? p (.text (name ++ "." ++ relation)) = .error e) ↔
      r.signature.arity ≠ params.length ∨
        ∃ v ∈ r.tuples.toList, ∃ x ∈ params.zip v.values,
          x.1.type.accepts u.program.types x.2 = false) := by
  obtain rfl := ParamType.owner_of_resolve hp
  have hsplit := Text.splitFirstDot?_append hname relation
  have hsolved : s.relation? name relation = some r := Option.bind_eq_some_iff.2 ⟨t, ht, hr⟩
  have hsigned := hs.signed hsolved
  have hbind : u.bindArgument s.relation? p (.text (name ++ "." ++ relation)) = _ :=
    Table.bindArgument_of_relation hp _
  constructor
  · intro u' hu'
    rw [hbind, Except.map_eq_ok] at hu'
    obtain ⟨r', hr', rfl⟩ := hu'
    obtain ⟨hsignature, hsigned', hfacts⟩ :=
      Program.forall₂_of_relationArgument hsplit hsolved hsigned hr'
    refine ⟨r', ?_, hsignature, hsigned', ?_⟩
    -- the relation is put under the name of the parameter
    · rw [Table.relation?, Store.put, Dict.find?_set, Relation.name, hsignature, if_pos rfl]
    · exact (hfacts.map_eq fun v w h => by rw [h.values, h.root]).symm
  -- It is refused if it cannot be bound, and what can be bound is known of relations that are given.
  · have hgiven := Program.exists_relationArgument_iff (p := u.program)
      (s := ⟨p.name.value, params, { isAbstract := true }⟩) hsplit hsolved hsigned
    have hbound : (∃ u', u.bindArgument s.relation? p (.text (name ++ "." ++ relation)) = .ok u') ↔
        r.signature.arity = params.length ∧ ∀ v ∈ r.tuples.toList, ∀ x ∈ params.zip v.values,
          x.1.type.accepts u.program.types x.2 = true := by
      refine Iff.trans ?_ hgiven
      simp only [hbind, Except.map_eq_ok]
      constructor
      · rintro ⟨_, r', hr', _⟩
        exact ⟨r', hr'⟩
      · rintro ⟨r', hr'⟩
        exact ⟨_, r', hr', rfl⟩
    rw [Except.exists_eq_error_iff, hbound, not_and_or]
    simp only [not_forall, Bool.not_eq_true, exists_prop]

end Reachable

/-! ### Numbers that are carried over -/

namespace Carried

/-- Two numbers. -/
def numbers : OptionDecl :=
  { name := .synthetic "numbers", interface := .synthetic "empty",
    traits := [{ name := .synthetic "found", params := [⟨.synthetic "x", .category "any"⟩] }],
    statements := [
      { realizes := [.synthetic "found"],
        body := .or [.eq .synthetic (.var "x") (.entity (.value (.int 1))),
          .eq .synthetic (.var "x") (.entity (.value (.int 2)))] }] }

/-- A session that can make the numbers. -/
def session : Session :=
  { rules := { interfaces := [{ name := .synthetic "empty" }], options := [numbers] },
    program := Program.ofClasses [] }

/-- A parameter for a relation whose values are of a category. -/
def param (category : String) : ParamDecl TypeExpr :=
  ⟨.synthetic "given", .relation [⟨.synthetic "y", .category category⟩]⟩

/-- Both numbers are carried to a parameter for values, and refused by one for methods. -/
theorem carries_relation_numbers : ∃ t₀ s t r,
    session.instantiate "first" "numbers" [] = .ok (t₀, s) ∧ s.instances.find? "first" = some t ∧
      t.relation? "found" = some r ∧ r.tuples.size = 2 ∧
        (∃ u r', t.bindArgument s.relation? (param "value") (.text "first.found") = .ok u ∧
          u.relation? "given" = some r' ∧
            r'.tuples.toList.map (fun v => (v.values, v.root)) =
              r.tuples.toList.map (fun v => (v.values, v.root))) ∧
        ∃ e, t.bindArgument s.relation? (param "method") (.text "first.found") = .error e := by
  -- All that the statement asks for is run at once.
  have hrun : ((session.instantiate "first" "numbers" []).toOption.any fun x =>
      (x.2.instances.find? "first").any fun t => (t.relation? "found").any fun r =>
        r.tuples.size == 2 &&
          (t.bindArgument x.2.relation? (param "value") (.text "first.found")).isOk &&
            r.tuples.toList.any fun v =>
              ([⟨"y", .category .method⟩].zip v.values).any fun (x : Param × Entity) =>
                x.1.type.accepts t.program.types x.2 == false) = true := by
    decide +kernel
  obtain ⟨⟨t₀, s⟩, hs, hrun⟩ := (Option.any_eq_true ..).1 hrun
  obtain ⟨t, ht, hrun⟩ := (Option.any_eq_true ..).1 hrun
  obtain ⟨r, hr, hrun⟩ := (Option.any_eq_true ..).1 hrun
  rw [Except.toOption_eq_some_iff] at hs
  simp only [Bool.and_eq_true, beq_iff_eq, List.any_eq_true] at hrun
  obtain ⟨⟨hsize, hok⟩, hrefused⟩ := hrun
  have hreachable : s.Reachable := .instantiate (.start _ _ _) hs
  have hvalue : ParamType.resolve (param "value").name.value (param "value").type =
      .ok (.relation "given" [⟨"y", .category .value⟩]) := rfl
  have hmethod : ParamType.resolve (param "method").name.value (param "method").type =
      .ok (.relation "given" [⟨"y", .category .method⟩]) := rfl
  have hcarries := hreachable.carries_relation (by decide) ht hr t hvalue
  have hrefuses := hreachable.carries_relation (by decide) ht hr t hmethod
  refine ⟨t₀, s, t, r, hs, ht, hr, hsize, ?_, hrefuses.2.2 (.inr hrefused)⟩
  cases hbind : t.bindArgument s.relation? (param "value") (.text "first.found") with
  | error e =>
    rw [hbind] at hok
    cases hok
  | ok u =>
    obtain ⟨r', hr', _, _, hfacts⟩ := hcarries.1 u hbind
    exact ⟨u, r', rfl, hr', hfacts⟩

end Carried

end Session

end CodeRules
