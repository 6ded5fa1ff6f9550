import CodeRules.Proofs.Binding.Bindings
import CodeRules.Proofs.List
import CodeRules.Proofs.Program.Builtins
import CodeRules.Proofs.Relation.Proper
import CodeRules.Proofs.Relation.Store
import CodeRules.Proofs.Statement.Realization
import CodeRules.Proofs.Table.Argument
import CodeRules.Session
import Mathlib.Data.List.Find

/-!
# What construction promises

`Table.Constructed` collects what holds of a table that `Table.construct` returns: the relations
that statements realize are registered and empty, no singleton is realized twice, and neither a
parameter nor a trait has the name of a variable that a singleton binds. `Table.origin_of_construct` says
of each of its relations where it comes from.
-/

namespace CodeRules

/-! ### Signatures -/

/-- Checked parameters have different names, none of which was seen before. -/
private theorem nodup_of_checkParams {trait : String} {seen : List String} {ps : List Param}
    (h : checkParams trait seen ps = .ok ()) :
    (∀ p ∈ ps, p.name ∉ seen) ∧ (ps.map Named.name).Nodup := by
  induction ps generalizing seen with
  | nil => simp
  | cons p ps ih =>
    simp only [checkParams] at h
    split at h
    · cases h
    · rename_i hp
      have hp : p.name ∉ seen := by simpa using hp
      obtain ⟨hnew, hnodup⟩ := ih h
      -- the names that come later are neither this one nor any that was seen
      refine ⟨fun q hq => ?_, List.nodup_cons.2 ⟨fun hmem => ?_, hnodup⟩⟩
      · rcases List.mem_cons.1 hq with rfl | hq
        · exact hp
        · exact fun hmem => hnew q hq (List.mem_cons_of_mem _ hmem)
      · obtain ⟨q, hq, e⟩ := List.mem_map.1 hmem
        exact hnew q hq (e ▸ List.mem_cons_self ..)

/-- A signature that was written has the given name, and parameters with different names. -/
theorem Signature.of_ofParams {name : String} {params : List (ParamDecl TypeExpr)}
    {flags : TraitFlags} {s : Signature} (h : ofParams name params flags = .ok s) :
    s.name = name ∧ s.paramNames.Nodup ∧ s.flags = flags := by
  simp only [ofParams, Except.bind_eq_ok, Except.pure_eq_ok] at h
  obtain ⟨resolved, _, ⟨⟩, hparams, rfl⟩ := h
  exact ⟨rfl, (nodup_of_checkParams hparams).2, rfl⟩

/-- A relation type that was written for an owner has its name. -/
theorem ParamType.owner_of_resolve {owner name : String} {type : TypeExpr}
    {params : List Param} (h : resolve owner type = .ok (.relation name params)) :
    name = owner := by
  cases type with
  | category c =>
    simp only [resolve] at h
    split at h <;> simp at h
  | program t => simp [resolve] at h
  | relation ps =>
    simp only [resolve, Except.bind_eq_ok, Except.pure_eq_ok, relation.injEq] at h
    obtain ⟨_, _, _, _, rfl, _⟩ := h
    rfl

namespace Table

/-! ### Declared traits -/

/-- Declared traits stand under their names, which no relation of the table has. -/
structure KnowsTraits (t : Table) (traits : DeclaredTraits) : Prop where
  name : ∀ n s span, traits.find? n = some (s, span) → s.name = n
  fresh : ∀ n s span, traits.find? n = some (s, span) → t.store.find? n = none
  nodup : ∀ n s span, traits.find? n = some (s, span) → s.paramNames.Nodup

/-- Another trait may be declared whose name no relation has. -/
private theorem KnowsTraits.addTrait {t : Table} {known known' : DeclaredTraits} {d : TraitDecl}
    (h : t.KnowsTraits known) (hd : t.addTrait known d = .ok known') : t.KnowsTraits known' := by
  simp only [Table.addTrait] at hd
  split at hd
  · cases hd
  · split at hd
    · cases hd
    · rename_i hfresh
      split at hd
      · cases hd
      · rename_i s hs
        obtain ⟨hname, hnodup, _⟩ := Signature.of_ofParams hs
        obtain rfl := Except.ok.inj hd
        have hfresh : t.store.find? d.name.value = none := by simpa [relation?] using hfresh
        -- What is known now is the new trait, or was known before.
        have hcases {n : String} {s' : Signature} {span : Span}
            (hf : (Dict.set known d.name.value (s, d.name.span)).find? n = some (s', span)) :
            n = d.name.value ∧ s' = s ∨ known.find? n = some (s', span) := by
          rw [Dict.find?_set] at hf
          split at hf
          · rename_i e
            exact .inl ⟨e, (Prod.mk.inj (Option.some.inj hf)).1.symm⟩
          · exact .inr hf
        refine ⟨fun n s' span hf => ?_, fun n s' span hf => ?_, fun n s' span hf => ?_⟩
        · rcases hcases hf with ⟨rfl, rfl⟩ | hf
          · exact hname
          · exact h.name n s' span hf
        · rcases hcases hf with ⟨rfl, rfl⟩ | hf
          · exact hfresh
          · exact h.fresh n s' span hf
        · rcases hcases hf with ⟨rfl, rfl⟩ | hf
          · exact hnodup
          · exact h.nodup n s' span hf

/-- Declared traits are known one after the other. -/
private theorem knowsTraits_of_foldlM {t : Table} {decls : List TraitDecl}
    {traits : DeclaredTraits} (h : decls.foldlM (Table.addTrait t) ∅ = .ok traits) :
    t.KnowsTraits traits :=
  Except.foldlM_ok h ⟨by simp, by simp, by simp⟩ fun _ _ _ _ hk hd => hk.addTrait hd

/-! ### Variables of singletons -/

/-- The variables of one singleton are added to those of the singletons before it. -/
private theorem foldlM_addVariable {traits : DeclaredTraits} {s : Signature} {span : Span}
    {ps : List String} {owners owners' : NameMap String}
    (h : ps.foldlM (addVariable traits s span) owners = .ok owners') :
    (∀ p n, owners.find? p = some n → owners'.find? p = some n) ∧
      (∀ p ∈ ps, owners'.find? p = some s.name ∧ traits.find? p = none) ∧
      ∀ p n, owners'.find? p = some n → owners.find? p = some n ∨ p ∈ ps ∧ n = s.name := by
  induction ps generalizing owners with
  | nil =>
    simp only [List.foldlM_nil, Except.pure_eq_ok] at h
    subst h
    exact ⟨fun _ _ h => h, by simp, fun _ _ h => .inl h⟩
  | cons p ps ih =>
    simp only [List.foldlM_cons, Except.bind_eq_ok] at h
    obtain ⟨mid, hmid, h⟩ := h
    obtain ⟨hmono, hall, hback⟩ := ih h
    unfold addVariable at hmid
    split at hmid
    · cases hmid
    · rename_i hp
      have hp : traits.find? p = none := by simpa using hp
      split at hmid
      · cases hmid
      · rename_i hnone
        obtain rfl := Except.ok.inj hmid
        -- Owners stay, the variable gets its owner, and whoever has an owner had it before or gets it here.
        refine ⟨fun q n hq => hmono q n ?_, fun q hq => ?_, fun q n hq => ?_⟩
        · rw [Dict.find?_set, if_neg]
          · exact hq
          · rintro rfl
            rw [hnone] at hq
            cases hq
        · rcases List.mem_cons.1 hq with rfl | hq
          · exact ⟨hmono _ _ (by rw [Dict.find?_set, if_pos rfl]), hp⟩
          · exact hall q hq
        · rcases hback q n hq with hold | ⟨hmem, hn⟩
          · rw [Dict.find?_set] at hold
            split at hold
            · rename_i e
              exact .inr ⟨e ▸ List.mem_cons_self .., (Option.some.inj hold).symm⟩
            · exact .inl hold
          · exact .inr ⟨List.mem_cons_of_mem _ hmem, hn⟩

/-- The variables of several singletons are added in turn. -/
private theorem foldlM_singletons {traits : DeclaredTraits} {l : List (Signature × Span)}
    {owners owners' : NameMap String}
    (h : l.foldlM (fun owners (s, span) =>
      s.paramNames.foldlM (addVariable traits s span) owners) owners = .ok owners') :
    (∀ p n, owners.find? p = some n → owners'.find? p = some n) ∧
      (∀ s ∈ l.map Prod.fst, ∀ p ∈ s.paramNames,
        owners'.find? p = some s.name ∧ traits.find? p = none) ∧
      ∀ p n, owners'.find? p = some n →
        owners.find? p = some n ∨ ∃ s ∈ l.map Prod.fst, p ∈ s.paramNames ∧ n = s.name := by
  induction l generalizing owners with
  | nil =>
    simp only [List.foldlM_nil, Except.pure_eq_ok] at h
    subst h
    exact ⟨fun _ _ h => h, by simp, fun _ _ h => .inl h⟩
  | cons x l ih =>
    obtain ⟨s, span⟩ := x
    simp only [List.foldlM_cons, Except.bind_eq_ok] at h
    obtain ⟨mid, hmid, h⟩ := h
    obtain ⟨hmono, hall, hback⟩ := ih h
    obtain ⟨hmono₁, hall₁, hback₁⟩ := foldlM_addVariable hmid
    refine ⟨fun p n hp => hmono p n (hmono₁ p n hp), fun s' hs' p hp => ?_, fun p n hp => ?_⟩
    · rcases List.mem_cons.1 hs' with rfl | hs'
      · exact ⟨hmono _ _ (hall₁ p hp).1, (hall₁ p hp).2⟩
      · exact hall s' hs' p hp
    -- an owner is known from before, from this singleton or from a later one
    · rcases hback p n hp with hmid | ⟨s', hs', hmem⟩
      · rcases hback₁ p n hmid with hold | ⟨hmem, hn⟩
        · exact .inl hold
        · exact .inr ⟨s, List.mem_cons_self .., hmem, hn⟩
      · exact .inr ⟨s', List.mem_cons_of_mem _ hs', hmem⟩

/-- The variables of the singletons are known with their singletons, and no trait has the name of
one of them. -/
structure KnowsVariables (traits : DeclaredTraits) (singletonOf : NameMap String) : Prop where
  owner : ∀ n s span, traits.find? n = some (s, span) → s.flags.isSingleton = true →
    ∀ p ∈ s.paramNames, singletonOf.find? p = some n ∧ traits.find? p = none
  singleton : ∀ p n, singletonOf.find? p = some n →
    ∃ s span, traits.find? n = some (s, span) ∧ s.flags.isSingleton = true ∧ p ∈ s.paramNames

/-- The variables are added for the traits that are singletons, each under its name. -/
private theorem knowsVariables_of_singletonVariables {t : Table} {traits : DeclaredTraits}
    {singletonOf : NameMap String} (ht : t.KnowsTraits traits)
    (h : singletonVariables traits = .ok singletonOf) : KnowsVariables traits singletonOf := by
  obtain ⟨_, hall, hback⟩ := foldlM_singletons h
  constructor
  · intro n s span hs hsingle p hp
    have hname := ht.name n s span hs
    have hmem : s ∈ (traits.values.filter (·.1.flags.isSingleton)).map Prod.fst :=
      List.mem_map.2 ⟨(s, span), List.mem_filter.2 ⟨Dict.mem_values_iff.2 ⟨n, hs⟩, hsingle⟩, rfl⟩
    rw [← hname]
    exact hall s hmem p hp
  · intro p n hp
    -- every owner was added, since there were none at first
    rcases hback p n hp with hold | ⟨s, hs, hmem, rfl⟩
    · cases hold
    · obtain ⟨⟨s', span⟩, hs', rfl⟩ := List.mem_map.1 hs
      obtain ⟨hs', hsingle⟩ := List.mem_filter.1 hs'
      obtain ⟨k, hk⟩ := Dict.mem_values_iff.1 hs'
      rw [ht.name k s' span hk]
      exact ⟨s', span, hk, hsingle, hmem⟩

/-! ### The steps of construction -/

/-- The relations that a table starts with are those of the program; nothing else is known yet. -/
theorem exists_start (program : Program) (settings : Settings) (option : OptionDecl) :
    ∃ trace, start program settings option =
      { option := option.name.value, interface := option.interface.value, span := option.span,
        program, settings, arena := { base := program.idBase }, trace,
        store := program.builtins.foldl (fun s r => s.seed r.signature r.tuples) ∅ } := by
  -- what is recorded on the way only concerns the trace
  have hfold (l : List BuiltinRelation) (t : Table) :
      ∃ trace, l.foldl (fun t r =>
        { t with store := t.store.seed r.signature r.tuples }.record .seed r.signature.name
          s!"{r.tuples.length} tuples") t =
      { t with store := l.foldl (fun s r => s.seed r.signature r.tuples) t.store, trace } := by
    induction l generalizing t with
    | nil => exact ⟨t.trace, rfl⟩
    | cons r l ih =>
      obtain ⟨trace, h⟩ := ih ({ t with store := t.store.seed r.signature r.tuples }.record .seed
        r.signature.name s!"{r.tuples.length} tuples")
      exact ⟨trace, by rw [List.foldl_cons, h]; rfl⟩
  exact hfold program.builtins
    { option := option.name.value, interface := option.interface.value, span := option.span,
      program, settings, arena := { base := program.idBase }, trace := .ofSettings settings }

/-- The built-in relations of a program. -/
private abbrev seeds (program : Program) : Store :=
  program.builtins.foldl (fun s r => s.seed r.signature r.tuples) ∅

/-- Relations stand under their names while built-in ones are seeded. -/
private theorem named_foldl_seed (l : List BuiltinRelation) {s : Store} (h : s.Named) :
    (l.foldl (fun s r => s.seed r.signature r.tuples) s).Named := by
  induction l generalizing s with
  | nil => exact h
  | cons r l ih => exact ih (h.seed r.signature r.tuples)

/-- The relation of copies has two parameters and starts empty. -/
theorem copiedTo_of_builtins (program : Program) :
    ∃ r, (program.builtins.foldl (fun s r => s.seed r.signature r.tuples) (∅ : Store)).find?
      BuiltinRelation.copiedTo = some r ∧ r.signature.arity = 2 ∧ r.tuples = ∅ := by
  simp only [Program.builtins, List.foldl_cons, List.foldl_nil, Store.find?_seed,
    BuiltinRelation.ofRows, BuiltinRelation.copiedTo, ↓reduceIte, Option.some.injEq, exists_eq_left',
    Signature.arity, Relation.signature_foldl_insert]
  simp

/-- Declared traits are registered as empty relations. -/
private theorem find?_foldl_register (l : List (Signature × Span)) (s : Store)
    (hl : (l.map fun x => x.1.name).Nodup) (name : String) :
    (l.foldl (fun store (s, _) =>
        store.register { signature := s, isStatic := s.flags.isStatic }) s).find? name =
      match s.find? name with
      | some r => some r
      | none => (l.find? fun x => x.1.name == name).map fun x =>
        { signature := x.1, isStatic := x.1.flags.isStatic } := by
  induction l generalizing s with
  | nil => cases h : s.find? name <;> simp [h]
  | cons x l ih =>
    obtain ⟨hx, hl⟩ := List.nodup_cons.1 hl
    rw [List.foldl_cons, ih _ hl, Store.find?_register]
    -- The first trait of a name is registered, and later ones have other names.
    by_cases e : name = x.1.name
    · subst e
      cases h : s.find? x.1.name with
      | none => simp [Relation.name, h]
      | some r => simp [Relation.name, h]
    · have e' : (x.1.name == name) = false := by simpa using fun h => e h.symm
      simp only [Relation.name, e, ↓reduceIte, List.find?_cons, e']

/-- What declaring traits adds to a table. -/
theorem declare_eq_ok {t t' : Table} {decls : List TraitDecl} {traits : DeclaredTraits}
    (h : t.declare decls = .ok (traits, t')) :
    t.KnowsTraits traits ∧ KnowsVariables traits t'.singletonOf ∧
      (∀ name, t'.store.find? name = match t.store.find? name with
        | some r => some r
        | none => (traits.find? name).map fun x =>
          { signature := x.1, isStatic := x.1.flags.isStatic }) ∧
      t' = { t with singletonOf := t'.singletonOf, guards := t'.guards, store := t'.store } := by
  simp only [declare, Except.bind_eq_ok, Except.pure_eq_ok, Prod.mk.injEq] at h
  obtain ⟨traits', htraits, singletonOf, hsingle, rfl, rfl⟩ := h
  have hknows := knowsTraits_of_foldlM htraits
  refine ⟨hknows, knowsVariables_of_singletonVariables hknows hsingle, fun name => ?_, rfl⟩
  -- the traits are registered under the keys that they are declared under
  have hkey : ∀ x ∈ traits'.toList, x.2.1.name = x.1 := fun x hx =>
    hknows.name x.1 x.2.1 x.2.2 (Dict.find?_eq_some_iff.2 hx)
  have hnodup : (traits'.values.map fun x => x.1.name).Nodup := by
    have hkeys : (traits'.values.map fun x => x.1.name) = traits'.toList.map Prod.fst := by
      rw [Dict.values, List.map_map]
      exact List.map_congr_left hkey
    rw [hkeys]
    exact Dict.nodup_keys traits'
  have hfind : (traits'.values.find? fun x => x.1.name == name) = traits'.find? name := by
    rw [Dict.values, List.find?_map, Dict.find?, Catalog.get?]
    congr 1
    refine List.find?_congr fun x hx => ?_
    rw [Function.comp_apply, hkey x hx, Bool.eq_iff_iff, beq_iff_eq, beq_iff_eq,
      Std.LawfulEqOrd.compare_eq_iff_eq, eq_comm]
  rw [← hfind]
  exact find?_foldl_register _ _ hnodup name

/-- Declared traits have the flags that their declarations give them. -/
theorem exists_flags_of_declare {t t' : Table} {decls : List TraitDecl} {traits : DeclaredTraits}
    (h : t.declare decls = .ok (traits, t')) {n : String} {s : Signature} {span : Span}
    (hs : traits.find? n = some (s, span)) : ∃ d ∈ decls, s.flags = d.flags := by
  simp only [declare, Except.bind_eq_ok, Except.pure_eq_ok, Prod.mk.injEq] at h
  obtain ⟨traits', htraits, _, _, rfl, _⟩ := h
  -- every step adds a trait with the flags of its declaration
  refine Except.foldlM_ok (I := fun known : DeclaredTraits => ∀ n s span,
    known.find? n = some (s, span) → ∃ d ∈ decls, s.flags = d.flags) htraits
    (fun _ _ _ hs => by cases hs) (fun d hd known known' hknown hadd => ?_) n s span hs
  simp only [addTrait] at hadd
  split at hadd
  · cases hadd
  · split at hadd
    · cases hadd
    · split at hadd
      · cases hadd
      · rename_i s' hs'
        obtain rfl := Except.ok.inj hadd
        intro n s span hs
        rw [Dict.find?_set] at hs
        split at hs
        · obtain ⟨rfl, _⟩ := Prod.mk.inj (Option.some.inj hs)
          exact ⟨d, hd, (Signature.of_ofParams hs').2.2⟩
        · exact hknown n s span hs

/-- Parameters have different names, which are neither variables of singletons nor relations. -/
private theorem foldlM_checkParam {t : Table} {ps : List (ParamDecl TypeExpr)}
    {known known' : NameMap Span} (h : ps.foldlM (checkParam t) known = .ok known') :
    ∀ p ∈ ps, t.singletonOf.find? p.name.value = none ∧ t.store.find? p.name.value = none := by
  induction ps generalizing known with
  | nil => simp
  | cons p ps ih =>
    simp only [List.foldlM_cons, Except.bind_eq_ok] at h
    obtain ⟨mid, hmid, h⟩ := h
    intro q hq
    rcases List.mem_cons.1 hq with rfl | hq
    · simp only [checkParam] at hmid
      split at hmid
      · cases hmid
      · split at hmid
        · cases hmid
        · rename_i hclash
          simpa [relation?] using hclash
    · exact ih h q hq

/-- What giving arguments to some parameters may change: relations, variables and nested relations
with the names of the parameters, and the arena. -/
structure BindsOnly (names : List String) (t t' : Table) : Prop where
  store : ∀ n, n ∉ names → t'.store.find? n = t.store.find? n
  named : t.store.Named → t'.store.Named
  globals : ∀ n, n ∉ names → t'.globals.find? n = t.globals.find? n
  nested : ∀ n ∈ t'.nested.toList, n ∈ t.nested.toList ∨ n ∈ names
  others : t' = { t with
    store := t'.store, globals := t'.globals, nested := t'.nested, arena := t'.arena }

/-- No argument changes nothing. -/
private theorem BindsOnly.refl (t : Table) : BindsOnly [] t t :=
  ⟨fun _ _ => rfl, fun h => h, fun _ _ => rfl, fun _ h => .inl h, rfl⟩

/-- Arguments for some parameters and for more of them. -/
private theorem BindsOnly.trans {names more : List String} {t t' t'' : Table}
    (h : BindsOnly names t t') (h' : BindsOnly more t' t'') :
    BindsOnly (names ++ more) t t'' where
  store n hn := by
    rw [List.mem_append, not_or] at hn
    rw [h'.store n hn.2, h.store n hn.1]
  named hn := h'.named (h.named hn)
  globals n hn := by
    rw [List.mem_append, not_or] at hn
    rw [h'.globals n hn.2, h.globals n hn.1]
  nested n hn := by
    rw [List.mem_append]
    rcases h'.nested n hn with hn | hn
    · exact (h.nested n hn).imp_right .inl
    · exact .inr (.inr hn)
  others := by rw [h'.others, h.others]

/-- The relation of an argument has the signature of its parameter. -/
theorem signature_of_relationArgument {program : Program}
    {solved? : String → String → Option Relation} {s : Signature} {arg : Argument} {r : Relation}
    (h : program.relationArgument solved? s arg = .ok r) : r.signature = s := by
  obtain ⟨_, _, _, _, _, _, _, _, _, _, rfl⟩ := Program.relationArgument_eq_ok.1 h
  rfl

/-- A parameter with a relation type gets a relation of another instance. -/
theorem bindArgument_of_relation {solved? : String → String → Option Relation} {t : Table}
    {p : ParamDecl TypeExpr} {owner : String} {params : List Param}
    (h : ParamType.resolve p.name.value p.type = .ok (.relation owner params)) (arg : Argument) :
    t.bindArgument solved? p arg =
      (t.program.relationArgument solved? ⟨owner, params, { isAbstract := true }⟩ arg).map fun r =>
        { t with nested := Catalog.insert t.nested p.name.value, store := t.store.put r } := by
  rw [bindArgument, h]
  rfl

/-- An argument is a relation of another instance, or an entity. -/
theorem bindArgument_cases {solved? : String → String → Option Relation} {t t' : Table}
    {p : ParamDecl TypeExpr} {arg : Argument} (h : bindArgument solved? t p arg = .ok t') :
    ∃ type, ParamType.resolve p.name.value p.type = .ok type ∧
      ((∃ owner params r, type = .relation owner params ∧
          t.program.relationArgument solved? ⟨owner, params, { isAbstract := true }⟩ arg = .ok r ∧
          t' = { t with nested := Catalog.insert t.nested p.name.value, store := t.store.put r }) ∨
        ∃ e arena, t.program.argument t.arena p.name.value type arg = .ok (e, arena) ∧
          t' = { t with arena, globals := t.globals.bind p.name.value e }) := by
  simp only [bindArgument, Except.bind_eq_ok, Except.mapError_eq_ok] at h
  obtain ⟨type, htype, h⟩ := h
  refine ⟨type, htype, ?_⟩
  -- relations are put into the store, and other arguments are bound
  split at h
  · rename_i owner params
    simp only [Except.bind_eq_ok, Except.pure_eq_ok] at h
    obtain ⟨r, hr, rfl⟩ := h
    exact .inl ⟨owner, params, r, rfl, hr, rfl⟩
  · simp only [Except.bind_eq_ok, Except.pure_eq_ok] at h
    obtain ⟨⟨e, arena⟩, he, rfl⟩ := h
    exact .inr ⟨e, arena, he, rfl⟩

/-- The arguments are as many as the parameters, and are given in turn. -/
theorem foldlM_of_bindArguments {solved? : String → String → Option Relation} {t t' : Table}
    {params : List (ParamDecl TypeExpr)} {args : List Argument}
    (h : t.bindArguments solved? params args = .ok t') :
    params.length = args.length ∧ (∃ known, params.foldlM (checkParam t) ∅ = .ok known) ∧
      (params.zip args).foldlM (fun t (p, arg) =>
        (bindArgument solved? t p arg).mapError (ConstructError.argument p.name.span)) t = .ok t' := by
  simp only [bindArguments, Except.bind_eq_ok] at h
  obtain ⟨known, hknown, h⟩ := h
  split at h
  · simp at h
  · rename_i hlength
    exact ⟨not_not.1 hlength, ⟨known, hknown⟩, h⟩

/-- What every single argument keeps is kept by all of them. -/
theorem keeps_bindArguments {solved? : String → String → Option Relation} {t t' : Table}
    {params : List (ParamDecl TypeExpr)} {args : List Argument} {I : Table → Prop}
    (hstep : ∀ p arg t t', I t → bindArgument solved? t p arg = .ok t' → I t')
    (h : t.bindArguments solved? params args = .ok t') (ht : I t) : I t' :=
  Except.foldlM_ok (foldlM_of_bindArguments h).2.2 ht fun x _ t t' ht h =>
    hstep x.1 x.2 t t' ht (Except.mapError_eq_ok.1 h)

/-- One argument changes what has the name of its parameter. -/
private theorem bindsOnly_of_bindArgument {solved? : String → String → Option Relation}
    {t t' : Table} {p : ParamDecl TypeExpr} {arg : Argument}
    (h : bindArgument solved? t p arg = .ok t') : BindsOnly [p.name.value] t t' := by
  obtain ⟨type, htype, ⟨owner, params, r, rfl, hr, rfl⟩ | ⟨e, arena, _, rfl⟩⟩ := bindArgument_cases h
  · obtain rfl := ParamType.owner_of_resolve htype
    have hname : r.name = p.name.value := by
      rw [Relation.name, signature_of_relationArgument hr]
    refine ⟨fun n hn => ?_, fun h => h.put r, fun _ _ => rfl, fun n hn => ?_, rfl⟩
    · rw [List.mem_singleton] at hn
      show (Store.put _ _).find? n = _
      rw [Store.put, Dict.find?_set, hname, if_neg hn]
    · rcases NameSet.mem_insert.1 hn with rfl | hn
      · exact .inr (List.mem_singleton.2 rfl)
      · exact .inl hn
  · refine ⟨fun _ _ => rfl, fun h => h, fun n hn => ?_, fun _ h => .inl h, rfl⟩
    rw [List.mem_singleton] at hn
    exact Bindings.find?_bind_of_ne hn _ _

/-- Arguments that are given in turn change what has the names of their parameters. -/
private theorem bindsOnly_of_foldlM {solved? : String → String → Option Relation}
    {l : List (ParamDecl TypeExpr × Argument)} {t t' : Table}
    (h : l.foldlM (fun t (p, arg) =>
      (bindArgument solved? t p arg).mapError (ConstructError.argument p.name.span)) t = .ok t') :
    BindsOnly (l.map (·.1.name.value)) t t' := by
  induction l generalizing t with
  | nil =>
    simp only [List.foldlM_nil, Except.pure_eq_ok] at h
    exact h ▸ .refl t
  | cons x l ih =>
    simp only [List.foldlM_cons, Except.bind_eq_ok, Except.mapError_eq_ok] at h
    obtain ⟨mid, hmid, h⟩ := h
    exact (bindsOnly_of_bindArgument hmid).trans (ih h)

/-- Given arguments change what has the names of parameters, which nothing had before. -/
private theorem bindArguments_eq_ok {solved? : String → String → Option Relation} {t t' : Table}
    {params : List (ParamDecl TypeExpr)} {args : List Argument}
    (h : t.bindArguments solved? params args = .ok t') :
    BindsOnly (params.map (·.name.value)) t t' ∧
      ∀ p ∈ params, t.singletonOf.find? p.name.value = none ∧
        t.store.find? p.name.value = none := by
  obtain ⟨hlength, ⟨_, hknown⟩, hfold⟩ := foldlM_of_bindArguments h
  refine ⟨?_, foldlM_checkParam hknown⟩
  have hnames : (params.zip args).map (fun x => x.1.name.value) =
      params.map (fun p => p.name.value) := by
    conv_rhs => rw [← List.map_fst_zip hlength.le, List.map_map]
    rfl
  rw [← hnames]
  exact bindsOnly_of_foldlM hfold

/-- The names of one statement are different, and none of them was known before. -/
private theorem checkSingletons_eq_ok {place : Span} {ns : List String}
    {known known' : NameMap Span} (h : ns.foldlM (fun known name =>
      match known.find? name with
      | some first => Except.error (ConstructError.repeatedSingleton place first name)
      | none => .ok (known.set name place)) known = .ok known') :
    (∀ n ∈ ns, known.find? n = none) ∧ ns.Nodup ∧
      ∀ n, known'.find? n = none → known.find? n = none ∧ n ∉ ns := by
  induction ns generalizing known with
  | nil =>
    simp only [List.foldlM_nil, Except.pure_eq_ok] at h
    subst h
    exact ⟨by simp, List.nodup_nil, by simp⟩
  | cons n ns ih =>
    simp only [List.foldlM_cons, Except.bind_eq_ok] at h
    obtain ⟨mid, hmid, h⟩ := h
    split at hmid
    · cases hmid
    · rename_i hn
      obtain rfl := Except.ok.inj hmid
      obtain ⟨hnew, hnodup, hback⟩ := ih h
      -- A name that is not known now is not this one, and was not known before.
      have hset {m : String} (hm : (Dict.set known n place).find? m = none) :
          m ≠ n ∧ known.find? m = none := by
        rw [Dict.find?_set] at hm
        split at hm
        · cases hm
        · rename_i hne
          exact ⟨hne, hm⟩
      refine ⟨fun m hm => ?_, List.nodup_cons.2 ⟨fun hm => (hset (hnew n hm)).1 rfl, hnodup⟩,
        fun m hm => ?_⟩
      · rcases List.mem_cons.1 hm with rfl | hm
        · exact hn
        · exact (hset (hnew m hm)).2
      · obtain ⟨hm, hmem⟩ := hback m hm
        obtain ⟨hne, hm⟩ := hset hm
        exact ⟨hm, by simp [hne, hmem]⟩

/-- No name comes twice among those of some statements and those known before. -/
private theorem foldlM_checkSingletons {rs : List Realization} {known known' : NameMap Span}
    (h : rs.foldlM checkSingletons known = .ok known') :
    (∀ n ∈ rs.flatMap Realization.names, known.find? n = none) ∧
      (rs.flatMap Realization.names).Nodup := by
  induction rs generalizing known with
  | nil => simp
  | cons r rs ih =>
    simp only [List.foldlM_cons, Except.bind_eq_ok] at h
    obtain ⟨mid, hmid, h⟩ := h
    obtain ⟨hnew, hnodup⟩ := ih h
    obtain ⟨hnew₁, hnodup₁, hback⟩ := checkSingletons_eq_ok hmid
    rw [List.flatMap_cons]
    -- what one statement added is known when the next one is checked
    refine ⟨fun n hn => ?_, List.nodup_append.2 ⟨hnodup₁, hnodup, ?_⟩⟩
    · rcases List.mem_append.1 hn with hn | hn
      · exact hnew₁ n hn
      · exact (hback n (hnew n hn)).1
    · rintro a ha b hb rfl
      exact (hback a (hnew a hb)).2 ha

/-- The statements that are added are checked, realize declared traits, and realize no singleton twice. -/
theorem addStatements_eq_ok {t t' : Table} {traits : DeclaredTraits}
    {interface : Interface} {option : OptionDecl}
    (h : t.addStatements traits interface option = .ok t') :
    t' = { t with statements := t'.statements } ∧
      (∀ r ∈ t'.statements, r.Checked ∧
        ∀ s ∈ r.signatures, ∃ name span, traits.find? name = some (s, span)) ∧
      ((t'.statements.filter (·.isSingleton)).flatMap Realization.names).Nodup := by
  simp only [addStatements, Except.bind_eq_ok, Except.mapM_eq_ok, Except.pure_eq_ok] at h
  obtain ⟨first, hfirst, second, hsecond, known, hknown, ⟨⟩, _, rfl⟩ := h
  refine ⟨rfl, fun r hr => ?_, (foldlM_checkSingletons hknown).2⟩
  -- Both lists of statements look traits up among the declared ones.
  have hdeclared {name : String} {s : Signature} (h : (traits.find? name).map Prod.fst = some s) :
      ∃ name span, traits.find? name = some (s, span) := by
    obtain ⟨⟨_, span⟩, hfind, rfl⟩ := Option.map_eq_some_iff.1 h
    exact ⟨name, span, hfind⟩
  rcases List.mem_append.1 hr with hr | hr
  · obtain ⟨s, _, hs⟩ := hfirst.exists_left hr
    rw [Except.mapError_eq_ok] at hs
    obtain ⟨hchecked, hknown⟩ := Realization.checked_of_ofStatement hs
    refine ⟨hchecked, fun s hs => ?_⟩
    obtain ⟨name, hname⟩ := hknown s hs
    split at hname
    · exact hdeclared hname
    · cases hname
  · obtain ⟨s, _, hs⟩ := hsecond.exists_left hr
    rw [Except.mapError_eq_ok] at hs
    obtain ⟨hchecked, hknown⟩ := Realization.checked_of_ofStatement hs
    refine ⟨hchecked, fun s hs => ?_⟩
    obtain ⟨name, hname⟩ := hknown s hs
    exact hdeclared hname

/-- The statements of a table whose interface has none are those of the option, in their order. -/
theorem forall₂_of_addStatements {t t' : Table} {traits : DeclaredTraits} {interface : Interface}
    {option : OptionDecl} (hnone : interface.statements = [])
    (h : t.addStatements traits interface option = .ok t') :
    List.Forall₂ (fun s r => Realization.ofStatement option.name.value .option
      (fun name => (traits.find? name).map Prod.fst) s = .ok r) option.statements t'.statements := by
  simp only [addStatements, hnone, Except.bind_eq_ok, Except.mapM_eq_ok, Except.pure_eq_ok] at h
  obtain ⟨first, hfirst, second, hsecond, _, _, ⟨⟩, _, rfl⟩ := h
  obtain rfl := List.forall₂_nil_left_iff.1 hfirst
  exact hsecond.imp fun _ _ h => Except.mapError_eq_ok.1 h

/-! ### Constructed tables -/

/-- What holds of a table before any of its statements is run. -/
structure Constructed (t : Table) : Prop where
  named : t.store.Named
  copiedTo : ∃ r, t.store.find? BuiltinRelation.copiedTo = some r ∧ r.signature.arity = 2
  checked : ∀ r ∈ t.statements, r.Checked
  /-- A relation that a statement realizes is registered and empty. -/
  registered : ∀ r ∈ t.statements, ∀ s ∈ r.signatures,
    ∃ rel, t.store.find? s.name = some rel ∧ rel.signature = s ∧ rel.tuples = ∅
  notCopiedTo : ∀ r ∈ t.statements, ∀ s ∈ r.signatures, s.name ≠ BuiltinRelation.copiedTo
  notNested : ∀ r ∈ t.statements, ∀ s ∈ r.signatures, s.name ∉ t.nested.toList
  /-- No two statements realize one singleton. -/
  singletons : ((t.statements.filter (·.isSingleton)).flatMap Realization.names).Nodup
  /-- The variables of a singleton are its own, and have no entity yet. -/
  ownVariables : ∀ r ∈ t.statements, ∀ s ∈ r.signatures, s.flags.isSingleton = true →
    ∀ p ∈ s.paramNames, t.singletonOf.find? p = some s.name ∧ t.globals.find? p = none
  /-- Every variable of a singleton belongs to a registered singleton. -/
  singletonOf : ∀ p n, t.singletonOf.find? p = some n →
    ∃ rel, t.store.find? n = some rel ∧ rel.signature.flags.isSingleton = true ∧
      p ∈ rel.signature.paramNames
  unsolved : t.solved = false

/-- Construction declares the traits, gives the arguments and adds the statements. -/
theorem exists_of_construct {program : Program} {settings : Settings}
    {solved? : String → String → Option Relation} {interface : Interface} {option : OptionDecl}
    {args : List Argument} {t : Table}
    (h : construct program settings solved? interface option args = .ok t) :
    ∃ traits t₁ t₂, (start program settings option).declare (interface.traits ++ option.traits) =
        .ok (traits, t₁) ∧
      t₁.bindArguments solved? (interface.params ++ option.params) args = .ok t₂ ∧
      t₂.addStatements traits interface option = .ok t := by
  simp only [construct] at h
  split at h
  · cases h
  · simp only [Except.mapError_eq_ok, Except.bind_eq_ok] at h
    obtain ⟨⟨traits, t₁⟩, hdeclare, t₂, hbind, hadd⟩ := h
    exact ⟨traits, t₁, t₂, hdeclare, hbind, hadd⟩

/-- What the steps of construction leave: `t₁` knows the declared traits besides the built-in relations, `t₂`
was given arguments for the parameters with the given names, and `t` has its statements. -/
private structure Stages (program : Program) (settings : Settings) (names : List String)
    (traits : DeclaredTraits) (t₁ t₂ t : Table) : Prop where
  knows : KnowsVariables traits t₁.singletonOf
  name : ∀ n s span, traits.find? n = some (s, span) → s.name = n
  nodup : ∀ n s span, traits.find? n = some (s, span) → s.paramNames.Nodup
  /-- A trait has a name that no built-in relation has. -/
  fresh : ∀ n s span, traits.find? n = some (s, span) → (seeds program).find? n = none
  store : ∀ n, t₁.store.find? n = match (seeds program).find? n with
    | some r => some r
    | none => (traits.find? n).map fun x => { signature := x.1, isStatic := x.1.flags.isStatic }
  program_eq : t₁.program = program
  settings_eq : t₁.settings = settings
  globals_eq : t₁.globals = .empty
  nested_eq : t₁.nested = ∅
  solved_eq : t₁.solved = false
  binds : BindsOnly names t₁ t₂
  /-- A parameter is neither a variable of a singleton nor a relation. -/
  params : ∀ n ∈ names, t₁.singletonOf.find? n = none ∧ t₁.store.find? n = none
  last : t = { t₂ with statements := t.statements }
  checked : ∀ r ∈ t.statements, r.Checked
  realized : ∀ r ∈ t.statements, ∀ s ∈ r.signatures, ∃ span, traits.find? s.name = some (s, span)
  singletons : ((t.statements.filter (·.isSingleton)).flatMap Realization.names).Nodup

/-- Construction goes through these stages. -/
private theorem stages_of_steps {program : Program} {settings : Settings}
    {solved? : String → String → Option Relation} {interface : Interface} {option : OptionDecl}
    {args : List Argument} {traits : DeclaredTraits} {t₁ t₂ t : Table}
    (hdeclare : (start program settings option).declare (interface.traits ++ option.traits) =
      .ok (traits, t₁))
    (hbind : t₁.bindArguments solved? (interface.params ++ option.params) args = .ok t₂)
    (hadd : t₂.addStatements traits interface option = .ok t) :
    Stages program settings ((interface.params ++ option.params).map (·.name.value)) traits t₁ t₂ t := by
  -- each step says what it changed, and the stages are put together from that
  obtain ⟨trace, hstart⟩ := exists_start program settings option
  rw [hstart] at hdeclare
  obtain ⟨htraits, hknows, hstore, ht₁⟩ := declare_eq_ok hdeclare
  obtain ⟨hbinds, hparams⟩ := bindArguments_eq_ok hbind
  obtain ⟨ht, hstatements, hsingletons⟩ := addStatements_eq_ok hadd
  exact {
    knows := hknows
    name := htraits.name
    nodup := htraits.nodup
    fresh := htraits.fresh
    store := hstore
    program_eq := by rw [ht₁]
    settings_eq := by rw [ht₁]
    globals_eq := by rw [ht₁]
    nested_eq := by rw [ht₁]
    solved_eq := by rw [ht₁]
    binds := hbinds
    params := fun n hn => by
      obtain ⟨p, hp, rfl⟩ := List.mem_map.1 hn
      exact hparams p hp
    last := ht
    checked := fun r hr => (hstatements r hr).1
    realized := fun r hr s hs => by
      obtain ⟨name, span, hfind⟩ := (hstatements r hr).2 s hs
      rw [htraits.name name s span hfind]
      exact ⟨span, hfind⟩
    singletons := hsingletons }

namespace Stages

variable {program : Program} {settings : Settings} {names : List String} {traits : DeclaredTraits}
  {t₁ t₂ t : Table} {n : String} {r : Relation} {s : Signature} {span : Span}

/-- A relation that is known before arguments are given is not the name of a parameter, and stays. -/
private theorem find?_eq_some (h : Stages program settings names traits t₁ t₂ t)
    (hr : t₁.store.find? n = some r) : n ∉ names ∧ t.store.find? n = some r := by
  have hn : n ∉ names := fun hn => by
    rw [(h.params n hn).2] at hr
    cases hr
  refine ⟨hn, ?_⟩
  rw [h.last]
  exact (h.binds.store n hn).trans hr

/-- Built-in relations stay. -/
private theorem builtin (h : Stages program settings names traits t₁ t₂ t)
    (hr : (seeds program).find? n = some r) : t.store.find? n = some r := by
  refine (h.find?_eq_some ?_).2
  rw [h.store, hr]

/-- A declared trait is registered as an empty relation, and is not the name of a parameter. -/
private theorem declared (h : Stages program settings names traits t₁ t₂ t)
    (hs : traits.find? n = some (s, span)) :
    n ∉ names ∧ t.store.find? n = some { signature := s, isStatic := s.flags.isStatic } := by
  refine h.find?_eq_some ?_
  rw [h.store, h.fresh n s span hs, hs]
  rfl

/-- No argument is given to the variable of a singleton. -/
private theorem variable_unbound (h : Stages program settings names traits t₁ t₂ t)
    (hs : traits.find? n = some (s, span)) (hsingle : s.flags.isSingleton = true) {p : String}
    (hp : p ∈ s.paramNames) : t.singletonOf.find? p = some n ∧ t.globals.find? p = none := by
  have howner := (h.knows.owner n s span hs hsingle p hp).1
  have hp : p ∉ names := fun hmem => by
    rw [(h.params p hmem).1] at howner
    cases howner
  have hsingletonOf : t.singletonOf = t₁.singletonOf := by rw [h.last, h.binds.others]
  refine ⟨hsingletonOf ▸ howner, ?_⟩
  rw [h.last]
  refine (h.binds.globals p hp).trans ?_
  rw [h.globals_eq]
  rfl

end Stages

/-- Construction makes a constructed table, with the settings that were asked for. -/
theorem constructed_of_construct {program : Program} {settings : Settings}
    {solved? : String → String → Option Relation} {interface : Interface} {option : OptionDecl}
    {args : List Argument} {t : Table}
    (h : construct program settings solved? interface option args = .ok t) :
    t.Constructed ∧ t.settings = settings := by
  obtain ⟨traits, t₁, t₂, hdeclare, hbind, hadd⟩ := exists_of_construct h
  have hstages := stages_of_steps hdeclare hbind hadd
  have hlast := hstages.last
  have hothers := hstages.binds.others
  obtain ⟨copied, hcopied, harity, -⟩ := copiedTo_of_builtins program
  refine ⟨?_, by rw [hlast, hothers, hstages.settings_eq]⟩
  exact {
    named := by
      rw [hlast]
      -- names are right among the built-in relations and stay so while arguments are bound
      refine hstages.binds.named fun name r hr => ?_
      rw [hstages.store] at hr
      split at hr
      · rename_i r' hr'
        have hnamed := named_foldl_seed program.builtins (s := ∅) Store.named_empty
        exact hnamed name r (hr' ▸ hr)
      · obtain ⟨⟨s, span⟩, hs, rfl⟩ := Option.map_eq_some_iff.1 hr
        exact hstages.name name s span hs
    copiedTo := ⟨copied, hstages.builtin hcopied, harity⟩
    checked := hstages.checked
    registered := by
      intro r hr s hs
      obtain ⟨span, hfind⟩ := hstages.realized r hr s hs
      exact ⟨_, (hstages.declared hfind).2, rfl, rfl⟩
    notCopiedTo := by
      intro r hr s hs e
      obtain ⟨span, hfind⟩ := hstages.realized r hr s hs
      have hfresh := hstages.fresh _ s span hfind
      rw [e, seeds, hcopied] at hfresh
      cases hfresh
    notNested := by
      intro r hr s hs hmem
      obtain ⟨span, hfind⟩ := hstages.realized r hr s hs
      rw [hlast] at hmem
      -- Only arguments are nested.
      rcases hstages.binds.nested _ hmem with hmem | hmem
      · rw [hstages.nested_eq] at hmem
        cases hmem
      · exact (hstages.declared hfind).1 hmem
    singletons := hstages.singletons
    ownVariables := by
      intro r hr s hs hsingle p hp
      obtain ⟨span, hfind⟩ := hstages.realized r hr s hs
      exact hstages.variable_unbound hfind hsingle hp
    singletonOf := by
      intro p n hp
      have hsingletonOf : t.singletonOf = t₁.singletonOf := by rw [hlast, hothers]
      rw [hsingletonOf] at hp
      obtain ⟨s, span, hfind, hsingle, hmem⟩ := hstages.knows.singleton p n hp
      exact ⟨_, (hstages.declared hfind).2, hsingle, hmem⟩
    unsolved := by rw [hlast, hothers, hstages.solved_eq] }

/-! ### Where relations come from -/

/-- How a relation of a constructed table came to be there. -/
inductive Origin (program : Program) (t : Table) (name : String) (r : Relation) : Prop where
  | builtin (hbuiltin : ∃ b ∈ program.builtins, b.signature.name = name)
      (hsingle : r.signature.flags.isSingleton = false) (hsigned : r.Signed)
  | declared (hfresh : ∀ b ∈ program.builtins, b.signature.name ≠ name)
      (hnodup : r.signature.paramNames.Nodup) (hempty : r.tuples = ∅)
      (hvars : r.signature.flags.isSingleton = true → ∀ p ∈ r.signature.paramNames,
        t.singletonOf.find? p = some name ∧ t.globals.find? p = none)
  | argument (hsingle : r.signature.flags.isSingleton = false) (hproper : r.Proper program.types)

/-- Built-in relations that are seeded in turn stand under their names, with tuples for their
signatures, where a name tells the signature. -/
private theorem builtin_of_foldl_seed {all : List BuiltinRelation}
    (hnames : (all.map (·.signature.name)).Nodup)
    (htuples : ∀ b ∈ all, ∀ u ∈ b.tuples, u.signature = b.signature) (l : List BuiltinRelation)
    (hl : ∀ b ∈ l, b ∈ all) {s : Store}
    (hs : ∀ n r, s.find? n = some r → (∃ b ∈ all, b.signature = r.signature) ∧ r.name = n ∧ r.Signed)
    {n : String} {r : Relation}
    (h : (l.foldl (fun s r => s.seed r.signature r.tuples) s).find? n = some r) :
    (∃ b ∈ all, b.signature = r.signature) ∧ r.name = n ∧ r.Signed := by
  induction l generalizing s with
  | nil => exact hs n r h
  | cons b l ih =>
    have hb := hl b (List.mem_cons_self ..)
    refine ih (fun c hc => hl c (List.mem_cons_of_mem _ hc)) (fun m q hq => ?_) h
    rw [Store.find?_seed] at hq
    split at hq
    · rename_i heq
      obtain rfl := Option.some.inj hq
      rw [Relation.name, Relation.signature_foldl_insert]
      cases hold : s.find? b.signature.name with
      | none => exact ⟨⟨b, hb, rfl⟩, heq.symm, Relation.Signed.foldl_insert (.of_empty rfl) (htuples b hb)⟩
      | some old =>
        -- what stands under the name already has the same signature
        obtain ⟨⟨c, hc, hsignature⟩, hname, hsigned⟩ := hs _ old hold
        have hsame : c.signature.name = b.signature.name := by rw [hsignature]; exact hname
        obtain rfl := List.inj_on_of_nodup_map hnames hc hb hsame
        exact ⟨⟨c, hc, hsignature⟩, hname.trans heq.symm,
          hsigned.foldl_insert fun u hu => (htuples c hc u hu).trans hsignature⟩
    · exact hs m q hq

/-- The relations that a table starts with are built in, and no singletons. -/
private theorem builtin_of_seeds {program : Program} {n : String} {r : Relation}
    (h : (program.builtins.foldl (fun s r => s.seed r.signature r.tuples) (∅ : Store)).find? n =
      some r) :
    (∃ b ∈ program.builtins, b.signature.name = n) ∧ r.signature.flags.isSingleton = false ∧
      r.Signed := by
  -- All of them are made from rows, and their names are different.
  have hrows : ∀ b ∈ program.builtins, ∃ name params rows, b = .ofRows name params rows := by
    intro b hb
    simp only [Program.builtins, List.mem_cons, List.not_mem_nil, or_false] at hb
    rcases hb with rfl | rfl | rfl | rfl | rfl | rfl | rfl | rfl <;> exact ⟨_, _, _, rfl⟩
  have hnames : (program.builtins.map (·.signature.name)).Nodup := by
    show ["declares-field", "declares-method", "has-annotation", "invokes", "call-target",
      "declared-by", "superclass-of", BuiltinRelation.copiedTo].Nodup
    decide
  have htuples : ∀ b ∈ program.builtins, ∀ u ∈ b.tuples, u.signature = b.signature := by
    intro b hb u hu
    obtain ⟨name, params, rows, rfl⟩ := hrows b hb
    exact BuiltinRelation.signature_of_mem_tuples hu
  obtain ⟨⟨b, hb, hsignature⟩, rfl, hsigned⟩ := builtin_of_foldl_seed hnames htuples program.builtins
    (fun _ hb => hb) (fun _ _ h => by cases h) h
  refine ⟨⟨b, hb, congrArg Signature.name hsignature⟩, ?_, hsigned⟩
  obtain ⟨name, params, rows, rfl⟩ := hrows b hb
  rw [← hsignature]
  rfl

/-- Built-in relations are registered from the start. -/
private theorem isSome_of_foldl_seed (l : List BuiltinRelation) {s : Store} {n : String}
    (h : (s.find? n).isSome = true ∨ ∃ b ∈ l, b.signature.name = n) :
    ((l.foldl (fun s r => s.seed r.signature r.tuples) s).find? n).isSome = true := by
  induction l generalizing s with
  | nil => exact h.elim id fun ⟨b, hb, _⟩ => absurd hb List.not_mem_nil
  | cons b l ih =>
    refine ih ?_
    rw [Store.find?_seed]
    split
    · exact .inl rfl
    · rename_i hne
      refine h.imp_right ?_
      rintro ⟨c, hc, rfl⟩
      rcases List.mem_cons.1 hc with rfl | hc
      · exact absurd rfl hne
      · exact ⟨c, hc, rfl⟩

/-- A relation type has parameters with different names. -/
private theorem ParamType.nodup_of_resolve {owner name : String} {type : TypeExpr}
    {params : List Param} (h : ParamType.resolve owner type = .ok (.relation name params)) :
    (params.map Named.name).Nodup := by
  cases type with
  | category c =>
    simp only [ParamType.resolve] at h
    split at h <;> simp at h
  | program t => simp [ParamType.resolve] at h
  | relation ps =>
    simp only [ParamType.resolve, Except.bind_eq_ok, Except.pure_eq_ok, ParamType.relation.injEq] at h
    obtain ⟨_, _, ⟨⟩, hparams, _, rfl⟩ := h
    exact (nodup_of_checkParams hparams).2

/-- The tuples of another relation become tuples of the parameter. -/
private theorem proper_of_relationArgument {program : Program}
    {solved? : String → String → Option Relation} {s : Signature} {arg : Argument} {r : Relation}
    (hs : s.paramNames.Nodup) (h : program.relationArgument solved? s arg = .ok r) :
    r.Proper program.types := by
  obtain ⟨_, _, _, _, _, _, _, _, _, hus, rfl⟩ := Program.relationArgument_eq_ok.1 h
  refine ⟨hs, fun v hv => ?_⟩
  obtain ⟨u, _, hu⟩ := hus.exists_left (Catalog.mem_of_mem_ofListFirst hv)
  obtain ⟨hsignature, hfact, htakes⟩ := Program.argumentTuple_eq_ok.1 hu
  exact ⟨hsignature, fun x hx => htakes x (hfact.values ▸ hx)⟩

/-- What holds while arguments are given: the wildcard is unbound, and new relations are proper. -/
private structure TakesArguments (t t' : Table) : Prop where
  program : t'.program = t.program
  wildcard : t'.globals.find? CodeRules.wildcard = none
  relations : ∀ n r, t'.store.find? n = some r → t.store.find? n = some r ∨
    r.signature.flags.isSingleton = false ∧ r.Proper t.program.types

/-- One more argument is given. -/
private theorem TakesArguments.bindArgument {solved? : String → String → Option Relation}
    {t t' t'' : Table} {p : ParamDecl TypeExpr} {arg : Argument} (h : TakesArguments t t')
    (hbind : t'.bindArgument solved? p arg = .ok t'') : TakesArguments t t'' := by
  obtain ⟨type, htype, ⟨owner, params, r, rfl, hr, rfl⟩ | ⟨e, arena, _, rfl⟩⟩ :=
    bindArgument_cases hbind
  · refine ⟨h.program, h.wildcard, fun n q hq => ?_⟩
    -- a relation that was given is one of the new ones
    rw [Store.put, Dict.find?_set] at hq
    split at hq
    · obtain rfl := Option.some.inj hq
      rw [← h.program]
      refine .inr ⟨?_, proper_of_relationArgument (ParamType.nodup_of_resolve htype) hr⟩
      rw [signature_of_relationArgument hr]
    · exact h.relations n q hq
  · refine ⟨h.program, ?_, h.relations⟩
    by_cases hname : p.name.value = CodeRules.wildcard
    · -- binding the wildcard does nothing
      rw [Bindings.bind, Bindings.bind?, if_pos hname]
      exact h.wildcard
    · exact (Bindings.find?_bind_of_ne (Ne.symm hname) _ _).trans h.wildcard

/-- Every relation of a constructed table is built in, or empty with variables that are unbound, or
proper; and the wildcard is unbound. -/
theorem origin_of_construct {program : Program} {settings : Settings}
    {solved? : String → String → Option Relation} {interface : Interface} {option : OptionDecl}
    {args : List Argument} {t : Table}
    (h : construct program settings solved? interface option args = .ok t) :
    t.program = program ∧ t.globals.find? wildcard = none ∧
      ∀ n r, t.store.find? n = some r → t.Origin program n r := by
  obtain ⟨traits, t₁, t₂, hdeclare, hbind, hadd⟩ := exists_of_construct h
  have hstages := stages_of_steps hdeclare hbind hadd
  have htakes : TakesArguments t₁ t₂ := by
    refine keeps_bindArguments (fun _ _ _ _ ht h => ht.bindArgument h) hbind ⟨rfl, ?_, fun _ _ h => .inl h⟩
    rw [hstages.globals_eq]
    rfl
  have hprogram : t₁.program = program := hstages.program_eq
  rw [hstages.last]
  refine ⟨htakes.program.trans hprogram, htakes.wildcard, fun n r hr => ?_⟩
  rw [← hstages.last]
  -- A relation was there before the arguments, and is built in or declared, or it is an argument.
  rcases htakes.relations n r hr with hr | ⟨hsingle, hproper⟩
  · rw [hstages.store] at hr
    split at hr
    · rename_i q hq
      obtain rfl := Option.some.inj hr
      obtain ⟨hbuiltin, hsingle, hsigned⟩ := builtin_of_seeds hq
      exact .builtin hbuiltin hsingle hsigned
    · rename_i hnone
      obtain ⟨⟨s, span⟩, hs, rfl⟩ := Option.map_eq_some_iff.1 hr
      refine .declared (fun b hb hname => ?_) (hstages.nodup n s span hs) rfl fun hsingle p hp =>
        hstages.variable_unbound hs hsingle hp
      have hregistered := isSome_of_foldl_seed program.builtins (s := ∅) (.inr ⟨b, hb, hname⟩)
      rw [seeds] at hnone
      rw [hnone] at hregistered
      cases hregistered
  · exact .argument hsingle (hprogram ▸ hproper)

/-- Built-in relations are as they were seeded, since no parameter has the name of one. -/
theorem find?_builtin_of_construct {program : Program} {settings : Settings}
    {solved? : String → String → Option Relation} {interface : Interface} {option : OptionDecl}
    {args : List Argument} {t : Table}
    (h : construct program settings solved? interface option args = .ok t) {n : String} {r : Relation}
    (hr : (program.builtins.foldl (fun s r => s.seed r.signature r.tuples) (∅ : Store)).find? n =
      some r) : t.store.find? n = some r := by
  obtain ⟨traits, t₁, t₂, hdeclare, hbind, hadd⟩ := exists_of_construct h
  exact (stages_of_steps hdeclare hbind hadd).builtin hr

/-- Construction for the interface that the option names fails through the rules or arguments. -/
theorem isDefect_of_construct {program : Program} {settings : Settings}
    {solved? : String → String → Option Relation} {interface : Interface} {option : OptionDecl}
    {args : List Argument} {f : Failure} (hname : option.interface.value = interface.name.value)
    (h : construct program settings solved? interface option args = .error f) :
    f.isDefect = false := by
  rw [construct, if_neg (not_not.2 hname)] at h
  obtain ⟨e, _, rfl⟩ := Except.mapError_eq_error.1 h
  rfl

end Table

end CodeRules
