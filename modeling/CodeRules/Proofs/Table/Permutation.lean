import CodeRules.Proofs.Goal.Growth
import CodeRules.Proofs.Table.Confluence
import CodeRules.Proofs.Table.Uniform

/-!
# Statements in any order

Options with the same statements in another order are solved to the same relations and variables
(`Table.agrees_of_perm`): their tables differ in the order of the statements only, and both runs are
complete runs of these statements. Entities must be uniform, since a list of a node that was read and
one that was made counts as the same when the two change places.
-/

namespace CodeRules

open Effect Schedule

variable {base : UInt32}

/-- The signature of a relation, and what its tuples are compared by. -/
def Relation.extent (r : Relation) : Signature × List Shape :=
  (r.signature, r.tuples.toList.map Tuple.shape)

namespace Table

/-- Two tables know the same relations, with the same tuples, and in both the same variables are bound, to
entities that alias each other. -/
structure Agrees (t t' : Table) : Prop where
  relations : ∀ n, (t'.store.find? n).map Relation.extent = (t.store.find? n).map Relation.extent
  globals : ∀ v, (t'.globals.find? v).map Entity.located = (t.globals.find? v).map Entity.located

/-! ### Constructed tables -/

section

variable {program : Program} {settings : Settings} {solved? : String → String → Option Relation}
  {interface : Interface} {option : OptionDecl} {args : List Argument} {t t' : Table}

/-- Nothing is the result of the variables of a constructed table. -/
theorem result_of_construct (h : construct program settings solved? interface option args = .ok t) :
    t.globals.result = none := by
  obtain ⟨traits, t₁, t₂, hdeclare, hbind, hadd⟩ := exists_of_construct h
  obtain ⟨trace, hstart⟩ := exists_start program settings option
  obtain ⟨_, _, _, ht₁⟩ := declare_eq_ok hdeclare
  have hresult₁ : t₁.globals.result = none := by
    rw [ht₁, hstart]
    rfl
  have hresult₂ : t₂.globals.result = none := by
    -- arguments bind names, and the result has none
    refine keeps_bindArguments (I := fun t => t.globals.result = none) (fun p arg t t' ht h => ?_)
      hbind hresult₁
    obtain ⟨_, _, ⟨_, _, _, _, _, rfl⟩ | ⟨e, _, _, rfl⟩⟩ := bindArgument_cases h
    · exact ht
    · exact (t.globals.result_bind p.name.value e).trans ht
  rw [(addStatements_eq_ok hadd).1]
  exact hresult₂

/-- Statements realize local traits only if some are declared. -/
theorem isLocal_of_construct (hlocal : ∀ d ∈ interface.traits ++ option.traits, d.flags.isLocal = false)
    (h : construct program settings solved? interface option args = .ok t) :
    ∀ r ∈ t.statements, r.isLocal = false := by
  obtain ⟨traits, t₁, t₂, hdeclare, _, hadd⟩ := exists_of_construct h
  intro r hr
  refine List.any_eq_false.2 fun s hs => ?_
  obtain ⟨name, span, htrait⟩ := ((addStatements_eq_ok hadd).2.1 r hr).2 s hs
  obtain ⟨d, hd, hflags⟩ := exists_flags_of_declare hdeclare htrait
  rw [hflags, hlocal d hd]
  exact Bool.false_ne_true

/-- The statements of a table whose interface has none are of the option, and have the bodies that are
written there. -/
theorem exists_statement_of_construct (hinterface : interface.statements = [])
    (h : construct program settings solved? interface option args = .ok t) :
    ∀ r ∈ t.statements, r.level = .option ∧ ∃ s ∈ option.statements, r.body = s.body := by
  obtain ⟨_, _, _, _, _, hadd⟩ := exists_of_construct h
  intro r hr
  obtain ⟨s, hs, hr⟩ := (forall₂_of_addStatements hinterface hadd).exists_left hr
  obtain ⟨hlevel, hbody⟩ := Realization.eq_of_ofStatement hr
  exact ⟨hlevel, s, hs, hbody⟩

/-- Tables of options with the same statements in another order differ in the order of their statements
only. -/
theorem perm_of_construct {statements : List Statement} (hinterface : interface.statements = [])
    (hperm : statements.Perm option.statements)
    (h : construct program settings solved? interface option args = .ok t)
    (h' : construct program settings solved? interface { option with statements } args = .ok t') :
    t' = { t with statements := t'.statements } ∧ t'.statements.Perm t.statements := by
  obtain ⟨traits, t₁, t₂, hdeclare, hbind, hadd⟩ := exists_of_construct h
  obtain ⟨traits', t₁', t₂', hdeclare', hbind', hadd'⟩ := exists_of_construct h'
  -- the statements do not matter before they are added
  obtain ⟨rfl, rfl⟩ := Prod.mk.inj (Except.ok.inj (hdeclare'.symm.trans hdeclare))
  obtain rfl := Except.ok.inj (hbind'.symm.trans hbind)
  constructor
  · rw [(addStatements_eq_ok hadd).1]
    exact (addStatements_eq_ok hadd').1
  · have hchecked := forall₂_of_addStatements hinterface hadd
    have hchecked' := forall₂_of_addStatements hinterface hadd'
    -- each statement is checked by itself, so the checked statements are permuted in the same way
    obtain ⟨rs, hrs, hpermuted⟩ := List.perm_comp_forall₂ hperm hchecked
    have hunique : Relator.RightUnique fun s r => Realization.ofStatement option.name.value .option
        (fun name => (traits'.find? name).map Prod.fst) s = .ok r :=
      fun s r r' hr hr' => Except.ok.inj (hr.symm.trans hr')
    rwa [List.right_unique_forall₂' hunique hchecked' hrs]

end

/-! ### Runs -/

/-- The context of a table knows its relations. -/
theorem find?_signatures_context {t : Table} {r : Relation} {n : String} (hnamed : t.store.Named)
    (hr : t.store.find? n = some r) (complete : NameSet) :
    (t.context complete).signatures.find? n = some r.signature := by
  have hmem : (n, r.signature) ∈ t.store.values.map fun r => (r.name, r.signature) :=
    List.mem_map.2 ⟨r, Dict.mem_values_iff.2 ⟨n, hr⟩, by rw [hnamed n r hr]⟩
  have hunique : ∀ x ∈ t.store.values.map fun r => (r.name, r.signature), x.1 = n →
      x = (n, r.signature) := by
    intro x hx heq
    obtain ⟨r', hr', rfl⟩ := List.mem_map.1 hx
    obtain ⟨m, hm⟩ := Dict.mem_values_iff.1 hr'
    obtain rfl : m = n := (hnamed m r' hm).symm.trans heq
    rw [Option.some.inj (hm.symm.trans hr), hnamed m r hr]
  exact congrArg (Option.map Prod.snd) (Catalog.get?_ofListLast hmem hunique)

/-- A table with plain statements and singletons of the option only, all of them uniform, that has not
been solved. -/
structure Ready (base : UInt32) (t : Table) : Prop extends t.Constructed where
  uniform : t.Uniform base
  fits : t.Fits base
  sound : t.Sound t.program t.statements
  origin : ∀ n r, t.store.find? n = some r → t.Origin t.program n r
  result : t.globals.result = none
  notLocal : ∀ r ∈ t.statements, r.isLocal = false
  level : ∀ r ∈ t.statements, r.level = .option
  equates : ∀ r ∈ t.statements, r.body.equatesPattern = false
  bodies : ∀ r ∈ t.statements, ∀ x ∈ r.body.entities, x.Uniform base

namespace Ready

variable {t s : Table} {rank : String → Nat} {all : List Realization}

/-- The statements are orderly before the first of them runs: no trait that they realize is complete. -/
theorem orderly (h : t.Ready base) : Orderly (t.context t.nested) t.statements where
  checked := h.checked
  openIn r hr := {
    known := fun s hs => by
      obtain ⟨rel, hrel, hsignature, _⟩ := h.registered r hr s hs
      rw [find?_signatures_context h.named hrel, hsignature]
    incomplete := fun s hs => by
      rw [← Bool.not_eq_true, NameSet.contains_iff]
      exact h.notNested r hr s hs }
  notLocal := h.notLocal
  singletons := h.singletons

/-- The table is a start of a run of all its statements. -/
theorem starts (h : t.Ready base) : t.Starts base (t.context t.nested) t.statements where
  orderly := h.orderly
  registered r hr s hs := by
    obtain ⟨rel, hrel, hsignature, _⟩ := h.registered r hr s hs
    rw [Store.signature?, hrel, Option.map_some, hsignature]
  owner r hr v hv := by
    obtain ⟨hsingle, s, hs, hv⟩ := Realization.mem_binds_iff.1 hv
    have hflag := List.all_eq_true.1 hsingle s hs
    exact ⟨s, hs, (h.ownVariables r hr s hs hflag v hv).1, hflag, hv⟩
  result := h.result
  bodies := h.bodies

/-- A run to the end, with what is proper of singletons at its end. -/
private theorem completes (h : t.Ready base) (hranks : Ranks (t.context t.nested) all rank)
    (haccount : t.Account base all rank all s) (hsound : s.Sound t.program t.statements) :
    t.Completes base (t.context t.nested) all rank s where
  toAccount := haccount
  ranks := hranks
  singletons n r hr hsingle := by
    refine ⟨hsound.settled n r hr hsingle, ?_⟩
    rw [haccount.program]
    refine hsound.proper n r hr fun b hb hname => ?_
    -- a built-in relation is no singleton
    have hsignature := haccount.toFollows.signature?_eq n
    rw [Store.signature?, hr, Option.map_some] at hsignature
    obtain ⟨r₀, hr₀, hsame⟩ := Option.map_eq_some_iff.1 hsignature.symm
    cases h.origin n r₀ hr₀ with
    | builtin _ hnot _ | argument hnot _ =>
      rw [hsame, hsingle] at hnot
      cases hnot
    | declared hfresh _ _ _ => exact hfresh b hb hname
  wildcard := hsound.wildcard

/-- What remains of solving a table: its statements are run as one level, and the guards change neither
relations nor variables. -/
private theorem exists_run (h : t.Ready base) (hok : t.solve.1 = .ok ()) :
    ∃ s, (t.statements = [] ∧ s = t ∨
        Gives (Running.runLevel .option t.statements t.nested) t () s) ∧
      t.solve.2.store = s.store ∧ t.solve.2.globals = s.globals := by
  have hlevels : ∀ {s}, Gives (runLevels t.nested [.interface, .option]) t () s →
      t.statements = [] ∧ s = t ∨ Gives (Running.runLevel .option t.statements t.nested) t () s := by
    intro s hlevels
    -- all statements are of the second level
    have hinterface : t.statements.filter (·.level == .interface) = [] :=
      List.filter_eq_nil_iff.2 fun r hr => by
        rw [h.level r hr]
        exact Bool.false_ne_true
    have hoption : t.statements.filter (·.level == .option) = t.statements :=
      List.filter_eq_self.2 fun r hr => by
        rw [h.level r hr]
        rfl
    obtain ⟨_, _, hget, hlevels⟩ := gives_bind.1 hlevels
    obtain ⟨rfl, rfl⟩ := gives_get.1 hget
    simp only [hinterface, List.isEmpty_nil, if_true] at hlevels
    obtain ⟨_, _, hget, hlevels⟩ := gives_bind.1 hlevels
    obtain ⟨rfl, rfl⟩ := gives_get.1 hget
    simp only [hoption] at hlevels
    split at hlevels
    · rename_i hempty
      exact .inl ⟨List.isEmpty_iff.1 hempty, (gives_pure.1 hlevels).2.symm⟩
    · obtain ⟨⟨⟩, s', hlevel, hrest⟩ := gives_bind.1 hlevels
      obtain ⟨_, rfl⟩ := gives_pure.1 hrest
      exact .inr hlevel
  have hrun : Gives run t () t.solve.2 := Prod.ext hok rfl
  -- a run of both levels and a check of the guards
  rw [run, gives_bind] at hrun
  obtain ⟨_, _, hget, hrun⟩ := hrun
  obtain ⟨rfl, rfl⟩ := gives_get.1 hget
  rw [h.unsolved, if_neg Bool.false_ne_true] at hrun
  obtain ⟨_, _, hget, hrun⟩ := gives_bind.1 hrun
  obtain ⟨rfl, rfl⟩ := gives_get.1 hget
  obtain ⟨⟨⟩, s, hstatements, hrun⟩ := gives_bind.1 hrun
  obtain ⟨⟨⟩, s', hguards, hrun⟩ := gives_bind.1 hrun
  have hchecked := ((Running.ends_checkGuards s).gives hguards).1
  rw [← gives_modify.1 hrun, hchecked.others]
  exact ⟨s, hlevels hstatements, rfl, rfl⟩

/-- A table that is solved has run its statements to the end. -/
theorem exists_completes (h : t.Ready base) (hperm : t.statements.Perm all) (hok : t.solve.1 = .ok ()) :
    ∃ rank s, t.Completes base (t.context t.nested) all rank s ∧
      t.solve.2.store = s.store ∧ t.solve.2.globals = s.globals := by
  obtain ⟨s, hrun, hstore, hglobals⟩ := h.exists_run hok
  suffices hcompletes : ∃ rank, t.Completes base (t.context t.nested) all rank s from
    hcompletes.imp fun rank hrank => ⟨s, hrank, hstore, hglobals⟩
  rcases hrun with ⟨hnone, rfl⟩ | hrun
  · obtain rfl := (hnone ▸ hperm).nil_eq
    have hranks : Ranks (s.context s.nested) [] fun _ => 0 :=
      ⟨fun _ hr => absurd hr List.not_mem_nil, fun _ hr => absurd hr List.not_mem_nil,
        fun _ hr => absurd hr List.not_mem_nil, fun _ hr => absurd hr List.not_mem_nil⟩
    exact ⟨_, h.completes hranks (.refl h.uniform) h.sound⟩
  · obtain ⟨rank, hranks, haccount⟩ := Running.exists_account h.uniform h.fits h.awaits h.orderly
      h.bodies h.equates hperm hrun
    have hstart : t.Sound t.program t.statements ∧ ∀ x ∈ t.statements ++ [], x ∈ t.statements :=
      ⟨h.sound, fun x hx => by rwa [List.append_nil] at hx⟩
    have hsound := ((Running.tableWalk_sound t.program t.statements).ends_runLevel .option t.nested
      hstart).gives hrun
    exact ⟨rank, h.completes hranks haccount hsound.1⟩

end Ready

/-! ### Agreement -/

/-- Complete runs of the same statements end with tables that agree. -/
theorem Completes.agrees {c : RelationContext} {all : List Realization} {rank rank' : String → Nat}
    {t t' s s' : Table} (hstart : t.Starts base c all) (hX : t.Completes base c all rank s)
    (hY : t'.Completes base c all rank' s') (hsame : t' = { t with statements := t'.statements }) :
    s.Agrees s' where
  relations n := by
    obtain ⟨hforth, hback⟩ := Completes.includes hstart hX hY hsame n
    have hstore : t'.store = t.store := by rw [hsame]
    -- signatures stay, so a relation that one run knows is known to the other
    have hsignature : s'.store.signature? n = s.store.signature? n := by
      rw [hX.toFollows.signature?_eq, hY.toFollows.signature?_eq, hstore]
    rw [Store.signature?, Store.signature?] at hsignature
    cases hr : s.store.find? n with
    | none =>
      rw [hr, Option.map_none, Option.map_eq_none_iff] at hsignature
      rw [hsignature]
    | some r =>
      rw [hr, Option.map_some] at hsignature
      obtain ⟨r', hr', hsame⟩ := Option.map_eq_some_iff.1 hsignature
      rw [hr', Option.map_some, Option.map_some]
      refine congrArg some (Prod.ext hsame (Catalog.map_key_eq fun k => ⟨fun hk => ?_, fun hk => ?_⟩))
      · obtain ⟨u, hu, rfl⟩ := Catalog.contains_iff.1 hk
        exact hback r' r hr' hr u hu
      · obtain ⟨u, hu, rfl⟩ := Catalog.contains_iff.1 hk
        exact hforth r r' hr hr' u hu
  globals v := by
    -- the normal forms are equal, and normalizing keeps what an entity aliases
    have hnormal := Completes.globals_eq hstart hX hY hsame v
    have hlocated : Entity.located ∘ Entity.normal base = Entity.located :=
      funext (Entity.located_normal base)
    have h := congrArg (Option.map Entity.located) hnormal
    rwa [Option.map_map, Option.map_map, hlocated] at h

section

variable {given : List Node} {free : UInt32} {program : Program} {settings : Settings}
  {solved? : String → String → Option Relation} {interface : Interface} {option : OptionDecl}
  {args : List Argument} {t t' : Table}
  (hprogram : program = (Program.ofClasses given).withIdBase free)
  (hgiven : ∀ c ∈ given, ∀ n ∈ c.preorder, n.IsRead ∧ n.id.word < program.idBase)
  (hargs : ∀ arg ∈ args, arg.Uniform program.idBase)
  (hfits : program.idBase.toNat + args.length ≤ UInt32.size)
  (hsolved : ∀ inst trait r, solved? inst trait = some r →
    ∀ u ∈ r.tuples.toList, ∀ e ∈ u.values, e.Uniform program.idBase)
  (hinterface : interface.statements = [])
  (hlocal : ∀ d ∈ interface.traits ++ option.traits, d.flags.isLocal = false)
  (hequates : ∀ s ∈ option.statements, s.body.equatesPattern = false)
  (hbodies : ∀ s ∈ option.statements, ∀ e ∈ s.body.entities, e.Uniform program.idBase)
include hprogram hgiven hargs hfits hsolved hinterface hlocal hequates hbodies

/-- A table that is constructed from uniform entities, for an interface without statements, is ready. -/
private theorem ready_of_construct
    (h : construct program settings solved? interface option args = .ok t) : t.Ready program.idBase := by
  have hbelow : program.Below program.idBase :=
    hprogram ▸ (Program.below_ofClasses (hprogram ▸ hgiven)).withIdBase free
  obtain ⟨huniform, hfits⟩ := uniform_of_construct hsolved hbelow
    (hprogram ▸ fun _ _ hn => Program.mem_of_node? hn) rfl hargs hfits h
  obtain ⟨heq, _, horigin⟩ := origin_of_construct h
  have hstatement := exists_statement_of_construct hinterface h
  -- what is proper of a constructed table, with the bodies that are written in the option
  exact {
    toConstructed := (constructed_of_construct h).1
    uniform := huniform
    fits := hfits
    sound := heq.symm ▸ sound_of_construct h
    origin := heq.symm ▸ horigin
    result := result_of_construct h
    notLocal := isLocal_of_construct hlocal h
    level := fun r hr => (hstatement r hr).1
    equates := fun r hr => by
      obtain ⟨_, s, hs, hbody⟩ := hstatement r hr
      exact hbody ▸ hequates s hs
    bodies := fun r hr => by
      obtain ⟨_, s, hs, hbody⟩ := hstatement r hr
      exact hbody ▸ hbodies s hs }

/-- Options with the same statements in another order are solved to the same relations and variables, when
all entities that they are given are uniform. -/
theorem agrees_of_perm {statements : List Statement} (hperm : statements.Perm option.statements)
    (h : construct program settings solved? interface option args = .ok t)
    (h' : construct program settings solved? interface { option with statements } args = .ok t')
    (hok : t.solve.1 = .ok ()) (hok' : t'.solve.1 = .ok ()) : t.solve.2.Agrees t'.solve.2 := by
  have hready := ready_of_construct hprogram hgiven hargs hfits hsolved hinterface hlocal hequates
    hbodies h
  have hready' : t'.Ready program.idBase := by
    refine ready_of_construct hprogram hgiven hargs hfits hsolved hinterface ?_ ?_ ?_ h'
    · exact hlocal
    · exact fun s hs => hequates s (hperm.mem_iff.1 hs)
    · exact fun s hs => hbodies s (hperm.mem_iff.1 hs)
  obtain ⟨hsame, hpermuted⟩ := perm_of_construct hinterface hperm h h'
  obtain ⟨rank, s, hX, hstore, hglobals⟩ := hready.exists_completes (.refl t.statements) hok
  obtain ⟨rank', s', hY, hstore', hglobals'⟩ := hready'.exists_completes hpermuted hok'
  -- the statements of a table do not count for its context
  have hcontext : t'.context t'.nested = t.context t.nested := by rw [hsame]; rfl
  have hagrees := Completes.agrees hready.starts hX (hcontext ▸ hY) hsame
  exact {
    relations := by
      rw [hstore, hstore']
      exact hagrees.relations
    globals := by
      rw [hglobals, hglobals']
      exact hagrees.globals }

end

end Table

/-! ### Two orders -/

namespace Orders

open Ones

/-- A trait with one parameter. -/
def trait (name param category : String) (flags : TraitFlags) : TraitDecl :=
  { name := .synthetic name, params := [⟨.synthetic param, .category category⟩], flags }

/-- What is given stands in a relation. -/
def holds (name param given : String) : Statement :=
  { realizes := [.synthetic name], body := .eq .synthetic (.var param) (.var given) }

/-- What the lists in the first relation start with. -/
def starts : Statement where
  realizes := [.synthetic "out"]
  body := .and [.trait .synthetic "first" [.var "x"],
    .matches .synthetic (.var "x") (.list .synthetic [.var .synthetic "y", .var .synthetic "_"])]

/-- The numbers that are there. -/
def numbers : Statement where
  realizes := [.synthetic "seen"]
  body := .matches .synthetic (.var "y") (.node .synthetic .literal [.var .synthetic "v"])

/-- Two lists are given. -/
def lists (statements : List Statement) : OptionDecl :=
  { name := .synthetic "lists", interface := .synthetic "common",
    params := [⟨.synthetic "a", .category "any"⟩, ⟨.synthetic "b", .category "any"⟩],
    traits := [trait "first" "x" "any" {}, trait "out" "y" "any" {}], statements }

/-- A number is given, and kept. -/
def kept (statements : List Statement) : OptionDecl :=
  { name := .synthetic "kept", interface := .synthetic "common",
    params := [⟨.synthetic "l", .program (.ofName "int")⟩],
    traits := [trait "seen" "y" "expression" {}], statements }

/-- An interface without statements. -/
def common (traits : List TraitDecl) : Interface := { name := .synthetic "common", traits }

/-- The class with one field. -/
def program : Program := (Program.ofClasses classes).withIdBase 4

/-- The table of an option. -/
def construction (interface : Interface) (option : OptionDecl) (args : List Argument) :
    Except Failure Table := Table.construct program {} (fun _ _ => none) interface option args

/-- An option without local traits, without equations with patterns and for an interface without
statements is solved with two orders of its statements, and the tables do not agree. -/
structure Matters (interface : Interface) (option : OptionDecl) (statements : List Statement)
    (args : List Argument) : Prop where
  noStatements : interface.statements = []
  notLocal : ∀ d ∈ option.traits, d.flags.isLocal = false
  equates : ∀ s ∈ option.statements, s.body.equatesPattern = false
  perm : statements.Perm option.statements
  differ : ∃ t t', construction interface option args = .ok t ∧
    construction interface { option with statements } args = .ok t' ∧
    t.solve.1 = .ok () ∧ t'.solve.1 = .ok () ∧ ¬ t.solve.2.Agrees t'.solve.2

/-- A table is constructed and solved. -/
def solves : Except Failure Table → Bool
  | .ok t => t.solve.1.isOk
  | .error _ => false

/-- What the tuples of a relation are compared by, after solving a table. -/
def shapes (n : String) : Except Failure Table → Option (List Shape)
  | .ok t => (t.solve.2.store.find? n).map fun r => r.tuples.toList.map Tuple.shape
  | .error _ => none

variable {interface : Interface} {option : OptionDecl} {statements : List Statement}
  {args : List Argument} {n : String}

/-- A table that is constructed and solved, as `solves` computes. -/
private theorem exists_solved {x : Except Failure Table} (h : solves x = true) :
    ∃ t, x = .ok t ∧ t.solve.1 = .ok () := by
  cases x with
  | error f => cases h
  | ok t =>
    refine ⟨t, rfl, ?_⟩
    rw [solves] at h
    cases hrun : t.solve.1 with
    | error f =>
      rw [hrun] at h
      cases h
    | ok u => rfl

/-- Tables with different tuples in a relation do not agree. -/
private theorem exists_differ (h : solves (construction interface option args) = true ∧
      solves (construction interface { option with statements } args) = true ∧
      shapes n (construction interface option args) ≠
        shapes n (construction interface { option with statements } args)) :
    ∃ t t', construction interface option args = .ok t ∧
      construction interface { option with statements } args = .ok t' ∧
      t.solve.1 = .ok () ∧ t'.solve.1 = .ok () ∧ ¬ t.solve.2.Agrees t'.solve.2 := by
  obtain ⟨h, h', hne⟩ := h
  obtain ⟨t, ht, hok⟩ := exists_solved h
  obtain ⟨t', ht', hok'⟩ := exists_solved h'
  refine ⟨t, t', ht, ht', hok, hok', fun hagrees => hne ?_⟩
  have hextent := congrArg (Option.map Prod.snd) (hagrees.relations n)
  rw [Option.map_map, Option.map_map] at hextent
  rw [ht, ht']
  exact hextent.symm

/-- Of the list of a number that was read and one that was made, and the list of them the other way round,
the first one found stays, so the order of the statements decides what it starts with. Patterns find what
local traits of the interface made before, so the order decides what they find. -/
theorem order_matters_for_mixed_lists_and_common_locals :
    (∀ c ∈ classes, ∀ n ∈ c.preorder, n.IsRead) ∧
      Matters (common []) (lists [holds "first" "x" "a", holds "first" "x" "b", starts])
        [holds "first" "x" "b", holds "first" "x" "a", starts]
        [.entity (.list [.node read, .node made]), .entity (.list [.node made, .node read])] ∧
      Matters (common [trait "made" "n" "expression" { isLocal := true }])
        (kept [holds "made" "n" "l", numbers]) [numbers, holds "made" "n" "l"] [.text "2"] := by
  refine ⟨fun c hc n hn => (read_of_classes c hc n hn).1, ?_, ?_⟩
  · exact {
      noStatements := rfl
      notLocal := by decide +kernel
      equates := by decide +kernel
      perm := .swap ..
      differ := exists_differ (n := "out") (by decide +kernel) }
  · exact {
      noStatements := rfl
      notLocal := by decide +kernel
      equates := by decide +kernel
      perm := .swap ..
      differ := exists_differ (n := "seen") (by decide +kernel) }

/-- The list of a number that was read, and the list of the number that was made, start with different
numbers, which are found in either order. -/
theorem agrees_of_perm_uniform_lists :
    let args : List Argument := [.entity (.list [.node read, .node read]),
      .entity (.list [.node made, .node made])]
    let there := lists [holds "first" "x" "a", holds "first" "x" "b", starts]
    ∃ t t', construction (common []) there args = .ok t ∧
      construction (common [])
        { there with statements := [holds "first" "x" "b", holds "first" "x" "a", starts] } args = .ok t' ∧
      t.solve.1 = .ok () ∧ t'.solve.1 = .ok () ∧
      (shapes "out" (construction (common []) there args)).map List.length = some 2 ∧
      t.solve.2.Agrees t'.solve.2 := by
  intro args there
  -- both orders are solved, and then the result about all orders applies
  obtain ⟨t, ht, hok⟩ := exists_solved (x := construction (common []) there args) (by decide +kernel)
  obtain ⟨t', ht', hok'⟩ := exists_solved (x := construction (common [])
    { there with statements := [holds "first" "x" "b", holds "first" "x" "a", starts] } args)
    (by decide +kernel)
  refine ⟨t, t', ht, ht', hok, hok', by decide +kernel, ?_⟩
  have hbase : program.idBase = 4 := by decide +kernel
  refine Table.agrees_of_perm rfl (hbase ▸ read_of_classes) (fun arg harg => ?_) (by decide +kernel)
    (fun _ _ _ h => by cases h) rfl (by decide +kernel) (by decide +kernel) (fun s hs e he => ?_)
    (.swap ..) ht ht' hok hok'
  · simp only [args, List.mem_cons, List.not_mem_nil, or_false] at harg
    show arg.Uniform program.idBase
    rw [hbase]
    rcases harg with rfl | rfl
    · exact .inl isRead_list_read
    · exact .inr isMade_list_made
  · have hnone : ∀ s ∈ there.statements, s.body.entities = [] := by decide +kernel
    rw [hnone s hs] at he
    cases he

end Orders

end CodeRules
