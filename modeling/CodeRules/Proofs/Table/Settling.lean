import CodeRules.Proofs.Goal.Domain
import CodeRules.Proofs.Table.Fixpoint
import Mathlib.Data.List.Sections

/-!
# Fixpoints settle

Statements that equate no patterns make no nodes, so all tuples that they can add are among finitely
many: those with values in the domain of the table (`Table.possible`). A pass adds no more tuples than
are missing (`Running.ends_pass`), and so passes come to an end however many are allowed, as long as
these are enough (`Running.exists_settling_passes`).
-/

namespace CodeRules

open Effect

namespace Table

variable {D : Entity → Prop} {t : Table} {u : Tuple}

/-- The table holds entities of a set only, and solving does not lead out of it. -/
structure Within (D : Entity → Prop) (t : Table) : Prop where
  world : t.world.Closes t.arena D
  store : t.store.ValuesIn D
  globals : t.globals.ValuesIn D

/-- The tuples with given signatures and with values among some entities. -/
def possible (signatures : List Signature) (domain : List Entity) : List Tuple :=
  signatures.flatMap fun s => (List.replicate s.arity domain).sections.filterMap fun values =>
    (Tuple.ofValues s values).toOption

/-- How many of some tuples the table does not hold. -/
def missing (tuples : List Tuple) (t : Table) : Nat := tuples.countP fun u => !t.store.holds u

/-- The entities that solving can meet in the table when its goals hold the known entities. -/
def domain (t : Table) (known : List Entity) : List Entity :=
  t.world.domain t.arena (known ++ t.globals.vars.values ++
    t.store.values.flatMap fun r => r.tuples.toList.flatMap Tuple.values)

/-- The same table with another number of passes that are allowed. -/
def withPasses (t : Table) (passes : Nat) : Table :=
  { t with settings := { t.settings with maxPasses := passes } }

/-- A tuple with one of the signatures and with values among the entities is possible. -/
theorem mem_possible {signatures : List Signature} {domain : List Entity}
    (hs : u.signature ∈ signatures) (hvalues : ∀ e ∈ u.values, e ∈ domain)
    (hroot : u.root = Tuple.rootOf u.values) : u ∈ possible signatures domain := by
  have hsections (values : List Entity) (h : ∀ e ∈ values, e ∈ domain) :
      values ∈ (List.replicate values.length domain).sections := by
    rw [List.mem_sections]
    induction values with
    | nil => exact .nil
    | cons e values ih =>
      exact .cons (h e (List.mem_cons_self ..)) (ih fun x hx => h x (List.mem_cons_of_mem _ hx))
  -- sections choose a value for each parameter independently, so every list of values is one
  refine List.mem_flatMap.2 ⟨u.signature, hs, List.mem_filterMap.2 ⟨u.values, ?_, ?_⟩⟩
  · rw [← u.complete]
    exact hsections u.values hvalues
  · exact Except.toOption_eq_some_iff.2 (Tuple.ofValues_eq_ok.2 ⟨rfl, rfl, hroot⟩)

/-- A table is within its own domain. -/
theorem within_domain (t : Table) (known : List Entity) : t.Within (· ∈ t.domain known) where
  world := World.closes_domain
  store n r hr u hu _ he := World.mem_domain_of_mem <| List.mem_append_right _ <|
    List.mem_flatMap.2 ⟨r, Dict.mem_values_iff.2 ⟨n, hr⟩, List.mem_flatMap.2 ⟨u, hu, he⟩⟩
  globals n _ he := World.mem_domain_of_mem <| List.mem_append_left _ <| List.mem_append_right _ <|
    Dict.mem_values_iff.2 ⟨n, he⟩

section

variable {rel : Relation} (hrel : t.store.find? u.signature.name = some rel) {t' : Table}
include hrel

/-- A tuple of such entities may be added. -/
theorem Within.add (ht : t.Within D) (hu : ∀ e ∈ u.values, D e)
    (ht' : t' = { t with
      store := Dict.set t.store u.signature.name (rel.insert u), trace := t'.trace }) :
    t'.Within D := by
  rw [ht']
  refine ⟨⟨ht.world.toCloses, ht.world.call, ht.world.known, ht.world.made⟩, ?_, ht.globals⟩
  intro n r hr v hv
  rw [Dict.find?_set] at hr
  split at hr
  · obtain rfl := Option.some.inj hr
    rcases Catalog.mem_of_mem_insert hv with rfl | hv
    · exact hu
    · exact ht.store _ rel hrel v hv
  · exact ht.store n r hr v hv

/-- A tuple that is added is missing no longer. -/
theorem missing_add {tuples : List Tuple} (hu : u ∈ tuples)
    (hstore : t'.store = Dict.set t.store u.signature.name (rel.insert u)) :
    t'.missing tuples + (if rel.contains u then 0 else 1) ≤ t.missing tuples := by
  -- relations grow, so no tuple becomes missing
  have hkept (v : Tuple) (hv : (!t'.store.holds v) = true) : (!t.store.holds v) = true := by
    rw [Bool.not_eq_true'] at hv ⊢
    rw [hstore] at hv
    exact Bool.eq_false_iff.2 fun hheld => Bool.eq_false_iff.1 hv ((t.follows_set hrel u).holds hheld)
  cases hcontains : rel.contains u with
  | true => exact List.countP_mono_left fun v _ => hkept v
  | false =>
    refine List.countP_lt_countP hu ?_ ?_ hkept
    · rw [hstore, Store.holds, Dict.find?_set, if_pos rfl, Option.any_some, Bool.not_eq_false']
      exact Catalog.contains_insert.2 (.inl rfl)
    · rw [Store.holds, hrel, Option.any_some, hcontains]
      rfl

end

end Table

/-- The failure says that a fixpoint was not reached within the allowed passes. -/
def Failure.IsUnsettled (f : Failure) : Prop := ∃ label passes, f = .defect (.unsettled label passes)

/-- What the user is told is no missing fixpoint. -/
theorem Failure.IsUser.not_isUnsettled {f : Failure} (h : f.IsUser) : ¬ f.IsUnsettled := by
  rintro ⟨label, passes, rfl⟩
  cases h

/-- A tuple takes its values from the solution. -/
theorem Tuple.valuesIn_of_ofSolution {D : Entity → Prop} {types : TypeOracle} {s : Signature}
    {b : Bindings} {u : Tuple} (hb : b.ValuesIn D) (h : ofSolution types s b = .ok u) :
    ∀ e ∈ u.values, D e := by
  intro e he
  have hsome : some e ∈ s.paramNames.map b.find? := by
    rw [(ofSolution_eq_ok.1 h).1.2.1]
    exact List.mem_map_of_mem he
  obtain ⟨name, _, hname⟩ := List.mem_map.1 hsome
  exact hb name e hname

namespace Running

variable {t : Table} {r : Realization} {g : Goal} {domain : List Entity}
  {signatures : List Signature} {arity : String → Option Nat}

/-- What passes over statements that make no nodes keep. -/
structure Steady (domain : List Entity) (arity : String → Option Nat) (t : Table) : Prop
    extends t.Within (· ∈ domain) where
  arity_eq : t.store.arity? = arity

/-- A goal that fits the relations, and makes no nodes. -/
structure Solvable (domain : List Entity) (arity : String → Option Nat) (g : Goal) : Prop where
  wellFormed : g.WellFormed arity
  equates : g.equatesPattern = false
  constants : g.ConstantsIn (· ∈ domain)

/-- A solvable goal has solutions within the domain, and solving it never fails to settle. -/
theorem ends_solutions_in (ht : Steady domain arity t) (hg : Solvable domain arity g) :
    Ends (solutions g) t
      (fun found t' => t' = t ∧ found.All (Bindings.ValuesIn (· ∈ domain)))
      (fun f _ => ¬ f.IsUnsettled) := by
  show Ends (get >>= _) t _ _
  rw [ends_bind, ends_get, ends_solving]
  have hfails := Goal.WellFormed.failsOnly_solve (w := t.world) (ht.arity_eq ▸ hg.wellFormed)
    t.globals t.arena
  have hyields := Goal.yields_valuesIn ht.world ht.store hg.constants hg.equates ht.globals t.arena rfl
  refine (hfails.and hyields).imp (fun found a h => ?_) fun f _ h => h.1.isUser.not_isUnsettled
  obtain ⟨_, hall, rfl⟩ := h
  exact ⟨rfl, hall⟩

/-- A tuple that is new was missing. -/
theorem ends_realize_missing {b : Bindings} {s : Signature} (ht : Steady domain arity t)
    (hs : s ∈ signatures) (hb : b.ValuesIn (· ∈ domain)) :
    Ends (realize r b s) t
      (fun o t' => Steady domain arity t' ∧
        t'.missing (Table.possible signatures domain) + (if o.isSome then 1 else 0) ≤
          t.missing (Table.possible signatures domain))
      (fun f _ => ¬ f.IsUnsettled) := by
  refine (ends_realize r b s t).imp (fun o t' h => ?_) fun f t' h => ?_
  · obtain ⟨u, rel, trace, hu, hrel, rfl, rfl⟩ := h
    have hvalues := Tuple.valuesIn_of_ofSolution hb hu
    obtain ⟨⟨rfl, _, hroot⟩, _⟩ := Tuple.ofSolution_eq_ok.1 hu
    refine ⟨⟨ht.toWithin.add hrel hvalues rfl, ?_⟩, ?_⟩
    · rw [← ht.arity_eq]
      exact (t.follows_set hrel u).arity?
    · -- the measure drops by one where the tuple is new
      have hless := Table.missing_add hrel (Table.mem_possible hs hvalues hroot)
        (rfl : { t with store := Dict.set t.store u.signature.name (rel.insert u), trace }.store = _)
      cases hnew : rel.contains u <;> rw [hnew] at hless <;> exact hless
  · rcases h.2 with huser | ⟨_, rfl⟩
    -- neither a report nor a missing relation says that a fixpoint was not reached
    · exact huser.not_isUnsettled
    · rintro ⟨_, _, h⟩
      cases h

/-- A statement adds no more tuples than are missing. -/
theorem ends_runPlain_missing (ht : Steady domain arity t) (hg : Solvable domain arity g)
    (hr : ∀ s ∈ r.signatures, s ∈ signatures) :
    Ends (runPlain r g) t
      (fun added t' => Steady domain arity t' ∧
        t'.missing (Table.possible signatures domain) + added ≤
          t.missing (Table.possible signatures domain))
      (fun f _ => ¬ f.IsUnsettled) := by
  rw [runPlain, ends_bind]
  refine (ends_solutions_in ht hg).mono fun found t₁ h => ?_
  obtain ⟨rfl, hall⟩ := h
  rw [ends_bind]
  refine (ends_mapM_cost (Steady domain arity) (Table.missing (Table.possible signatures domain))
    (List.countP Option.isSome) (fun b hb t₂ ht₂ => ?_) ht).mono fun added t₂ h => ?_
  -- for one solution the traits are realized one after the other
  · refine (ends_mapM_cost (Steady domain arity) (Table.missing (Table.possible signatures domain))
      (fun o => if o.isSome then 1 else 0)
      (fun s hs t₃ ht₃ => ends_realize_missing ht₃ (hr s hs) (hall b hb)) ht₂).mono fun os t₃ h => ?_
    rw [List.countP_eq_sum]
    exact h
  · rw [ends_pure, List.countP_flatten]
    exact h

variable {members : List (Realization × Goal)}

/-- A pass adds no more tuples than are missing. -/
theorem ends_pass (ht : Steady domain arity t) (hm : ∀ m ∈ members, Solvable domain arity m.2)
    (hs : ∀ m ∈ members, ∀ s ∈ m.1.signatures, s ∈ signatures) :
    Ends (members.mapM fun m => runPlain m.1 m.2) t
      (fun added t' => Steady domain arity t' ∧
        t'.missing (Table.possible signatures domain) + added.sum ≤
          t.missing (Table.possible signatures domain))
      (fun f _ => ¬ f.IsUnsettled) := by
  refine (ends_mapM_cost (Steady domain arity) (Table.missing (Table.possible signatures domain)) id
    (fun m hmem t₁ ht₁ => ends_runPlain_missing ht₁ (hm m hmem) (hs m hmem)) ht).mono
    fun added t₁ h => ?_
  rw [List.map_id] at h
  exact h

/-- When more passes are allowed than tuples are missing, the passes come to an end. -/
theorem ends_runPasses_missing {isRecursive : Bool} {label : String} {pass left : Nat}
    (ht : Steady domain arity t) (hm : ∀ m ∈ members, Solvable domain arity m.2)
    (hs : ∀ m ∈ members, ∀ s ∈ m.1.signatures, s ∈ signatures)
    (hleft : t.missing (Table.possible signatures domain) < left) :
    Ends (runPasses members isRecursive label pass left) t (fun _ _ => True)
      (fun f _ => ¬ f.IsUnsettled) := by
  induction left generalizing t pass with
  | zero => exact absurd hleft (Nat.not_lt_zero _)
  | succ left ih =>
    rw [runPasses, ends_bind]
    refine (ends_pass ht hm hs).mono fun added t₁ h => ?_
    obtain ⟨ht₁, hless⟩ := h
    rw [ends_bind, ends_record]
    split
    · rename_i hmore
      -- a pass that is not the last took something from what is missing
      have hadded : added.sum ≠ 0 := by rw [List.sum_eq_foldl]; exact hmore.1
      have hrecord : Steady domain arity (t₁.record .fixpointPass label
          s!"pass {pass + 1}: {added.foldl (· + ·) 0} new tuples") :=
        ⟨⟨ht₁.world, ht₁.store, ht₁.globals⟩, ht₁.arity_eq⟩
      refine ih hrecord ?_
      show t₁.missing _ < left
      omega
    · trivial

/-- A pass that adds nothing leads to the table, apart from its trace. -/
def IdleTo (members : List (Realization × Goal)) (t' : Table) : Prop :=
  ∃ t₁ t₂ added, Gives (members.mapM fun m => runPlain m.1 m.2) t₁ added t₂ ∧
    (∀ k ∈ added, k = 0) ∧ t' = { t₂ with trace := t'.trace }

/-- A recursive fixpoint that ends well ends with a pass that adds nothing. -/
theorem idle_of_runPasses {label : String} {pass left : Nat} {t' : Table}
    (h : Gives (runPasses members true label pass left) t () t') : IdleTo members t' := by
  induction left generalizing t pass with
  | zero => exact (gives_throw.1 h).elim
  | succ left ih =>
    obtain ⟨_, added, t₁, t₂, hleft, hadded, ht₂, hrest⟩ := gives_runPasses h
    obtain rfl := Nat.succ.inj hleft
    rcases hrest with ⟨rfl, hlast⟩ | hrest
    · exact ⟨t, t₁, added, hadded, hlast.resolve_right (by simp), ht₂⟩
    · exact ih hrest

/-- Statements that equate no patterns settle: there is a number of passes such that no fixpoint over
them is given up when at least that many are allowed. A recursive fixpoint that ends well ends with a
pass that adds nothing. -/
theorem exists_settling_passes (t : Table) (members : List Realization)
    (hmembers : ∀ r ∈ members, r.body.equatesPattern = false) (isRecursive : Bool) (label : String) :
    ∃ enough, ∀ passes, enough ≤ passes →
      Ends (runFixpoint members isRecursive label) (t.withPasses passes)
        (fun _ t' => isRecursive = true → ∃ goals,
          List.Forall₂ (fun r m => m.1 = r ∧ t.goal r = .ok m.2) members goals ∧ IdleTo goals t')
        (fun f _ => ¬ f.IsUnsettled) := by
  let constants := (members.filterMap fun r => (t.goal r).toOption).flatMap fun g =>
    g.terms.flatMap GoalTerm.constants
  let domain := t.domain constants
  let signatures := members.flatMap Realization.signatures
  -- every pass but the last adds a missing tuple
  refine ⟨t.missing (Table.possible signatures domain) + 1, fun passes hpasses => ?_⟩
  have ht : Steady domain t.store.arity? (t.withPasses passes) :=
    have hwithin := t.within_domain constants
    ⟨⟨hwithin.world, hwithin.store, hwithin.globals⟩, rfl⟩
  have hsolvable (r : Realization) (hr : r ∈ members) (g : Goal) (hg : t.goal r = .ok g) :
      Solvable domain t.store.arity? g := by
    refine ⟨Expr.compile_wellFormed hg, (Expr.equatesPattern_of_compile hg).trans (hmembers r hr),
      fun u hu e he => World.mem_domain_of_mem (List.mem_append_left _ (List.mem_append_left _ ?_))⟩
    exact List.mem_flatMap.2 ⟨g, List.mem_filterMap.2 ⟨r, hr, Except.toOption_eq_some_iff.2 hg⟩,
      List.mem_flatMap.2 ⟨u, hu, he⟩⟩
  have hgoals := ends_mapM (l := members) (f := fun r => return (r, ← goal r))
    (s := t.withPasses passes) (I := (· = t.withPasses passes))
    (P := fun m => m.1 ∈ members ∧ t.goal m.1 = .ok m.2) (E := fun f _ => ¬ f.IsUnsettled)
    (fun r hr t' ht' => ?_) rfl
  · have hends : Ends (runFixpoint members isRecursive label) (t.withPasses passes)
        (fun _ _ => True) (fun f _ => ¬ f.IsUnsettled) := by
      rw [runFixpoint, ends_bind]
      refine hgoals.mono fun goals t' h => ?_
      obtain ⟨hall, rfl⟩ := h
      rw [ends_bind, ends_get]
      exact ends_runPasses_missing ht (fun m hm => hsolvable _ (hall m hm).1 _ (hall m hm).2)
        (fun m hm s hs => List.mem_flatMap.2 ⟨m.1, (hall m hm).1, hs⟩) (Nat.lt_of_succ_le hpasses)
    refine (hends.and (ends_of_gives fun _ _ h => h)).imp (fun u t' h hrec => ?_) fun _ _ h => h.1
    -- the passes that ended well are those of the same goals
    obtain ⟨goals, hgoals, hpasses⟩ := gives_runFixpoint h.2
    rw [hrec] at hpasses
    exact ⟨goals, hgoals, idle_of_runPasses hpasses⟩
  · subst ht'
    rw [ends_bind, ends_goal]
    split
    · rename_i g hg
      exact ⟨⟨hr, hg⟩, rfl⟩
    · exact (show (Failure.user _).IsUser from rfl).not_isUnsettled

end Running

/-! ### Paths in a graph -/

namespace Paths

open Running

/-- Pairs of numbers. -/
def relation (name : String) (rows : List (Int × Int)) : Relation :=
  let signature : Signature := ⟨name, [⟨"x", .any⟩, ⟨"y", .any⟩], {}⟩
  let tuple? (row : Int × Int) :=
    (Tuple.ofValues signature [.value (.int row.1), .value (.int row.2)]).toOption
  { signature, tuples := Catalog.ofListFirst (rows.filterMap tuple?) }

/-- A path is an edge, or is put together from two paths. -/
def statement : Realization :=
  let joined (name x y : String) : Expr := .trait .synthetic name [.var x, .var y]
  ⟨"Owner", .option, .realize, [(relation "path" []).signature],
    .or [joined "edge" "x" "y",
      .exists .synthetic [⟨"z", .category "any"⟩] (.and [joined "path" "x" "z", joined "path" "z" "y"])],
    [], none, .synthetic⟩

/-- A table with a graph of four edges in a row. -/
def table : Table where
  option := "Owner"
  interface := "Paths"
  span := .synthetic
  program := Program.ofClasses []
  settings := {}
  arena := .unused 0
  trace := {}
  store := (Dict.set ∅ "edge" (relation "edge" [(1, 2), (2, 3), (3, 4), (4, 5)])).set "path"
    (relation "path" [])

/-- How the fixpoint over paths ends. -/
def outcome (passes : Nat) : Except Failure Unit :=
  ((runFixpoint [statement] true "path").run.run (table.withPasses passes)).1

/-- Three passes are too few to find that there are no more paths, and from some number on passes are
enough. -/
theorem exists_settling_passes_paths :
    outcome 3 = .error (.defect (.unsettled "path" 3)) ∧ outcome 4 = .ok () ∧
      ∃ enough, ∀ passes, enough ≤ passes → ∀ f, outcome passes = .error f → ¬ f.IsUnsettled := by
  refine ⟨?_, ?_, ?_⟩
  · decide +kernel
  · decide +kernel
  obtain ⟨enough, henough⟩ := exists_settling_passes table [statement] (by decide) true "path"
  refine ⟨enough, fun passes hpasses f hf => ?_⟩
  have hends := henough passes hpasses
  unfold Ends at hends
  rw [outcome] at hf
  split at hends
  · rename_i hrun
    rw [hrun] at hf
    cases hf
  · rename_i hrun
    rw [hrun] at hf
    exact Except.error.inj hf ▸ hends

end Paths

end CodeRules
