import CodeRules.Proofs.Goal.Parallel
import CodeRules.Proofs.Program.Below
import CodeRules.Proofs.Table.Run
import CodeRules.Table.Guards

/-!
# Checks of guards

Checks give out numbers of one arena in turn, so each of them starts where those before it stopped
(`Table.Checked`). It comes to the same outcome from there as from the table itself
(`Running.outcome_eq_of_checked`). So all checks together report what each of them reports alone
(`Running.ends_collectDiagnostics`).
-/

namespace CodeRules

open Effect

/-- A goal holds if it has a solution. -/
theorem Goal.holds_eq_true_iff {w : World} {g : Goal} {b : Bindings} {a : Arena} :
    ((g.holds w b).run.run a).1 = .ok Bool.true ↔
      ∃ found a', Gives (g.solve w b) a found a' ∧ found.isEmpty = Bool.false := by
  unfold Gives
  rw [holds, run_bind]
  rcases (g.solve w b).run.run a with ⟨_ | found, a'⟩
  · simp
  · show Except.ok (!found.isEmpty) = _ ↔ _
    simp

namespace Table

variable {t t' t'' : Table}

/-! ### What guards say -/

/-- The names in the guard are known for the tuple, and it has a solution with their values. -/
structure Meets (t : Table) (q : Require) (u : Tuple) : Prop where
  defined : q.undefined? (t.guardBindings u) = none
  solvable : ∃ goal found arena, q.expr.compile t.store { bound := t.guardBindings u } = .ok goal ∧
    Gives (goal.solve t.world (t.guardBindings u)) t.arena found arena ∧ found.isEmpty = false

/-- The tuples of a relation, if there is one of this name. -/
def tuplesOf (t : Table) (name : String) : List Tuple :=
  (t.relation? name).toList.flatMap fun r => r.tuples.toList

/-- Every guard of a statement or trait holds of every tuple of the relations that it guards. -/
structure MeetsGuards (t : Table) : Prop where
  statements : ∀ r ∈ t.statements, ∀ q ∈ r.requires, ∀ name ∈ r.names, ∀ u ∈ t.tuplesOf name,
    t.Meets q u
  traits : ∀ g ∈ t.guards, ∀ q ∈ g.requires, ∀ u ∈ t.tuplesOf g.relation, t.Meets q u

/-- How a check ends when it is the only one. -/
def outcome (t : Table) (c : GuardCheck) : Except Failure Unit :=
  ((Running.checkGuard c).run.run t).1

/-- What a check reports when it is the only one. -/
def report (t : Table) (c : GuardCheck) : List Diagnostic :=
  match t.outcome c with
  | .error (.user ds) => ds
  | _ => []

/-- What the checks report, each as if it were the only one: those of the statements first. -/
def reports (t : Table) : List Diagnostic :=
  (t.statements.flatMap fun r => r.requires.flatMap fun q => r.names.flatMap fun name =>
    (t.tuplesOf name).flatMap fun u => t.report ⟨name, q, u, r.span⟩) ++
  t.guards.flatMap fun g => g.requires.flatMap fun q =>
    (t.tuplesOf g.relation).flatMap fun u => t.report ⟨g.relation, q, u, q.span⟩

/-- The checks report what is reported for the statements and the traits, in the order of the checks. -/
theorem reports_eq (t : Table) : t.reports = t.guardChecks.flatMap t.report := by
  simp only [reports, guardChecks, checksOf, List.flatMap_append, List.flatMap_assoc,
    List.flatMap_map, tuplesOf]

/-- The guards hold when those of all checks do. -/
theorem meetsGuards_iff : t.MeetsGuards ↔ ∀ c ∈ t.guardChecks, t.Meets c.require c.tuple := by
  have hchecks {q : Require} {span : Span} {name : String} :
      (∀ c ∈ t.checksOf q span name, t.Meets c.require c.tuple) ↔
        ∀ u ∈ t.tuplesOf name, t.Meets q u := List.forall_mem_map
  simp only [guardChecks, List.forall_mem_append, List.forall_mem_flatMap, hchecks]
  exact ⟨fun h => ⟨h.statements, h.traits⟩, fun h => ⟨h.1, h.2⟩⟩

/-! ### Tables that were checked -/

/-- Checks have given out numbers and noted what failed; all else is as before. -/
structure Checked (t t' : Table) : Prop where
  grown : t.arena.Grown t'.arena
  others : t' = { t with arena := t'.arena, trace := t'.trace }

/-- Nothing was checked. -/
theorem Checked.refl (t : Table) : t.Checked t := ⟨.refl _, rfl⟩

/-- Further checks. -/
theorem Checked.trans (h : t.Checked t') (h' : t'.Checked t'') : t.Checked t'' :=
  ⟨h.grown.trans h'.grown, by rw [h'.others, h.others]⟩

end Table

namespace Running

variable {t t' : Table} {c : GuardCheck}

/-! ### One check -/

/-- What a check reports when its guard has no solution. -/
private def violation (t : Table) (c : GuardCheck) : Diagnostic :=
  let message := c.require.message.map (t.guardBindings c.tuple).fillTemplate
  (GuardError.violated (message.getD "cannot satisfy constraint")).diagnostic (t.placeOfCheck c)

/-- How a check ends once the goal of its guard is solved, or is not. -/
private def verdict (d : Diagnostic) : Except Failure Bool → Except Failure Unit
  | .ok true => .ok ()
  | .ok false => .error (.user [d])
  | .error f => .error f

/-- A check succeeds when its goal is solved. -/
private theorem verdict_eq_ok_iff {d : Diagnostic} {answer : Except Failure Bool} :
    verdict d answer = .ok () ↔ answer = .ok true := by
  rcases answer with _ | _ | _ <;> simp [verdict]

/-- A check of a guard with an unknown name reports the name. -/
private theorem run_checkGuard_of_undefined {name : String}
    (h : c.require.undefined? (t.guardBindings c.tuple) = some name) :
    (checkGuard c).run.run t =
      (.error (.user [(GuardError.undefinedVariable name).diagnostic (t.placeOfCheck c)]), t) := by
  rw [checkGuard, run_bind]
  show StateT.run (ExceptT.run _) t = _
  dsimp only
  rw [h]
  rfl

/-- A check of a guard that does not compile reports why. -/
private theorem run_checkGuard_of_error {e : GoalError}
    (h : c.require.undefined? (t.guardBindings c.tuple) = none)
    (he : c.require.expr.compile t.store { bound := t.guardBindings c.tuple } = .error e) :
    (checkGuard c).run.run t = (.error (.user [e.diagnostic]), t) := by
  rw [checkGuard, run_bind]
  show StateT.run (ExceptT.run _) t = _
  dsimp only
  rw [h, he]
  rfl

/-- Otherwise the goal is solved, and a line of the trace is written. -/
private theorem run_checkGuard_of_ok {goal : Goal}
    (h : c.require.undefined? (t.guardBindings c.tuple) = none)
    (hgoal : c.require.expr.compile t.store { bound := t.guardBindings c.tuple } = .ok goal) :
    ∃ trace, (checkGuard c).run.run t =
      (verdict (violation t c) ((goal.holds t.world (t.guardBindings c.tuple)).run.run t.arena).1,
        { t with
          arena := ((goal.holds t.world (t.guardBindings c.tuple)).run.run t.arena).2
          trace }) := by
  rw [checkGuard, run_bind]
  show ∃ trace, StateT.run (ExceptT.run _) t = _
  dsimp only
  rw [h, hgoal]
  dsimp only
  rw [run_bind]
  show ∃ trace, StateT.run (ExceptT.run _) t = _
  rw [run_bind, run_solving]
  -- Solving fails, or says whether there is a solution.
  rcases (goal.holds t.world (t.guardBindings c.tuple)).run.run t.arena with ⟨_ | holds, arena⟩
  · exact ⟨_, rfl⟩
  · cases holds <;> exact ⟨_, rfl⟩

/-- A check leaves the table alone, or solves the goal of its guard and notes how this ends. -/
theorem later_of_checkGuard {J : Table → Prop} (h : J t)
    (hsolved : ∀ (goal : Goal) trace,
      c.require.expr.compile t.store { bound := t.guardBindings c.tuple } = .ok goal →
        J { t with
          arena := ((goal.holds t.world (t.guardBindings c.tuple)).run.run t.arena).2
          trace }) : J ((checkGuard c).run.run t).2 := by
  -- only a guard that is defined and compiles is solved
  cases hname : c.require.undefined? (t.guardBindings c.tuple) with
  | some name =>
    rw [run_checkGuard_of_undefined hname]
    exact h
  | none =>
    cases hgoal : c.require.expr.compile t.store { bound := t.guardBindings c.tuple } with
    | error e =>
      rw [run_checkGuard_of_error hname hgoal]
      exact h
    | ok goal =>
      obtain ⟨trace, hrun⟩ := run_checkGuard_of_ok hname hgoal
      rw [hrun]
      exact hsolved goal trace hgoal

/-- A check only gives out numbers, and notes whether it fails. -/
theorem checked_checkGuard (t : Table) (c : GuardCheck) :
    t.Checked ((checkGuard c).run.run t).2 :=
  later_of_checkGuard (.refl t) fun goal _ _ => ⟨goal.grown_holds _ _ _, rfl⟩

/-- A check comes to the outcome that it has alone, whatever was checked before. -/
theorem outcome_eq_of_checked (hprogram : t.program.UnknownFrom (t.arena.base.toNat + t.arena.size))
    (h : t.Checked t') (hfits : ((checkGuard c).run.run t').2.arena.Fits) :
    t'.outcome c = t.outcome c := by
  have htwin := t.arena.twin_self.grow_right h.grown
  -- what is looked at before solving is the same in both tables
  obtain ⟨arena, trace, rfl⟩ : ∃ arena trace, t' = { t with arena, trace } := ⟨_, _, h.others⟩
  unfold Table.outcome
  cases hname : c.require.undefined? (t.guardBindings c.tuple) with
  | some name =>
    rw [run_checkGuard_of_undefined hname,
      run_checkGuard_of_undefined (t := { t with arena, trace }) hname]
    rfl
  | none =>
    cases hgoal : c.require.expr.compile t.store { bound := t.guardBindings c.tuple } with
    | error e =>
      rw [run_checkGuard_of_error hname hgoal,
        run_checkGuard_of_error (t := { t with arena, trace }) hname hgoal]
    | ok goal =>
      obtain ⟨_, hrun⟩ := run_checkGuard_of_ok hname hgoal
      obtain ⟨_, hrun'⟩ := run_checkGuard_of_ok (t := { t with arena, trace }) hname hgoal
      rw [hrun'] at hfits
      rw [hrun, hrun']
      -- one goal is solved in twin arenas
      have hanswers := (goal.parallel_holds hprogram (t.guardBindings c.tuple)).alike _ _ htwin hfits
      exact congrArg (verdict (violation t c)) hanswers.2.eq.symm

/-- A check fails with a report only. -/
theorem failsOnly_checkGuard (c : GuardCheck) : FailsOnly (checkGuard c) Failure.IsReport := by
  intro t
  rw [checkGuard, ends_bind, ends_get]
  dsimp only
  split
  · rw [ends_bind, ends_throw]
    exact ⟨_, _, rfl⟩
  · rw [ends_bind, ends_orReport]
    split
    · rename_i goal hgoal
      have hsolve := Goal.WellFormed.failsOnly_solve (w := t.world)
        (Expr.compile_wellFormed hgoal) (t.guardBindings c.tuple)
      have hholds := failsOnly_bind hsolve fun s =>
        (failsOnly_pure : FailsOnly (pure !s.isEmpty) Failure.IsReport)
      rw [ends_bind, ends_solving]
      refine (hholds t.arena).mono fun holds arena _ => ?_
      -- the message, whatever it says, is for the user
      split
      · trivial
      · rw [ends_bind, ends_record]
        exact ⟨_, _, rfl⟩
    · exact ⟨_, _, rfl⟩

/-- A check succeeds when its guard holds. -/
theorem outcome_eq_ok_iff : t.outcome c = .ok () ↔ t.Meets c.require c.tuple := by
  unfold Table.outcome
  cases h : c.require.undefined? (t.guardBindings c.tuple) with
  | some name =>
    rw [run_checkGuard_of_undefined h]
    refine ⟨fun hok => (by cases hok), fun hmeets => ?_⟩
    rw [hmeets.defined] at h
    cases h
  | none =>
    cases hgoal : c.require.expr.compile t.store { bound := t.guardBindings c.tuple } with
    | error e =>
      rw [run_checkGuard_of_error h hgoal]
      refine ⟨fun hok => (by cases hok), fun hmeets => ?_⟩
      obtain ⟨goal, _, _, hok, _⟩ := hmeets.solvable
      rw [hok] at hgoal
      cases hgoal
    | ok goal =>
      obtain ⟨trace, hrun⟩ := run_checkGuard_of_ok h hgoal
      rw [hrun, verdict_eq_ok_iff, Goal.holds_eq_true_iff]
      constructor
      · rintro ⟨found, arena, hgives, hfound⟩
        -- The guard holds by what was found, and what it is said to hold by is what was found.
        exact ⟨h, goal, found, arena, hgoal, hgives, hfound⟩
      · intro hmeets
        obtain ⟨goal', found, arena, hgoal', hgives, hfound⟩ := hmeets.solvable
        rw [hgoal] at hgoal'
        obtain rfl := Except.ok.inj hgoal'
        exact ⟨found, arena, hgives, hfound⟩

end Running

namespace Table

variable {t t' : Table} {c : GuardCheck}

/-- A check succeeds, or fails with what it reports. -/
theorem outcome_eq (t : Table) (c : GuardCheck) :
    t.outcome c = if (t.report c).isEmpty then .ok () else .error (.user (t.report c)) := by
  have hfails := Running.failsOnly_checkGuard c t
  unfold Ends at hfails
  unfold report outcome
  -- A check that fails does so with a report, which is what it is said to report.
  rcases hrun : (Running.checkGuard c).run.run t with ⟨_ | _, t'⟩ <;> rw [hrun] at hfails
  · obtain ⟨d, ds, rfl⟩ := hfails
    rfl
  · rfl

/-- A check reports something exactly if its guard does not hold. -/
theorem report_eq_nil_iff : t.report c = [] ↔ t.Meets c.require c.tuple := by
  rw [← Running.outcome_eq_ok_iff, outcome_eq]
  cases h : t.report c <;> simp

end Table

namespace Running

variable {t t' : Table}

/-! ### All checks -/

/-- What a check reports is collected. -/
private theorem run_collect (t : Table) (c : GuardCheck) :
    (tryCatch (do checkGuard c; return []) fun
      | .user ds => return ds
      | .defect d => throw (.defect d) : Running (List Diagnostic)).run.run t =
        (.ok (t.report c), ((checkGuard c).run.run t).2) := by
  have houtcome := t.outcome_eq c
  unfold Table.outcome at houtcome
  rw [run_tryCatch, run_bind]
  rcases hrun : (checkGuard c).run.run t with ⟨outcome, t'⟩
  rw [hrun] at houtcome
  obtain rfl : outcome = _ := houtcome
  cases h : t.report c <;> rfl

/-- The checks of guards lead where each of them leads. -/
theorem ends_checkGuards_of_forall {r : Table → Table → Prop} [Std.Refl r] [IsTrans Table r]
    {t : Table} (h : ∀ c ∈ t.guardChecks, ∀ t', r t t' → r t' ((checkGuard c).run.run t').2) :
    Ends checkGuards t (fun _ t' => r t t') (fun _ t' => r t t') := by
  rw [checkGuards, ends_bind, ends_get, ends_bind, collectDiagnostics, ends_bind]
  have hchecks : Leads r (t.guardChecks.mapM fun c =>
      (tryCatch (do checkGuard c; return []) fun
        | .user ds => return ds
        | .defect d => throw (.defect d) : Running (List Diagnostic))) t fun _ _ => True := by
    -- Each check starts from a table that those before have led to.
    refine (leads_mapM (P := fun _ _ => True) (fun _ _ _ _ _ => trivial) fun c hc t' h' => ?_).mono
      fun _ _ _ _ => trivial
    have hcheck := h c hc t' h'
    -- whatever the check comes to, the table after it is that of the check
    rw [LeadsOr, ends_tryCatch, ends_bind]
    unfold Ends
    rcases hrun : (checkGuard c).run.run t' with ⟨f | _, t''⟩ <;> rw [hrun] at hcheck
    · cases f with
      | user ds => exact ⟨hcheck, trivial⟩
      | defect d => exact ⟨hcheck, trivial⟩
    · exact ⟨hcheck, trivial⟩
  refine Ends.imp hchecks (fun found t' h' => ?_) fun _ t' h' => h'.1
  rw [ends_pure]
  split
  · exact h'.1
  · exact h'.1

/-- Each check reports what it reports alone. -/
theorem ends_collectDiagnostics (checks : List GuardCheck) (h : t.Checked t') :
    Ends (collectDiagnostics checks) t'
      (fun found t'' => t'.Checked t'' ∧
        (t.program.UnknownFrom (t.arena.base.toNat + t.arena.size) → t''.arena.Fits →
          found = checks.flatMap t.report))
      fun _ _ => False := by
  rw [collectDiagnostics, ends_bind]
  have hall : Ends (checks.mapM fun c =>
      (tryCatch (do checkGuard c; return []) fun
        | .user ds => return ds
        | .defect d => throw (.defect d) : Running (List Diagnostic))) t'
      (fun found t'' => t'.Checked t'' ∧
        (t.program.UnknownFrom (t.arena.base.toNat + t.arena.size) → t''.arena.Fits →
          found = checks.map t.report))
      fun _ _ => False := by
    induction checks generalizing t' with
    | nil => exact ends_mapM_nil.2 ⟨.refl t', fun _ _ => rfl⟩
    | cons c checks ih =>
      -- the first check starts where those before stopped, and the others start where it stops
      have hchecked := checked_checkGuard t' c
      rw [ends_mapM_cons]
      unfold Ends
      rw [run_collect]
      refine (ih (h.trans hchecked)).mono fun found t'' hrest => ?_
      refine ⟨hchecked.trans hrest.1, fun hprogram hfits => ?_⟩
      -- numbers that have not run out in the end had not run out after the first check
      have houtcome := outcome_eq_of_checked hprogram h (hrest.1.grown.fits hfits)
      have hreport : t'.report c = t.report c := by
        unfold Table.report
        rw [houtcome]
      rw [hreport, hrest.2 hprogram hfits, List.map_cons]
  refine hall.mono fun found t'' hfound => ⟨hfound.1, fun hprogram hfits => ?_⟩
  rw [hfound.2 hprogram hfits, List.flatMap_def]

/-- Checking the guards fails exactly if something is reported, and with all that is. -/
theorem ends_checkGuards (t : Table) :
    Ends checkGuards t
      (fun _ t' => t.Checked t' ∧
        (t.program.UnknownFrom (t.arena.base.toNat + t.arena.size) → t'.arena.Fits → t.reports = []))
      fun f t' => t.Checked t' ∧ f.IsReport ∧
        (t.program.UnknownFrom (t.arena.base.toNat + t.arena.size) → t'.arena.Fits →
          t.reports ≠ [] ∧ f = .user t.reports) := by
  rw [checkGuards, ends_bind, ends_get, ends_bind]
  refine (ends_collectDiagnostics t.guardChecks (.refl t)).imp (fun found t' h => ?_) fun _ _ h => h.elim
  rw [← t.reports_eq] at h
  cases found with
  | nil => exact ⟨h.1, fun hprogram hfits => (h.2 hprogram hfits).symm⟩
  | cons d ds =>
    refine ⟨h.1, ⟨d, ds, rfl⟩, fun hprogram hfits => ?_⟩
    rw [← h.2 hprogram hfits]
    exact ⟨List.cons_ne_nil d ds, rfl⟩

/-- Checking the guards changes nothing but the arena, to which it adds, and the trace. As long as
numbers do not run out, and the program knows none that is yet to be given out, the guards hold exactly
if it succeeds. If they do not, it fails with what the checks report, each as if it were the only one. A
check that succeeds reports nothing, and one that fails reports something. -/
theorem checkGuards_reports (t : Table) :
    (∃ arena trace, t.arena.Extends arena ∧ (checkGuards.run.run t).2 = { t with arena, trace }) ∧
    (∀ c, t.report c = [] ↔ t.Meets c.require c.tuple) ∧
    (t.program.UnknownFrom (t.arena.base.toNat + t.arena.size) →
      (checkGuards.run.run t).2.arena.Fits →
      ((checkGuards.run.run t).1 = .ok () ↔ t.MeetsGuards) ∧
      (¬t.MeetsGuards → (checkGuards.run.run t).1 = .error (.user t.reports))) := by
  have hends := ends_checkGuards t
  -- a check of a guard that holds reports nothing
  have hmeets : t.MeetsGuards ↔ t.reports = [] := by
    rw [Table.meetsGuards_iff, t.reports_eq, List.flatMap_eq_nil_iff]
    exact forall₂_congr fun c _ => Table.report_eq_nil_iff.symm
  rw [hmeets]
  unfold Ends at hends
  -- The checks fail with a report, or there is nothing to be reported.
  rcases hrun : checkGuards.run.run t with ⟨f | _, t'⟩ <;> rw [hrun] at hends
  · obtain ⟨hchecked, _, hreports⟩ := hends
    refine ⟨⟨_, _, hchecked.grown.extends, hchecked.others⟩, fun _ => Table.report_eq_nil_iff,
      fun hprogram hfits => ?_⟩
    obtain ⟨hne, rfl⟩ := hreports hprogram hfits
    exact ⟨⟨fun h => (by cases h), fun h => absurd h hne⟩, fun _ => rfl⟩
  · obtain ⟨hchecked, hreports⟩ := hends
    refine ⟨⟨_, _, hchecked.grown.extends, hchecked.others⟩, fun _ => Table.report_eq_nil_iff,
      fun hprogram hfits => ?_⟩
    have hnil := hreports hprogram hfits
    exact ⟨⟨fun _ => hnil, fun _ => rfl⟩, fun h => absurd hnil h⟩

end Running

/-! ### Guards of two numbers -/

namespace Guarded

/-- A class without members. -/
def classes : List Node := [.make ⟨1⟩ ⟨0, 1, 2⟩ (.classDecl "A" [] [] none [])]

/-- A relation of two numbers. -/
def relation : Relation :=
  let signature : Signature := ⟨"number", [⟨"x", .any⟩], {}⟩
  { signature
    tuples := Catalog.ofListFirst ([1, 2].filterMap fun i =>
      (Tuple.ofValues signature [.value (.int i)]).toOption) }

/-- A guard that makes a node for each number, and one that holds of the first number only. -/
def requires : List Require :=
  [{ expr := .exists .synthetic [⟨"y", .category "expression"⟩]
      (.eq .synthetic (.var "y") (.pattern (.node .synthetic .this []))) },
    { expr := .eq .synthetic (.var "x") (.entity (.value (.int 1))), message := some "not one" }]

/-- A guard about a name that stands for nothing. -/
def unknown : Require := { expr := .ne .synthetic (.var "z") (.var "x") }

/-- A table with guards of a statement and of a trait. -/
def table : Table where
  option := "Owner"
  interface := "Numbers"
  span := .synthetic
  program := (Program.ofClasses classes).withIdBase 2
  settings := {}
  arena := .unused 2
  trace := {}
  store := Dict.set ∅ "number" relation
  statements := [⟨"Owner", .option, .realize, [relation.signature], .true, requires, none, .synthetic⟩]
  guards := [⟨"number", [unknown]⟩]

/-- The first guard of the statement makes two nodes, the other one fails for the second number, and the
guard of the trait fails for both. -/
theorem reports_of_numbers :
    table.program.UnknownFrom (table.arena.base.toNat + table.arena.size) ∧
      (Running.checkGuards.run.run table).2.arena.Fits ∧
      (Running.checkGuards.run.run table).2.arena.size = 2 ∧ table.reports.length = 3 ∧
      (Running.checkGuards.run.run table).1 = .error (.user table.reports) := by
  have hread : ∀ c ∈ classes, ∀ n ∈ c.preorder, n.IsRead ∧ n.id.word < 2 := by
    simp only [Node.IsRead]
    decide +kernel
  have hprogram : table.program.UnknownFrom (table.arena.base.toNat + table.arena.size) :=
    ((Program.below_ofClasses hread).withIdBase 2).unknownFrom (Nat.le_refl _)
  have hfits : (Running.checkGuards.run.run table).2.arena.Fits := by
    unfold Arena.Fits
    decide +kernel
  obtain ⟨hok, hreports⟩ := (Running.checkGuards_reports table).2.2 hprogram hfits
  -- the checks fail, so the guards are not met, and the failure is the report
  have hfails : (Running.checkGuards.run.run table).1.isOk = false := by decide +kernel
  have hnot : ¬table.MeetsGuards := fun h => by
    rw [hok.2 h] at hfails
    cases hfails
  exact ⟨hprogram, hfits, by decide +kernel, by decide +kernel, hreports hnot⟩

end Guarded

end CodeRules
