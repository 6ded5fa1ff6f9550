import CodeRules.Proofs.Effect
import CodeRules.Proofs.Statement.Schedule
import CodeRules.Table.Run

/-!
# The order in which a level runs

`Running.runLevel` goes through layers of numbers of groups. Here it is one run through the parts of
the schedule, in an order in which no part waits for a later one.
-/

namespace CodeRules

namespace Running

variable {statements : List Realization}

/-! ### Groups -/

section

variable {c : RelationContext} {steps : List Planned} {schedule : Schedule} {g : List Planned}

/-- A group of plain statements is run as a fixpoint. -/
theorem runGroup_fixpoint (h : schedule.Arranges c statements steps)
    (hg : g ∈ Schedule.partition steps) (hplain : ∀ s ∈ g, s.statement.isPlain = true)
    (label : String) : runGroup statements (Planned.group g) label =
      runFixpoint (g.map Planned.statement) (Planned.group g).isRecursive label := by
  have hall : g.all (·.statement.isPlain) = true := List.all_eq_true.2 hplain
  have hkind : (Planned.group g).kind = .fixpoint := if_pos hall
  have hmembers : (g.map Planned.statement).all Realization.isPlain = true := by
    rw [List.all_map]
    exact hall
  simp only [runGroup, h.filterMap_group hg, hkind, hmembers, ↓reduceIte]

/-- A singleton statement is a group of its own. -/
theorem runGroup_singleton (h : schedule.Arranges c statements steps) {s : Planned}
    (hg : [s] ∈ Schedule.partition steps) (hs : s.statement.isSingleton = true) (label : String) :
    runGroup statements (Planned.group [s]) label = runSingleton s.statement := by
  have hkind : (Planned.group [s]).kind = .singleton := by
    simp [Planned.group, Realization.isPlain, hs]
  simp only [runGroup, h.filterMap_group hg, hkind, List.map_cons, List.map_nil]

/-- A local statement is a group of its own. -/
theorem runGroup_local (h : schedule.Arranges c statements steps) {s : Planned}
    (hg : [s] ∈ Schedule.partition steps) (hplain : s.statement.isPlain = false)
    (hs : s.statement.isSingleton = false) (label : String) :
    runGroup statements (Planned.group [s]) label = runLocal s.statement := by
  have hkind : (Planned.group [s]).kind = .local := by
    simp [Planned.group, hplain, hs]
  simp only [runGroup, h.filterMap_group hg, hkind, List.map_cons, List.map_nil]

end

/-! ### Levels -/

/-- Run a group in its layer. -/
def runPlaced (level : Level) (statements : List Realization) (placed : Group × Nat) :
    Running Unit := do
  let label := ",".intercalate placed.1.relations.toList
  record .layer label s!"{level.name} layer {placed.2}"
  runGroup statements placed.1 label

/-- Run the statements of a part in its layer. -/
def runPart (level : Level) (statements : List Realization) (part : List Planned × Nat) :
    Running Unit :=
  runPlaced level statements (Planned.group part.1, part.2)

/-- A level whose statements cannot be ordered fails at once. -/
theorem runLevel_error {t : Table} {complete : NameSet} {e : ScheduleError} (level : Level)
    (h : Schedule.ofStatements (t.context complete) statements = .error e) :
    (runLevel level statements complete).run.run t = (.error (.user [e.diagnostic]), t) := by
  rw [runLevel, Effect.run_bind]
  show (orReport _ (Schedule.ofStatements (t.context complete) statements) >>= _).run.run t = _
  rw [h, Effect.run_bind]
  rfl

/-- Going through the groups with their layers is going through the layers. -/
private theorem forM_placed (schedule : Schedule) (layers : List (List Nat))
    (f : Group × Nat → Running Unit) : (schedule.placed layers).forM f =
      layers.zipIdx.forM fun p => p.1.forM fun i =>
        match schedule.groups[i]? with
        | none => pure ()
        | some g => f (g, p.2) := by
  rw [Schedule.placed, Effect.forM_flatMap]
  refine congrArg layers.zipIdx.forM (funext fun p => ?_)
  rw [Effect.forM_filterMap]
  refine congrArg p.1.forM (funext fun i => ?_)
  cases schedule.groups[i]? <;> rfl

/-- A level is run part by part, in an order in which no part waits for a later one. -/
theorem runLevel_eq {t : Table} {complete : NameSet} {schedule : Schedule} (level : Level)
    (h : Schedule.ofStatements (t.context complete) statements = .ok schedule) :
    ∃ (steps : List Planned) (order : List (List Planned × Nat)),
      schedule.Arranges (t.context complete) statements steps ∧
      (order.map Prod.fst).Perm (Schedule.partition steps) ∧
      ((order.map Prod.fst).Pairwise fun g g' => ¬ Schedule.Waits g g') ∧
      (runLevel level statements complete).run.run t =
        (order.forM (runPart level statements)).run.run t := by
  -- the schedule has layers, so placing them cannot fail
  obtain ⟨steps, harr⟩ := Schedule.exists_arranges h
  obtain ⟨layers, order, hlayers, hplaced, hperm, hpair⟩ := harr.exists_placed
  refine ⟨steps, order, harr, hperm, hpair, ?_⟩
  have hmap : order.forM (runPart level statements) =
      (schedule.placed layers).forM (runPlaced level statements) := by
    rw [hplaced, Effect.forM_map]
    rfl
  rw [hmap, forM_placed, runLevel, Effect.run_bind]
  show (orReport _ (Schedule.ofStatements (t.context complete) statements) >>= _).run.run t = _
  rw [h, Effect.run_bind]
  show (orDefect schedule.layers >>= _).run.run t = _
  rw [hlayers, Effect.run_bind]
  rfl

end Running

end CodeRules
