import CodeRules.Proofs.Goal.Yields
import CodeRules.Proofs.Table.Level
import CodeRules.Proofs.Table.Run
import CodeRules.Table.Guards
import Mathlib.Logic.Function.Iterate

/-!
# The walk through a run

Everything that solving keeps is shown by one walk through the functions that run statements.
`Running.StatementWalk` says what has to be shown of the steps of a statement: that they lead from table to
table along a relation, and fail in certain ways only. `Running.TableWalk` says what has to be shown of a
group of statements, about a property of tables that may depend on the statements that are still to run;
where it does not, the former gives the latter (`Running.StatementWalk.tableWalk`). The rest of the walk,
through passes, groups, levels and attempts to solve a table, is done here.
-/

namespace CodeRules

open Effect

namespace Table

/-- `I` holds of the second table if it holds of the first one. -/
def Keeps (I : Table → Prop) (t t' : Table) : Prop := I t → I t'

instance (I : Table → Prop) : Std.Refl (Keeps I) := ⟨fun _ h => h⟩

instance (I : Table → Prop) : IsTrans Table (Keeps I) := ⟨fun _ _ _ h h' ht => h' (h ht)⟩

end Table

namespace Running

/-! ### Statements -/

/-- The steps of running statements lead along `r`, and fail as `E` says. What is said of statements that
can run, of their goals, of solutions and of tuples stays true along `r`. -/
structure StatementWalk (r : Table → Table → Prop) (E : Failure → Prop) where
  /-- The statement can run. -/
  Ready : Realization → Table → Prop
  /-- The goal of the statement can be solved. -/
  Fits : Realization → Goal → Table → Prop
  /-- The bindings may be a solution. -/
  Found : Bindings → Table → Prop
  /-- The tuple may be realized. -/
  Made : Tuple → Table → Prop
  ready_later : ∀ {x t t'}, r t t' → Ready x t → Ready x t'
  fits_later : ∀ {x g t t'}, r t t' → Fits x g t → Fits x g t'
  found_later : ∀ {b t t'}, r t t' → Found b t → Found b t'
  made_later : ∀ {u t t'}, r t t' → Made u t → Made u t'
  record : ∀ t action relation detail, r t (t.record action relation detail)
  report : ∀ ds, E (.user ds)
  goal : ∀ {x t g}, Ready x t → t.goal x = .ok g → Fits x g t
  solutions : ∀ {x t g}, Ready x t → Fits x g t →
    LeadsOr r E (solutions g) t fun found t' => found.All fun b => Found b t'
  realize : ∀ {x t b s}, Ready x t → x.isSingleton = false → s ∈ x.signatures → Found b t →
    LeadsOr r E (realize x b s) t fun o t' => ∀ u, o = some u → Made u t'

section

variable {r : Table → Table → Prop} {E : Failure → Prop} [Std.Refl r]

/-- What does not hold is reported, and what holds is given. -/
theorem leads_orReport {α ε : Type} {diagnostic : ε → Diagnostic} {x : Except ε α} {t : Table}
    {P : α → Table → Prop} (hreport : ∀ ds, E (.user ds)) (h : ∀ a, x = .ok a → P a t) :
    LeadsOr r E (orReport diagnostic x) t P := by
  rw [LeadsOr, ends_orReport]
  cases hx : x with
  | ok a => exact ⟨Std.Refl.refl t, h a hx⟩
  | error e => exact ⟨Std.Refl.refl t, hreport _⟩

/-- What is made for a tuple is kept, node by node. -/
theorem leads_keepAllMade [IsTrans Table r] {t : Table} {s : Signature} {u : Tuple} {b : Bindings}
    (hkeep : ∀ t' host param root, r t t' → t'.arena.contains root.id = true →
      t'.hasMade root.id = false → .node root ∈ u.values →
        LeadsOr r E (keepMade s b host param root) t' fun _ _ => True) :
    LeadsOr r E (keepAllMade s u b) t fun _ _ => True := by
  refine leads_get_bind (leads_forM fun entry hentry t' h' => ?_)
  obtain ⟨param, e⟩ := entry
  dsimp only
  split
  · rename_i root
    refine leads_get_bind ?_
    split
    · -- only a new node that was not kept before is kept
      rename_i hmade
      rw [Bool.and_eq_true, Bool.not_eq_true'] at hmade
      exact hkeep t' _ param root h' hmade.1 hmade.2 (List.of_mem_zip hentry).2
    · exact leads_pure trivial
  · exact leads_pure trivial

end

namespace StatementWalk

variable {r : Table → Table → Prop} {E : Failure → Prop} [Std.Refl r] [IsTrans Table r]
  (w : StatementWalk r E) {x : Realization} {g : Goal} {t : Table} {label : String}

omit [IsTrans Table r] in
/-- The goal of a statement that can run can be solved. -/
theorem leads_goal (hx : w.Ready x t) : LeadsOr r E (Running.goal x) t fun g t' => w.Fits x g t' :=
  leads_get_bind (leads_orReport w.report fun _ hg => w.goal hx hg)

omit [Std.Refl r] [IsTrans Table r] in
include w in
/-- Recording an event leads along the relation. -/
theorem leads_record {action : TraceAction} {relation detail : String} :
    LeadsOr r E (Running.record action relation detail) t fun _ _ => True :=
  leads_modify (w.record t action relation detail) trivial

/-- A statement that can run has solutions, which what follows may use. -/
theorem leads_solved {α : Type} {P : α → Table → Prop} {k : Solutions → Running α}
    (hx : w.Ready x t) (hk : ∀ found t', r t t' → (found.All fun b => w.Found b t') →
      LeadsOr r E (k found) t' P) :
    LeadsOr r E (Running.goal x >>= fun g => Running.solutions g >>= k) t P := by
  refine leads_bind (w.leads_goal hx) fun g t₁ h₁ hg => ?_
  refine leads_bind (w.solutions (w.ready_later h₁ hx) hg) fun found t₂ h₂ hfound => ?_
  exact hk found t₂ (IsTrans.trans _ _ _ h₁ h₂) hfound

/-- Every solution of a local statement is realized for every trait, and what is made for a new tuple is
kept. -/
theorem leads_runLocal (hx : w.Ready x t) (hkind : x.isSingleton = false)
    (hkeep : ∀ t' s u b host param root, r t t' → w.Ready x t' → w.Found b t' → w.Made u t' →
      t'.arena.contains root.id = true → t'.hasMade root.id = false → .node root ∈ u.values →
        LeadsOr r E (keepMade s b host param root) t' fun _ _ => True) :
    LeadsOr r E (runLocal x) t fun _ _ => True := by
  refine w.leads_solved hx fun found t₁ h₁ hfound => ?_
  refine leads_forM fun b hb t₂ h₂ => leads_forM fun s hs t₃ h₃ => ?_
  have h₁₃ : r t t₃ := IsTrans.trans _ _ _ h₁ (IsTrans.trans _ _ _ h₂ h₃)
  have hb₃ : w.Found b t₃ := w.found_later (IsTrans.trans _ _ _ h₂ h₃) (hfound b hb)
  refine leads_bind (w.realize (w.ready_later h₁₃ hx) hkind hs hb₃) fun o t₄ h₄ ho => ?_
  cases o with
  | none => exact leads_pure trivial
  | some u =>
    have h₁₄ : r t t₄ := IsTrans.trans _ _ _ h₁₃ h₄
    refine leads_keepAllMade fun t₅ host param root h₅ hmade hnew hroot => ?_
    have h₁₅ : r t t₅ := IsTrans.trans _ _ _ h₁₄ h₅
    exact hkeep t₅ s u b host param root h₁₅ (w.ready_later h₁₅ hx)
      (w.found_later (IsTrans.trans _ _ _ h₄ h₅) hb₃) (w.made_later h₅ (ho u rfl)) hmade hnew hroot

/-! ### Plain statements -/

/-- Every solution of a plain statement is realized for every trait. -/
theorem leads_runPlain (hx : w.Ready x t) (hkind : x.isSingleton = false) (hg : w.Fits x g t) :
    LeadsOr r E (runPlain x g) t fun _ _ => True := by
  refine leads_bind (w.solutions hx hg) fun found t₁ h₁ hfound => ?_
  refine leads_bind (P := fun _ _ => True) ?_ fun _ _ _ _ => leads_pure trivial
  refine (leads_mapM (P := fun _ _ => True) (fun _ _ _ _ _ => trivial) fun b hb t₂ h₂ => ?_).mono
    fun _ _ _ _ => trivial
  refine (leads_mapM (P := fun _ _ => True) (fun _ _ _ _ _ => trivial) fun s hs t₃ h₃ => ?_).mono
    fun _ _ _ _ => trivial
  have h₂₃ : r t₁ t₃ := IsTrans.trans _ _ _ h₂ h₃
  exact (w.realize (w.ready_later (IsTrans.trans _ _ _ h₁ h₂₃) hx) hkind hs
    (w.found_later h₂₃ (hfound b hb))).mono fun _ _ _ _ => trivial

/-- Passes run the same goals again and again, which were compiled before the first of them. -/
theorem leads_runPasses {members : List (Realization × Goal)}
    (h : ∀ m ∈ members, w.Ready m.1 t ∧ m.1.isSingleton = false ∧ w.Fits m.1 m.2 t)
    (isRecursive : Bool) {pass left : Nat} (hleft : E (.defect (.unsettled label (pass + left)))) :
    LeadsOr r E (runPasses members isRecursive label pass left) t fun _ _ => True := by
  induction left generalizing pass t with
  -- no pass is left
  | zero => exact leads_throw hleft
  | succ left ih =>
    refine leads_bind (leads_mapM (P := fun _ _ => True) (fun _ _ _ _ _ => trivial)
      fun m hm t₁ h₁ => ?_) fun _ t₁ h₁ _ => ?_
    · obtain ⟨hready, hkind, hfits⟩ := h m hm
      exact w.leads_runPlain (w.ready_later h₁ hready) hkind (w.fits_later h₁ hfits)
    · refine leads_bind w.leads_record fun _ t₂ h₂ _ => ?_
      have h₁₂ : r t t₂ := IsTrans.trans _ _ _ h₁ h₂
      split
      · refine ih (fun m hm => ?_) (by rwa [Nat.add_right_comm])
        obtain ⟨hready, hkind, hfits⟩ := h m hm
        exact ⟨w.ready_later h₁₂ hready, hkind, w.fits_later h₁₂ hfits⟩
      · exact leads_pure trivial

/-- A fixpoint compiles the goals of its statements and runs them in passes. -/
theorem leads_runFixpoint {members : List Realization}
    (h : ∀ x ∈ members, w.Ready x t ∧ x.isSingleton = false) (isRecursive : Bool)
    (hpasses : ∀ t', r t t' → E (.defect (.unsettled label t'.settings.maxPasses))) :
    LeadsOr r E (runFixpoint members isRecursive label) t fun _ _ => True := by
  refine leads_bind (leads_mapM
    (P := fun (m : Realization × Goal) t' =>
      w.Ready m.1 t' ∧ m.1.isSingleton = false ∧ w.Fits m.1 m.2 t')
    (fun _ _ _ h hm => ⟨w.ready_later h hm.1, hm.2.1, w.fits_later h hm.2.2⟩) fun x hx t₁ h₁ => ?_)
    fun goals t₁ h₁ hgoals => ?_
  · obtain ⟨hready, hkind⟩ := h x hx
    refine leads_bind (w.leads_goal (w.ready_later h₁ hready)) fun g t₂ h₂ hg => leads_pure ?_
    exact ⟨w.ready_later (IsTrans.trans _ _ _ h₁ h₂) hready, hkind, hg⟩
  · refine leads_get_bind (w.leads_runPasses hgoals isRecursive ?_)
    rw [Nat.zero_add]
    exact hpasses t₁ h₁

end StatementWalk

/-! ### Groups and levels -/

/-- A group of a schedule is a fixpoint of plain statements, one singleton or one local statement. -/
theorem ends_runGroup_of_kinds {c : RelationContext} {statements : List Realization}
    {steps g : List Planned} {schedule : Schedule} (harr : schedule.Arranges c statements steps)
    (hg : g ∈ Schedule.partition steps) {t : Table} {label : String} {Q : Unit → Table → Prop}
    {E : Failure → Table → Prop}
    (hfixpoint : (∀ x ∈ g.map Planned.statement, x.isSingleton = false) →
      Ends (runFixpoint (g.map Planned.statement) (Planned.group g).isRecursive label) t Q E)
    (hsingleton : ∀ s, g = [s] → s.statement.isSingleton = true →
      Ends (runSingleton s.statement) t Q E)
    (hlocal : ∀ s, g = [s] → s.statement.isSingleton = false →
      Ends (runLocal s.statement) t Q E) :
    Ends (runGroup statements (Planned.group g) label) t Q E := by
  rcases Schedule.isPlain_or_eq_singleton harr.numbered hg with hplain | ⟨s, rfl, hs⟩
  · rw [runGroup_fixpoint harr hg hplain]
    refine hfixpoint fun x hx => ?_
    obtain ⟨s, hs, rfl⟩ := List.mem_map.1 hx
    have hkind := hplain s hs
    simp only [Realization.isPlain, Bool.and_eq_true, Bool.not_eq_true'] at hkind
    exact hkind.1
  · cases hkind : s.statement.isSingleton with
    | true =>
      rw [runGroup_singleton harr hg hkind]
      exact hsingleton s rfl hkind
    | false =>
      rw [runGroup_local harr hg hs hkind]
      exact hlocal s rfl hkind

/-- Running the groups of a schedule keeps `I`, which may depend on the statements that are still to run,
and fails as `E` says. -/
structure TableWalk (I : List Realization → Table → Prop) (E : Failure → Table → Prop) : Prop where
  perm : ∀ {todo todo' t}, I todo t → todo.Perm todo' → I todo' t
  record : ∀ {todo t} action relation detail, I todo t → I todo (t.record action relation detail)
  report : ∀ {todo t} ds, I todo t → E (.user ds) t
  group : ∀ {c statements steps schedule g rest t} (label : String),
    Schedule.Arranges c statements steps schedule → g ∈ Schedule.partition steps →
      I (g.map Planned.statement ++ rest) t →
        Ends (runGroup statements (Planned.group g) label) t (fun _ t' => I rest t') E

/-- Running the groups of a schedule keeps what the steps of the statements keep: those that find solutions and
realize them, and those that resolve a singleton or keep what was made. -/
theorem StatementWalk.tableWalk {r : Table → Table → Prop} [Std.Refl r] [IsTrans Table r]
    (w : StatementWalk r fun _ => True) {J : Table → Prop} {statements : List Realization}
    (hlater : ∀ {t t'}, r t t' → J t → J t') (hready : ∀ {x t}, J t → x ∈ statements → w.Ready x t)
    (hresolve : ∀ {x t s} {found : Solutions}, J t → x ∈ statements → s ∈ x.signatures →
      x.isSingleton = true → (found.All fun b => w.Found b t) →
        Leads r (resolveSingleton x found s) t fun _ _ => True)
    (hkeep : ∀ {t s u b host param root}, J t → w.Found b t → w.Made u t →
      t.arena.contains root.id = true → t.hasMade root.id = false → .node root ∈ u.values →
        Leads r (keepMade s b host param root) t fun _ _ => True) :
    TableWalk (fun todo t => J t ∧ ∀ x ∈ todo, x ∈ statements) (fun _ t => J t) where
  perm h hperm := ⟨h.1, fun x hx => h.2 x (hperm.mem_iff.2 hx)⟩
  record _ _ _ h := ⟨hlater (w.record _ _ _ _) h.1, h.2⟩
  report _ h := h.1
  group {_ _ _ _ g rest t} label harr hg h := by
    obtain ⟨hJ, hmem⟩ := h
    have hstatement {x : Realization} (hx : x ∈ g.map Planned.statement) : x ∈ statements :=
      hmem x (List.mem_append_left _ hx)
    -- whatever the group does leads along `r`, and the other statements are still to run
    have hends {y : Running Unit} (hy : Leads r y t fun _ _ => True) :
        Ends y t (fun _ t' => J t' ∧ ∀ x ∈ rest, x ∈ statements) (fun _ t' => J t') :=
      Ends.imp hy (fun _ _ h' => ⟨hlater h'.1 hJ, fun x hx => hmem x (List.mem_append_right _ hx)⟩)
        fun _ _ h' => hlater h'.1 hJ
    refine ends_runGroup_of_kinds harr hg (fun hplain => hends ?_)
      (fun s hs hkind => hends ?_) fun s hs hkind => hends ?_
    · exact w.leads_runFixpoint (fun x hx => ⟨hready hJ (hstatement hx), hplain x hx⟩) _
        fun _ _ => trivial
    · subst hs
      have hx := hstatement (List.mem_singleton_self s.statement)
      refine w.leads_solved (hready hJ hx) fun found t₁ h₁ hfound => leads_forM fun sig hsig t₂ h₂ => ?_
      exact hresolve (hlater h₂ (hlater h₁ hJ)) hx hsig hkind fun b hb => w.found_later h₂ (hfound b hb)
    · subst hs
      have hx := hready hJ (hstatement (List.mem_singleton_self s.statement))
      exact w.leads_runLocal hx hkind fun t₁ sig u b host param root h₁ _ => hkeep (hlater h₁ hJ)

namespace TableWalk

variable {I : List Realization → Table → Prop} {E : Failure → Table → Prop} (w : TableWalk I E)
  {rest : List Realization} {t : Table}
include w

/-- A part is recorded and then run. -/
theorem ends_runPart {c : RelationContext} {statements : List Realization} {steps : List Planned}
    {schedule : Schedule} (harr : schedule.Arranges c statements steps) (level : Level)
    {part : List Planned × Nat} (hpart : part.1 ∈ Schedule.partition steps)
    (h : I (part.1.map Planned.statement ++ rest) t) :
    Ends (runPart level statements part) t (fun _ t' => I rest t') E := by
  rw [runPart, runPlaced, ends_bind, ends_record]
  exact w.group _ harr hpart (w.record _ _ _ h)

/-- A level runs its parts one after the other, or is not scheduled. -/
theorem ends_runLevel {statements : List Realization} (level : Level) (complete : NameSet)
    (h : I (statements ++ rest) t) :
    Ends (runLevel level statements complete) t (fun _ t' => I rest t') E := by
  cases hschedule : Schedule.ofStatements (t.context complete) statements with
  | error e =>
    unfold Ends
    rw [runLevel_error level hschedule]
    exact w.report _ h
  | ok schedule =>
    obtain ⟨steps, order, harr, hperm, _, hrun⟩ := runLevel_eq level hschedule
    unfold Ends
    rw [hrun]
    -- the parts that are left hold the statements that are left
    let left (parts : List (List Planned × Nat)) : List Realization :=
      (parts.map Prod.fst).flatten.map Planned.statement ++ rest
    have hstatements : (statements ++ rest).Perm (left order) := by
      have hsteps : (order.map Prod.fst).flatten.Perm steps :=
        hperm.flatten.trans (Schedule.flatten_partition_perm harr.numbered)
      rw [← harr.statements]
      exact ((hsteps.map _).append_right _).symm
    have hforM := ends_forM (l := order) (f := runPart level statements) (s := t) (E := E)
      (fun parts t' => I (left parts) t' ∧ ∀ p ∈ parts, p ∈ order)
      (fun part parts t' hI => ?_) ⟨w.perm h hstatements, fun _ hp => hp⟩
    · exact hforM.mono fun _ t' ht' => ht'.1
    · obtain ⟨ht', hsub⟩ := hI
      have hpart : part.1 ∈ Schedule.partition steps :=
        hperm.mem_iff.1 (List.mem_map_of_mem (hsub part (List.mem_cons_self ..)))
      have hleft : I (part.1.map Planned.statement ++ left parts) t' := by
        simpa [left] using ht'
      exact (w.ends_runPart harr level hpart hleft).mono fun _ t'' ht'' =>
        ⟨ht'', fun p hp => hsub p (List.mem_cons_of_mem _ hp)⟩

/-! ### Tables -/

/-- The levels run one after the other; each takes its statements from the table. -/
theorem ends_runLevels {all : List Realization} (hall : ∀ todo t, I todo t → t.statements = all)
    {levels : List Level} (complete : NameSet)
    (h : I (levels.flatMap fun level => all.filter (·.level == level)) t) :
    Ends (Table.runLevels complete levels) t (fun _ t' => I [] t') E := by
  induction levels generalizing t complete with
  | nil => exact h
  | cons level levels ih =>
    rw [Table.runLevels, ends_bind, ends_get, hall _ t h]
    show Ends (if (all.filter (·.level == level)).isEmpty then _ else _) t _ _
    rw [List.flatMap_cons] at h
    split
    · rename_i hempty
      rw [List.isEmpty_iff.1 hempty, List.nil_append] at h
      exact ih complete h
    · rw [ends_bind]
      exact (w.ends_runLevel level complete h).mono fun _ t' ht' => ih _ ht'

/-- A table that is not solved runs the statements of both levels and checks its guards. -/
theorem ends_run {all : List Realization} (hall : ∀ todo t, I todo t → t.statements = all)
    (hguards : ∀ t, I [] t → Ends checkGuards t (fun _ t' => I [] t') E) {J : Table → Prop}
    (hsolved : ∀ t, I [] t → J { t with solved := true }) (hdone : t.solved = true → J t)
    (h : t.solved = false → I t.statements t) : Ends Table.run t (fun _ t' => J t') E := by
  rw [Table.run, ends_bind, ends_get]
  cases hunsolved : t.solved with
  | true => exact hdone hunsolved
  | false =>
    have hI := h hunsolved
    have hstatements := hall _ t hI
    -- every statement belongs to one of the levels
    have hlevels : (([Level.interface, Level.option].flatMap fun level =>
        all.filter (·.level == level))).Perm all := by
      have hnot : all.filter (·.level == .option) =
          all.filter fun r => !(r.level == .interface) := by
        refine List.filter_congr fun r _ => ?_
        cases r.level <;> rfl
      rw [List.flatMap_cons, List.flatMap_singleton, hnot]
      exact List.filter_append_perm ..
    show Ends (get >>= _) t _ _
    rw [ends_bind, ends_get, ends_bind]
    refine (w.ends_runLevels hall t.nested (w.perm (hstatements ▸ hI) hlevels.symm)).mono
      fun _ t' ht' => ?_
    rw [ends_bind]
    exact (hguards t' ht').mono fun _ t'' ht'' => hsolved t'' ht''

end TableWalk

end Running

namespace Table

/-- An attempt to solve a table keeps what running it keeps, whether it succeeds or fails. -/
theorem solve_of_ends {t : Table} {J : Table → Prop}
    (h : Ends run t (fun _ t' => J t') (fun _ t' => J t')) : J t.solve.2 := by
  unfold Ends at h
  unfold solve
  split at h <;> rename_i heq <;> rw [heq] <;> exact h

/-- Attempts to solve a table keep what each of them keeps. -/
theorem iterate_solve_of_ends {t : Table} {J : Table → Prop}
    (h : ∀ t, J t → Ends run t (fun _ t' => J t') (fun _ t' => J t')) (ht : J t) (n : Nat) :
    J ((fun t => t.solve.2)^[n] t) := by
  induction n with
  | zero => exact ht
  | succ n ih =>
    rw [Function.iterate_succ_apply']
    exact solve_of_ends (h _ ih)

end Table

end CodeRules
