import CodeRules.Goal.Solve
import CodeRules.Proofs.Fragment.WellFormed
import CodeRules.Proofs.Goal.Compile

/-!
# Well-formed goals

A goal is well-formed for a store when the relations that it applies are registered with as many
parameters as they are given arguments, and its fragments are well-formed. Compiled expressions are
(`Expr.compile_wellFormed`), and solving a well-formed goal fails through the fault of the rules
only (`Goal.WellFormed.failsOnly_solve`).
-/

namespace CodeRules

namespace GoalTerm

/-- A pattern among the arguments is well-formed. -/
def WellFormed : GoalTerm → Prop
  | pattern f => f.WellFormed
  | wildcard | var .. | const _ | apply .. => True

end GoalTerm

namespace Goal

/-- Relations are applied to the right number of arguments, and fragments are well-formed. -/
inductive WellFormed (arity? : String → Option Nat) : Goal → Prop where
  | true : WellFormed arity? true
  | false : WellFormed arity? false
  | and {items : List Goal} (hitems : ∀ g ∈ items, g.WellFormed arity?) :
    WellFormed arity? (and items)
  | or {items : List Goal} (hitems : ∀ g ∈ items, g.WellFormed arity?) :
    WellFormed arity? (or items)
  | not {body : Goal} (hbody : body.WellFormed arity?) : WellFormed arity? (not body)
  | implies {premise conclusion : Goal} (hpremise : premise.WellFormed arity?)
      (hconclusion : conclusion.WellFormed arity?) : WellFormed arity? (implies premise conclusion)
  | iff {left right : Goal} (hleft : left.WellFormed arity?) (hright : right.WellFormed arity?) :
    WellFormed arity? (iff left right)
  | exists_ {binders : List String} {body : Goal} (hbody : body.WellFormed arity?) :
    WellFormed arity? (.exists binders body)
  | forall_ {binders : List String} {range body : Goal} (hrange : range.WellFormed arity?)
      (hbody : body.WellFormed arity?) : WellFormed arity? (.forall binders range body)
  | trait {span : Span} {name : String} {args : List GoalTerm}
      (hname : arity? name = some args.length) (hargs : ∀ t ∈ args, t.WellFormed) :
    WellFormed arity? (trait span name args)
  | matches_ {span : Span} {subject : GoalTerm} {f : Fragment} (hf : f.WellFormed) :
    WellFormed arity? (.matches span subject f)
  | eq {span : Span} {left right : GoalTerm} (hleft : left.WellFormed) (hright : right.WellFormed) :
    WellFormed arity? (eq span left right)
  | ne {span : Span} {left right : GoalTerm} : WellFormed arity? (ne span left right)

end Goal

/-! ### Compiled expressions -/

namespace Term

/-- The patterns among compiled terms are well-formed. -/
private theorem compile_wellFormed {s : Scope} {t : Term} {u : GoalTerm}
    (h : t.compile s = .ok u) : u.WellFormed := by
  cases t with
  | var name =>
    simp only [compile] at h
    split at h
    · exact Except.ok.inj h ▸ trivial
    -- bound, free or unknown, a name becomes a term
    · split at h <;> exact Except.ok.inj h ▸ trivial
  | entity e => exact Except.ok.inj h ▸ trivial
  | pattern p =>
    simp only [compile, Pattern.compileIn, Except.bind_eq_ok, Except.mapError_eq_ok,
      Except.pure_eq_ok] at h
    obtain ⟨f, hf, rfl⟩ := h
    exact Pattern.compile_wellFormed hf
  | apply func args =>
    simp only [compile, Except.bind_eq_ok, Except.pure_eq_ok] at h
    obtain ⟨us, _, rfl⟩ := h
    trivial

/-- Compiled arguments are well-formed, and there are as many as before. -/
private theorem compileAll_wellFormed {s : Scope} {ts : List Term} {us : List GoalTerm}
    (h : compileAll s ts = .ok us) : us.length = ts.length ∧ ∀ u ∈ us, u.WellFormed := by
  induction ts generalizing us with
  | nil =>
    simp only [compileAll, Except.ok.injEq] at h
    subst h
    simp
  | cons t ts ih =>
    simp only [compileAll, Except.bind_eq_ok, Except.pure_eq_ok] at h
    obtain ⟨u, hu, us', hus, rfl⟩ := h
    obtain ⟨hlen, hwf⟩ := ih hus
    refine ⟨by simp [hlen], fun v hv => ?_⟩
    rcases List.mem_cons.1 hv with rfl | hv
    · exact compile_wellFormed hu
    · exact hwf v hv

end Term

namespace Expr

/-- Well-formedness of all from what is known pair by pair. -/
private theorem wellFormed_of_forall₂ {arity? : String → Option Nat} {es : List Expr}
    {gs : List Goal} (h : List.Forall₂ (fun _ g => g.WellFormed arity?) es gs) :
    ∀ g ∈ gs, g.WellFormed arity? := by
  intro g hg
  obtain ⟨e, _, hwf⟩ := h.exists_left hg
  exact hwf

/-- What an expression compiles to is well-formed for the store that it was compiled for. -/
theorem compile_wellFormed {store : Store} {s : Scope} {e : Expr} {g : Goal}
    (h : e.compile store s = .ok g) : g.WellFormed store.arity? := by
  -- There is a case for each form that a goal is compiled to; only relations, which are looked up in the
  -- store, and patterns say something.
  apply compile_induction (P := fun _ _ g => g.WellFormed store.arity?) (h := h)
  case true => exact fun _ => .true
  case false => exact fun _ => .false
  case and => exact fun _ _ _ hgs => .and (wellFormed_of_forall₂ hgs)
  case or => exact fun _ _ _ hgs => .or (wellFormed_of_forall₂ hgs)
  case not => exact fun _ _ _ hg => .not hg
  case implies => exact fun _ _ _ _ _ hg hg' => .implies hg hg'
  case iff => exact fun _ _ _ _ _ hg hg' => .iff hg hg'
  case exists_ => exact fun _ _ _ _ _ _ _ hg => .exists_ hg
  case forall_ => exact fun _ _ _ _ _ _ _ _ _ hg hg' => .forall_ hg hg'
  case trait =>
    intro s span name args us harity hus
    obtain ⟨hlen, hwf⟩ := Term.compileAll_wellFormed hus
    exact .trait (hlen ▸ harity) hwf
  case matches_ => exact fun _ _ _ _ _ _ _ hf => .matches_ (Pattern.compile_wellFormed hf)
  case eq =>
    exact fun _ _ _ _ _ _ hu hu' => .eq (Term.compile_wellFormed hu) (Term.compile_wellFormed hu')
  case ne => exact fun _ _ _ _ _ _ _ _ => .ne

end Expr

/-! ### Terms in a world -/

namespace EvalError

/-- The failure is not the fault of the engine. -/
def IsUser (e : EvalError) : Prop := ∀ span, (e.failure span).isDefect = false

/-- An error of generating that is not a defect is not the fault of the engine. -/
theorem isUser_generation {e : GenerateError} (h : e.IsUser) : (generation e).IsUser := by
  intro span
  cases e with
  | defect d => exact absurd rfl (h d)
  | _ => rfl

end EvalError

namespace World

variable {w : World}

/-- An argument without a value fails through the fault of the rules, if its own error is their fault. -/
private theorem argumentsOf_error {a : Arena} {b : Bindings} {func : EntityFunction}
    {ts : List GoalTerm} {e : EvalError} (h : w.argumentsOf a b func ts = .error e)
    (hts : ∀ t ∈ ts, ∀ e, w.valueOf a b t = .error e → e.IsUser) : e.IsUser := by
  induction ts with
  | nil => simp [argumentsOf] at h
  | cons t ts ih =>
    simp only [argumentsOf] at h
    cases ht : w.valueOf a b t with
    | error e' =>
      simp only [ht, bind, Except.bind, Except.error.injEq] at h
      exact h ▸ hts t (List.mem_cons_self ..) e' ht
    | ok v =>
      simp only [ht, bind, Except.bind] at h
      cases v with
      | none =>
        -- The argument is a variable without a value, which the rules should have bound.
        simp only [Except.error.injEq] at h
        exact h ▸ fun _ => rfl
      | some v =>
        cases hrest : w.argumentsOf a b func ts with
        | error e' =>
          simp only [hrest, Except.error.injEq] at h
          subst h
          exact ih hrest fun u hu => hts u (List.mem_cons_of_mem _ hu)
        | ok vs => simp [hrest, pure, Except.pure] at h

/-- That a term has no value is never the fault of the engine. -/
theorem valueOf_error {a : Arena} {b : Bindings} {t : GoalTerm} {e : EvalError}
    (h : w.valueOf a b t = .error e) : e.IsUser := by
  induction t using GoalTerm.induction generalizing e with
  | apply func args ih =>
    simp only [valueOf] at h
    cases hargs : w.argumentsOf a b func args with
    | error e' =>
      simp only [hargs, bind, Except.bind, Except.error.injEq] at h
      exact h ▸ argumentsOf_error hargs fun t ht e he => ih t ht he
    | ok es =>
      simp only [hargs, bind, Except.bind, call] at h
      -- a function that is called with the wrong number of arguments is reported
      split at h
      · rename_i e' hcall
        split at hcall
        · cases hcall
        · simp only [Except.error.injEq] at h hcall
          subst h hcall
          exact fun _ => rfl
      · cases h
  | _ => simp [valueOf] at h

/-- Matching a well-formed fragment never fails. -/
theorem matchInto_eq_ok {f : Fragment} (hf : f.WellFormed) (e : Entity) (b : Bindings) :
    ∃ r, w.matchInto f e b = .ok r := by
  obtain ⟨r, hr⟩ := hf.recognize_eq_ok w.program.surroundings e
  exact ⟨_, by rw [matchInto, hr]⟩

/-- Unifying a well-formed term fails through the fault of the rules only: a fragment never fails. -/
theorem unify_error {a : Arena} {t : GoalTerm} (ht : t.WellFormed) {v : Entity} {b : Bindings}
    {e : EvalError} (h : w.unify a t v b = .error e) : e.IsUser := by
  cases t with
  | wildcard => simp [unify] at h
  | var name type =>
    simp only [unify] at h
    -- a variable that does not fit the entity is no error
    split at h <;> cases h
  | const known => simp [unify] at h
  | pattern f =>
    obtain ⟨r, hr⟩ := matchInto_eq_ok (w := w) ht v b
    simp [unify, hr] at h
  | apply func args =>
    simp only [unify] at h
    -- the call may have no value, which is reported
    cases hv : w.valueOf a b (.apply func args) with
    | error e' =>
      simp only [hv, bind, Except.bind, Except.error.injEq] at h
      exact h ▸ valueOf_error hv
    | ok v' => simp [hv, bind, Except.bind, pure, Except.pure] at h

/-- Unifying well-formed arguments fails through the fault of the rules only. -/
theorem unifyAll_error {a : Arena} {ts : List GoalTerm} (hts : ∀ t ∈ ts, t.WellFormed)
    {vs : List Entity} {b : Bindings} {e : EvalError} (h : w.unifyAll a ts vs b = .error e) :
    e.IsUser := by
  induction ts generalizing vs b with
  | nil => simp [unifyAll] at h
  | cons t ts ih =>
    cases vs with
    | nil => simp [unifyAll] at h
    | cons v vs =>
      simp only [unifyAll] at h
      cases hu : w.unify a t v b with
      | error e' =>
        simp only [hu, bind, Except.bind, Except.error.injEq] at h
        exact h ▸ unify_error (hts t (List.mem_cons_self ..)) hu
      | ok r =>
        simp only [hu, bind, Except.bind] at h
        cases r with
        | none => cases h
        | some b' => exact ih (fun u hu => hts u (List.mem_cons_of_mem _ hu)) h

end World

/-! ### Solving -/

open Effect

/-- The failure is not the fault of the engine. -/
def Failure.IsUser (f : Failure) : Prop := f.isDefect = false

/-- The failure tells the user something. -/
def Failure.IsReport (f : Failure) : Prop := ∃ d ds, f = .user (d :: ds)

/-- A report has at least one diagnostic, so it is no defect. -/
theorem Failure.IsReport.isUser {f : Failure} (h : f.IsReport) : f.IsUser := by
  obtain ⟨d, ds, rfl⟩ := h
  rfl

/-- An error that is not a defect is told with a diagnostic. -/
theorem EvalError.IsUser.isReport {e : EvalError} (h : e.IsUser) (span : Span) :
    (e.failure span).IsReport := by
  cases e with
  | generation e =>
    cases e with
    | defect d => cases h span
    | _ => exact ⟨_, _, rfl⟩
  | defect d => cases h span
  | _ => exact ⟨_, _, rfl⟩

namespace Solving

variable {α : Type}

/-- Failing with an error of the rules is failing with a report. -/
theorem failsOnly_fail {span : Span} {e : EvalError} (h : e.IsUser) :
    FailsOnly (fail span e : Solving α) Failure.IsReport := failsOnly_throw (h.isReport span)

/-- A question that has errors of the rules only fails with reports only. -/
theorem failsOnly_ask {span : Span} {question : Arena → Except EvalError α}
    (h : ∀ a e, question a = .error e → e.IsUser) :
    FailsOnly (ask span question) Failure.IsReport := by
  refine failsOnly_bind failsOnly_get fun a => ?_
  cases hq : question a with
  | error e => exact failsOnly_fail (h a e hq)
  | ok x => exact failsOnly_pure

/-- Collecting fails with reports only, if each finding does. -/
theorem failsOnly_collect {f : α → Solving (Option Bindings)} {l : List α}
    (h : ∀ x ∈ l, FailsOnly (f x) Failure.IsReport) : FailsOnly (collect f l) Failure.IsReport :=
  failsOnly_foldlM (fun x hx _ => failsOnly_bind (h x hx) fun _ => failsOnly_pure) _

/-- Joining fails with reports only, if it does for each of the bindings. -/
theorem failsOnly_joinAll {f : Bindings → Solving Solutions}
    (h : ∀ b, FailsOnly (f b) Failure.IsReport) (s : Solutions) :
    FailsOnly (joinAll f s) Failure.IsReport :=
  failsOnly_foldlM (fun b _ _ => failsOnly_bind (h b) fun _ => failsOnly_pure) _

/-- Asking of all fails with reports only, if it does for each of the bindings. -/
theorem failsOnly_everywhere {f : Bindings → Solving Solutions}
    (h : ∀ b, FailsOnly (f b) Failure.IsReport) (bs : List Bindings) :
    FailsOnly (everywhere f bs) Failure.IsReport := by
  induction bs with
  | nil => exact failsOnly_pure
  | cons b bs ih =>
    refine failsOnly_bind (h b) fun s => ?_
    by_cases hs : s.isEmpty = true
    · simp only [hs, ↓reduceIte]
      exact failsOnly_pure
    · simp only [hs, Bool.false_eq_true, ↓reduceIte]
      exact ih

/-- Generating runs the generator on the arena, and leaves the arena that it leaves. -/
theorem run_generate {span : Span} {g : Generating α} {a : Arena} :
    (generate span g).run.run a = match g.run.run { arena := a } with
      | (.ok x, v) => (.ok x, v.arena)
      | (.error e, v) => (.error ((EvalError.generation e).failure span), v.arena) := by
  rw [generate, run_bind]
  show StateT.run (ExceptT.run _) a = _
  rcases g.run.run { arena := a } with ⟨r, v⟩
  cases r <;> rfl

/-- Generating ends in the way that the generator ends when it starts with the arena. -/
theorem ends_generate {span : Span} {g : Generating α} {a : Arena} {Q : α → Arena → Prop}
    {E : Failure → Arena → Prop} :
    Ends (generate span g) a Q E ↔ Ends g { arena := a } (fun x v => Q x v.arena)
      (fun e v => E ((EvalError.generation e).failure span) v.arena) := by
  unfold Ends
  rw [run_generate]
  rcases g.run.run { arena := a } with ⟨r, v⟩
  cases r <;> rfl

end Solving

namespace World

variable {w : World} {span : Span} {input : Bindings}

/-- Well-formed fragments are instantiated, unless a variable has no value or the wrong one. -/
private theorem failsOnly_generateInto {name : String} {type : ParamType} {f : Fragment}
    (hf : f.WellFormed) : FailsOnly (w.generateInto span name type f input) Failure.IsReport := by
  intro a
  simp only [generateInto, ends_bind, Solving.ends_generate]
  refine (hf.ends_instantiate w.program.types input { arena := a }).imp (fun b' v hb' => ?_)
    fun e _ he => (EvalError.isUser_generation he).isReport span
  obtain ⟨e, he⟩ := Option.isSome_iff_exists.1 hb'
  simp only [he]
  split
  · exact trivial
  · exact Solving.failsOnly_fail (fun _ => rfl) v.arena

/-- A relation of the right arity is asked for its facts without a defect. -/
private theorem failsOnly_solveTrait {name : String} {args : List GoalTerm}
    (hname : w.store.arity? name = some args.length) (hargs : ∀ t ∈ args, t.WellFormed) :
    FailsOnly (w.solveTrait span name args input) Failure.IsReport := by
  simp only [Store.arity?, Option.map_eq_some_iff] at hname
  obtain ⟨r, hr, harity⟩ := hname
  simp only [solveTrait, hr, harity, ne_eq, not_true_eq_false, ↓reduceIte]
  refine Solving.failsOnly_collect fun t _ => Solving.failsOnly_ask fun a e he => ?_
  exact unifyAll_error hargs he

/-- Fragments that are well-formed are found in a subject, or in all candidates, without a defect. -/
private theorem failsOnly_solveMatches {subject : GoalTerm} {f : Fragment} (hf : f.WellFormed) :
    FailsOnly (w.solveMatches span subject f input) Failure.IsReport := by
  have hfind (e : Entity) :
      FailsOnly (Solving.ask span fun _ => w.matchInto f e input) Failure.IsReport := by
    refine Solving.failsOnly_ask fun _ e' he => ?_
    obtain ⟨r, hr⟩ := matchInto_eq_ok (w := w) hf e input
    rw [hr] at he
    cases he
  refine failsOnly_bind (Solving.failsOnly_ask fun _ _ => valueOf_error) fun v => ?_
  cases v with
  | some e => exact failsOnly_bind (hfind e) fun _ => failsOnly_pure
  -- Without a value the subject has to be a variable or a wildcard; for others a report is made.
  | none =>
    cases subject with
    | var name type =>
      exact Solving.failsOnly_collect fun e _ =>
        failsOnly_bind (hfind e) fun _ => failsOnly_pure
    | wildcard => exact Solving.failsOnly_collect fun e _ => hfind e
    | _ => exact Solving.failsOnly_fail fun _ => rfl

/-- Equations of well-formed terms fail with reports only. -/
private theorem failsOnly_solveEq {left right : GoalTerm} (hleft : left.WellFormed)
    (hright : right.WellFormed) :
    FailsOnly (w.solveEq span left right input) Failure.IsReport := by
  refine failsOnly_bind (Solving.failsOnly_ask fun _ _ => valueOf_error) fun l => ?_
  refine failsOnly_bind (Solving.failsOnly_ask fun _ _ => valueOf_error) fun r => ?_
  -- There are as many cases as there are sides with values: two are compared, one is unified with the other
  -- side, and none needs a pattern that a variable stands for.
  cases l with
  | some l =>
    cases r with
    | some r => exact failsOnly_pure
    | none =>
      exact failsOnly_bind (Solving.failsOnly_ask fun _ _ => unify_error hright) fun _ =>
        failsOnly_pure
  | none =>
    cases r with
    | some r =>
      exact failsOnly_bind (Solving.failsOnly_ask fun _ _ => unify_error hleft) fun _ =>
        failsOnly_pure
    | none =>
      dsimp only
      split
      · exact failsOnly_bind (failsOnly_generateInto hright) fun _ => failsOnly_pure
      · exact failsOnly_bind (failsOnly_generateInto hleft) fun _ => failsOnly_pure
      · exact Solving.failsOnly_fail fun _ => rfl

/-- Inequations fail with reports only. -/
private theorem failsOnly_solveNe {left right : GoalTerm} :
    FailsOnly (w.solveNe span left right input) Failure.IsReport := by
  refine failsOnly_bind (Solving.failsOnly_ask fun _ _ => valueOf_error) fun l => ?_
  refine failsOnly_bind (Solving.failsOnly_ask fun _ _ => valueOf_error) fun r => ?_
  split
  · exact failsOnly_pure
  · exact Solving.failsOnly_fail fun _ => rfl

end World

namespace Goal

variable {w : World}

/-- Conjunctions fail with reports only, from the first conjunct on. -/
private theorem failsOnly_solveAnd {gs : List Goal}
    (h : ∀ g ∈ gs, ∀ b, FailsOnly (g.solve w b) Failure.IsReport) (current : Solutions) :
    FailsOnly (solveAnd w gs current) Failure.IsReport := by
  induction gs generalizing current with
  | nil => exact failsOnly_pure
  | cons g gs ih =>
    rw [solveAnd]
    refine failsOnly_bind (Solving.failsOnly_joinAll (h g (List.mem_cons_self ..)) current)
      fun next => ?_
    split
    · exact failsOnly_pure
    · exact ih (fun g hg => h g (List.mem_cons_of_mem _ hg)) next

/-- Disjunctions fail with reports only. -/
private theorem failsOnly_solveOr {gs : List Goal}
    (h : ∀ g ∈ gs, ∀ b, FailsOnly (g.solve w b) Failure.IsReport) (input : Bindings) :
    FailsOnly (solveOr w gs input) Failure.IsReport := by
  induction gs with
  | nil => exact failsOnly_pure
  | cons g gs ih =>
    rw [solveOr]
    exact failsOnly_bind (h g (List.mem_cons_self ..) input) fun _ =>
      failsOnly_bind (ih fun g hg => h g (List.mem_cons_of_mem _ hg)) fun _ => failsOnly_pure

/-- Solving a well-formed goal fails with a report only, not through the fault of the engine. -/
theorem WellFormed.failsOnly_solve {g : Goal} (h : g.WellFormed w.store.arity?)
    (input : Bindings) : FailsOnly (g.solve w input) Failure.IsReport := by
  induction h generalizing input with
  | true => exact failsOnly_pure
  | false => exact failsOnly_pure
  | and _ ih =>
    rw [solve]
    exact failsOnly_solveAnd ih _
  | or _ ih =>
    rw [solve]
    exact failsOnly_solveOr ih input
  | not _ ih => exact failsOnly_bind (ih input) fun _ => failsOnly_pure
  | implies _ _ ihp ihc =>
    -- the conclusion is solved for every solution of the premise
    exact failsOnly_bind (ihp input) fun s =>
      failsOnly_bind (Solving.failsOnly_everywhere ihc s.toList) fun _ => failsOnly_pure
  | iff _ _ ihl ihr =>
    exact failsOnly_bind (ihl input) fun _ => failsOnly_bind (ihr input) fun _ => failsOnly_pure
  | exists_ _ ih => exact failsOnly_bind (ih _) fun _ => failsOnly_pure
  | forall_ _ _ ihr ihb =>
    exact failsOnly_bind (ihr _) fun s =>
      failsOnly_bind (Solving.failsOnly_everywhere ihb s.toList) fun _ => failsOnly_pure
  | trait hname hargs => exact World.failsOnly_solveTrait hname hargs
  | matches_ hf => exact World.failsOnly_solveMatches hf
  | eq hleft hright => exact World.failsOnly_solveEq hleft hright
  | ne => exact World.failsOnly_solveNe

end Goal

end CodeRules
