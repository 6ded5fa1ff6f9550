import CodeRules.Proofs.Fragment.Parallel
import CodeRules.Proofs.Goal.WellFormed
import CodeRules.Proofs.Program.Normal

/-!
# Solving from twin arenas

From twin arenas a goal has solutions that are the same after blurring, or solving fails with one
report (`Goal.parallel_solve`). So whether a goal holds does not depend on what was made before.
-/

namespace CodeRules

open Effect

variable {first : Nat} {w : World} {a a' : Arena} {b b' : Bindings} {e e' : Entity}

/-- No program knows a number that is too large. -/
theorem Program.unknownFrom_size (p : Program) : p.UnknownFrom UInt32.size :=
  fun i hi => absurd i.word.toNat_lt_size (Nat.not_lt.2 hi)

/-- A program that lies below a number knows none that is yet to be given out. -/
theorem Program.Below.unknownFrom {p : Program} {base : UInt32} {first : Nat} (hp : p.Below base)
    (h : base.toNat ≤ first) : p.UnknownFrom first :=
  fun _ hi => hp.unknown (UInt32.le_iff_toNat_le.2 (Nat.le_trans h hi))

/-! ### Terms -/

/-- What an arena tells about a number it tells after blurring. -/
private theorem declared?_relabel (h : a.Twin first a') (n : Node) :
    a.declared? (n.relabel (.blur first)).id = a.declared? n.id := by
  rw [Node.id_relabel, Relabeling.place_blur]
  split
  · rename_i hn
    have hsmall : first < UInt32.size := Nat.lt_of_le_of_lt hn.2 n.id.word.toNat_lt_size
    rw [h.undeclared _ hn.2, h.undeclared]
    show first ≤ (UInt32.ofNat first).toNat
    rw [UInt32.toNat_ofNat_of_lt' hsmall]
  · rfl

namespace World

section

variable (hp : w.program.UnknownFrom first) (htwin : a.Twin first a')
include hp htwin

/-- Functions say the same about an entity after blurring. -/
private theorem call?_relabel (func : EntityFunction) (e : Entity) :
    w.call? a func (e.relabel (.blur first)) = w.call? a func e := by
  cases func with
  | typeOf => exact congrArg (Option.map Entity.type) (w.program.typeOf?_relabel fun n _ => hp.blind n)
  | declarationOf => cases e <;> rfl
  | nameOf => exact congrArg (Option.map Entity.name) (e.name?_node?_relabel _)
  | signatureOf => exact congrArg (Option.map Entity.signature) (e.signature?_node?_relabel _)
  | declaringType =>
    cases e with
    | node n =>
      have hdeclaring : w.declaringType? a (n.relabel (.blur first)).id = w.declaringType? a n.id :=
        congrArg₂ (fun x y => x <|> y) (declared?_relabel htwin n) (hp.blind n).declaringType?
      exact congrArg (Option.map Entity.type) hdeclaring
    | _ => rfl

/-- A function has one value for what is the same after blurring. -/
private theorem call?_eq (func : EntityFunction)
    (h : e.relabel (.blur first) = e'.relabel (.blur first)) :
    w.call? a func e = w.call? a' func e' := by
  -- only declaring types are looked up in the arena
  have harena : w.call? a' func e' = w.call? a func e' := by
    cases func with
    | declaringType =>
      have hdeclaring : w.declaringType? a' = w.declaringType? a :=
        funext fun i => congrArg (· <|> w.program.declaringType? i) (htwin.declared i)
      rw [call?, call?, hdeclaring]
    | _ => rfl
  rw [harena, ← call?_relabel hp htwin func e, h, call?_relabel hp htwin]

/-- A call has one outcome for arguments that are the same after blurring. -/
private theorem alike_call (func : EntityFunction) {es es' : List Entity}
    (h : es.map (Entity.relabel (.blur first)) = es'.map (Entity.relabel (.blur first))) :
    Except.Alike id (Entity.relabel (.blur first)) (w.call a func es) (w.call a' func es') := by
  have hlength : es.length = es'.length := by simpa using congrArg List.length h
  match es, es', hlength with
  | [], [], _ => exact .refl _
  | [e], [e'], _ =>
    have hcall := call?_eq hp htwin func (List.cons.inj h).1
    exact congrArg (fun o : Option Entity => (o.getD .empty).relabel (.blur first)) hcall
  | _ :: _ :: es, _ :: _ :: es', hlength =>
    exact congrArg (EvalError.functionArity func) hlength

omit hp htwin in
/-- Arguments have values that are the same after blurring. -/
private theorem alike_argumentsOf {ts : List GoalTerm}
    (h : ∀ t ∈ ts, Except.Alike id (Option.map (Entity.relabel (.blur first))) (w.valueOf a b t)
      (w.valueOf a' b' t)) (func : EntityFunction) :
    Except.Alike id (List.map (Entity.relabel (.blur first))) (w.argumentsOf a b func ts)
      (w.argumentsOf a' b' func ts) := by
  induction ts with
  | nil => exact .refl _
  | cons t ts ih =>
    have ih := ih fun u hu => h u (List.mem_cons_of_mem _ hu)
    rw [argumentsOf, argumentsOf]
    refine Except.alike_bind (h t (List.mem_cons_self ..)) fun o o' ho => ?_
    obtain ⟨rfl, rfl⟩ | ⟨e, e', rfl, rfl, he⟩ := Option.cases_of_map ho
    · exact .refl _
    · refine Except.alike_bind ih fun es es' hes => ?_
      exact congrArg₂ List.cons he hes

/-- The value of a term for what is the same after blurring. -/
theorem alike_valueOf (hb : b.relabel (.blur first) = b'.relabel (.blur first)) (t : GoalTerm) :
    Except.Alike id (Option.map (Entity.relabel (.blur first))) (w.valueOf a b t)
      (w.valueOf a' b' t) := by
  induction t using GoalTerm.induction with
  | wildcard | pattern f => exact .refl _
  | const e => exact .refl _
  | var name type =>
    have hfind := congrArg (fun b => b.find? name) hb
    simp only [Bindings.find?_relabel] at hfind
    exact hfind
  | apply func args ih =>
    rw [valueOf, valueOf]
    refine Except.alike_bind (alike_argumentsOf ih func) fun es es' hes => ?_
    exact Except.alike_bind (alike_call hp htwin func hes) fun e e' he => congrArg some he

omit htwin in
/-- What a fragment recognizes in entities that are the same after blurring. -/
theorem alike_matchInto (hb : b.relabel (.blur first) = b'.relabel (.blur first))
    (he : e.relabel (.blur first) = e'.relabel (.blur first)) (f : Fragment) :
    Except.Alike id (Option.map (Bindings.relabel (.blur first))) (w.matchInto f e b)
      (w.matchInto f e' b') := by
  have hcloses : w.program.surroundings.Closes fun _ => True := ⟨trivial, fun _ _ => trivial,
    fun _ _ => trivial, fun _ => trivial⟩
  have hignores : w.program.surroundings.Ignores (.blur first) fun _ => True :=
    Program.ignores_surroundings fun n _ => hp.blind n
  have hfound (e : Entity) := f.recognize_relabel hcloses hignores (e := e) trivial
  -- both sides are compared with what is found after blurring
  have halike := (hfound e).alike (he ▸ hfound e')
  unfold matchInto
  cases hx : f.recognize w.program.surroundings e with
  | error d =>
    cases hy : f.recognize w.program.surroundings e' with
    | error d' =>
      rw [hx, hy] at halike
      exact congrArg EvalError.defect halike
    | ok o' =>
      rw [hx, hy] at halike
      exact halike.elim
  | ok o =>
    cases hy : f.recognize w.program.surroundings e' with
    | error d' =>
      rw [hx, hy] at halike
      exact halike.elim
    | ok o' =>
      rw [hx, hy] at halike
      obtain ⟨rfl, rfl⟩ | ⟨m, m', rfl, rfl, hm⟩ := Option.cases_of_map halike
      · rfl
      · show (m.withoutResult.consistentMerge? b).map _ = (m'.withoutResult.consistentMerge? b').map _
        rw [Bindings.relabel_consistentMerge?, Bindings.relabel_consistentMerge?,
          Bindings.relabel_withoutResult, Bindings.relabel_withoutResult, hm, hb]

/-- Extending bindings that are the same after blurring. -/
theorem alike_unify (hb : b.relabel (.blur first) = b'.relabel (.blur first))
    (he : e.relabel (.blur first) = e'.relabel (.blur first)) (t : GoalTerm) :
    Except.Alike id (Option.map (Bindings.relabel (.blur first))) (w.unify a t e b)
      (w.unify a' t e' b') := by
  have hkept (q : Bool) : (if q then some b else none).map (Bindings.relabel (.blur first)) =
      (if q then some b' else none).map (Bindings.relabel (.blur first)) := by
    cases q with
    | false => rfl
    | true => exact congrArg some hb
  -- what is bound already is only compared
  cases t with
  | wildcard => exact congrArg some hb
  | var name type =>
    have hfind := congrArg (fun b => b.find? name) hb
    simp only [Bindings.find?_relabel] at hfind
    rw [unify, unify]
    obtain ⟨hx, hx'⟩ | ⟨known, known', hx, hx', hknown⟩ := Option.cases_of_map hfind
    · rw [hx, hx']
      dsimp only
      -- types do not see numbers, so both are accepted or neither
      rw [hp.accepts_eq type he]
      split
      · refine congrArg some ?_
        rw [Bindings.relabel_bind, Bindings.relabel_bind, hb, he]
      · exact .refl _
    · rw [hx, hx']
      dsimp only
      rw [Entity.aliases_eq_of_relabel hknown he]
      exact hkept _
  | const known =>
    rw [unify, unify, Entity.aliases_eq_of_relabel rfl he]
    exact hkept _
  | pattern f => exact alike_matchInto hp hb he f
  | apply func args =>
    rw [unify, unify]
    refine Except.alike_bind (alike_valueOf hp htwin hb _) fun o o' ho => ?_
    -- only the shape of the value counts, which has no numbers
    obtain ⟨rfl, rfl⟩ | ⟨v, v', rfl, rfl, hv⟩ := Option.cases_of_map ho
    · exact .refl _
    · rw [Option.bind_some, Option.bind_some, Entity.sameShape_eq_of_relabel hv he]
      exact hkept _

/-- Extending bindings one term after the other. -/
theorem alike_unifyAll (hb : b.relabel (.blur first) = b'.relabel (.blur first))
    (ts : List GoalTerm) (es : List Entity) :
    Except.Alike id (Option.map (Bindings.relabel (.blur first))) (w.unifyAll a ts es b)
      (w.unifyAll a' ts es b') := by
  induction ts generalizing es b b' with
  | nil => exact congrArg some hb
  | cons t ts ih =>
    cases es with
    | nil => exact congrArg some hb
    | cons e es =>
      rw [unifyAll, unifyAll]
      refine Except.alike_bind (alike_unify hp htwin hb rfl t) fun o o' ho => ?_
      obtain ⟨rfl, rfl⟩ | ⟨c, c', rfl, rfl, hc⟩ := Option.cases_of_map ho
      · exact .refl _
      · exact ih hc es

end

end World

/-! ### Steps of solving -/

namespace Solving

/-- Computations that solve from twin arenas. -/
abbrev Parallel {α β : Type} (first : Nat) (view : α → β) (x y : Solving α) : Prop :=
  CodeRules.Parallel id first id view x y

variable {α β : Type} {view : α → β} {span : Span}

/-- Failures with one report. -/
theorem parallel_fail {e e' : EvalError} (h : e.failure span = e'.failure span) :
    Parallel first view (fail span e : Solving α) (fail span e') := parallel_throw h

/-- A question leaves the arena as it is. -/
private theorem run_ask (q : Arena → Except EvalError α) (a : Arena) :
    (ask span q).run.run a = ((q a).mapError fun e => e.failure span, a) := by
  rw [ask, run_bind]
  show StateT.run (ExceptT.run _) a = _
  cases q a <;> rfl

/-- Questions that have the same answers from twin arenas. -/
theorem parallel_ask {q q' : Arena → Except EvalError α}
    (h : ∀ a a', a.Twin first a' → Except.Alike id view (q a) (q' a')) :
    Parallel first view (ask span q) (ask span q') where
  grows a := by
    rw [run_ask]
    exact .refl a
  alike a a' htwin _ := by
    rw [run_ask, run_ask]
    exact ⟨htwin, (h a a' htwin).mapError fun _ _ he => congrArg (EvalError.failure span) he⟩

/-- Generating runs in a workshop with the arena, and leaves the arena of the workshop. -/
private theorem run_generate_eq (g : Generating α) (a : Arena) : (generate span g).run.run a =
    ((g.run.run { arena := a }).1.mapError fun e => e.failure span,
      (g.run.run { arena := a }).2.arena) := by
  rw [run_generate]
  rcases g.run.run { arena := a } with ⟨_ | _, w⟩ <;> rfl

/-- Generating that is parallel in workshops is parallel while solving. -/
theorem parallel_generate {g g' : Generating α} (h : Generating.Parallel first view g g') :
    Parallel first view (generate span g) (generate span g') where
  grows a := by
    rw [run_generate_eq]
    exact h.grows { arena := a }
  alike a a' htwin hfits := by
    rw [run_generate_eq] at hfits ⊢
    rw [run_generate_eq]
    obtain ⟨htwin', halike⟩ := h.alike { arena := a } { arena := a' } htwin hfits
    exact ⟨htwin', halike.mapError fun _ _ he => congrFun he span⟩

variable {f : Bindings → Solving Solutions}

/-- Collecting from one list what is the same after blurring. -/
theorem parallel_collect {l : List α} {f f' : α → Solving (Option Bindings)}
    (h : ∀ x, Parallel first (Option.map (Bindings.relabel (.blur first))) (f x) (f' x)) :
    Parallel first (Solutions.relabel (.blur first)) (collect f l) (collect f' l) := by
  refine parallel_foldlM (v := id) rfl (fun x x' hx out out' hout => ?_) rfl
  obtain rfl : x = x' := hx
  refine parallel_bind (h x) fun o o' ho => parallel_pure ?_
  obtain ⟨rfl, rfl⟩ | ⟨c, c', rfl, rfl, hc⟩ := Option.cases_of_map ho
  · exact hout
  · show Solutions.relabel _ (Catalog.insert out c) = Solutions.relabel _ (Catalog.insert out' c')
    rw [Solutions.relabel_insert, Solutions.relabel_insert, hout, hc]

/-- What a computation does for bindings that are the same after blurring. -/
abbrev Blurs (first : Nat) (f : Bindings → Solving Solutions) : Prop :=
  ∀ b b', b.relabel (.blur first) = b'.relabel (.blur first) →
    Parallel first (Solutions.relabel (.blur first)) (f b) (f b')

/-- Joining solutions that are the same after blurring. -/
theorem parallel_joinAll (h : Blurs first f) {s s' : Solutions}
    (hs : s.relabel (.blur first) = s'.relabel (.blur first)) :
    Parallel first (Solutions.relabel (.blur first)) (joinAll f s) (joinAll f s') := by
  refine parallel_foldlM (congrArg Catalog.toList hs) (fun b b' hb out out' hout => ?_) rfl
  refine parallel_bind (h b b' hb) fun r r' hr => parallel_pure ?_
  rw [Solutions.relabel_union, Solutions.relabel_union, hout, hr]

/-- A universal test of bindings that are the same after blurring. -/
theorem parallel_everywhere (h : Blurs first f) {l l' : List Bindings}
    (hl : l.map (Bindings.relabel (.blur first)) = l'.map (Bindings.relabel (.blur first))) :
    Parallel first id (everywhere f l) (everywhere f l') := by
  induction l generalizing l' with
  | nil =>
    obtain rfl : l' = [] := by simpa using hl.symm
    exact parallel_pure rfl
  | cons b l ih =>
    cases l' with
    | nil => cases hl
    | cons b' l' =>
      -- the search stops at the first solution that fails, which is at the same place in both lists
      rw [List.map_cons, List.map_cons, List.cons.injEq] at hl
      rw [everywhere, everywhere]
      refine parallel_bind (h b b' hl.1) fun s s' hs => ?_
      rw [Solutions.isEmpty_eq_of_relabel hs]
      split
      · exact parallel_pure rfl
      · exact ih hl.2

end Solving

namespace World

open Solving

variable {span : Span} (hp : w.program.UnknownFrom first)
  (hb : b.relabel (.blur first) = b'.relabel (.blur first))
include hp hb

/-- New entities are the same after blurring. -/
theorem parallel_generateInto (name : String) (type : ParamType) (f : Fragment) :
    Solving.Parallel first (Bindings.relabel (.blur first)) (w.generateInto span name type f b)
      (w.generateInto span name type f b') := by
  unfold generateInto
  refine parallel_bind (parallel_generate (Fragment.parallel_instantiate hp hb f))
    fun made made' hmade => ?_
  have hresult : made.result.map (Entity.relabel (.blur first)) =
      made'.result.map (Entity.relabel (.blur first)) := congrArg Bindings.result hmade
  obtain ⟨hx, hx'⟩ | ⟨e, e', hx, hx', he⟩ := Option.cases_of_map hresult
  · rw [hx, hx']
    exact parallel_fail rfl
  · rw [hx, hx']
    dsimp only
    rw [hp.accepts_eq type he]
    split
    · refine parallel_pure ?_
      rw [Bindings.relabel_bind, Bindings.relabel_bind, Bindings.relabel_withoutResult,
        Bindings.relabel_withoutResult, hmade, he]
    -- the report prints the entity without its number
    · refine parallel_fail ?_
      unfold EvalError.failure
      dsimp only
      rw [Entity.toString_eq_of_relabel he]

/-- Traits are solved in parallel. -/
theorem parallel_solveTrait (name : String) (args : List GoalTerm) :
    Solving.Parallel first (Solutions.relabel (.blur first)) (w.solveTrait span name args b)
      (w.solveTrait span name args b') := by
  unfold solveTrait
  cases w.store.find? name with
  | none => exact parallel_fail rfl
  | some r =>
    dsimp only
    split
    · exact parallel_fail rfl
    · exact parallel_collect fun t => parallel_ask fun a a' htwin =>
        alike_unifyAll hp htwin hb args t.values

/-- An entity is matched in parallel. -/
private theorem parallel_find (f : Fragment) {e e' : Entity}
    (he : e.relabel (.blur first) = e'.relabel (.blur first)) :
    Solving.Parallel first (Option.map (Bindings.relabel (.blur first)))
      (ask span fun _ => w.matchInto f e b) (ask span fun _ => w.matchInto f e' b') :=
  parallel_ask fun _ _ _ => alike_matchInto hp hb he f

/-- A term is evaluated in parallel. -/
private theorem parallel_value (t : GoalTerm) :
    Solving.Parallel first (Option.map (Entity.relabel (.blur first)))
      (ask span fun a => w.valueOf a b t) (ask span fun a => w.valueOf a b' t) :=
  parallel_ask fun _ _ htwin => alike_valueOf hp htwin hb t

/-- Matches are solved in parallel. -/
theorem parallel_solveMatches (subject : GoalTerm) (f : Fragment) :
    Solving.Parallel first (Solutions.relabel (.blur first)) (w.solveMatches span subject f b)
      (w.solveMatches span subject f b') := by
  unfold solveMatches
  refine parallel_bind (parallel_value hp hb subject) fun o o' ho => ?_
  obtain ⟨rfl, rfl⟩ | ⟨e, e', rfl, rfl, he⟩ := Option.cases_of_map ho
  · -- both runs try the same candidates, whatever was made before
    cases subject with
    | var name type =>
      refine parallel_collect fun e => ?_
      refine parallel_bind (parallel_find hp hb f rfl) fun o o' ho => parallel_pure ?_
      obtain ⟨rfl, rfl⟩ | ⟨c, c', rfl, rfl, hc⟩ := Option.cases_of_map ho
      · rfl
      · show (c.bind? name e).map _ = (c'.bind? name e).map _
        rw [Bindings.relabel_bind?, Bindings.relabel_bind?, hc]
    | wildcard => exact parallel_collect fun e => parallel_find hp hb f rfl
    | _ => exact parallel_fail rfl
  · exact parallel_bind (parallel_find hp hb f he) fun c c' hc =>
      parallel_pure (Solutions.relabel_ofOption_eq hc)

/-- Equalities are solved in parallel. -/
theorem parallel_solveEq (left right : GoalTerm) :
    Solving.Parallel first (Solutions.relabel (.blur first)) (w.solveEq span left right b)
      (w.solveEq span left right b') := by
  have hmade (name : String) (type : ParamType) (f : Fragment) :
      Solving.Parallel first (Solutions.relabel (.blur first))
        (return Catalog.singleton (← w.generateInto span name type f b))
        (return Catalog.singleton (← w.generateInto span name type f b')) :=
    parallel_bind (parallel_generateInto hp hb name type f) fun c c' hc =>
      parallel_pure (Solutions.relabel_singleton_eq hc)
  have hunify (t : GoalTerm) {e e' : Entity}
      (he : e.relabel (.blur first) = e'.relabel (.blur first)) :
      Solving.Parallel first (Solutions.relabel (.blur first))
        (return .ofOption (← ask span fun a => w.unify a t e b))
        (return .ofOption (← ask span fun a => w.unify a t e' b')) :=
    parallel_bind (parallel_ask fun a a' htwin => alike_unify hp htwin hb he t) fun o o' ho =>
      parallel_pure (Solutions.relabel_ofOption_eq ho)
  unfold solveEq
  refine parallel_bind (parallel_value hp hb left) fun o o' ho => ?_
  refine parallel_bind (parallel_value hp hb right) fun q q' hq => ?_
  obtain ⟨rfl, rfl⟩ | ⟨l, l', rfl, rfl, hl⟩ := Option.cases_of_map ho
  · obtain ⟨rfl, rfl⟩ | ⟨r, r', rfl, rfl, hr⟩ := Option.cases_of_map hq
    · -- a new entity is made if one side is a variable and the other one a pattern
      cases left with
      | var name type =>
        cases right with
        | pattern f => exact hmade name type f
        | _ => exact parallel_fail rfl
      | pattern f =>
        cases right with
        | var name type => exact hmade name type f
        | _ => exact parallel_fail rfl
      | _ => exact parallel_fail rfl
    · exact hunify left hr
  -- what is known on one side is unified with the other, and what is known on both is compared
  · obtain ⟨rfl, rfl⟩ | ⟨r, r', rfl, rfl, hr⟩ := Option.cases_of_map hq
    · exact hunify right hl
    · exact parallel_pure (Solutions.relabel_test_eq (Entity.sameShape_eq_of_relabel hl hr) hb)

/-- Inequalities are solved in parallel. -/
theorem parallel_solveNe (left right : GoalTerm) :
    Solving.Parallel first (Solutions.relabel (.blur first)) (w.solveNe span left right b)
      (w.solveNe span left right b') := by
  unfold solveNe
  refine parallel_bind (parallel_value hp hb left) fun o o' ho => ?_
  refine parallel_bind (parallel_value hp hb right) fun q q' hq => ?_
  obtain ⟨rfl, rfl⟩ | ⟨l, l', rfl, rfl, hl⟩ := Option.cases_of_map ho
  · exact parallel_fail rfl
  · obtain ⟨rfl, rfl⟩ | ⟨r, r', rfl, rfl, hr⟩ := Option.cases_of_map hq
    · exact parallel_fail rfl
    · refine parallel_pure (Solutions.relabel_test_eq (congrArg not ?_) hb)
      exact Entity.sameShape_eq_of_relabel hl hr

end World

/-! ### Goals -/

namespace Goal

open Solving

/-- Conjunctions are solved in parallel when their goals are. -/
private theorem blurs_solveAnd {gs : List Goal} (h : ∀ g ∈ gs, Blurs first (g.solve w))
    {s s' : Solutions} (hs : s.relabel (.blur first) = s'.relabel (.blur first)) :
    Solving.Parallel first (Solutions.relabel (.blur first)) (solveAnd w gs s) (solveAnd w gs s') := by
  induction gs generalizing s s' with
  | nil => exact parallel_pure hs
  | cons g gs ih =>
    rw [solveAnd, solveAnd]
    refine parallel_bind (parallel_joinAll (h g (List.mem_cons_self ..)) hs) fun t t' ht => ?_
    rw [Solutions.isEmpty_eq_of_relabel ht]
    split
    · exact parallel_pure ht
    · exact ih (fun k hk => h k (List.mem_cons_of_mem _ hk)) ht

/-- Disjunctions are solved in parallel when their goals are. -/
private theorem blurs_solveOr {gs : List Goal} (h : ∀ g ∈ gs, Blurs first (g.solve w)) :
    Blurs first (solveOr w gs) := by
  intro b b' hb
  induction gs with
  | nil => exact parallel_pure rfl
  | cons g gs ih =>
    rw [solveOr, solveOr]
    refine parallel_bind (h g (List.mem_cons_self ..) b b' hb) fun s s' hs => ?_
    refine parallel_bind (ih fun k hk => h k (List.mem_cons_of_mem _ hk)) fun t t' ht =>
      parallel_pure ?_
    rw [Solutions.relabel_union, Solutions.relabel_union, hs, ht]

/-- Quantified variables are forgotten before a goal is solved. -/
private theorem blurs_erase {f : Bindings → Solving Solutions} (h : Blurs first f)
    (binders : List String) : Blurs first fun b => f (b.erase binders) :=
  fun b b' hb => h _ _ (by rw [Bindings.relabel_erase, Bindings.relabel_erase, hb])

/-- Merging bindings, without some names, with others commutes with blurring. -/
private theorem map_filterMap_merge (l : List Bindings) (names : List String) (b : Bindings) :
    (l.filterMap fun c => (c.erase names).consistentMerge? b).map (Bindings.relabel (.blur first)) =
      (l.map (Bindings.relabel (.blur first))).filterMap fun c =>
        (c.erase names).consistentMerge? (b.relabel (.blur first)) := by
  rw [List.map_filterMap, List.filterMap_map]
  refine List.filterMap_congr fun c _ => ?_
  rw [Bindings.relabel_consistentMerge?, Function.comp_apply, Bindings.relabel_erase]

/-- From twin arenas a goal has solutions that are the same after blurring, or solving fails with one
report. -/
theorem parallel_solve (hp : w.program.UnknownFrom first) (g : Goal) : Blurs first (g.solve w) := by
  induction g using Goal.induction with
  | true => exact fun b b' hb => parallel_pure (Solutions.relabel_singleton_eq hb)
  | false => exact fun b b' hb => parallel_pure rfl
  | and items ih => exact fun b b' hb => blurs_solveAnd ih (Solutions.relabel_singleton_eq hb)
  | or items ih => exact blurs_solveOr ih
  | not body ih =>
    intro b b' hb
    exact parallel_bind (ih b b' hb) fun s s' hs =>
      parallel_pure (Solutions.relabel_test_eq (Solutions.isEmpty_eq_of_relabel hs) hb)
  | implies premise conclusion ihp ihc =>
    intro b b' hb
    refine parallel_bind (ihp b b' hb) fun s s' hs => ?_
    exact parallel_bind (parallel_everywhere ihc (congrArg Catalog.toList hs)) fun q q' hq =>
      parallel_pure (Solutions.relabel_test_eq hq hb)
  | iff left right ihl ihr =>
    intro b b' hb
    refine parallel_bind (ihl b b' hb) fun s s' hs => ?_
    refine parallel_bind (ihr b b' hb) fun t t' ht => parallel_pure ?_
    refine Solutions.relabel_test_eq ?_ hb
    rw [Solutions.isEmpty_eq_of_relabel hs, Solutions.isEmpty_eq_of_relabel ht]
  | exists_ binders body ih =>
    intro b b' hb
    refine parallel_bind (blurs_erase ih binders b b' hb) fun s s' hs => parallel_pure ?_
    -- merging with the input commutes with blurring, so the merges correspond as the solutions do
    have hlists : s.toList.map (Bindings.relabel (.blur first)) =
        s'.toList.map (Bindings.relabel (.blur first)) := congrArg Catalog.toList hs
    rw [Solutions.relabel_ofListFirst, Solutions.relabel_ofListFirst, map_filterMap_merge,
      map_filterMap_merge, hlists, hb]
  | forall_ binders range body ihr ihb =>
    intro b b' hb
    refine parallel_bind (blurs_erase ihr binders b b' hb) fun s s' hs => ?_
    exact parallel_bind (parallel_everywhere ihb (congrArg Catalog.toList hs)) fun q q' hq =>
      parallel_pure (Solutions.relabel_test_eq hq hb)
  | trait span name args => exact fun b b' hb => World.parallel_solveTrait hp hb name args
  | matches_ span subject f => exact fun b b' hb => World.parallel_solveMatches hp hb subject f
  | eq span left right => exact fun b b' hb => World.parallel_solveEq hp hb left right
  | ne span left right => exact fun b b' hb => World.parallel_solveNe hp hb left right

/-- Solving gives out numbers, for no type. -/
theorem grown_solve (w : World) (g : Goal) (b : Bindings) (a : Arena) :
    a.Grown ((g.solve w b).run.run a).2 :=
  (parallel_solve w.program.unknownFrom_size g b b rfl).grows a

/-- Solving ends in a grown arena, whether it succeeds or not. -/
theorem ends_solve_grown (w : World) (g : Goal) (b : Bindings) (a : Arena) :
    Ends (g.solve w b) a (fun _ a' => a.Grown a') (fun _ a' => a.Grown a') := by
  have hgrown := grown_solve w g b a
  unfold Ends
  rcases hrun : (g.solve w b).run.run a with ⟨_ | _, a'⟩ <;> rw [hrun] at hgrown <;> exact hgrown

/-- Solutions come with a grown arena. -/
theorem grown_of_gives {s : Solutions} (g : Goal) (h : Gives (g.solve w b) a s a') : a.Grown a' :=
  (ends_solve_grown w g b a).gives h

/-- A goal that has solutions has the same ones after blurring from a twin arena, as long as numbers do not
run out. -/
theorem ends_solve_of_twin {a₁ : Arena} {s : Solutions} (hp : w.program.UnknownFrom first) (g : Goal)
    (h : Gives (g.solve w b) a s a₁) (htwin : a.Twin first a') :
    Ends (g.solve w b) a'
      (fun s' a₂ => a₂.Fits → s.relabel (.blur first) = s'.relabel (.blur first))
      (fun _ a₂ => ¬ a₂.Fits) := by
  have halike := (parallel_solve hp g b b rfl).alike a a' htwin
  rw [show (g.solve w b).run.run a = _ from h] at halike
  unfold Ends
  rcases hrun : (g.solve w b).run.run a' with ⟨f | s', a₂⟩ <;> rw [hrun] at halike
  · exact fun hfits => (halike hfits).2
  · exact fun hfits => (halike hfits).2

/-- Whether a goal holds does not depend on the numbers of the nodes that solving makes. -/
theorem parallel_holds (hp : w.program.UnknownFrom first) (g : Goal) (b : Bindings) :
    Solving.Parallel first id (g.holds w b) (g.holds w b) :=
  parallel_bind (parallel_solve hp g b b rfl) fun _ _ hs =>
    parallel_pure (congrArg Bool.not (Solutions.isEmpty_eq_of_relabel hs))

/-- Testing a goal gives out numbers, for no type. -/
theorem grown_holds (w : World) (g : Goal) (b : Bindings) (a : Arena) :
    a.Grown ((g.holds w b).run.run a).2 :=
  (parallel_holds w.program.unknownFrom_size g b).grows a

end Goal

end CodeRules
