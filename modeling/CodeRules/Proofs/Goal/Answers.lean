import CodeRules.Goal.Solve
import CodeRules.Proofs.Fragment.Generated
import CodeRules.Proofs.Goal.Normal

/-!
# The answers to goals

`Goal.answers` says what the solutions of a goal are up to the numbers of made nodes. It is defined
on normal forms and needs no arena, so it is a function of the facts of a world and of what is bound,
while `Goal.solve` gives out numbers on its way. `Goal.computes_solve` shows that both agree: as long
as the arena stays intact, solving succeeds exactly when there is an answer, and the normal forms of
its solutions are the answer.
-/

namespace CodeRules

/-! ### Answers for lists -/

namespace Solutions

/-- The answers of `f` for some bindings, taken together. -/
def joined (f : Bindings → Option Solutions) (s : Solutions) : Option Solutions :=
  s.toList.foldlM (fun out b => return out.union (← f b)) ∅

/-- What `f` finds for the elements of a list. -/
def collected {α : Type} (f : α → Option (Option Bindings)) (l : List α) : Option Solutions :=
  l.foldlM (fun out x => return (← f x).elim out out.insert) ∅

/-- Whether `f` has a solution for each of some bindings; the first that has none decides. -/
def everywhere (f : Bindings → Option Solutions) : List Bindings → Option Bool
  | [] => some true
  | b :: bs => do
    if (← f b).isEmpty then return false
    everywhere f bs

end Solutions

/-! ### Answers to goals -/

namespace Program

variable (base : UInt32) (p : Program)

/-- The normal form of the value of a term. -/
def value (b : Bindings) (t : GoalTerm) : Option (Option Entity) :=
  (p.bare.valueOf (.unused base) b t).toOption.map (Option.map (Entity.normal base))

/-- What a fragment and bindings have in common with an entity. -/
def matched (f : Fragment) (input : Bindings) (e : Entity) : Option (Option Bindings) :=
  (p.bare.matchInto f e input).toOption

/-- What is found is merged with the bindings. -/
theorem matched_eq (f : Fragment) (b : Bindings) (e : Entity) : p.matched f b e =
    (f.recognize p.surroundings e).toOption.map
      (Option.bind · fun m => m.withoutResult.consistentMerge? b) := by
  have hprogram : p.bare.program = p := rfl
  rw [matched, World.matchInto, hprogram]
  cases f.recognize p.surroundings e <;> rfl

/-- The bindings in which a variable stands for what a fragment generates. -/
def generatedInto (name : String) (type : ParamType) (f : Fragment) (input : Bindings) :
    Option Bindings := do
  let e ← (f.generated base p.types input).map (Entity.normal base)
  -- the type of the variable decides whether the new entity is kept
  if type.accepts p.types e then return input.withoutResult.bind name e else none

/-- The bindings under which two terms are equal. -/
def eqAnswers (left right : GoalTerm) (input : Bindings) : Option Solutions := do
  let l ← p.value base input left
  let r ← p.value base input right
  match l, r with
  | some l, some r => return .test (l.sameShape r) input
  | some l, none => return .ofOption (← (p.bare.unify (.unused base) right l input).toOption)
  | none, some r => return .ofOption (← (p.bare.unify (.unused base) left r input).toOption)
  | none, none =>
    match left, right with
    | .var name type, .pattern f | .pattern f, .var name type =>
      return Catalog.singleton (← p.generatedInto base name type f input)
    | _, _ => none

/-- The bindings under which two terms differ. -/
def neAnswers (left right : GoalTerm) (input : Bindings) : Option Solutions := do
  let l ← p.value base input left
  let r ← p.value base input right
  match l, r with
  | some l, some r => return .test (!l.sameShape r) input
  | _, _ => none

end Program

/-- What goals see of a relation: the number of its parameters, and the normal forms of its tuples. -/
def Store.view (base : UInt32) (s : Store) (name : String) : Option (Nat × List (List Entity)) :=
  (s.find? name).map fun r =>
    (r.signature.arity, r.tuples.toList.map fun t => t.values.map (Entity.normal base))

namespace World

variable (base : UInt32) (w : World)

/-- The bindings under which a trait holds of some terms. -/
def traitAnswers (name : String) (args : List GoalTerm) (input : Bindings) : Option Solutions := do
  -- only the number of parameters and the tuples of the relation matter
  let (arity, facts) ← w.store.view base name
  if arity ≠ args.length then none
  else
    Solutions.collected
      (fun es => (w.program.bare.unifyAll (.unused base) args es input).toOption) facts

/-- The bindings under which a fragment describes a term. -/
def matchAnswers (subject : GoalTerm) (f : Fragment) (input : Bindings) : Option Solutions := do
  match ← w.program.value base input subject with
  | some e => return .ofOption (← w.program.matched f input e)
  | none =>
    match subject with
    | .var name type =>
      Solutions.collected (fun e => return (← w.program.matched f input e).bind (·.bind? name e))
        ((w.candidates type f).map (Entity.normal base))
    | .wildcard =>
      Solutions.collected (w.program.matched f input)
        ((w.candidates .any f).map (Entity.normal base))
    | _ => none

end World

namespace Goal

section

variable (base : UInt32) (w : World)

mutual

/-- The normal forms of the extensions of `input` under which the goal holds, when it can be
solved. -/
def answers : Goal → Bindings → Option Solutions
  | true, input => some (Catalog.singleton input)
  | false, _ => some ∅
  | and items, input => answersAnd items (Catalog.singleton input)
  | or items, input => answersOr items input
  | not body, input => do
    let s ← answers body input
    return .test s.isEmpty input
  | implies premise conclusion, input => do
    let s ← answers premise input
    return .test (← Solutions.everywhere (answers conclusion) s.toList) input
  | iff left right, input => do
    let l ← answers left input
    let r ← answers right input
    return .test (l.isEmpty == r.isEmpty) input
  | .exists binders body, input => do
    -- the binders are free again in what is found, and the old values of `input` are merged in
    let s ← answers body (input.erase binders)
    return Catalog.ofListFirst
      (s.toList.filterMap fun b => (b.erase binders).consistentMerge? input)
  | .forall binders range body, input => do
    let s ← answers range (input.erase binders)
    return .test (← Solutions.everywhere (answers body) s.toList) input
  | trait _ name args, input => w.traitAnswers base name args input
  | .matches _ subject f, input => w.matchAnswers base subject f input
  | eq _ left right, input => w.program.eqAnswers base left right input
  | ne _ left right, input => w.program.neAnswers base left right input

/-- Some answers joined with those of several goals in turn. -/
def answersAnd : List Goal → Solutions → Option Solutions
  | [], current => some current
  | g :: gs, current => do
    let next ← Solutions.joined (answers g) current
    if next.isEmpty then return next
    answersAnd gs next

/-- The answers of several goals, taken together. -/
def answersOr : List Goal → Bindings → Option Solutions
  | [], _ => some ∅
  | g :: gs, input => do
    let first ← answers g input
    return first.union (← answersOr gs input)

end

end

end Goal

/-! ### Solving one question -/

namespace Solutions

variable {base : UInt32}

/-- No solutions are uniform. -/
theorem uniform_empty : Solutions.Uniform base ∅ := fun b hb => by cases hb

/-- A single solution is uniform when its bindings are. -/
theorem uniform_singleton {b : Bindings} (hb : b.Uniform base) :
    Solutions.Uniform base (Catalog.singleton b) := by
  intro c hc
  obtain rfl := List.mem_singleton.1 hc
  exact hb

/-- Uniform solutions can be taken together. -/
theorem Uniform.union {s t : Solutions} (hs : s.Uniform base) (ht : t.Uniform base) :
    Solutions.Uniform base (Catalog.union s t) := by
  intro b hb
  rcases Catalog.mem_of_mem_union hb with hb | hb
  · exact hs b hb
  · exact ht b hb

/-- A uniform solution can be added to uniform ones. -/
theorem Uniform.insert {s : Solutions} (hs : s.Uniform base) {b : Bindings} (hb : b.Uniform base) :
    Solutions.Uniform base (Catalog.insert s b) := by
  intro c hc
  rcases Catalog.mem_of_mem_insert hc with rfl | hc
  · exact hb
  · exact hs c hc

/-- The solutions of a test are its input or none. -/
theorem uniform_test {b : Bindings} (hb : b.Uniform base) (holds : Bool) :
    (test holds b).Uniform base := by
  unfold test
  split
  · exact uniform_singleton hb
  · exact uniform_empty

/-- The solutions of an attempt are what it finds. -/
theorem uniform_ofOption {o : Option Bindings} (ho : ∀ b ∈ o, b.Uniform base) :
    (ofOption o).Uniform base := by
  cases o with
  | none => exact uniform_empty
  | some b => exact uniform_singleton (ho b rfl)

/-- Solutions without some variables are merged with bindings as their normal forms are. -/
theorem filterMap_merge_normal (s : Solutions) (names : List String) (b : Bindings) :
    (s.normal base).toList.filterMap (fun c => (c.erase names).consistentMerge? (b.normal base)) =
      (s.toList.filterMap fun c => (c.erase names).consistentMerge? b).map (Bindings.normal base) := by
  rw [toList_normal, List.filterMap_map, List.map_filterMap]
  refine List.filterMap_congr fun c _ => ?_
  rw [Bindings.normal_consistentMerge?, Bindings.normal_erase]
  rfl

end Solutions

namespace Solving

open Effect

variable {base : UInt32} {H : Prop} {α β : Type} {P : α → Prop} {normal : α → β} {v : Option β}

/-- A failure answers a question that has no answer. -/
theorem computes_fail {span : Span} {e : EvalError} (h : H → v = none) :
    Computes id base H (fail span e) P normal v := computes_throw h

/-- A question has an answer when it has the same on all intact arenas. -/
theorem computes_ask {span : Span} {question : Arena → Except EvalError α}
    (h : H → ∀ a, a.Intact base →
      (∀ r, question a = .ok r → P r) ∧ (question a).toOption.map normal = v) :
    Computes id base H (ask span question) P normal v := by
  intro a
  unfold ask
  rw [ends_bind, ends_get]
  -- only the arena is read, and it stays as it is
  cases hq : question a with
  | ok r =>
    refine ⟨.refl base a, fun hH ha => ?_⟩
    obtain ⟨hP, hv⟩ := h hH a ha
    rw [hq] at hv
    exact ⟨hP r hq, hv.symm⟩
  | error e =>
    refine ⟨.refl base a, fun hH ha => ?_⟩
    obtain ⟨_, hv⟩ := h hH a ha
    rw [hq] at hv
    exact hv.symm

/-- Generating while solving works on the arena as it does in a workshop. -/
theorem computes_generate {span : Span} {y : Generating α}
    (h : Computes Workshop.arena base H y P normal v) :
    Computes id base H (generate span y) P normal v := by
  intro a
  -- the records of a workshop are new at its start and dropped in the end
  have hy := h { arena := a }
  unfold Ends at hy
  unfold generate
  rw [ends_bind, ends_get]
  show Ends (set _ >>= _) a _ _
  rw [ends_bind, ends_set]
  split at hy
  · rename_i r w hrun
    rw [show y { arena := a } = _ from hrun]
    exact hy
  · rename_i e w hrun
    rw [show y { arena := a } = _ from hrun]
    exact hy

/-! ### Solving for lists -/

/-- The solutions for some bindings taken together have the answers taken together. -/
theorem computes_joinAll {f : Bindings → Solving Solutions} {g : Bindings → Option Solutions}
    (hf : ∀ b, Computes id base (H ∧ b.Uniform base) (f b) (Solutions.Uniform base)
      (Solutions.normal base) (g (b.normal base))) (s : Solutions) :
    Computes id base (H ∧ s.Uniform base) (joinAll f s) (Solutions.Uniform base) (Solutions.normal base)
      (Solutions.joined g (s.normal base)) := by
  -- by induction on the bindings, with what was collected so far
  have hfold (l : List Bindings) (out : Solutions) :
      Computes id base (H ∧ (∀ b ∈ l, b.Uniform base) ∧ out.Uniform base)
        (l.foldlM (fun out b => return out.union (← f b)) out : Solving Solutions)
        (Solutions.Uniform base) (Solutions.normal base)
        ((l.map (Bindings.normal base)).foldlM (fun out b => return out.union (← g b))
          (out.normal base)) := by
    induction l generalizing out with
    | nil => exact computes_pure fun h => ⟨h.2.2, rfl⟩
    | cons b l ih =>
      have hstep : Computes id base (H ∧ (∀ c ∈ b :: l, c.Uniform base) ∧ out.Uniform base)
          (do return out.union (← f b)) (Solutions.Uniform base) (Solutions.normal base)
          (do return (out.normal base).union (← g (b.normal base))) := by
        apply computes_bind ((hf b).given fun h => ⟨h.1, h.2.1 b (List.mem_cons_self ..)⟩)
        intro s
        exact computes_pure fun h =>
          ⟨h.1.2.2.union h.2, congrArg some (Solutions.normal_union base out s).symm⟩
      rw [List.foldlM_cons, List.map_cons, List.foldlM_cons]
      apply computes_bind hstep
      intro out'
      exact (ih out').given fun h =>
        ⟨h.1.1, fun c hc => h.1.2.1 c (List.mem_cons_of_mem _ hc), h.2⟩
  exact (hfold s.toList ∅).given fun h => ⟨h.1, h.2, Solutions.uniform_empty⟩

/-- What is found for the elements of a list has the answers for their normal forms. -/
theorem computes_collect {γ : Type} {f : α → Solving (Option Bindings)} {k : α → γ}
    {g : γ → Option (Option Bindings)} {l : List α}
    (hf : ∀ x ∈ l, Computes id base H (f x) (fun o => ∀ b ∈ o, b.Uniform base)
      (Option.map (Bindings.normal base)) (g (k x))) :
    Computes id base H (collect f l) (Solutions.Uniform base) (Solutions.normal base)
      (Solutions.collected g (l.map k)) := by
  -- by induction on the list, with what was collected so far
  have hfold (out : Solutions) : Computes id base (H ∧ out.Uniform base)
      (l.foldlM (fun out x => return (← f x).elim out out.insert) out : Solving Solutions)
      (Solutions.Uniform base) (Solutions.normal base)
      ((l.map k).foldlM (fun out x => return (← g x).elim out out.insert) (out.normal base)) := by
    induction l generalizing out with
    | nil => exact computes_pure fun h => ⟨h.2, rfl⟩
    | cons x l ih =>
      have hstep : Computes id base (H ∧ out.Uniform base)
          (do return (← f x).elim out out.insert) (Solutions.Uniform base) (Solutions.normal base)
          (do return (← g (k x)).elim (out.normal base) (out.normal base).insert) := by
        apply computes_bind ((hf x (List.mem_cons_self ..)).given And.left)
        intro o
        cases o with
        | none => exact computes_pure fun h => ⟨h.1.2, rfl⟩
        | some b => exact computes_pure fun h =>
            ⟨h.1.2.insert (h.2 b rfl), congrArg some (Solutions.normal_insert base out b).symm⟩
      rw [List.foldlM_cons, List.map_cons, List.foldlM_cons]
      apply computes_bind hstep
      intro out'
      exact (ih (fun y hy => hf y (List.mem_cons_of_mem _ hy)) out').given fun h => ⟨h.1.1, h.2⟩
  exact (hfold ∅).given fun h => ⟨h, Solutions.uniform_empty⟩

/-- Whether every one of some bindings has a solution is decided by the answers. -/
theorem computes_everywhere {f : Bindings → Solving Solutions} {g : Bindings → Option Solutions}
    (hf : ∀ b, Computes id base (H ∧ b.Uniform base) (f b) (Solutions.Uniform base)
      (Solutions.normal base) (g (b.normal base))) (l : List Bindings) :
    Computes id base (H ∧ ∀ b ∈ l, b.Uniform base) (everywhere f l) (fun _ => True) id
      (Solutions.everywhere g (l.map (Bindings.normal base))) := by
  induction l with
  | nil => exact computes_pure fun _ => ⟨trivial, rfl⟩
  | cons b l ih =>
    rw [everywhere, List.map_cons, Solutions.everywhere]
    apply computes_bind ((hf b).given fun h => ⟨h.1, h.2 b (List.mem_cons_self ..)⟩)
    intro s
    simp only [Solutions.isEmpty_normal]
    split
    · exact computes_pure fun _ => ⟨trivial, rfl⟩
    · exact ih.given fun h => ⟨h.1.1, fun c hc => h.1.2 c (List.mem_cons_of_mem _ hc)⟩

end Solving

/-! ### Solving against a world -/

/-- All values of tuples are uniform. -/
def Store.Uniform (base : UInt32) (s : Store) : Prop :=
  ∀ name r, s.find? name = some r → ∀ t ∈ r.tuples.toList, ∀ e ∈ t.values, e.Uniform base

/-- The program lies below `base`, and the entities of local statements are uniform. -/
structure World.Uniform (base : UInt32) (w : World) : Prop where
  program : w.program.Below base
  overlay : ∀ e ∈ w.overlay, e.Uniform base

namespace World

open Effect Solving

variable {base : UInt32} {w : World} {b : Bindings}

/-- Entities of the program were read, and the others are as uniform as the world says. -/
theorem Uniform.candidates (hw : w.Uniform base) {type : ParamType} {f : Fragment} {e : Entity}
    (he : e ∈ w.candidates type f) : e.Uniform base := by
  have hknown {c : Category} {tag : Option Tag} (h : e ∈ w.program.candidates c tag) :
      e.Uniform base := by
    left
    -- what was read lies below `base`, with or without an index for its tag
    cases tag with
    | none => exact hw.program.entities e (List.mem_filter.1 h).1
    | some tag => exact hw.program.entities e (List.mem_filter.1 h).1
  unfold World.candidates at he
  rcases List.mem_append.1 (List.mem_filter.1 he).1 with h | h
  · split at h
    · exact hknown h
    · obtain ⟨tag, _, h⟩ := List.mem_flatMap.1 h
      exact hknown h
  · exact hw.overlay e (List.mem_filter.1 h).1

/-- Matching an entity of the world is answered by its normal form. -/
private theorem computes_find (hw : w.Uniform base) (span : Span) (f : Fragment) {e : Entity}
    {H : Prop} (he : H → e.Uniform base) (hb : H → b.Uniform base) :
    Computes id base H (ask span fun _ => w.matchInto f e b)
      (fun o => ∀ c ∈ o, c.Uniform base) (Option.map (Bindings.normal base))
      (w.program.matched f (b.normal base) (e.normal base)) := by
  apply computes_ask
  intro h a _
  constructor
  · intro o ho c hc
    obtain rfl : o = some c := hc
    exact uniform_matchInto hw.program (he h) (hb h) ho
  · exact matchInto_normal hw.program f (he h)

/-- The value of a term is answered by its normal form. -/
private theorem computes_value (hw : w.Uniform base) (span : Span) {t : GoalTerm}
    (ht : t.Uniform base) :
    Computes id base (b.Uniform base) (ask span fun a => w.valueOf a b t)
      (fun o => ∀ e ∈ o, e.Uniform base) (Option.map (Entity.normal base))
      (w.program.value base (b.normal base) t) := by
  apply computes_ask
  intro hb a ha
  constructor
  · intro o ho e he
    obtain rfl : o = some e := he
    exact uniform_valueOf hw.program hb ht ho
  · exact valueOf_normal hw.program ha hb ht

/-- Unifying a term with an entity is answered by their normal forms. -/
private theorem computes_unify (hw : w.Uniform base) (span : Span) {t : GoalTerm} {e : Entity}
    {H : Prop} (ht : t.Uniform base) (he : H → e.Uniform base) (hb : H → b.Uniform base) :
    Computes id base H (ask span fun a => w.unify a t e b)
      (fun o => ∀ c ∈ o, c.Uniform base) (Option.map (Bindings.normal base))
      (w.program.bare.unify (.unused base) t (e.normal base) (b.normal base)).toOption := by
  apply computes_ask
  intro h a ha
  constructor
  · intro o ho c hc
    obtain rfl : o = some c := hc
    exact uniform_unify hw.program (he h) (hb h) ho
  · exact unify_normal hw.program ha ht (he h) (hb h)

/-- A trait is answered by what goals see of its relation. -/
theorem computes_solveTrait (hw : w.Uniform base) (span : Span) (name : String)
    {args : List GoalTerm} (hargs : ∀ t ∈ args, t.Uniform base) :
    Computes id base (w.store.Uniform base ∧ b.Uniform base) (w.solveTrait span name args b)
      (Solutions.Uniform base)
      (Solutions.normal base) (w.traitAnswers base name args (b.normal base)) := by
  unfold solveTrait traitAnswers Store.view
  cases hr : w.store.find? name with
  | none => exact computes_fail fun _ => rfl
  -- each tuple of the relation is unified with the arguments
  | some r =>
    simp only [Option.map_some, Option.bind_eq_bind, Option.bind_some]
    split
    · exact computes_fail fun _ => rfl
    · apply computes_collect
      intro t ht
      apply computes_ask
      intro h a ha
      obtain ⟨hs, hb⟩ := h
      have ht := hs name r hr t ht
      constructor
      · intro o ho c hc
        obtain rfl : o = some c := hc
        exact uniform_unifyAll hw.program ht hb ho
      · exact unifyAll_normal hw.program ha hargs ht hb

/-- A match is answered by the value of its subject, or by the candidates for it. -/
theorem computes_solveMatches (hw : w.Uniform base) (span : Span) {subject : GoalTerm}
    (hsubject : subject.Uniform base) (f : Fragment) :
    Computes id base (b.Uniform base) (w.solveMatches span subject f b) (Solutions.Uniform base)
      (Solutions.normal base) (w.matchAnswers base subject f (b.normal base)) := by
  unfold solveMatches matchAnswers
  apply computes_bind (computes_value hw span hsubject)
  intro o
  -- with a subject that is known there is nothing to enumerate
  cases o with
  | some e =>
    have hfind := computes_find (b := b) hw span f (e := e)
      (fun h : b.Uniform base ∧ ∀ x ∈ some e, x.Uniform base => h.2 e rfl) And.left
    apply computes_bind hfind
    intro found
    exact computes_pure fun h =>
      ⟨Solutions.uniform_ofOption h.2, congrArg some (Solutions.normal_ofOption base found).symm⟩
  | none =>
    cases subject with
    -- all candidates are tried, and nothing is bound to them
    | wildcard =>
      apply computes_collect
      intro e he
      exact computes_find hw span f (fun _ => hw.candidates he) And.left
    | var name type =>
      -- all candidates are tried, and the subject is bound to those that are recognized
      apply computes_collect
      intro e he
      have he := hw.candidates he
      apply computes_bind (computes_find hw span f (fun _ => he) And.left)
      intro found
      apply computes_pure
      intro h
      cases found with
      | none => exact ⟨fun c hc => (by cases hc), rfl⟩
      | some c =>
        exact ⟨fun d hd => (h.2 c rfl).bind? he hd, congrArg some (c.normal_bind? base name e).symm⟩
    | _ => exact computes_fail fun _ => rfl

/-- A new entity is answered by what the fragment generates. -/
theorem computes_generateInto (hw : w.Uniform base) (span : Span) (name : String) (type : ParamType)
    (f : Fragment) :
    Computes id base (b.Uniform base) (w.generateInto span name type f b) (Bindings.Uniform base)
      (Bindings.normal base) (w.program.generatedInto base name type f (b.normal base)) := by
  have hinstantiate := Fragment.computes_instantiate (b := b) hw.program f
  -- a value is generated, its type is checked, and it is bound
  have hvalue : w.program.generatedInto base name type f (b.normal base) =
      ((f.generated base w.program.types (b.normal base)).map fun e =>
        { b.normal base with result := some e }).bind fun m => m.result.bind fun e =>
          if type.accepts w.program.types (e.normal base) then
            some (m.withoutResult.bind name (e.normal base)) else none := by
    unfold Program.generatedInto
    cases f.generated base w.program.types (b.normal base) <;> rfl
  rw [hvalue]
  unfold generateInto
  apply computes_bind (Solving.computes_generate hinstantiate)
  intro made
  have hnormal : (made.normal base).result = made.result.map (Entity.normal base) := rfl
  rw [hnormal]
  cases hmade : made.result with
  | none => exact computes_fail fun _ => rfl
  | some e =>
    have he (h : b.Uniform base ∧ made.Uniform base) : e.Uniform base := h.2.result e hmade
    have haccepts (h : b.Uniform base ∧ made.Uniform base) :=
      hw.program.accepts_normal (he h) type
    simp only [Option.map_some]
    split
    · rename_i hyes
      refine computes_pure fun h => ⟨h.2.withoutResult.bind (he h) name, ?_⟩
      show (if type.accepts w.program.types ((e.normal base).normal base) then _ else _) = _
      rw [Entity.normal_normal, haccepts h, if_pos hyes, Bindings.normal_bind]
      rfl
    · rename_i hno
      refine computes_fail fun h => ?_
      show (if type.accepts w.program.types ((e.normal base).normal base) then _ else _) = _
      rw [Entity.normal_normal, haccepts h, if_neg hno]

/-- An equality is answered by comparing, by unifying or by generating. -/
theorem computes_solveEq (hw : w.Uniform base) (span : Span) {left right : GoalTerm}
    (hleft : left.Uniform base) (hright : right.Uniform base) :
    Computes id base (b.Uniform base) (w.solveEq span left right b) (Solutions.Uniform base)
      (Solutions.normal base) (w.program.eqAnswers base left right (b.normal base)) := by
  have hdone {H : Prop} {o : Option Bindings} (ho : H → ∀ c ∈ o, c.Uniform base) :
      Computes id base H (pure (Solutions.ofOption o) : Solving Solutions) (Solutions.Uniform base)
        (Solutions.normal base) (some (Solutions.ofOption (o.map (Bindings.normal base)))) :=
    computes_pure fun h =>
      ⟨Solutions.uniform_ofOption (ho h), congrArg some (Solutions.normal_ofOption base o).symm⟩
  unfold solveEq Program.eqAnswers
  apply computes_bind (computes_value hw span hleft)
  intro l
  apply computes_bind ((computes_value hw span hright).given And.left)
  intro r
  -- with both sides known they are compared, and with one known the other is unified with it
  cases l with
  | some l =>
    cases r with
    | some r =>
      have htest : some (Solutions.test ((l.normal base).sameShape (r.normal base)) (b.normal base)) =
          some ((Solutions.test (l.sameShape r) b).normal base) := by
        rw [Solutions.normal_test, Entity.sameShape_normal]
      exact computes_pure fun h => ⟨Solutions.uniform_test h.1.1 _, htest⟩
    | none =>
      apply computes_bind (computes_unify hw span (e := l) hright (fun h => h.1.2 l rfl) fun h => h.1.1)
      intro o
      exact hdone And.right
  | none =>
    cases r with
    | some r =>
      apply computes_bind (computes_unify hw span (e := r) hleft (fun h => h.2 r rfl) fun h => h.1.1)
      intro o
      exact hdone And.right
    | none =>
      -- one side is a new entity for the other
      have hmade {H : Prop} (hb : H → b.Uniform base) (name : String) (type : ParamType)
          (f : Fragment) : Computes id base H
            (do return Catalog.singleton (← w.generateInto span name type f b))
            (Solutions.Uniform base) (Solutions.normal base)
            (do
              let c ← w.program.generatedInto base name type f (b.normal base)
              return Catalog.singleton c) := by
        apply computes_bind ((computes_generateInto hw span name type f).given hb)
        intro c
        exact computes_pure fun h => ⟨Solutions.uniform_singleton h.2, rfl⟩
      cases left with
      | var name type =>
        cases right with
        | pattern f => exact hmade (fun h => h.1.1) name type f
        | _ => exact computes_fail fun _ => rfl
      | pattern f =>
        cases right with
        | var name type => exact hmade (fun h => h.1.1) name type f
        | _ => exact computes_fail fun _ => rfl
      | _ => exact computes_fail fun _ => rfl

/-- An inequality is answered by comparing. -/
theorem computes_solveNe (hw : w.Uniform base) (span : Span) {left right : GoalTerm}
    (hleft : left.Uniform base) (hright : right.Uniform base) :
    Computes id base (b.Uniform base) (w.solveNe span left right b) (Solutions.Uniform base)
      (Solutions.normal base) (w.program.neAnswers base left right (b.normal base)) := by
  unfold solveNe Program.neAnswers
  apply computes_bind (computes_value hw span hleft)
  intro l
  apply computes_bind ((computes_value hw span hright).given And.left)
  intro r
  cases l with
  | some l =>
    cases r with
    | some r =>
      -- shapes have no numbers, so normal forms compare like the entities
      have htest : some (Solutions.test (!(l.normal base).sameShape (r.normal base)) (b.normal base)) =
          some ((Solutions.test (!l.sameShape r) b).normal base) := by
        rw [Solutions.normal_test, Entity.sameShape_normal]
      exact computes_pure fun h => ⟨Solutions.uniform_test h.1.1 _, htest⟩
    | none => exact computes_fail fun _ => rfl
  | none => cases r <;> exact computes_fail fun _ => rfl

end World

/-! ### Solving goals -/

namespace Goal

open Effect Solving

mutual

/-- The terms of a goal. -/
def terms : Goal → List GoalTerm
  | and items | or items => termsAll items
  | not body | .exists _ body => terms body
  | implies left right | iff left right | .forall _ left right => terms left ++ terms right
  | trait _ _ args => args
  | .matches _ subject _ => [subject]
  | eq _ left right | ne _ left right => [left, right]
  | true | false => []

/-- The terms of several goals. -/
def termsAll : List Goal → List GoalTerm
  | [] => []
  | g :: gs => terms g ++ termsAll gs

end

/-- The terms of several goals are those of each of them. -/
theorem termsAll_eq_flatMap (gs : List Goal) : termsAll gs = gs.flatMap terms := by
  induction gs with
  | nil => rfl
  | cons g gs ih => rw [termsAll, ih, List.flatMap_cons]

/-- All entities that stand in the goal are uniform. -/
def Uniform (base : UInt32) (g : Goal) : Prop := ∀ t ∈ g.terms, t.Uniform base

variable {base : UInt32} {w : World} {gs : List Goal}

/-- The goals of a uniform list are uniform. -/
theorem Uniform.item (h : ∀ t ∈ termsAll gs, t.Uniform base) {g : Goal} (hg : g ∈ gs) :
    g.Uniform base := by
  intro t ht
  refine h t ?_
  rw [termsAll_eq_flatMap]
  exact List.mem_flatMap.2 ⟨g, hg, ht⟩

/-- The first part of a uniform goal is uniform. -/
theorem Uniform.left {g g' : Goal} (h : ∀ t ∈ g.terms ++ g'.terms, t.Uniform base) : g.Uniform base :=
  fun t ht => h t (List.mem_append_left _ ht)

/-- The second part of a uniform goal is uniform. -/
theorem Uniform.right {g g' : Goal} (h : ∀ t ∈ g.terms ++ g'.terms, t.Uniform base) :
    g'.Uniform base := fun t ht => h t (List.mem_append_right _ ht)

/-- A conjunction is answered goal by goal until no solution is left. -/
private theorem computes_solveAnd
    (h : ∀ g ∈ gs, ∀ b, Computes id base (w.store.Uniform base ∧ b.Uniform base) (g.solve w b)
      (Solutions.Uniform base) (Solutions.normal base) (g.answers base w (b.normal base)))
    (current : Solutions) :
    Computes id base (w.store.Uniform base ∧ current.Uniform base) (solveAnd w gs current)
      (Solutions.Uniform base) (Solutions.normal base) (answersAnd base w gs (current.normal base)) := by
  induction gs generalizing current with
  | nil => exact computes_pure fun h => ⟨h.2, rfl⟩
  | cons g gs ih =>
    rw [solveAnd, answersAnd]
    apply computes_bind (computes_joinAll (h g (List.mem_cons_self ..)) current)
    -- the search stops where no solution is left, in both
    intro next
    simp only [Solutions.isEmpty_normal]
    split
    · exact computes_pure fun h => ⟨h.2, rfl⟩
    · exact (ih (fun k hk => h k (List.mem_cons_of_mem _ hk)) next).given fun h => ⟨h.1.1, h.2⟩

/-- A disjunction is answered by all its goals. -/
private theorem computes_solveOr {b : Bindings}
    (h : ∀ g ∈ gs, ∀ b, Computes id base (w.store.Uniform base ∧ b.Uniform base) (g.solve w b)
      (Solutions.Uniform base) (Solutions.normal base) (g.answers base w (b.normal base))) :
    Computes id base (w.store.Uniform base ∧ b.Uniform base) (solveOr w gs b)
      (Solutions.Uniform base) (Solutions.normal base) (answersOr base w gs (b.normal base)) := by
  induction gs with
  | nil => exact computes_pure fun _ => ⟨Solutions.uniform_empty, rfl⟩
  | cons g gs ih =>
    have hrest := ih fun k hk => h k (List.mem_cons_of_mem _ hk)
    rw [solveOr, answersOr]
    apply computes_bind (h g (List.mem_cons_self ..) b)
    intro first
    apply computes_bind (hrest.given And.left)
    intro rest
    exact computes_pure fun h =>
      ⟨h.1.2.union h.2, congrArg some (Solutions.normal_union base first rest).symm⟩

/-- Solving agrees with the answers to the goal up to the numbers of made nodes. -/
theorem computes_solve (hw : w.Uniform base) {g : Goal} (hg : g.Uniform base) (b : Bindings) :
    Computes id base (w.store.Uniform base ∧ b.Uniform base) (g.solve w b)
      (Solutions.Uniform base) (Solutions.normal base) (g.answers base w (b.normal base)) := by
  induction g using Goal.induction generalizing b with
  | true => exact computes_pure fun h => ⟨Solutions.uniform_singleton h.2, rfl⟩
  | false => exact computes_pure fun _ => ⟨Solutions.uniform_empty, rfl⟩
  | and items ih =>
    have hitems := computes_solveAnd (fun g h => ih g h (Uniform.item hg h)) (Catalog.singleton b)
    exact hitems.given fun h => ⟨h.1, Solutions.uniform_singleton h.2⟩
  | or items ih => exact computes_solveOr fun g h => ih g h (Uniform.item hg h)
  -- negations and tests only ask whether there are solutions
  | not body ih =>
    rw [solve, answers]
    apply computes_bind (ih hg b)
    intro s
    rw [Solutions.isEmpty_normal, ← Solutions.normal_test]
    exact computes_pure fun h => ⟨Solutions.uniform_test h.1.2 _, rfl⟩
  | implies premise conclusion ihp ihc =>
    have hp := ihp (fun t ht => hg t (List.mem_append_left _ ht))
    have hc := ihc (fun t ht => hg t (List.mem_append_right _ ht))
    rw [solve, answers]
    apply computes_bind (hp b)
    intro s
    apply computes_bind ((computes_everywhere hc s.toList).given fun h => ⟨h.1.1, h.2⟩)
    intro holds
    exact computes_pure fun h => ⟨Solutions.uniform_test h.1.1.2 _,
      congrArg some (Solutions.normal_test base holds b).symm⟩
  | iff left right ihl ihr =>
    have hl := ihl (fun t ht => hg t (List.mem_append_left _ ht)) b
    have hr := ihr (fun t ht => hg t (List.mem_append_right _ ht)) b
    rw [solve, answers]
    apply computes_bind hl
    intro s
    apply computes_bind (hr.given And.left)
    intro t
    rw [Solutions.isEmpty_normal, Solutions.isEmpty_normal, ← Solutions.normal_test]
    exact computes_pure fun h => ⟨Solutions.uniform_test h.1.1.2 _, rfl⟩
  -- the bound variables are erased before and after, which normal forms allow
  | exists_ binders body ih =>
    rw [solve, answers, ← Bindings.normal_erase]
    apply computes_bind ((ih hg (b.erase binders)).given fun h => ⟨h.1, h.2.erase binders⟩)
    intro s
    rw [Solutions.filterMap_merge_normal, ← Solutions.normal_ofListFirst]
    refine computes_pure fun h => ⟨fun d hd => ?_, rfl⟩
    obtain ⟨c, hc, hmerge⟩ := List.mem_filterMap.1 (Catalog.mem_of_mem_ofListFirst hd)
    exact ((h.2 c hc).erase binders).consistentMerge? h.1.2 hmerge
  | forall_ binders range body ihr ihb =>
    have hr := ihr (fun t ht => hg t (List.mem_append_left _ ht))
    have hb := ihb (fun t ht => hg t (List.mem_append_right _ ht))
    rw [solve, answers, ← Bindings.normal_erase]
    apply computes_bind ((hr (b.erase binders)).given fun h => ⟨h.1, h.2.erase binders⟩)
    intro s
    apply computes_bind ((computes_everywhere hb s.toList).given fun h => ⟨h.1.1, h.2⟩)
    intro holds
    exact computes_pure fun h => ⟨Solutions.uniform_test h.1.1.2 _,
      congrArg some (Solutions.normal_test base holds b).symm⟩
  | trait span name args => exact World.computes_solveTrait hw span name hg
  | matches_ span subject f =>
    exact (World.computes_solveMatches hw span (hg subject (List.mem_singleton_self _)) f).given
      And.right
  | eq span left right =>
    exact (World.computes_solveEq hw span (hg left (by simp [terms]))
      (hg right (by simp [terms]))).given And.right
  | ne span left right =>
    exact (World.computes_solveNe hw span (hg left (by simp [terms]))
      (hg right (by simp [terms]))).given And.right

end Goal

end CodeRules
