import CodeRules.Proofs.Goal.Compile
import CodeRules.Proofs.Goal.Solution

/-!
# Goals and growing relations

The solutions of a goal depend on the relations that it asks only (`Goal.solution_congr`). When relations
grow that are not asked under a test, no solution is lost (`Goal.Solution.grows`), and so no answer
(`Goal.answers_mono`).
-/

namespace CodeRules

namespace Goal

mutual

/-- The relations that a goal asks. -/
def relations : Goal → List String
  | and items | or items => relationsAll items
  | not body | .exists _ body => relations body
  | implies left right | iff left right | .forall _ left right => relations left ++ relations right
  | trait _ name _ => [name]
  | .matches .. | eq .. | ne .. | true | false => []

/-- The relations that several goals ask. -/
def relationsAll : List Goal → List String
  | [] => []
  | g :: gs => relations g ++ relationsAll gs

end

mutual

/-- The relations that a goal asks under a negation, an implication, an equivalence or a universal
quantifier. -/
def tested : Goal → List String
  | and items | or items => testedAll items
  | .exists _ body => tested body
  | not body => relations body
  | implies left right | iff left right | .forall _ left right => relations left ++ relations right
  | trait .. | .matches .. | eq .. | ne .. | true | false => []

/-- The relations that several goals ask under a test. -/
def testedAll : List Goal → List String
  | [] => []
  | g :: gs => tested g ++ testedAll gs

end

/-- The relations that several goals ask are those of each of them. -/
theorem relationsAll_eq_flatMap (gs : List Goal) : relationsAll gs = gs.flatMap relations := by
  induction gs with
  | nil => rfl
  | cons g gs ih => rw [relationsAll, ih, List.flatMap_cons]

/-- So are those that they ask under a test. -/
theorem testedAll_eq_flatMap (gs : List Goal) : testedAll gs = gs.flatMap tested := by
  induction gs with
  | nil => rfl
  | cons g gs ih => rw [testedAll, ih, List.flatMap_cons]

/-- What one of several goals asks, they ask. -/
theorem mem_relations_of_mem {gs : List Goal} {g : Goal} (hg : g ∈ gs) {n : String}
    (hn : n ∈ g.relations) : n ∈ relationsAll gs := by
  rw [relationsAll_eq_flatMap]
  exact List.mem_flatMap.2 ⟨g, hg, hn⟩

/-- What one of several goals asks under a test, they ask under one. -/
theorem mem_tested_of_mem {gs : List Goal} {g : Goal} (hg : g ∈ gs) {n : String}
    (hn : n ∈ g.tested) : n ∈ testedAll gs := by
  rw [testedAll_eq_flatMap]
  exact List.mem_flatMap.2 ⟨g, hg, hn⟩

/-- What is asked under a test is asked. -/
theorem mem_relations_of_mem_tested {g : Goal} {n : String} (hn : n ∈ g.tested) : n ∈ g.relations := by
  induction g using Goal.induction with
  | and items ih | or items ih =>
    rw [tested, testedAll_eq_flatMap] at hn
    obtain ⟨g, hg, hn⟩ := List.mem_flatMap.1 hn
    exact mem_relations_of_mem hg (ih g hg hn)
  | exists_ binders body ih => exact ih hn
  | not body => exact hn
  | implies premise conclusion | iff left right | forall_ binders range body => exact hn
  | _ => cases hn

end Goal

/-! ### Equal relations -/

namespace World

variable {w : World} {a : Arena} {b : Bindings}

/-- The values of arguments have nothing to do with the store. -/
theorem argumentsOf_store (s : Store) {ts : List GoalTerm}
    (h : ∀ t ∈ ts, ({ w with store := s } : World).valueOf a b t = w.valueOf a b t)
    (func : EntityFunction) :
    ({ w with store := s } : World).argumentsOf a b func ts = w.argumentsOf a b func ts := by
  induction ts with
  | nil => rfl
  | cons t ts ih =>
    have ih := ih fun u hu => h u (List.mem_cons_of_mem _ hu)
    rw [argumentsOf, argumentsOf, h t (List.mem_cons_self ..), ih]

/-- Values of terms have nothing to do with the store. -/
@[simp] theorem valueOf_store (s : Store) (t : GoalTerm) :
    ({ w with store := s } : World).valueOf a b t = w.valueOf a b t := by
  induction t using GoalTerm.induction with
  | wildcard | pattern f => rfl
  | const e => rfl
  | var name type => rfl
  | apply func args ih =>
    rw [valueOf, valueOf, argumentsOf_store s ih]
    rfl

/-- Neither has what a term stands for. -/
@[simp] theorem unify_store (s : Store) (t : GoalTerm) (e : Entity) :
    ({ w with store := s } : World).unify a t e b = w.unify a t e b := by
  cases t with
  | apply func args => rw [unify, unify, valueOf_store]
  | _ => rfl

/-- Neither has what several terms stand for. -/
theorem unifyAll_store (s : Store) (ts : List GoalTerm) (es : List Entity) :
    ({ w with store := s } : World).unifyAll a ts es b = w.unifyAll a ts es b := by
  induction ts generalizing es b with
  | nil => rfl
  | cons t ts ih =>
    cases es with
    | nil => rfl
    | cons e es => simp only [unifyAll, unify_store, ih]

end World

namespace Goal

section

variable {base : UInt32} {w : World} {s : Store} {gs : List Goal}

/-- Conjunctions are solved alike when their goals are. -/
private theorem solveAnd_congr
    (h : ∀ g ∈ gs, ∀ b, g.solve { w with store := s } b = g.solve w b) (current : Solutions) :
    solveAnd { w with store := s } gs current = solveAnd w gs current := by
  induction gs generalizing current with
  | nil => rfl
  | cons g gs ih =>
    have hg : g.solve { w with store := s } = g.solve w := funext (h g (List.mem_cons_self ..))
    have hgs := ih fun k hk => h k (List.mem_cons_of_mem _ hk)
    simp only [solveAnd, hg, hgs]

/-- Disjunctions are solved alike when their goals are. -/
private theorem solveOr_congr {b : Bindings}
    (h : ∀ g ∈ gs, g.solve { w with store := s } b = g.solve w b) :
    solveOr { w with store := s } gs b = solveOr w gs b := by
  induction gs with
  | nil => rfl
  | cons g gs ih =>
    have hg := h g (List.mem_cons_self ..)
    have hgs := ih fun k hk => h k (List.mem_cons_of_mem _ hk)
    simp only [solveOr, hg, hgs]

/-- Solving a goal looks at the relations that it asks only. -/
theorem solve_congr {g : Goal} (h : ∀ n ∈ g.relations, s.find? n = w.store.find? n)
    (b : Bindings) : g.solve { w with store := s } b = g.solve w b := by
  -- the store is read by mentions of relations only
  induction g using Goal.induction generalizing b with
  | true => rfl
  | false => rfl
  | and items ih =>
    exact solveAnd_congr (fun g hg b => ih g hg (fun n hn => h n (mem_relations_of_mem hg hn)) b) _
  | or items ih =>
    exact solveOr_congr fun g hg => ih g hg (fun n hn => h n (mem_relations_of_mem hg hn)) b
  | not body ih =>
    have hbody := ih h b
    simp only [solve, hbody]
  | implies premise conclusion ihp ihc =>
    have hp := ihp (fun n hn => h n (List.mem_append_left _ hn)) b
    have hc := funext (ihc fun n hn => h n (List.mem_append_right _ hn))
    simp only [solve, hp, hc]
  | iff left right ihl ihr =>
    have hl := ihl (fun n hn => h n (List.mem_append_left _ hn)) b
    have hr := ihr (fun n hn => h n (List.mem_append_right _ hn)) b
    simp only [solve, hl, hr]
  | exists_ binders body ih =>
    have hbody := ih h (b.erase binders)
    simp only [solve, hbody]
  | forall_ binders range body ihr ihb =>
    have hr := ihr (fun n hn => h n (List.mem_append_left _ hn)) (b.erase binders)
    have hb := funext (ihb fun n hn => h n (List.mem_append_right _ hn))
    simp only [solve, hr, hb]
  | trait span name args =>
    -- the relation is looked up, and its tuples are matched without the store
    have hfind := h name (List.mem_singleton_self name)
    simp only [solve, World.solveTrait, hfind, World.unifyAll_store]
  -- candidates are nodes, not tuples
  | matches_ span subject f =>
    simp only [solve, World.solveMatches, World.valueOf_store]
    rfl
  | eq span left right =>
    simp only [solve, World.solveEq, World.valueOf_store, World.unify_store]
    rfl
  | ne span left right => simp only [solve, World.solveNe, World.valueOf_store]

end

end Goal

/-! ### Growing relations -/

/-- Goals see the number of parameters of a relation. -/
theorem Store.fst_view (base : UInt32) (s : Store) (name : String) :
    (s.view base name).map Prod.fst = s.arity? name := by
  rw [view, arity?, Option.map_map]
  rfl

/-- All that goals see of a relation in the first store they see in the second one. -/
def Store.Grows (base : UInt32) (s s' : Store) (name : String) : Prop :=
  ∀ k facts k' facts', s.view base name = some (k, facts) → s'.view base name = some (k', facts') →
    ∀ es ∈ facts, es ∈ facts'

/-- Every solution is one of the other solutions as well. -/
def Solutions.Within (s t : Solutions) : Prop :=
  ∀ k, Catalog.contains s k = true → Catalog.contains t k = true

namespace Goal

variable {base : UInt32} {w : World} {T : Store} {gs : List Goal}

variable {g : Goal} {b c : Bindings}

/-- Goals that have the same solutions one by one have the same solutions together. -/
private theorem solutionAll_congr
    (h : ∀ g ∈ gs, ∀ b c, g.Solution base { w with store := T } b c ↔ g.Solution base w b c) :
    SolutionAll base { w with store := T } gs b c ↔ SolutionAll base w gs b c := by
  induction gs generalizing b with
  | nil => exact Iff.rfl
  | cons g gs ih =>
    exact exists_congr fun d => and_congr (h g (List.mem_cons_self ..) b d)
      (ih fun k hk => h k (List.mem_cons_of_mem _ hk))

/-- The solutions of a goal depend on the relations that it asks only. -/
theorem solution_congr (h : ∀ n ∈ g.relations, T.view base n = w.store.view base n) :
    g.Solution base { w with store := T } b c ↔ g.Solution base w b c := by
  induction g using Goal.induction generalizing b c with
  | true => exact Iff.rfl
  | false => exact Iff.rfl
  | and items ih =>
    exact solutionAll_congr fun g hg b c => ih g hg fun n hn => h n (mem_relations_of_mem hg hn)
  | or items ih =>
    rw [Solution, Solution, solutionAny_iff, solutionAny_iff]
    exact exists_congr fun g => and_congr_right fun hg =>
      ih g hg fun n hn => h n (mem_relations_of_mem hg hn)
  -- tests and quantifiers look at the same solutions
  | not body ih => simp only [Solution, ih (c := _) h]
  | implies premise conclusion ihp ihc =>
    have hp (d : Bindings) := ihp (b := b) (c := d) fun n hn => h n (List.mem_append_left _ hn)
    have hc (d e : Bindings) := ihc (b := d) (c := e) fun n hn => h n (List.mem_append_right _ hn)
    simp only [Solution, hp, hc]
  | iff left right ihl ihr =>
    have hl (d : Bindings) := ihl (b := b) (c := d) fun n hn => h n (List.mem_append_left _ hn)
    have hr (d : Bindings) := ihr (b := b) (c := d) fun n hn => h n (List.mem_append_right _ hn)
    simp only [Solution, hl, hr]
  | exists_ binders body ih => simp only [Solution, ih (c := _) h]
  | forall_ binders range body ihr ihb =>
    have hr (d : Bindings) :=
      ihr (b := b.erase binders) (c := d) fun n hn => h n (List.mem_append_left _ hn)
    have hb (d e : Bindings) := ihb (b := d) (c := e) fun n hn => h n (List.mem_append_right _ hn)
    simp only [Solution, hr, hb]
  | trait span name args =>
    show World.TraitSolution base { w with store := T } name args b c ↔ w.TraitSolution base name args b c
    rw [World.TraitSolution, World.TraitSolution, h name (List.mem_singleton_self name)]
  | matches_ span subject f => exact Iff.rfl
  | eq span left right => exact Iff.rfl
  | ne span left right => exact Iff.rfl

/-- A solution of a conjunction stays one, goal by goal. -/
private theorem SolutionAll.grows
    (h : ∀ g ∈ gs, ∀ b c, g.Solution base w b c → g.Solution base { w with store := T } b c)
    (hc : SolutionAll base w gs b c) : SolutionAll base { w with store := T } gs b c := by
  induction gs generalizing b with
  | nil => exact hc
  | cons g gs ih =>
    obtain ⟨d, hd, hc⟩ := hc
    exact ⟨d, h g (List.mem_cons_self ..) b d hd,
      ih (fun k hk => h k (List.mem_cons_of_mem _ hk)) hc⟩

/-- A solution stays one when relations grow that are not asked under a test. -/
theorem Solution.grows (htested : ∀ n ∈ g.tested, T.view base n = w.store.view base n)
    (harity : ∀ n ∈ g.relations, T.arity? n = w.store.arity? n)
    (hgrow : ∀ n ∈ g.relations, w.store.Grows base T n) (h : g.Solution base w b c) :
    g.Solution base { w with store := T } b c := by
  -- a goal that is a test looks the same in both stores
  have hsame {g : Goal} (htested : ∀ n ∈ g.relations, T.view base n = w.store.view base n)
      {b c : Bindings} (h : g.Solution base w b c) : g.Solution base { w with store := T } b c :=
    (solution_congr htested).2 h
  induction g using Goal.induction generalizing b c with
  | true => exact h
  | false => exact h
  | and items ih =>
    exact SolutionAll.grows (fun g hg b c => ih g hg (fun n hn => htested n (mem_tested_of_mem hg hn))
      (fun n hn => harity n (mem_relations_of_mem hg hn))
      fun n hn => hgrow n (mem_relations_of_mem hg hn)) h
  | or items ih =>
    obtain ⟨g, hg, hc⟩ := solutionAny_iff.1 h
    refine solutionAny_iff.2 ⟨g, hg, ih g hg (fun n hn => htested n (mem_tested_of_mem hg hn))
      (fun n hn => harity n (mem_relations_of_mem hg hn))
      (fun n hn => hgrow n (mem_relations_of_mem hg hn)) hc⟩
  | not body ih => exact hsame (g := .not body) htested h
  | implies premise conclusion ihp ihc => exact hsame (g := .implies premise conclusion) htested h
  | iff left right ihl ihr => exact hsame (g := .iff left right) htested h
  | exists_ binders body ih =>
    obtain ⟨d, hd, hmerge⟩ := h
    exact ⟨d, ih htested harity hgrow hd, hmerge⟩
  | forall_ binders range body ihr ihb => exact hsame (g := .forall binders range body) htested h
  | trait span name args =>
    obtain ⟨facts, hview, es, hes, hc⟩ := h
    have hname := List.mem_singleton_self name
    have hmap := harity name hname
    -- the arity of the relation stays, so the view of the other store is one of the same relation
    rw [← T.fst_view base, ← w.store.fst_view base, hview, Option.map_some, Option.map_eq_some_iff] at hmap
    obtain ⟨⟨arity, facts'⟩, hview', rfl⟩ := hmap
    exact ⟨facts', hview', es, hgrow name hname _ facts _ facts' hview hview' es hes, hc⟩
  | matches_ span subject f => exact h
  | eq span left right => exact h
  | ne span left right => exact h

/-- No solution is lost when relations grow, as long as those under a test stay as they are. -/
theorem answers_mono (hw : w.Uniform base) (hstore : w.store.Uniform base) (hT : T.Uniform base)
    (hg : g.Uniform base) (htested : ∀ n ∈ g.tested, T.view base n = w.store.view base n)
    (harity : ∀ n ∈ g.relations, T.arity? n = w.store.arity? n)
    (hgrow : ∀ n ∈ g.relations, w.store.Grows base T n) (hb : b.IsNormal base) {s s' : Solutions}
    (hs : g.answers base w b = some s) (hs' : g.answers base { w with store := T } b = some s') :
    s.Within s' := by
  have hw' : ({ w with store := T } : World).Uniform base := ⟨hw.program, hw.overlay⟩
  intro k hk
  -- an answer is a solution, which stays one, so it is an answer again
  obtain ⟨c, hc, rfl⟩ := Catalog.contains_iff.1 hk
  have hsolution := (answers_are hw hstore hg hb hs).sound c hc
  exact (answers_are hw' hT hg hb hs').complete c (hsolution.grows htested harity hgrow)

end Goal

end CodeRules
