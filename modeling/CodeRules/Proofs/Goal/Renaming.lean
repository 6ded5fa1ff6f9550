import CodeRules.Proofs.Binding.View
import CodeRules.Proofs.Goal.Growth
import CodeRules.Proofs.Goal.OrderFree
import CodeRules.Proofs.Goal.Scope
import CodeRules.Proofs.Rule.Renaming
import CodeRules.Statement.Realization

/-!
# Solutions and the names of quantified variables

Renaming a quantified variable to a new name changes neither whether an expression compiles nor what a
statement with it depends on, and the solutions stay the same when no entity holds nodes of the program
beside made ones. Of two solutions of a range the one that comes first may depend on the names, so it
is only for order-free goals that solving succeeds as before (`Expr.solutions_of_renaming`,
`Renamed.outcome_of_names`).
-/

namespace CodeRules

open Effect

variable {base : UInt32} {N : Pairing}

/-! ### Entities -/

/-- Variants of a term have the same entities. -/
theorem Term.Variant.entities_eq {t t' : Term} (h : t.Variant N t') : t'.entities = t.entities := by
  induction t using Term.induction generalizing t' with
  | var name => cases h with | var => rfl
  | entity e => cases h with | entity => rfl
  | pattern p => cases h with | pattern => rfl
  | apply func args ih =>
    cases h with
    | @apply _ _ args' hargs =>
      rw [entities, entities, entitiesAll_eq_flatMap, entitiesAll_eq_flatMap]
      refine congrArg List.flatten (List.Forall₂.map_eq ?_ fun _ _ heq => heq)
      exact List.Forall₂.flip (hargs.imp_of_mem fun t ht t' _ htt' => ih t ht htt')

/-- Variants of several terms have the same entities. -/
private theorem Term.entitiesAll_eq {ts ts' : List Term} (h : List.Forall₂ (Term.Variant N) ts ts') :
    entitiesAll ts' = entitiesAll ts := by
  induction h with
  | nil => rfl
  | cons h _ ih => rw [entitiesAll, entitiesAll, h.entities_eq, ih]

/-- Variants of an expression have the same entities. -/
theorem Expr.Variant.entities_eq {e e' : Expr} (h : e.Variant N e') : e'.entities = e.entities := by
  -- the entities of a list are those of its expressions
  have hall {N : Pairing} {es es' : List Expr} (ih : ∀ e ∈ es, ∀ {N : Pairing} {e'},
      e.Variant N e' → e'.entities = e.entities) (h : VariantAll N es es') :
      entitiesAll es' = entitiesAll es := by
    induction es generalizing es' with
    | nil => cases h with | nil => rfl
    | cons e es ihes =>
      cases h with
      | cons he hes =>
        rw [entitiesAll, entitiesAll, ih e (List.mem_cons_self ..) he,
          ihes (fun d hd => ih d (List.mem_cons_of_mem _ hd)) hes]
  induction e using Expr.induction generalizing N e' with
  | true => cases h with | true => rfl
  | false => cases h with | false => rfl
  | and items ih => cases h with | and h => exact hall ih h
  | or items ih => cases h with | or h => exact hall ih h
  | not body ih => cases h with | not h => rw [entities, entities, ih h]
  | implies premise conclusion ihp ihc =>
    cases h with | implies hp hc => rw [entities, entities, ihp hp, ihc hc]
  | iff left right ihl ihr => cases h with | iff hl hr => rw [entities, entities, ihl hl, ihr hr]
  | exists_ span binders body ih =>
    cases h with | exists_ _ _ _ hbody => rw [entities, entities, ih hbody]
  | forall_ span binders range body ihr ihb =>
    cases h with | forall_ _ _ _ hrange hbody => rw [entities, entities, ihr hrange, ihb hbody]
  | trait span name args =>
    cases h with | trait _ _ h => exact Term.entitiesAll_eq h
  | matches_ span subject pattern =>
    cases h with | matches_ _ hs _ => rw [entities, entities, hs.entities_eq]
  | eq span left right =>
    cases h with | eq _ hl hr => rw [entities, entities, hl.entities_eq, hr.entities_eq]
  | ne span left right =>
    cases h with | ne _ hl hr => rw [entities, entities, hl.entities_eq, hr.entities_eq]

/-! ### The same variables -/

/-- Bindings that agree on all variables are the same solution. -/
theorem Bindings.AgreeOn.shape_eq {b b' : Bindings} (h : b.AgreeOn .same b') : b.shape = b'.shape := by
  refine shape_eq_iff.2 ⟨funext fun n => ?_, congrArg _ h.result⟩
  rw [view, view, h.vars n n ⟨rfl, trivial⟩]

/-- Bindings agree with themselves on all variables. -/
theorem Bindings.AgreeOn.refl_same (b : Bindings) : b.AgreeOn .same b :=
  ⟨fun n m hn => by rw [hn.1], rfl⟩

/-- Scopes are alike to themselves. -/
theorem Scope.AlikeOn.refl_same (s : Scope) : s.AlikeOn base .same s := by
  rintro n _ ⟨rfl, -⟩
  exact .refl _

/-- Sets whose solutions agree on all variables are the same. -/
theorem Solutions.Matching.same {s s' : Solutions} (h : Solutions.Matching .same s s') :
    s.Within s' ∧ s'.Within s := by
  constructor
  · intro k hk
    obtain ⟨c, hc, rfl⟩ := Catalog.contains_iff.1 hk
    obtain ⟨c', hc', hagree⟩ := h.forth c hc
    exact Catalog.contains_iff.2 ⟨c', hc', hagree.shape_eq.symm⟩
  · intro k hk
    obtain ⟨c', hc', rfl⟩ := Catalog.contains_iff.1 hk
    obtain ⟨c, hc, hagree⟩ := h.back c' hc'
    exact Catalog.contains_iff.2 ⟨c, hc, hagree.shape_eq⟩

/-! ### Success -/

/-- Solving succeeds when there are answers, as long as numbers do not run out. -/
theorem Goal.exists_gives_iff {w : World} {g : Goal} {b : Bindings} {a : Arena} (hw : w.Uniform base)
    (hstore : w.store.Uniform base) (hg : g.Uniform base) (hb : b.Uniform base)
    (ha : a.Undeclared base)
    (hfits : base.toNat + ((g.solve w b).run.run a).2.size ≤ UInt32.size) :
    (∃ s a', Gives (g.solve w b) a s a') ↔ (g.answers base w (b.normal base)).isSome := by
  -- runs and answers go together, errors included
  have hsolve := computes_solve hw hg b a
  unfold Ends at hsolve
  unfold Gives
  cases hrun : (g.solve w b).run.run a with
  | mk outcome a' =>
    rw [hrun] at hsolve hfits
    cases outcome with
    | ok s =>
      have hanswers := (hsolve.2 ⟨hstore, hb⟩ ⟨hsolve.1.undeclared_iff.2 ha, hfits⟩).2
      rw [hanswers]
      exact iff_of_true ⟨s, a', rfl⟩ rfl
    | error e =>
      have hanswers := hsolve.2 ⟨hstore, hb⟩ ⟨hsolve.1.undeclared_iff.2 ha, hfits⟩
      rw [hanswers]
      exact iff_of_false (fun ⟨_, _, h⟩ => by cases h) Bool.false_ne_true

/-! ### Renaming a quantified variable -/

namespace Expr

variable {e e' : Expr} {x y : String}

/-- Expressions that are variants with the same free variables compile in the same scopes. -/
theorem Variant.exists_compile_iff (h : e.Variant .same e') (S : Store) (scope : Scope) :
    (∃ g, e.compile S scope = .ok g) ↔ ∃ g', e'.compile S scope = .ok g' := by
  -- variants are symmetric, so one direction is enough
  have hback : e'.Variant .same e := Pairing.symm_same ▸ h.symm
  have hscope : scope.AlikeOn 0 .same scope := .refl_same scope
  constructor
  · rintro ⟨g, hg⟩
    exact (h.exists_compile Pairing.proper_same hscope hg).imp fun _ hg' => hg'.1
  · rintro ⟨g', hg'⟩
    exact (hback.exists_compile Pairing.proper_same hscope hg').imp fun _ hg => hg.1

/-- Renaming a quantified variable to a new name changes neither whether the expression compiles nor
what a statement depends on. The solutions are the same, and when the goal is order-free solving
succeeds for both expressions or for none. -/
theorem solutions_of_renaming (h : e.RenamesBinder x y e') (hdistinct : e.BindsDistinct)
    (hx : x ≠ wildcard) (hy : y ≠ wildcard) (hnew : y ∉ e.names) :
    (∀ (S : Store) (scope : Scope),
      (∃ g, e.compile S scope = .ok g) ↔ ∃ g', e'.compile S scope = .ok g') ∧
    (∀ (r : Realization) (c : RelationContext), r.body = e →
      { r with body := e' }.dependencies c = r.dependencies c ∧
      { r with body := e' }.peers c = r.peers c) ∧
    ∀ {base free : UInt32} {classes : List Node} {overlay : List Entity} {S : Store} {scope : Scope}
      {g g' : Goal} {input : Bindings} {a : Arena},
      (∀ c ∈ classes, ∀ n ∈ c.preorder, n.IsRead ∧ n.id.word < base) →
      (∀ x ∈ overlay, x.Uniform base) → S.Uniform base → (∀ x ∈ e.entities, x.Uniform base) →
      (∀ name x, scope.bound.find? name = some x → x.Uniform base) → input.Uniform base →
      a.Undeclared base → e.compile S scope = .ok g → e'.compile S scope = .ok g' →
      let w : World := ⟨(Program.ofClasses classes).withIdBase free, S, overlay⟩
      base.toNat + ((g.solve w input).run.run a).2.size ≤ UInt32.size →
      base.toNat + ((g'.solve w input).run.run a).2.size ≤ UInt32.size →
      (∀ s s' a₁ a₂, Gives (g.solve w input) a s a₁ → Gives (g'.solve w input) a s' a₂ →
        s.same s' = Bool.true) ∧
      (g.OrderFree base w (input.normal base) →
        ((∃ s a₁, Gives (g.solve w input) a s a₁) ↔ ∃ s' a₂, Gives (g'.solve w input) a s' a₂)) := by
  -- a renamed expression is a variant, in which every name but the binder stands for itself
  have hvariant := h.variant hdistinct hx hy hnew
  refine ⟨hvariant.exists_compile_iff, fun r c hr => ?_, ?_⟩
  · have hreferences : e'.references = r.body.references := hr ▸ hvariant.references_eq
    exact ⟨by simp only [Realization.dependencies, Realization.relations, hreferences]; rfl,
      by simp only [Realization.peers, Realization.relations, hreferences]⟩
  · intro base free classes overlay S scope g g' input a hclasses hoverlay hS hentities hscope hinput ha
      hg hg' w hfits hfits'
    have hw : w.Uniform base := ⟨(Program.below_ofClasses hclasses).withIdBase free, hoverlay⟩
    -- both goals are variants too
    obtain ⟨k, hk, hgoals⟩ :=
      hvariant.exists_compile Pairing.proper_same (.refl_same scope) hg
    obtain rfl := Except.ok.inj (hk.symm.trans hg')
    have hgu := compile_uniform hg hentities hscope
    have hgu' := compile_uniform hg' (hvariant.entities_eq ▸ hentities) hscope
    have hb := hinput.isNormal
    constructor
    · intro s s' a₁ a₂ hs hs'
      rw [show (g.solve w input).run.run a = (.ok s, a₁) from hs] at hfits
      rw [show (k.solve w input).run.run a = (.ok s', a₂) from hs'] at hfits'
      have hmatch := hgoals.answers_matching hw hS Pairing.proper_same hgu hgu' hb hb (.refl_same _)
        (Goal.answers_of_gives hw hS hgu hinput ha hs hfits).2
        (Goal.answers_of_gives hw hS hgu' hinput ha hs' hfits').2
      -- solutions are compared without numbers, so it is enough to compare normal forms
      exact Solutions.same_of_within (Solutions.within_of_normal base hmatch.same.1)
        (Solutions.within_of_normal base hmatch.same.2)
    -- whether they are solved is decided by their answers
    · intro hfree
      rw [Goal.exists_gives_iff hw hS hgu hinput ha hfits,
        Goal.exists_gives_iff hw hS hgu' hinput ha hfits']
      exact Bool.eq_iff_iff.1 <| Option.isSome_eq_of_rel <|
        hgoals.rel_answers hw hS Pairing.proper_same hgu hgu' hb hb (.refl_same _) hfree

end Expr

/-! ### Outcomes that depend on names -/

namespace Renamed

/-- A number. -/
def number (i : Int) : Entity := .value (.int i)

/-- A relation. -/
def relation (params : List String) (rows : List (List Entity)) : Relation :=
  let signature : Signature := ⟨"r", params.map (⟨·, .any⟩), {}⟩
  { signature
    tuples := Catalog.ofListFirst
      (rows.filterMap fun es => (Tuple.ofValues signature es).toOption) }

/-- A world with one relation. -/
def world (r : Relation) : World :=
  ⟨(Program.ofClasses Ones.classes).withIdBase 4, Dict.set ∅ "r" r, []⟩

/-- Two numbers, related both ways. -/
def pairs : World := world (relation ["x", "y"] [[number 1, number 2], [number 2, number 1]])

/-- Two numbers, related both ways, and lists that are equal but not the same. -/
def lists : World := world (relation ["x", "y", "l"]
  [[number 1, number 2, .list [.node Ones.read, .node Ones.made]],
    [number 2, number 1, .list [.node Ones.made, .node Ones.read]]])

/-- Variables of any entities. -/
def binders (names : List String) : List Binder := names.map (⟨·, .category "any"⟩)

/-- For all that is related a body holds. -/
def universal (x : String) (body : Expr) : Expr :=
  .forall .synthetic (binders [x, "w"]) (.trait .synthetic "r" [.var x, .var "w"]) body

/-- A test that fails for 1, and asks about unbound variables for 2. -/
def contested (x : String) : Expr :=
  universal x (.and [.eq .synthetic (.var x) (.entity (number 2)), .ne .synthetic (.var "u") (.var "v")])

/-- What the first element of a related list is. -/
def firstOf (x : String) : Expr :=
  .and [.exists .synthetic (binders [x, "v"]) (.trait .synthetic "r" [.var x, .var "v", .var "l"]),
    .matches .synthetic (.var "l") (.list .synthetic [.var .synthetic "f", .var .synthetic "_"])]

/-- What an expression means in a world. -/
def goal (w : World) (e : Expr) : Goal := (e.compile w.store {}).toOption.getD .false

/-- Solving an expression in a world. -/
def solving (w : World) (e : Expr) : Solving Solutions := (goal w e).solve w .empty

/-- What compiles has the goal. -/
private theorem compile_eq_goal {w : World} {e : Expr} (h : (e.compile w.store {}).isOk = true) :
    e.compile w.store {} = .ok (goal w e) := by
  unfold goal
  cases hg : e.compile w.store {} with
  | error d =>
    rw [hg] at h
    cases h
  | ok g => rfl

/-- With the name `a` the solution that refutes the test comes first, with `z` the one for which there
is an error. The lists are one solution once the numbers are forgotten, and which of them is kept
depends on the order of the numbers and so on the names `u` and `w`. -/
theorem outcome_of_names :
    ((contested "a").RenamesBinder "a" "z" (contested "z") ∧ (contested "a").BindsDistinct ∧
      "z" ∉ (contested "a").names ∧
      ∃ g g', (contested "a").compile pairs.store {} = .ok g ∧
        (contested "z").compile pairs.store {} = .ok g' ∧
        (∃ s a, Gives (g.solve pairs .empty) (.unused 4) s a) ∧
        ¬ ∃ s a, Gives (g'.solve pairs .empty) (.unused 4) s a) ∧
    ((firstOf "u").RenamesBinder "u" "w" (firstOf "w") ∧ (firstOf "u").BindsDistinct ∧
      "w" ∉ (firstOf "u").names ∧
      ∃ g g' s s' a a', (firstOf "u").compile lists.store {} = .ok g ∧
        (firstOf "w").compile lists.store {} = .ok g' ∧
        Gives (g.solve lists .empty) (.unused 4) s a ∧
        Gives (g'.solve lists .empty) (.unused 4) s' a' ∧ s.same s' = false) := by
  constructor
  · refine ⟨.forall_binder .synthetic _ _ (by decide), ⟨by decide, trivial, trivial, trivial, trivial⟩,
      by decide, _, _, compile_eq_goal (by decide +kernel), compile_eq_goal (by decide +kernel),
      ⟨_, _, gives_getD (d := ∅) (by decide +kernel)⟩, ?_⟩
    rintro ⟨s, a, h⟩
    -- the error comes before the solution that would have decided the test
    have herror : (((solving pairs (contested "z")).run.run (.unused 4)).1.isOk) = false := by
      decide +kernel
    rw [show (solving pairs (contested "z")).run.run (.unused 4) = (.ok s, a) from h] at herror
    cases herror
  · exact ⟨.and [] _ (.exists_binder .synthetic _ (by decide)),
      ⟨⟨by decide, trivial⟩, trivial, trivial⟩, by decide, _, _, _, _, _, _,
      compile_eq_goal (by decide +kernel), compile_eq_goal (by decide +kernel),
      gives_getD (d := ∅) (by decide +kernel), gives_getD (d := ∅) (by decide +kernel),
      by decide +kernel⟩

/-- All related entities are other than 3. -/
def apart (x : String) : Expr := universal x (.ne .synthetic (.var x) (.entity (number 3)))

/-- What the test means. -/
def apartGoal (x : String) : Goal :=
  .forall [x, "w"] (.trait .synthetic "r" [.var x .any, .var "w" .any])
    (.ne .synthetic (.var x .any) (.const (number 3)))

/-- The test has an answer for each of the pairs, so their order does not matter. -/
private theorem orderFree_apart : (apartGoal "a").OrderFree 4 pairs (Bindings.empty.normal 4) := by
  refine ⟨trivial, fun s hs => ⟨fun _ _ => trivial, .inl fun d hd => ?_⟩⟩
  have hsome : ((Goal.trait .synthetic "r" [.var "a" .any, .var "w" .any]).answers 4 pairs
      ((Bindings.empty.normal 4).erase ["a", "w"])).all (fun s => s.toList.all fun d =>
        ((Goal.ne .synthetic (.var "a" .any) (.const (number 3))).answers 4 pairs d).isSome) = true := by
    decide +kernel
  rw [hs, Option.all_some, List.all_eq_true] at hsome
  exact hsome d hd

/-- Numbers hold no nodes. -/
private theorem uniform_pairs : pairs.store.Uniform 4 := by
  have hnumber (i : Int) : (number i).Uniform 4 := .inl (by simp [Entity.IsRead, number, Entity.nodes])
  intro name r hr t ht e he
  rw [pairs, world, Dict.find?_set, Dict.find?_empty] at hr
  split at hr
  · obtain rfl := Option.some.inj hr
    obtain ⟨row, hrow, ht⟩ := List.mem_filterMap.1 (Catalog.mem_of_mem_ofListFirst ht)
    obtain ⟨_, hvalues, _⟩ := Tuple.ofValues_eq_ok.1 (Except.toOption_eq_some_iff.1 ht)
    rw [hvalues] at he
    simp only [List.mem_cons, List.not_mem_nil, or_false] at hrow
    rcases hrow with rfl | rfl <;> simp only [List.mem_cons, List.not_mem_nil, or_false] at he <;>
      rcases he with rfl | rfl <;> exact hnumber _
  · cases hr

/-- Each of two related numbers is other than 3, whatever the variable for them is called. -/
theorem solutions_of_renaming_apart :
    ∃ s s' a a', Gives ((apartGoal "a").solve pairs .empty) (.unused 4) s a ∧
      Gives ((apartGoal "z").solve pairs .empty) (.unused 4) s' a' ∧ s.same s' = true ∧ s.size = 1 := by
  have hrenames : (apart "a").RenamesBinder "a" "z" (apart "z") :=
    .forall_binder .synthetic _ _ (by decide)
  have hoverlay : ∀ x ∈ ([] : List Entity), x.Uniform 4 := fun x hx => by cases hx
  have hscope (name : String) (x : Entity) (hx : ({} : Scope).bound.find? name = some x) :
      x.Uniform 4 := by cases hx
  have hentities : ∀ x ∈ (apart "a").entities, x.Uniform 4 := by
    intro x hx
    obtain rfl := List.mem_singleton.1 hx
    exact .inl (by simp [Entity.IsRead, number, Entity.nodes])
  have hfits : (4 : UInt32).toNat +
      (((apartGoal "a").solve pairs .empty).run.run (.unused 4)).2.size ≤ UInt32.size := by
    decide +kernel
  have hfits' : (4 : UInt32).toNat +
      (((apartGoal "z").solve pairs .empty).run.run (.unused 4)).2.size ≤ UInt32.size := by
    decide +kernel
  -- the binder is new to the expression, and both goals leave the numbers in range
  obtain ⟨_, _, hsolve⟩ := Expr.solutions_of_renaming hrenames ⟨by decide, trivial, trivial⟩
    (by decide) (by decide) (by decide)
  obtain ⟨hsame, hsuccess⟩ := hsolve Ones.read_of_classes hoverlay uniform_pairs hentities hscope
    Bindings.uniform_empty Arena.intact_unused.toUndeclared
    (show (apart "a").compile pairs.store {} = .ok (apartGoal "a") from rfl)
    (show (apart "z").compile pairs.store {} = .ok (apartGoal "z") from rfl)
    hfits hfits'
  have hgives : Gives ((apartGoal "a").solve pairs .empty) (.unused 4) _ _ :=
    gives_getD (d := ∅) (by decide +kernel)
  obtain ⟨s', a', hgives'⟩ := (hsuccess orderFree_apart).1 ⟨_, _, hgives⟩
  exact ⟨_, s', _, a', hgives, hgives', hsame _ s' _ a' hgives hgives', by decide +kernel⟩

end Renamed

end CodeRules
