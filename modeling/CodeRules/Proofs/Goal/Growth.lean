import CodeRules.Proofs.Goal.Mention
import CodeRules.Proofs.Program.Below
import CodeRules.Proofs.Relation.Tuple

/-!
# Solutions and growing relations

Solving an expression against a store loses no solution when relations of the store grow, as long as
those that the expression tests stay as they are; and stores that agree on all relations that the
expression mentions give the same solutions (`Expr.solutions_of_growth`). No entity may hold nodes of
the program beside made ones: for such entities equality does not say which node is which
(`Ones.solution_lost_for_mixed_lists`).
-/

namespace CodeRules

open Effect

/-! ### Tuples and relations -/

variable {base : UInt32}

/-- Equal tuples of uniform entities have the same normal forms. -/
theorem Tuple.map_normal_eq {t t' : Tuple} (ht : ∀ e ∈ t.values, e.Uniform base)
    (ht' : ∀ e ∈ t'.values, e.Uniform base) (h : t.shape = t'.shape) :
    t.values.map (Entity.normal base) = t'.values.map (Entity.normal base) := by
  simp only [shape, Shape.seq.injEq, List.cons.injEq, and_true] at h
  obtain ⟨_, hshapes, hplaces⟩ := h
  -- equality compares the shapes and the places of the values one by one
  have hpairs := congrArg₂ List.zip hshapes hplaces
  rw [List.zip_map', List.zip_map'] at hpairs
  refine (List.forall₂_of_map_eq hpairs ht ht').map_eq fun e e' h => ?_
  obtain ⟨he, he', h⟩ := h
  obtain ⟨hshape, hplace⟩ := Prod.mk.inj h
  exact Entity.normal_eq_normal he he' hshape (Entity.locations_eq_of_idsShape hshape hplace)

namespace Store

variable {s s' : Store} {name : String}

/-- The signature of a relation. -/
def signature? (s : Store) (name : String) : Option Signature := (s.find? name).map Relation.signature

/-- Every tuple of a relation is in the relation of that name of the second store. -/
def Includes (s s' : Store) (name : String) : Prop :=
  ∀ r r', s.find? name = some r → s'.find? name = some r' →
    ∀ t ∈ r.tuples.toList, r'.contains t = true

/-- Relations of one signature have as many parameters. -/
theorem arity?_eq (h : s'.signature? name = s.signature? name) : s'.arity? name = s.arity? name := by
  have hmap (s : Store) : s.arity? name = (s.signature? name).map Signature.arity := by
    rw [arity?, signature?, Option.map_map]
    rfl
  rw [hmap, hmap, h]

/-- Goals see the tuples of an included relation in the other one. -/
theorem Includes.grows (hs : s.Uniform base) (hs' : s'.Uniform base) (h : s.Includes s' name) :
    s.Grows base s' name := by
  intro k facts k' facts' hview hview' es hes
  obtain ⟨r, hr, heq⟩ := Option.map_eq_some_iff.1 hview
  obtain ⟨r', hr', heq'⟩ := Option.map_eq_some_iff.1 hview'
  obtain ⟨rfl, rfl⟩ := Prod.mk.inj heq
  obtain ⟨rfl, rfl⟩ := Prod.mk.inj heq'
  obtain ⟨t, ht, rfl⟩ := List.mem_map.1 hes
  obtain ⟨t', ht', hshape⟩ := Catalog.contains_iff.1 (h r r' hr hr' t ht)
  refine List.mem_map.2 ⟨t', ht', ?_⟩
  exact Tuple.map_normal_eq (hs' name r' hr' t' ht') (hs name r hr t ht) hshape

/-- Goals see the same of relations that include each other. -/
theorem Includes.view_eq (hs : s.Uniform base) (hs' : s'.Uniform base)
    (hsignature : s'.signature? name = s.signature? name) (h : s.Includes s' name)
    (h' : s'.Includes s name) : s'.view base name = s.view base name := by
  unfold view
  unfold signature? at hsignature
  cases hr : s.find? name with
  | none =>
    rw [hr, Option.map_none, Option.map_eq_none_iff] at hsignature
    rw [hsignature]
  | some r =>
    rw [hr, Option.map_some, Option.map_eq_some_iff] at hsignature
    obtain ⟨r', hr', hsig⟩ := hsignature
    -- tuples are kept in the order of their shapes, so the same shapes are in the same order
    have hkeys : r'.tuples.toList.map Tuple.shape = r.tuples.toList.map Tuple.shape := by
      refine Catalog.map_key_eq fun k => ⟨fun hk => ?_, fun hk => ?_⟩
      · obtain ⟨t, ht, rfl⟩ := Catalog.contains_iff.1 hk
        exact h' r' r hr' hr t ht
      · obtain ⟨t, ht, rfl⟩ := Catalog.contains_iff.1 hk
        exact h r r' hr hr' t ht
    have hfacts := (List.forall₂_of_map_eq hkeys (hs' name r' hr') (hs name r hr)).map_eq
      fun t t' ht => Tuple.map_normal_eq ht.1 ht.2.1 ht.2.2
    rw [hr', Option.map_some, Option.map_some, hsig, hfacts]

end Store

/-! ### Solutions -/

namespace Solutions

/-- Normal forms have the same keys, so inclusion can be seen on them. -/
theorem within_of_normal (base : UInt32) {s s' : Solutions} (h : (s.normal base).Within (s'.normal base)) :
    s.Within s' := by
  have hcontains (s : Solutions) (k : Shape) :
      Catalog.contains (s.normal base) k = Catalog.contains s k := by
    rw [Catalog.contains, normal, Catalog.get?_mapEntries, Option.isSome_map, Catalog.contains]
  intro k hk
  rw [← hcontains] at hk ⊢
  exact h k hk

/-- Sets that are within each other are the same. -/
theorem same_of_within {s s' : Solutions} (h : s.Within s') (h' : s'.Within s) :
    s.same s' = true := decide_eq_true (Catalog.map_key_eq fun k => ⟨h k, h' k⟩)

end Solutions

namespace Goal

variable {w : World} {g : Goal} {b : Bindings} {a a' : Arena} {s : Solutions}

/-- The solutions of a goal are known up to normal forms, as long as numbers do not run out. -/
theorem answers_of_gives (hw : w.Uniform base) (hstore : w.store.Uniform base)
    (hg : g.Uniform base) (hb : b.Uniform base) (ha : a.Undeclared base)
    (h : Gives (g.solve w b) a s a') (hfits : base.toNat + a'.size ≤ UInt32.size) :
    s.Uniform base ∧ g.answers base w (b.normal base) = some (s.normal base) := by
  obtain ⟨hkept, hend⟩ := (computes_solve hw hg b a).gives h
  exact hend ⟨hstore, hb⟩ ⟨hkept.undeclared_iff.2 ha, hfits⟩

end Goal

/-- No solution is lost when relations grow, as long as those that are mentioned under a test stay as
they are. When no relation that is mentioned differs, the solutions are the same. -/
theorem Expr.solutions_of_growth {classes : List Node} {free : UInt32} {overlay : List Entity}
    {S S' : Store} {e : Expr} {scope : Scope} {g : Goal} {input : Bindings} {a a₁ a₂ : Arena}
    {s s' : Solutions}
    (hclasses : ∀ c ∈ classes, ∀ n ∈ c.preorder, n.IsRead ∧ n.id.word < base)
    (hoverlay : ∀ x ∈ overlay, x.Uniform base)
    (hS : S.Uniform base) (hS' : S'.Uniform base)
    (hentities : ∀ x ∈ e.entities, x.Uniform base)
    (hscope : ∀ name x, scope.bound.find? name = some x → x.Uniform base)
    (hinput : input.Uniform base) (ha : a.Undeclared base)
    (hsignatures : ∀ name, S'.signature? name = S.signature? name)
    (hcompile : e.compile S scope = .ok g)
    (hsolve : Gives (g.solve ⟨(Program.ofClasses classes).withIdBase free, S, overlay⟩ input) a s a₁)
    (hsolve' :
      Gives (g.solve ⟨(Program.ofClasses classes).withIdBase free, S', overlay⟩ input) a s' a₂)
    (hfits : base.toNat + a₁.size ≤ UInt32.size) (hfits' : base.toNat + a₂.size ≤ UInt32.size) :
    ((∀ name tested, Mention.trait name tested ∈ e.references → S.Includes S' name) →
      (∀ name, Mention.trait name Bool.true ∈ e.references → S'.Includes S name) → s.Within s') ∧
    ((∀ name tested, Mention.trait name tested ∈ e.references →
      S.Includes S' name ∧ S'.Includes S name) → s.same s' = Bool.true) := by
  have hprogram : ((Program.ofClasses classes).withIdBase free).Below base :=
    (Program.below_ofClasses hclasses).withIdBase free
  -- the world differs in the store only
  have hw (T : Store) :
      World.Uniform base ⟨(Program.ofClasses classes).withIdBase free, T, overlay⟩ :=
    ⟨hprogram, hoverlay⟩
  have hg := compile_uniform hcompile hentities hscope
  have hanswers := (Goal.answers_of_gives (hw S) hS hg hinput ha hsolve hfits).2
  have hanswers' := (Goal.answers_of_gives (hw S') hS' hg hinput ha hsolve' hfits').2
  have hb := hinput.isNormal
  have harity (n : String) : S'.arity? n = S.arity? n := Store.arity?_eq (hsignatures n)
  constructor
  · intro hgrow htested
    -- what is tested is the same in both stores, and the rest grows
    refine Solutions.within_of_normal base
      (Goal.answers_mono (hw S) hS hS' hg ?_ (fun n _ => harity n) ?_ hb hanswers hanswers')
    · intro name hname
      have hmention := references_of_mem_tested hcompile hname
      exact (hgrow name _ hmention).view_eq hS hS' (hsignatures name) (htested name hmention)
    · intro name hname
      obtain ⟨tested, hmention⟩ := references_of_mem_relations hcompile hname
      exact (hgrow name tested hmention).grows hS hS'
  · intro hsame
    have hincludes : ∀ name ∈ g.relations, S.Includes S' name ∧ S'.Includes S name := by
      intro name hname
      obtain ⟨tested, hmention⟩ := references_of_mem_relations hcompile hname
      exact hsame name tested hmention
    -- each of the stores grows to the other one
    refine Solutions.same_of_within (Solutions.within_of_normal base ?_)
      (Solutions.within_of_normal base ?_)
    · refine Goal.answers_mono (hw S) hS hS' hg (fun n hn => ?_) (fun n _ => harity n)
        (fun n hn => (hincludes n hn).1.grows hS hS') hb hanswers hanswers'
      obtain ⟨h, h'⟩ := hincludes n (Goal.mem_relations_of_mem_tested hn)
      exact h.view_eq hS hS' (hsignatures n) h'
    · refine Goal.answers_mono (hw S') hS' hS hg (fun n hn => ?_) (fun n _ => (harity n).symm)
        (fun n hn => (hincludes n hn).2.grows hS' hS) hb hanswers' hanswers
      obtain ⟨h, h'⟩ := hincludes n (Goal.mem_relations_of_mem_tested hn)
      exact h'.view_eq hS' hS (hsignatures n).symm h

/-! ### Lists of one number -/

namespace Ones

/-- The number 1 as it was read from a class. -/
def read : Node := .make ⟨3⟩ ⟨0, 3, 4⟩ (.literal (.int 1))

/-- The number 1 as it was made. -/
def made : Node := .make ⟨4⟩ .synthetic (.literal (.int 1))

/-- A class with one field. -/
def classes : List Node :=
  [.make ⟨1⟩ ⟨0, 1, 2⟩ (.classDecl "A" [] [] none
    [.make ⟨2⟩ ⟨0, 2, 3⟩ (.fieldDecl [] [] (.ofName "int") "f" (some read))])]

/-- A relation of single lists. -/
def relation (name : String) (rows : List (List Node)) : Relation :=
  let signature : Signature := ⟨name, [⟨"x", .any⟩], {}⟩
  let tuple? (row : List Node) := (Tuple.ofValues signature [.list (row.map .node)]).toOption
  { signature, tuples := Catalog.ofListFirst (rows.filterMap tuple?) }

/-- Two relations of lists, and one without tuples. -/
def store (first second : List (List Node)) : Store :=
  ((Dict.set ∅ "first" (relation "first" first)).set "second" (relation "second" second)).set
    "third" (relation "third" [])

/-- What the lists of two elements in one of the first two relations consist of, unless they are in
the third one. -/
def expression : Expr :=
  .and [.or [.trait .synthetic "first" [.var "x"], .trait .synthetic "second" [.var "x"]],
    .not (.trait .synthetic "third" [.var "x"]),
    .matches .synthetic (.var "x") (.list .synthetic [.var .synthetic "a", .var .synthetic "b"])]

/-- What the expression means. -/
def goal : Goal := (expression.compile (store [] []) {}).toOption.getD .false

/-- The goal solved against a store. -/
def solving (s : Store) : Solving Solutions :=
  goal.solve ⟨(Program.ofClasses classes).withIdBase 4, s, []⟩ .empty

/-- The solutions against a store. -/
def solutions (s : Store) : Solutions := ((solving s).run.run (.unused 4)).1.toOption.getD ∅

/-- The numbers that are given out for the solutions. -/
def arena (s : Store) : Arena := ((solving s).run.run (.unused 4)).2

variable {first second first' second' : List (List Node)}

private theorem gives_solving {s : Store} (h : ((solving s).run.run (.unused 4)).1.isOk = true) :
    Gives (solving s) (.unused 4) (solutions s) (arena s) := by
  unfold Gives solutions arena
  cases hrun : (solving s).run.run (.unused 4) with
  | mk outcome a =>
    rw [hrun] at h
    cases outcome with
    | error e => cases h
    | ok found => rfl

/-- The classes were read, below the numbers of made nodes. -/
theorem read_of_classes : ∀ c ∈ classes, ∀ n ∈ c.preorder, n.IsRead ∧ n.id.word < 4 := by
  simp only [Node.IsRead]
  decide +kernel

/-- The store has the three relations only. -/
private theorem find?_store {name : String} {r : Relation}
    (h : (store first second).find? name = some r) :
    (name = "first" ∧ r = relation "first" first) ∨ (name = "second" ∧ r = relation "second" second) ∨
      (name = "third" ∧ r = relation "third" []) := by
  simp only [store, Dict.find?_set, Dict.find?_empty] at h
  split at h
  · exact .inr (.inr ⟨‹_›, (Option.some.inj h).symm⟩)
  · split at h
    · exact .inr (.inl ⟨‹_›, (Option.some.inj h).symm⟩)
    · split at h
      · exact .inl ⟨‹_›, (Option.some.inj h).symm⟩
      · cases h

/-- The tuples of the relations do not matter to the signatures. -/
private theorem signature?_store (name : String) :
    (store first second).signature? name = (store first' second').signature? name := by
  simp only [store, Store.signature?, Dict.find?_set, Dict.find?_empty]
  split
  · rfl
  · split
    · rfl
    · split <;> rfl

/-- The expression means the goal whatever the relations hold. -/
private theorem compile_expression : expression.compile (store first second) {} = .ok goal := by
  have hcongr : expression.compile (store first second) {} = expression.compile (store [] []) {} :=
    Expr.compile_congr (funext fun name => Store.arity?_eq (signature?_store name)) expression {}
  rw [hcongr]
  have hok : (expression.compile (store [] []) {}).isOk = true := by decide +kernel
  unfold goal
  cases h : expression.compile (store [] []) {} with
  | error e =>
    rw [h] at hok
    cases hok
  | ok g => rfl

/-- More rows are more tuples. -/
theorem includes_relation {name : String} {rows rows' : List (List Node)} (h : rows ⊆ rows') :
    ∀ t ∈ (relation name rows).tuples.toList, (relation name rows').contains t = true := by
  intro t ht
  refine Catalog.contains_ofListFirst.2 ⟨t, ?_, rfl⟩
  obtain ⟨row, hrow, ht⟩ := List.mem_filterMap.1 (Catalog.mem_of_mem_ofListFirst ht)
  exact List.mem_filterMap.2 ⟨row, h hrow, ht⟩

/-- Stores include each other row by row. -/
private theorem includes_store (hfirst : first ⊆ first') (hsecond : second ⊆ second') (name : String) :
    (store first second).Includes (store first' second') name := by
  intro r r' hr hr'
  rcases find?_store hr with ⟨rfl, rfl⟩ | ⟨rfl, rfl⟩ | ⟨rfl, rfl⟩ <;>
    rcases find?_store hr' with ⟨hname, rfl⟩ | ⟨hname, rfl⟩ | ⟨hname, rfl⟩ <;>
    first
    | exact includes_relation hfirst
    | exact includes_relation hsecond
    | exact includes_relation (List.Subset.refl [])
    | exact absurd hname (by decide)

/-- Only the third relation is mentioned under a test. -/
private theorem includes_tested {name : String}
    (h : Mention.trait name true ∈ expression.references) :
    (store first' second').Includes (store first second) name := by
  have hname : name = "third" := by
    simpa [Expr.references, expression, Expr.mentions, Expr.mentionsAll, Term.mentions,
      Term.mentionsAll, Pattern.mentions, Pattern.mentionsAll, Mention.ofVar, wildcard] using h
  intro r r' hr hr'
  rcases find?_store hr with ⟨rfl, rfl⟩ | ⟨rfl, rfl⟩ | ⟨rfl, rfl⟩ <;>
    rcases find?_store hr' with ⟨hname', rfl⟩ | ⟨hname', rfl⟩ | ⟨hname', rfl⟩ <;>
    first
    | exact includes_relation (List.Subset.refl [])
    | exact absurd hname (by decide)
    | exact absurd hname' (by decide)

/-- The tuples of uniform rows are uniform. -/
theorem uniform_relation {name : String} {rows : List (List Node)}
    (hrows : ∀ row ∈ rows, (Entity.list (row.map .node)).Uniform 4) :
    ∀ t ∈ (relation name rows).tuples.toList, ∀ e ∈ t.values, e.Uniform 4 := by
  intro t ht e he
  obtain ⟨row, hrow, ht⟩ := List.mem_filterMap.1 (Catalog.mem_of_mem_ofListFirst ht)
  obtain ⟨_, hvalues, _⟩ := Tuple.ofValues_eq_ok.1 (Except.toOption_eq_some_iff.1 ht)
  rw [hvalues, List.mem_singleton] at he
  exact he ▸ hrows row hrow

/-- So is a store of uniform rows. -/
private theorem uniform_store (h : ∀ row ∈ first ++ second, (Entity.list (row.map .node)).Uniform 4) :
    (store first second).Uniform 4 := by
  intro name r hr
  rcases find?_store hr with ⟨_, rfl⟩ | ⟨_, rfl⟩ | ⟨_, rfl⟩
  · exact uniform_relation fun row hrow => h row (List.mem_append_left _ hrow)
  · exact uniform_relation fun row hrow => h row (List.mem_append_right _ hrow)
  · exact uniform_relation fun row hrow => by cases hrow

/-- The lists of the number that was read beside the one that was made, and the other way round, are
the same tuple. Which of them is in the relation that is asked first decides what the variables stand
for, so a solution is lost when that relation grows. -/
theorem solution_lost_for_mixed_lists :
    let S := store [] [[read, made]]
    let S' := store [[made, read]] [[read, made]]
    (∀ c ∈ classes, ∀ n ∈ c.preorder, n.IsRead ∧ n.id.word < 4) ∧ read.IsRead ∧ made.IsMade 4 ∧
      (Arena.unused 4).Undeclared 4 ∧ (∀ name, S'.signature? name = S.signature? name) ∧
      (∀ name, S.Includes S' name) ∧
      (∀ name, Mention.trait name true ∈ expression.references → S'.Includes S name) ∧
      expression.compile S {} = .ok goal ∧
      Gives (solving S) (.unused 4) (solutions S) (arena S) ∧
      Gives (solving S') (.unused 4) (solutions S') (arena S') ∧
      ¬ (solutions S).Within (solutions S') := by
  have hlost : ∃ b ∈ (solutions (store [] [[read, made]])).toList,
      ∀ b' ∈ (solutions (store [[made, read]] [[read, made]])).toList, b'.shape ≠ b.shape := by
    decide +kernel
  refine ⟨read_of_classes, rfl, ⟨rfl, by decide⟩, Arena.intact_unused.toUndeclared,
    signature?_store, includes_store (List.nil_subset _) (List.Subset.refl _),
    fun _ => includes_tested, compile_expression, gives_solving (by decide +kernel),
    gives_solving (by decide +kernel), fun hwithin => ?_⟩
  obtain ⟨b, hb, hnone⟩ := hlost
  -- a solution of the same shape would be found
  obtain ⟨b', hb', hshape⟩ :=
    Catalog.contains_iff.1 (hwithin _ (Catalog.contains_iff.2 ⟨b, hb, rfl⟩))
  exact hnone b' hb' hshape

/-- The list of what was read holds no made node. -/
theorem isRead_list_read : (Entity.list ([read, read].map .node)).IsRead := by
  unfold Entity.IsRead Node.IsRead
  decide +kernel

/-- The list of what was made holds no node that was read. -/
theorem isMade_list_made : (Entity.list ([made, made].map .node)).IsMade 4 := by
  unfold Entity.IsMade Node.IsMade
  decide +kernel

/-- A list that was made is added to one that was read, which keeps its solution. -/
theorem solutions_of_growth_uniform_lists :
    let S := store [] [[read, read]]
    let S' := store [[made, made]] [[read, read]]
    (solutions S).size = 1 ∧ (solutions S').size = 2 ∧ (solutions S).Within (solutions S') := by
  refine ⟨by decide +kernel, by decide +kernel, ?_⟩
  have hread : (Entity.list ([read, read].map .node)).Uniform 4 := .inl isRead_list_read
  have hmade : (Entity.list ([made, made].map .node)).Uniform 4 := .inr isMade_list_made
  have hS : (store [] [[read, read]]).Uniform 4 := uniform_store (by simpa using hread)
  have hS' : (store [[made, made]] [[read, read]]).Uniform 4 :=
    uniform_store (by simpa using ⟨hmade, hread⟩)
  have hoverlay : ∀ x ∈ ([] : List Entity), x.Uniform 4 := fun x hx => by cases hx
  have hscope (name : String) (x : Entity) (hx : ({} : Scope).bound.find? name = some x) :
      x.Uniform 4 := by cases hx
  -- both stores are solved to see what is found
  have hgrowth := Expr.solutions_of_growth read_of_classes hoverlay hS hS'
    (fun x hx => by cases hx) hscope Bindings.uniform_empty Arena.intact_unused.toUndeclared
    signature?_store compile_expression (gives_solving (by decide +kernel))
    (gives_solving (by decide +kernel)) (by decide +kernel) (by decide +kernel)
  have hincludes (name : String) :
      (store [] [[read, read]]).Includes (store [[made, made]] [[read, read]]) name :=
    includes_store (List.nil_subset _) (List.Subset.refl _) name
  exact hgrowth.1 (fun name _ _ => hincludes name) fun _ => includes_tested

end Ones

end CodeRules
