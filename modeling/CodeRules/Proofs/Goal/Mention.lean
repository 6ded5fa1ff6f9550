import CodeRules.Proofs.Goal.Compile
import CodeRules.Proofs.Goal.Monotone
import CodeRules.Statement.Mention

/-!
# What compiled expressions ask and hold

The goal of an expression asks only relations that the expression mentions, and tests only those that
it mentions under a test (`Expr.references_of_mem_relations`, `Expr.references_of_mem_tested`). It holds
no entities but those of the expression and of the scope (`Expr.compile_uniform`).
-/

namespace CodeRules

namespace Expr

variable {store : Store} {s : Scope} {e : Expr} {g : Goal}

/-- The mentions of several expressions are those of each of them. -/
theorem mentionsAll_eq_flatMap (tested : Bool) (hidden : List String) (es : List Expr) :
    mentionsAll tested hidden es = es.flatMap (mentions tested hidden) := by
  induction es with
  | nil => rfl
  | cons e es ih => rw [mentionsAll, ih, List.flatMap_cons]

/-! ### Relations -/

/-- The goal asks and tests only what the expression mentions in this way. Under a test everything is
tested. -/
private structure Reads (e : Expr) (g : Goal) : Prop where
  asks : ∀ tested hidden, ∀ n ∈ g.relations,
    ∃ t, (tested = Bool.true → t = Bool.true) ∧ Mention.trait n t ∈ e.mentions tested hidden
  tests : ∀ tested hidden, ∀ n ∈ g.tested,
    Mention.trait n Bool.true ∈ e.mentions tested hidden

namespace Reads

variable {e' : Expr} {g' : Goal} {es : List Expr} {gs : List Goal} {tested : Bool}
  {hidden : List String} {n : String}

/-- What is asked under a test is mentioned under a test. -/
private theorem under (h : Reads e g) (hn : n ∈ g.relations) :
    Mention.trait n Bool.true ∈ e.mentions Bool.true hidden := by
  obtain ⟨t, ht, hmem⟩ := h.asks Bool.true hidden n hn
  rwa [ht rfl] at hmem

/-- What two goals under a test ask is mentioned by their expressions. -/
private theorem under_both (h : Reads e g) (h' : Reads e' g')
    (hn : n ∈ g.relations ++ g'.relations) :
    Mention.trait n Bool.true ∈ e.mentions Bool.true hidden ++ e'.mentions Bool.true hidden := by
  rcases List.mem_append.1 hn with hn | hn
  · exact List.mem_append_left _ (h.under hn)
  · exact List.mem_append_right _ (h'.under hn)

/-- A goal all of whose relations are mentioned under a test. -/
private theorem of_under (h : ∀ tested hidden, ∀ n ∈ g.relations,
    Mention.trait n Bool.true ∈ e.mentions tested hidden)
    (htested : g.tested = g.relations) : Reads e g where
  asks tested hidden n hn := ⟨Bool.true, fun _ => rfl, h tested hidden n hn⟩
  tests tested hidden n hn := h tested hidden n (htested ▸ hn)

/-- A goal that asks nothing. -/
private theorem of_nil (h : g.relations = []) (htested : g.tested = []) : Reads e g where
  asks tested hidden n hn := by
    rw [h] at hn
    cases hn
  tests tested hidden n hn := by
    rw [htested] at hn
    cases hn

/-- Goals ask what their expressions mention, one by one. -/
private theorem asks_all (h : List.Forall₂ Reads es gs) (hn : n ∈ Goal.relationsAll gs) :
    ∃ t, (tested = Bool.true → t = Bool.true) ∧
      Mention.trait n t ∈ mentionsAll tested hidden es := by
  rw [Goal.relationsAll_eq_flatMap] at hn
  obtain ⟨g, hg, hn⟩ := List.mem_flatMap.1 hn
  obtain ⟨e, he, hreads⟩ := h.exists_left hg
  obtain ⟨t, ht, hmem⟩ := hreads.asks tested hidden n hn
  rw [mentionsAll_eq_flatMap]
  exact ⟨t, ht, List.mem_flatMap.2 ⟨e, he, hmem⟩⟩

/-- Goals test what their expressions mention under a test, one by one. -/
private theorem tests_all (h : List.Forall₂ Reads es gs) (hn : n ∈ Goal.testedAll gs) :
    Mention.trait n Bool.true ∈ mentionsAll tested hidden es := by
  rw [Goal.testedAll_eq_flatMap] at hn
  obtain ⟨g, hg, hn⟩ := List.mem_flatMap.1 hn
  obtain ⟨e, he, hreads⟩ := h.exists_left hg
  rw [mentionsAll_eq_flatMap]
  exact List.mem_flatMap.2 ⟨e, he, hreads.tests tested hidden n hn⟩

end Reads

/-- A compiled goal reads what its expression mentions, by induction on the compiler. -/
private theorem reads_of_compile (h : e.compile store s = .ok g) : Reads e g := by
  apply compile_induction (P := fun _ => Reads) (h := h)
  case true => exact fun _ => .of_nil rfl rfl
  case false => exact fun _ => .of_nil rfl rfl
  case and =>
    exact fun _ _ _ hgs => ⟨fun _ _ _ => Reads.asks_all hgs, fun _ _ _ => Reads.tests_all hgs⟩
  case or =>
    exact fun _ _ _ hgs => ⟨fun _ _ _ => Reads.asks_all hgs, fun _ _ _ => Reads.tests_all hgs⟩
  -- everything below a test is mentioned under a test
  case not => exact fun _ _ _ ih => .of_under (fun _ _ _ hn => ih.under hn) rfl
  case implies =>
    exact fun _ _ _ _ _ ih ih' => .of_under (fun _ _ _ hn => ih.under_both ih' hn) rfl
  case iff => exact fun _ _ _ _ _ ih ih' => .of_under (fun _ _ _ hn => ih.under_both ih' hn) rfl
  -- an existential quantifier hides names, but is no test
  case exists_ =>
    exact fun _ _ _ _ _ _ _ ih => ⟨fun tested _ => ih.asks tested _, fun tested _ => ih.tests tested _⟩
  case forall_ =>
    exact fun _ _ _ _ _ _ _ _ _ ih ih' => .of_under (fun _ _ _ hn => ih.under_both ih' hn) rfl
  case trait =>
    intro s span name args us _ _
    constructor
    · intro tested hidden n hn
      obtain rfl := List.mem_singleton.1 hn
      exact ⟨tested, fun h => h, List.mem_cons_self ..⟩
    · intro tested hidden n hn
      cases hn
  case matches_ => exact fun _ _ _ _ _ _ _ _ => .of_nil rfl rfl
  case eq => exact fun _ _ _ _ _ _ _ _ => .of_nil rfl rfl
  case ne => exact fun _ _ _ _ _ _ _ _ => .of_nil rfl rfl

/-- The relations that a goal asks are mentioned. -/
theorem references_of_mem_relations (h : e.compile store s = .ok g) {n : String}
    (hn : n ∈ g.relations) : ∃ tested, Mention.trait n tested ∈ e.references := by
  obtain ⟨t, _, hmem⟩ := (reads_of_compile h).asks Bool.false [] n hn
  exact ⟨t, hmem⟩

/-- The relations that a goal asks under a test are mentioned under one. -/
theorem references_of_mem_tested (h : e.compile store s = .ok g) {n : String}
    (hn : n ∈ g.tested) : Mention.trait n Bool.true ∈ e.references :=
  (reads_of_compile h).tests Bool.false [] n hn

end Expr

/-! ### Entities -/

namespace Term

mutual

/-- The entities that are written in a term. -/
def entities : Term → List Entity
  | entity e => [e]
  | apply _ args => entitiesAll args
  | var _ | pattern _ => []

/-- The entities that are written in several terms. -/
def entitiesAll : List Term → List Entity
  | [] => []
  | t :: ts => entities t ++ entitiesAll ts

end

/-- The entities of several terms are those of each of them. -/
theorem entitiesAll_eq_flatMap (ts : List Term) : entitiesAll ts = ts.flatMap entities := by
  induction ts with
  | nil => rfl
  | cons t ts ih => rw [entitiesAll, ih, List.flatMap_cons]

variable {s : Scope}

/-- Terms compile one by one. -/
theorem compileAll_eq_ok {ts : List Term} {us : List GoalTerm} :
    compileAll s ts = .ok us ↔ List.Forall₂ (fun t u => t.compile s = .ok u) ts us := by
  induction ts generalizing us with
  | nil => rw [compileAll, List.forall₂_nil_left_iff, Except.ok.injEq, eq_comm]
  | cons t ts ih =>
    simp only [compileAll, Except.bind_eq_ok, Except.pure_eq_ok, ih, List.forall₂_cons_left_iff]
    constructor
    · intro h
      obtain ⟨u, hu, us, hus, rfl⟩ := h
      exact ⟨u, us, hu, hus, rfl⟩
    · intro h
      obtain ⟨u, us, hu, hus, rfl⟩ := h
      exact ⟨u, hu, us, hus, rfl⟩

/-- The entities of a term are written in it or known in the scope. -/
theorem mem_constants_of_compile {t : Term} {u : GoalTerm} (h : t.compile s = .ok u) {x : Entity}
    (hx : x ∈ u.constants) : x ∈ t.entities ∨ ∃ name, s.bound.find? name = some x := by
  induction t using Term.induction generalizing u with
  | var name =>
    simp only [compile] at h
    split at h
    · obtain rfl := Except.ok.inj h
      cases hx
    · split at h
      · rename_i e hlookup
        obtain rfl := Except.ok.inj h
        obtain rfl := List.mem_singleton.1 hx
        refine .inr ⟨name, ?_⟩
        -- the name is bound, so its entity is the one of the scope
        unfold Scope.lookup at hlookup
        split at hlookup
        · cases hlookup
        · split at hlookup
          · rename_i hfind
            cases hlookup
            exact hfind
          · cases hlookup
      · obtain rfl := Except.ok.inj h
        cases hx
      · obtain rfl := Except.ok.inj h
        cases hx
  | entity e =>
    obtain rfl := Except.ok.inj h
    exact .inl hx
  -- patterns and calls have no constants of their own
  | pattern p =>
    simp only [compile, Except.bind_eq_ok, Except.pure_eq_ok] at h
    obtain ⟨f, _, rfl⟩ := h
    cases hx
  | apply func args ih =>
    simp only [compile, Except.bind_eq_ok, Except.pure_eq_ok, compileAll_eq_ok] at h
    obtain ⟨us, hus, rfl⟩ := h
    rw [GoalTerm.constants, GoalTerm.constantsAll_eq_flatMap] at hx
    obtain ⟨u, hu, hx⟩ := List.mem_flatMap.1 hx
    obtain ⟨t, ht, htu⟩ := hus.exists_left hu
    -- an argument that spells it out is written in the call
    refine (ih t ht htu hx).imp_left fun h => ?_
    rw [entities, entitiesAll_eq_flatMap]
    exact List.mem_flatMap.2 ⟨t, ht, h⟩

end Term

/-- Declarations do not change what is bound. -/
theorem Scope.bound_declareAll {s inner : Scope} {span : Span} {binders : List Binder}
    (h : s.declareAll span binders = .ok inner) : inner.bound = s.bound := by
  unfold declareAll at h
  rw [Except.mapError_eq_ok] at h
  refine Except.foldlM_ok (I := fun s' => s'.bound = s.bound) h rfl fun b _ s₁ s₂ h₁ h₂ => ?_
  simp only [declareWritten, Except.bind_eq_ok, Except.pure_eq_ok] at h₂
  obtain ⟨type, _, rfl⟩ := h₂
  exact h₁

namespace Expr

mutual

/-- The entities that are written in the terms of an expression. -/
def entities : Expr → List Entity
  | and items | or items => entitiesAll items
  | not body | .exists _ _ body => entities body
  | implies left right | iff left right | .forall _ _ left right => entities left ++ entities right
  | trait _ _ args => Term.entitiesAll args
  | .matches _ subject _ => subject.entities
  | eq _ left right | ne _ left right => left.entities ++ right.entities
  | true | false => []

/-- The entities that are written in several expressions. -/
def entitiesAll : List Expr → List Entity
  | [] => []
  | e :: es => entities e ++ entitiesAll es

end

/-- The entities of several expressions are those of each of them. -/
theorem entitiesAll_eq_flatMap (es : List Expr) : entitiesAll es = es.flatMap entities := by
  induction es with
  | nil => rfl
  | cons e es ih => rw [entitiesAll, ih, List.flatMap_cons]

variable {store : Store} {s : Scope} {e : Expr} {g : Goal} {base : UInt32}

/-- The goal is uniform when the entities of the expression and of the scope are. -/
private def Holds (base : UInt32) (s : Scope) (e : Expr) (g : Goal) : Prop :=
  (∀ x ∈ e.entities, x.Uniform base) →
    (∀ name x, s.bound.find? name = some x → x.Uniform base) → g.Uniform base

/-- Uniform expressions have uniform goals, one by one. -/
private theorem holds_all {es : List Expr} {gs : List Goal}
    (h : List.Forall₂ (Holds base s) es gs) (hes : ∀ x ∈ entitiesAll es, x.Uniform base)
    (hbound : ∀ name x, s.bound.find? name = some x → x.Uniform base) :
    ∀ t ∈ Goal.termsAll gs, t.Uniform base := by
  intro t ht
  rw [Goal.termsAll_eq_flatMap] at ht
  obtain ⟨g, hg, ht⟩ := List.mem_flatMap.1 ht
  obtain ⟨e, he, hholds⟩ := h.exists_left hg
  refine hholds (fun x hx => hes x ?_) hbound t ht
  rw [entitiesAll_eq_flatMap]
  exact List.mem_flatMap.2 ⟨e, he, hx⟩

/-- Two uniform expressions have two uniform goals. -/
private theorem holds_both {inner : Scope} {e e' : Expr} {g g' : Goal} (h : Holds base inner e g)
    (h' : Holds base inner e' g') (hentities : ∀ x ∈ e.entities ++ e'.entities, x.Uniform base)
    (hbound : ∀ name x, inner.bound.find? name = some x → x.Uniform base) :
    ∀ t ∈ g.terms ++ g'.terms, t.Uniform base := by
  intro t ht
  rcases List.mem_append.1 ht with ht | ht
  · exact h (fun x hx => hentities x (List.mem_append_left _ hx)) hbound t ht
  · exact h' (fun x hx => hentities x (List.mem_append_right _ hx)) hbound t ht

/-- A term is uniform when its entities and those of the scope are. -/
private theorem uniform_term {t : Term} {u : GoalTerm} (h : t.compile s = .ok u)
    (hentities : ∀ x ∈ t.entities, x.Uniform base)
    (hbound : ∀ name x, s.bound.find? name = some x → x.Uniform base) : u.Uniform base := by
  intro x hx
  rcases Term.mem_constants_of_compile h hx with hx | ⟨name, hx⟩
  · exact hentities x hx
  · exact hbound name x hx

/-- So are two terms. -/
private theorem uniform_terms {t t' : Term} {u u' : GoalTerm} (h : t.compile s = .ok u)
    (h' : t'.compile s = .ok u') (hentities : ∀ x ∈ t.entities ++ t'.entities, x.Uniform base)
    (hbound : ∀ name x, s.bound.find? name = some x → x.Uniform base) :
    ∀ v ∈ [u, u'], v.Uniform base := by
  intro v hv
  rcases List.mem_cons.1 hv with rfl | hv
  · exact uniform_term h (fun x hx => hentities x (List.mem_append_left _ hx)) hbound
  · obtain rfl := List.mem_singleton.1 hv
    exact uniform_term h' (fun x hx => hentities x (List.mem_append_right _ hx)) hbound

/-- The goal of an expression is uniform when the entities of the expression and the scope are. -/
theorem compile_uniform (h : e.compile store s = .ok g)
    (hentities : ∀ x ∈ e.entities, x.Uniform base)
    (hbound : ∀ name x, s.bound.find? name = some x → x.Uniform base) : g.Uniform base := by
  have hholds : Holds base s e g := by
    apply compile_induction (P := Holds base) (h := h)
    case true => exact fun _ _ _ t ht => by cases ht
    case false => exact fun _ _ _ t ht => by cases ht
    case and => exact fun _ _ _ hgs => holds_all hgs
    case or => exact fun _ _ _ hgs => holds_all hgs
    case not => exact fun _ _ _ ih => ih
    case implies => exact fun _ _ _ _ _ ih ih' => holds_both ih ih'
    case iff => exact fun _ _ _ _ _ ih ih' => holds_both ih ih'
    case exists_ =>
      intro s span binders inner e g hinner ih hentities hbound
      -- the body is compiled with the entities that were bound outside
      rw [← Scope.bound_declareAll hinner] at hbound
      exact ih hentities hbound
    case forall_ =>
      intro s span binders inner e e' g g' hinner ih ih' hentities hbound
      rw [← Scope.bound_declareAll hinner] at hbound
      exact holds_both ih ih' hentities hbound
    -- the entities of an argument are written in the mention
    case trait =>
      intro s span name args us _ hus hentities hbound u hu
      obtain ⟨t, ht, htu⟩ := (Term.compileAll_eq_ok.1 hus).exists_left hu
      refine uniform_term htu (fun x hx => hentities x ?_) hbound
      rw [entities, Term.entitiesAll_eq_flatMap]
      exact List.mem_flatMap.2 ⟨t, ht, hx⟩
    case matches_ =>
      intro s span t u p f hu _ hentities hbound v hv
      obtain rfl := List.mem_singleton.1 hv
      exact uniform_term hu hentities hbound
    case eq => exact fun _ _ _ _ _ _ hu hu' => uniform_terms hu hu'
    case ne => exact fun _ _ _ _ _ _ hu hu' => uniform_terms hu hu'
  exact hholds hentities hbound

end Expr

end CodeRules
