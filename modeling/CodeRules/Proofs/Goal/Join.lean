import CodeRules.Goal.Compile
import CodeRules.Proofs.Binding.Join
import CodeRules.Proofs.Fragment.Inverse
import CodeRules.Proofs.Goal.Free
import CodeRules.Proofs.Goal.Mention
import CodeRules.Proofs.Goal.WellFormed
import CodeRules.Proofs.Goal.Yields

/-!
# Goals as joins

Goals that are built from traits by conjunction, disjunction and existential quantification describe
sets of views: those of a conjunction are the joins of the views of its parts (`Goal.Describes`).
Solving such a goal joins the input to these views, however the input is threaded through the parts
(`Goal.returns_solve`). So the solutions for an input are the product of the input with the solutions
for no input, and the order of the parts of a conjunction does not matter (`Goal.solve_eq_product`).
-/

namespace CodeRules

open Effect

namespace Solving

variable {α : Type} {P Q : View → Prop}

/-- Solutions are collected step by step. -/
private theorem returns_foldlM (step : Solutions → α → Solving Solutions) (S : α → View → Prop)
    {l : List α} (h : ∀ x ∈ l, ∀ out P, out.HasViews P →
      Returns (step out x) fun s => s.HasViews fun v => P v ∨ S x v)
    {out : Solutions} (hout : out.HasViews P) :
    Returns (l.foldlM step out) fun s => s.HasViews fun v => P v ∨ ∃ x ∈ l, S x v := by
  -- by induction on the list: what was found so far is kept in `P`
  induction l generalizing out P with
  | nil => exact returns_pure (by simpa using hout)
  | cons x l ih =>
    rw [List.foldlM_cons]
    refine returns_bind (h x (List.mem_cons_self ..) out P hout) fun s hs => ?_
    refine (ih (fun y hy => h y (List.mem_cons_of_mem _ hy)) hs).mono fun t ht => ?_
    simpa only [List.mem_cons, exists_eq_or_imp, or_assoc] using ht

/-- Solutions that are found for each element of a list are taken together. -/
theorem returns_collect {f : α → Solving (Option Bindings)} {S : α → View → Prop} {l : List α}
    (h : ∀ x ∈ l, Returns (f x) fun o => (Solutions.ofOption o).HasViews (S x)) :
    Returns (collect f l) fun s => s.HasViews fun v => ∃ x ∈ l, S x v := by
  have hfold := returns_foldlM (fun out x => return (← f x).elim out out.insert) S
    (fun x hx out P hout => returns_bind (h x hx) fun o ho => returns_pure (hout.insert ho))
    Solutions.hasViews_empty
  exact hfold.mono fun s hs => by simpa only [false_or] using hs

/-- When `f` joins bindings to a set of views, it joins all bindings of a set to them. -/
theorem returns_joinAll {f : Bindings → Solving Solutions} {s : Solutions} (hs : s.HasViews P)
    (h : ∀ b ∈ s.toList, Returns (f b) fun t => t.HasViews (View.Join (· = b.view) Q)) :
    Returns (joinAll f s) fun t => t.HasViews (View.Join P Q) := by
  have hfold := returns_foldlM (fun out b => return out.union (← f b))
    (fun b => View.Join (· = b.view) Q)
    (fun b hb out P hout => returns_bind (h b hb) fun t ht => returns_pure (hout.union ht))
    Solutions.hasViews_empty
  refine hfold.mono fun t ht => ⟨fun c hc => (ht.sound c hc).imp_right ?_, fun w hw => ht.complete w ?_⟩
  · rintro (hfalse | ⟨b, hb, u, v, rfl, hv, hjoins⟩)
    · exact hfalse.elim
    · exact ⟨b.view, v, (hs.sound b hb).2, hv, hjoins⟩
  · obtain ⟨u, v, hu, hv, hjoins⟩ := hw
    obtain ⟨b, hb, rfl⟩ := hs.complete u hu
    exact .inr ⟨b, hb, b.view, v, rfl, hv, hjoins⟩

end Solving

/-! ### What goals describe -/

namespace GoalTerm

/-- Whether the term is a variable, a constant or the wildcard. -/
def isAtom : GoalTerm → Bool
  | wildcard | var .. | const _ => true
  | pattern _ | apply .. => false

/-- The views under which the term stands for an entity. -/
def Describes (types : TypeOracle) (e : Entity) : GoalTerm → View → Prop
  | wildcard, u => u = View.none
  | var name type, u => type.accepts types e = true ∧ u = View.single name e.located
  | const known, u => known.aliases e = true ∧ u = View.none
  | pattern _, _ | apply .., _ => False

/-- The views under which terms stand for entities, in order. -/
def DescribesAll (types : TypeOracle) : List GoalTerm → List Entity → View → Prop
  | t :: ts, e :: es => View.Join (t.Describes types e) (DescribesAll types ts es)
  | _, _ => (· = View.none)

end GoalTerm

namespace Goal

mutual

/-- Whether the goal is built from traits of variables, constants and wildcards by conjunction,
disjunction and existential quantification. -/
def isJoin : Goal → Bool
  | true | false => Bool.true
  | and items | or items => areJoins items
  | .exists _ body => isJoin body
  | trait _ _ args => args.all GoalTerm.isAtom
  | _ => Bool.false

/-- Whether several goals are built so. -/
def areJoins : List Goal → Bool
  | [] => Bool.true
  | g :: gs => isJoin g && areJoins gs

end

section

variable (w : World)

mutual

/-- The views that a goal describes, if it is built so. -/
def Describes : Goal → View → Prop
  | true => (· = View.none)
  | false => fun _ => False
  | and items => DescribesAll items
  | or items => DescribesAny items
  | .exists binders body => fun u => ∃ v, Describes body v ∧ u = v.hide binders
  | trait _ name args => fun u => ∃ r, w.store.find? name = some r ∧
      ∃ t ∈ r.tuples.toList, GoalTerm.DescribesAll w.program.types args t.values u
  | _ => fun _ => False

/-- The views that several goals describe together. -/
def DescribesAll : List Goal → View → Prop
  | [] => (· = View.none)
  | g :: gs => View.Join (Describes g) (DescribesAll gs)

/-- The views that one of several goals describes. -/
def DescribesAny : List Goal → View → Prop
  | [] => fun _ => False
  | g :: gs => fun u => Describes g u ∨ DescribesAny gs u

end

end

/-- Several goals are joins when each of them is one. -/
theorem areJoins_iff {gs : List Goal} : areJoins gs = Bool.true ↔ ∀ g ∈ gs, g.isJoin = Bool.true := by
  induction gs with
  | nil => simp [areJoins]
  | cons g gs ih => simp [areJoins, ih]

/-- A disjunction describes what one of its goals describes. -/
theorem describesAny_iff {w : World} {gs : List Goal} {u : View} :
    DescribesAny w gs u ↔ ∃ g ∈ gs, g.Describes w u := by
  induction gs with
  | nil => simp [DescribesAny]
  | cons g gs ih => simp [DescribesAny, ih]

/-- Goals describe the same views together in every order. -/
theorem describesAll_perm {w : World} {gs gs' : List Goal} (h : gs.Perm gs') :
    DescribesAll w gs = DescribesAll w gs' := by
  induction h with
  | nil => rfl
  | cons g _ ih => rw [DescribesAll, DescribesAll, ih]
  | swap g g' gs =>
    rw [DescribesAll, DescribesAll, DescribesAll, DescribesAll]
    exact View.join_left_comm _ _ _
  | trans _ _ ih ih' => exact ih.trans ih'

end Goal

/-! ### Types of variables -/

/-- The type that a variable has in a scope. -/
def Scope.typeOf (s : Scope) (name : String) : ParamType :=
  match s.lookup name with
  | .free type => type
  | _ => .any

/-- The variables among the terms have types as `τ` says, and none is called like the wildcard. -/
def GoalTerm.Typed (τ : String → ParamType) : GoalTerm → Prop
  | wildcard | const _ => True
  | var name type => name ≠ CodeRules.wildcard ∧ type = τ name
  | pattern _ | apply .. => False

/-- The goal is built as a join, and its variables have types as `τ` says, unless a quantifier declares
them anew. -/
inductive Goal.Typed : (String → ParamType) → Goal → Prop where
  | true {τ : String → ParamType} : Typed τ true
  | false {τ : String → ParamType} : Typed τ false
  | and {τ : String → ParamType} {items : List Goal} (hitems : ∀ g ∈ items, Typed τ g) :
    Typed τ (and items)
  | or {τ : String → ParamType} {items : List Goal} (hitems : ∀ g ∈ items, Typed τ g) :
    Typed τ (or items)
  | exists_ {τ τ' : String → ParamType} {binders : List String} {body : Goal}
      (hτ : ∀ n, n ∉ binders → τ' n = τ n) (hbody : Typed τ' body) : Typed τ (.exists binders body)
  | trait {τ : String → ParamType} {span : Span} {name : String} {args : List GoalTerm}
      (hargs : ∀ t ∈ args, t.Typed τ) : Typed τ (trait span name args)

namespace Expr

/-- Only the declared names change their types. -/
private theorem typeOf_declareAll {s inner : Scope} {span : Span} {binders : List Binder}
    (h : s.declareAll span binders = .ok inner) {n : String} (hn : n ∉ binders.map Named.name) :
    inner.typeOf n = s.typeOf n := by
  unfold Scope.declareAll at h
  refine Except.foldlM_ok (I := fun s' : Scope => s'.typeOf n = s.typeOf n) (Except.mapError_eq_ok.1 h)
    rfl fun b hb s' s'' hs' hdeclare => ?_
  simp only [Scope.declareWritten, Except.bind_eq_ok, Except.pure_eq_ok] at hdeclare
  obtain ⟨type, _, rfl⟩ := hdeclare
  have hne : n ≠ b.name := fun heq => hn (heq ▸ List.mem_map_of_mem hb)
  rw [← hs', Scope.typeOf, Scope.typeOf, Scope.lookup, Scope.lookup, Scope.declare, Dict.find?_set,
    if_neg hne]

/-- An atom that is compiled in a scope has the type of the scope. -/
private theorem typed_term {s : Scope} {t : Term} {u : GoalTerm} (h : t.compile s = .ok u)
    (hatom : u.isAtom = Bool.true) : u.Typed s.typeOf := by
  cases t with
  | var name =>
    simp only [Term.compile] at h
    split at h
    · obtain rfl := Except.ok.inj h
      trivial
    -- the scope knows the entity or the type of the name, or nothing
    · rename_i hname
      split at h <;> obtain rfl := Except.ok.inj h
      · trivial
      · rename_i type hlookup
        exact ⟨hname, by rw [Scope.typeOf, hlookup]⟩
      · rename_i hlookup
        exact ⟨hname, by rw [Scope.typeOf, hlookup]⟩
  | entity e =>
    obtain rfl := Except.ok.inj h
    trivial
  | pattern p =>
    simp only [Term.compile, Except.bind_eq_ok, Except.pure_eq_ok] at h
    obtain ⟨f, _, rfl⟩ := h
    cases hatom
  | apply func args =>
    simp only [Term.compile, Except.bind_eq_ok, Except.pure_eq_ok] at h
    obtain ⟨us, _, rfl⟩ := h
    cases hatom

/-- A goal that is compiled in a scope has the types of the scope. -/
theorem compile_typed {store : Store} {s : Scope} {e : Expr} {g : Goal}
    (h : e.compile store s = .ok g) (hg : g.isJoin = Bool.true) : g.Typed s.typeOf := by
  have hall {s : Scope} {es : List Expr} {gs : List Goal}
      (hgs : List.Forall₂ (fun _ g => g.isJoin = Bool.true → g.Typed s.typeOf) es gs)
      (hjoins : Goal.areJoins gs = Bool.true) : ∀ g ∈ gs, g.Typed s.typeOf := fun g hmem => by
    obtain ⟨_, _, htyped⟩ := hgs.exists_left hmem
    exact htyped (Goal.areJoins_iff.1 hjoins g hmem)
  revert hg
  apply compile_induction (P := fun s _ g => g.isJoin = Bool.true → g.Typed s.typeOf) (h := h)
  case true => exact fun _ _ => .true
  case false => exact fun _ _ => .false
  case and => exact fun _ _ _ hgs hjoins => .and (hall hgs hjoins)
  case or => exact fun _ _ _ hgs hjoins => .or (hall hgs hjoins)
  case exists_ =>
    intro s span binders inner e g hinner hbody hjoin
    exact Goal.Typed.exists_ (fun _ hn => typeOf_declareAll hinner hn) (hbody hjoin)
  case trait =>
    intro s span name args us _ hus hjoin
    refine .trait fun u hu => ?_
    obtain ⟨t, _, ht⟩ := (Term.compileAll_eq_ok.1 hus).exists_left hu
    exact typed_term ht (List.all_eq_true.1 hjoin u hu)
  case not => exact fun _ _ _ _ hjoin => (Bool.false_ne_true hjoin).elim
  -- the other goals are no joins
  case implies | iff => exact fun _ _ _ _ _ _ _ hjoin => (Bool.false_ne_true hjoin).elim
  case forall_ => exact fun _ _ _ _ _ _ _ _ _ _ _ hjoin => (Bool.false_ne_true hjoin).elim
  case matches_ | eq | ne => exact fun _ _ _ _ _ _ _ _ hjoin => (Bool.false_ne_true hjoin).elim

end Expr

/-! ### Types of values -/

namespace View

variable {types : TypeOracle} {τ : String → ParamType} {names more : List String} {u v w : View}

/-- What the names stand for is what their types take. -/
def Accepted (types : TypeOracle) (τ : String → ParamType) (names : List String) (u : View) : Prop :=
  ∀ n ∈ names, ∀ e, u n = some (Entity.located e) → (τ n).accepts types e = Bool.true

namespace Accepted

/-- Fewer names have fewer values to accept. -/
theorem mono (h : u.Accepted types τ names) (hmore : ∀ n ∈ more, n ∈ names) :
    u.Accepted types τ more := fun n hn => h n (hmore n hn)

/-- No name stands for anything in the empty view. -/
theorem none : View.none.Accepted types τ names := fun _ _ _ he => by cases he

/-- Joined views have their values from both. -/
theorem joins (hu : u.Accepted types τ names) (hv : v.Accepted types τ names) (h : Joins u v w) :
    w.Accepted types τ names := fun n hn e he =>
  (h.eq_some_iff.1 he).elim (hu n hn e) (hv n hn e)

end Accepted

end View

/-- Entities that alias each other have the same type. -/
def TypeOracle.SeesPlaces (types : TypeOracle) : Prop :=
  ∀ e e' : Entity, e.aliases e' = true → types.typeOf? e = types.typeOf? e'

section

variable {types : TypeOracle} (htypes : types.SeesPlaces) {τ : String → ParamType}
include htypes

/-- Types take entities by what and where they are. -/
theorem ParamType.accepts_of_located {type : ParamType} {e e' : Entity} (h : e.located = e'.located)
    (he : type.accepts types e = true) : type.accepts types e' = true := by
  have halias : e'.aliases e = true := decide_eq_true h.symm
  have hshape := (Entity.aliases_iff.1 halias).1
  rw [← he]
  -- categories look at the shape, and classes at the type
  cases type <;> simp only [accepts, Category.accepts, Category.ofEntity_eq hshape, htypes e' e halias]

/-- The views that a term describes are of the right types. -/
theorem GoalTerm.Describes.accepted {t : GoalTerm} (ht : t.Typed τ) {e : Entity} {u : View}
    (h : t.Describes types e u) (names : List String) : u.Accepted types τ names := by
  cases t with
  | wildcard => exact (show u = View.none from h) ▸ .none
  | const known => exact h.2 ▸ .none
  | var name type =>
    obtain ⟨haccepts, rfl⟩ := h
    obtain ⟨_, rfl⟩ := ht
    intro n _ x hx
    unfold View.single at hx
    split at hx
    · rename_i heq
      exact heq ▸ ParamType.accepts_of_located htypes (Option.some.inj hx) haccepts
    · cases hx
  | pattern f => exact h.elim
  | apply func args => exact h.elim

/-- The views that several terms describe are of the right types. -/
theorem GoalTerm.DescribesAll.accepted {ts : List GoalTerm} (hts : ∀ t ∈ ts, t.Typed τ)
    {es : List Entity} {u : View} (h : DescribesAll types ts es u) (names : List String) :
    u.Accepted types τ names := by
  induction ts generalizing es u with
  | nil => exact (show u = View.none from h) ▸ .none
  | cons t ts ih =>
    cases es with
    | nil => exact (show u = View.none from h) ▸ .none
    | cons e es =>
      obtain ⟨v, v', hv, hv', hjoins⟩ := h
      exact (hv.accepted htypes (hts t (List.mem_cons_self ..)) names).joins
        (ih (fun s hs => hts s (List.mem_cons_of_mem _ hs)) hv') hjoins

end

namespace Goal

variable {w : World} {τ : String → ParamType}

/-- So are the views that several goals describe together. -/
private theorem accepted_all {gs : List Goal} {names : List String}
    (hgs : ∀ g ∈ gs, ∀ u, g.Describes w u → u.Accepted w.program.types τ names) {u : View}
    (h : DescribesAll w gs u) : u.Accepted w.program.types τ names := by
  induction gs generalizing u with
  | nil => exact (show u = View.none from h) ▸ .none
  | cons g gs ih =>
    obtain ⟨v, v', hv, hv', hjoins⟩ := h
    exact (hgs g (List.mem_cons_self ..) v hv).joins
      (ih (fun k hk => hgs k (List.mem_cons_of_mem _ hk)) hv') hjoins

/-- The views that a goal describes are of the right types. -/
theorem Describes.accepted (htypes : w.program.types.SeesPlaces) {g : Goal} (hg : g.Typed τ)
    {u : View} (h : g.Describes w u) (names : List String) : u.Accepted w.program.types τ names := by
  induction hg generalizing u names with
  | true => exact (show u = View.none from h) ▸ .none
  | false => exact h.elim
  | and _ ih => exact accepted_all (fun g hg _ hv => ih g hg hv names) h
  | or _ ih =>
    obtain ⟨g, hg, hu⟩ := describesAny_iff.1 h
    exact ih g hg hu names
  | @exists_ τ τ' binders body hτ _ ih =>
    obtain ⟨v, hv, rfl⟩ := h
    intro n hn e he
    -- a hidden name stands for nothing, and the type of another one is that of the outside
    unfold View.hide at he
    split at he
    · cases he
    · rename_i hnot
      exact hτ n hnot ▸ ih hv names n hn e he
  | trait hargs =>
    obtain ⟨r, _, t, _, ht⟩ := h
    exact ht.accepted htypes hargs names

end Goal

/-! ### Solving -/

namespace World

variable {w : World} {a : Arena} {τ : String → ParamType} {b : Bindings}

/-- Bindings that stay as they are are joined to the empty view. -/
private theorem hasViews_input (hresult : b.result = none) :
    (Solutions.ofOption (some b)).HasViews (View.Join (· = b.view) (· = View.none)) := by
  rw [View.join_none]
  exact Solutions.hasViews_singleton hresult

/-- There is no solution when nothing can be joined to the bindings. -/
private theorem hasViews_none {P : View → Prop} (hP : ∀ u v, P u → ¬ View.Joins b.view u v) :
    (Solutions.ofOption none).HasViews (View.Join (· = b.view) P) := by
  refine ⟨fun c hc => absurd hc List.not_mem_nil, fun v hv => ?_⟩
  obtain ⟨_, u, rfl, hu, hjoins⟩ := hv
  exact absurd hjoins (hP u v hu)

/-- Bindings in which a variable stands for an entity are the only ones that its view is joined to. -/
private theorem hasViews_single {c : Bindings} {types : TypeOracle} {name : String} {type : ParamType}
    {e : Entity} (hresult : c.result = none) (haccepts : type.accepts types e = true)
    (hjoins : View.Joins b.view (.single name e.located) c.view) :
    (Solutions.ofOption (some c)).HasViews
      (View.Join (· = b.view) ((GoalTerm.var name type).Describes types e)) := by
  refine ⟨fun d hd => ?_, fun v hv => ⟨c, List.mem_singleton_self c, ?_⟩⟩
  · rw [List.mem_singleton.1 hd]
    exact ⟨hresult, b.view, _, rfl, ⟨haccepts, rfl⟩, hjoins⟩
  · obtain ⟨_, _, rfl, ⟨_, rfl⟩, hv⟩ := hv
    exact hjoins.unique hv

/-- A variable is made to stand for an entity, unless it stands for another one. -/
private theorem exists_unify_var {name : String} (hname : name ≠ wildcard)
    (hb : b.view.Accepted w.program.types τ [name]) (hresult : b.result = none) (e : Entity) :
    ∃ o, w.unify a (.var name (τ name)) e b = .ok o ∧ (Solutions.ofOption o).HasViews
      (View.Join (· = b.view) ((GoalTerm.var name (τ name)).Describes w.program.types e)) := by
  cases hfind : b.find? name with
  | some known =>
    refine ⟨if known.aliases e then some b else none, by rw [unify, hfind], ?_⟩
    cases halias : known.aliases e with
    | false =>
      refine hasViews_none fun u v hu hjoins => ?_
      rw [hu.2] at hjoins
      have hlocated := hjoins.agree name _ _ (Bindings.view_of_find? hfind) (if_pos rfl)
      exact absurd (halias.symm.trans (decide_eq_true hlocated)) Bool.false_ne_true
    | true =>
      -- what is bound was accepted when it was bound, so its alias is
      have hlocated : known.located = e.located := of_decide_eq_true halias
      have hview : b.view name = some e.located := hlocated ▸ Bindings.view_of_find? hfind
      have haccepts := hb name (List.mem_singleton_self name) e hview
      exact hasViews_single hresult haccepts (.of_single hview)
  | none =>
    refine ⟨if (τ name).accepts w.program.types e then some (b.bind name e) else none,
      by rw [unify, hfind], ?_⟩
    cases haccepts : (τ name).accepts w.program.types e with
    | false => exact hasViews_none fun u _ hu => absurd (haccepts.symm.trans hu.1) Bool.false_ne_true
    | true =>
      exact hasViews_single ((Bindings.result_bind b name e).trans hresult) haccepts
        (Bindings.joins_bind hname hfind e)

/-- A term is made to stand for an entity by joining the bindings to the views that it describes. -/
private theorem exists_unify {t : GoalTerm} (ht : t.Typed τ)
    (hb : b.view.Accepted w.program.types τ t.occurrences) (hresult : b.result = none) (e : Entity) :
    ∃ o, w.unify a t e b = .ok o ∧
      (Solutions.ofOption o).HasViews (View.Join (· = b.view) (t.Describes w.program.types e)) := by
  cases t with
  | wildcard => exact ⟨_, rfl, hasViews_input hresult⟩
  | const known =>
    refine ⟨_, rfl, ?_⟩
    cases halias : known.aliases e with
    | false => exact hasViews_none fun u _ hu => absurd (halias.symm.trans hu.1) Bool.false_ne_true
    | true =>
      -- a known entity describes what it aliases, and binds nothing
      have hdescribes : (GoalTerm.const known).Describes w.program.types e = (· = View.none) :=
        funext fun u => propext ⟨And.right, fun hu => ⟨halias, hu⟩⟩
      rw [hdescribes]
      exact hasViews_input hresult
  | var name type =>
    obtain ⟨hname, rfl⟩ := ht
    exact exists_unify_var hname hb hresult e
  | pattern f => exact ht.elim
  | apply func args => exact ht.elim

/-- Terms are made to stand for entities one by one. -/
private theorem exists_unifyAll (htypes : w.program.types.SeesPlaces) {ts : List GoalTerm}
    (hts : ∀ t ∈ ts, t.Typed τ)
    (hb : b.view.Accepted w.program.types τ (GoalTerm.occurrencesAll ts)) (hresult : b.result = none)
    (es : List Entity) :
    ∃ o, w.unifyAll a ts es b = .ok o ∧
      (Solutions.ofOption o).HasViews
        (View.Join (· = b.view) (GoalTerm.DescribesAll w.program.types ts es)) := by
  induction ts generalizing b es with
  | nil => exact ⟨_, rfl, hasViews_input hresult⟩
  | cons t ts ih =>
    cases es with
    | nil => exact ⟨_, rfl, hasViews_input hresult⟩
    | cons e es =>
      have ht := hts t (List.mem_cons_self ..)
      obtain ⟨o, ho, hviews⟩ := exists_unify (a := a) ht
        (hb.mono fun _ hn => List.mem_append_left _ hn) hresult e
      cases o with
      | none =>
        -- no view describes the first entity, so none describes them all
        refine ⟨none, by rw [unifyAll, ho]; rfl, fun c hc => absurd hc List.not_mem_nil, fun v hv => ?_⟩
        rw [GoalTerm.DescribesAll, ← View.join_assoc] at hv
        obtain ⟨u, _, hu, _⟩ := hv
        obtain ⟨c, hc, _⟩ := hviews.complete u hu
        exact absurd hc List.not_mem_nil
      | some d =>
        obtain ⟨hdresult, _, v, rfl, hv, hjoins⟩ := hviews.sound d (List.mem_singleton_self d)
        -- the only view so far is that of `d`
        have honly : View.Join (· = b.view) (t.Describes w.program.types e) = (· = d.view) := by
          refine funext fun u => propext ⟨fun hu => ?_, fun hu => hu ▸ ⟨_, v, rfl, hv, hjoins⟩⟩
          obtain ⟨c, hc, rfl⟩ := hviews.complete u hu
          rw [List.mem_singleton.1 hc]
        have hd : d.view.Accepted w.program.types τ (GoalTerm.occurrencesAll ts) :=
          (hb.mono fun _ hn => List.mem_append_right _ hn).joins (hv.accepted htypes ht _) hjoins
        obtain ⟨o', ho', hrest⟩ := ih (fun s hs => hts s (List.mem_cons_of_mem _ hs)) hd hdresult es
        refine ⟨o', by rw [unifyAll, ho]; exact ho', ?_⟩
        rw [GoalTerm.DescribesAll, ← View.join_assoc, honly]
        exact hrest

/-- A trait joins the input to the views of its tuples. -/
private theorem returns_solveTrait (htypes : w.program.types.SeesPlaces) {span : Span} {name : String}
    {args : List GoalTerm} (harity : w.store.arity? name = some args.length)
    (hargs : ∀ t ∈ args, t.Typed τ)
    (hb : b.view.Accepted w.program.types τ (GoalTerm.occurrencesAll args)) (hresult : b.result = none) :
    Returns (w.solveTrait span name args b) fun s =>
      s.HasViews (View.Join (· = b.view) ((Goal.trait span name args).Describes w)) := by
  obtain ⟨r, hr, hlength⟩ := Option.map_eq_some_iff.1 harity
  have hcollect := Solving.returns_collect
    (f := fun t : Tuple => Solving.ask span fun a => w.unifyAll a args t.values b)
    (S := fun t => View.Join (· = b.view)
      (GoalTerm.DescribesAll w.program.types args t.values)) (l := r.tuples.toList)
    fun t _ => Solving.returns_ask fun a => exists_unifyAll htypes hargs hb hresult t.values
  unfold solveTrait
  rw [hr]
  simp only [hlength, ne_eq, not_true_eq_false, ↓reduceIte]
  -- a solution describes some tuple, and each tuple is described by solutions
  refine hcollect.mono fun s hs => ⟨fun c hc => (hs.sound c hc).imp_right ?_, fun v hv => hs.complete v ?_⟩
  · rintro ⟨t, ht, u, v, hu, hv, hjoins⟩
    exact ⟨u, v, hu, ⟨r, hr, t, ht, hv⟩, hjoins⟩
  · obtain ⟨u, v, hu, ⟨r', hr', t, ht, hv⟩, hjoins⟩ := hv
    obtain rfl := Option.some.inj (hr.symm.trans hr')
    exact ⟨t, ht, u, v, hu, hv, hjoins⟩

end World

namespace Goal

variable {w : World} {τ : String → ParamType}

/-- A conjunction joins the solutions so far to the views of its goals. -/
private theorem returns_solveAnd (htypes : w.program.types.SeesPlaces) {gs : List Goal}
    (hgs : ∀ g ∈ gs, g.Typed τ)
    (ih : ∀ g ∈ gs, ∀ b : Bindings, b.result = none → b.view.Accepted w.program.types τ g.free →
      Returns (g.solve w b) fun s => s.HasViews (View.Join (· = b.view) (g.Describes w)))
    {current : Solutions} {P : View → Prop} (hcurrent : current.HasViews P)
    (hP : ∀ u, P u → u.Accepted w.program.types τ (freeAll gs)) :
    Returns (solveAnd w gs current) fun s => s.HasViews (View.Join P (DescribesAll w gs)) := by
  induction gs generalizing current P with
  | nil =>
    refine returns_pure ?_
    rw [DescribesAll, View.join_none]
    exact hcurrent
  | cons g gs ihs =>
    have hg := hgs g (List.mem_cons_self ..)
    have hjoin := Solving.returns_joinAll (f := g.solve w) (Q := g.Describes w) hcurrent
      fun b hb => ih g (List.mem_cons_self ..) b (hcurrent.sound b hb).1
        ((hP _ (hcurrent.sound b hb).2).mono fun _ hn => List.mem_append_left _ hn)
    refine returns_bind hjoin fun next hnext => ?_
    rw [DescribesAll, ← View.join_assoc]
    split
    · -- without solutions for the parts so far there are none for the whole
      rename_i hempty
      refine returns_pure ⟨fun c hc => ?_, fun v hv => ?_⟩
      · rw [Catalog.isEmpty_iff.1 hempty] at hc
        cases hc
      · obtain ⟨u, _, hu, _⟩ := hv
        obtain ⟨c, hc, _⟩ := hnext.complete u hu
        rw [Catalog.isEmpty_iff.1 hempty] at hc
        cases hc
    -- what follows is joined with what was found for the parts so far
    · refine ihs (fun k hk => hgs k (List.mem_cons_of_mem _ hk))
        (fun k hk => ih k (List.mem_cons_of_mem _ hk)) hnext fun u hu => ?_
      obtain ⟨v, v', hv, hv', hjoins⟩ := hu
      exact ((hP v hv).mono fun _ hn => List.mem_append_right _ hn).joins
        (hv'.accepted htypes hg _) hjoins

/-- A disjunction joins the input to the views of each of its goals. -/
private theorem returns_solveOr {gs : List Goal} {b : Bindings}
    (ih : ∀ g ∈ gs, Returns (g.solve w b) fun s =>
      s.HasViews (View.Join (· = b.view) (g.Describes w))) :
    Returns (solveOr w gs b) fun s => s.HasViews (View.Join (· = b.view) (DescribesAny w gs)) := by
  induction gs with
  | nil =>
    refine returns_pure ⟨fun c hc => absurd hc List.not_mem_nil, fun v hv => ?_⟩
    obtain ⟨_, _, _, hfalse, _⟩ := hv
    exact hfalse.elim
  | cons g gs ihs =>
    refine returns_bind (ih g (List.mem_cons_self ..)) fun first hfirst => ?_
    refine returns_bind (ihs fun k hk => ih k (List.mem_cons_of_mem _ hk)) fun rest hrest => ?_
    have hunion := hfirst.union hrest
    refine returns_pure ⟨fun c hc => (hunion.sound c hc).imp_right ?_, fun v hv => hunion.complete v ?_⟩
    · rintro (⟨u, v, hu, hv, hjoins⟩ | ⟨u, v, hu, hv, hjoins⟩)
      -- a view of a disjunction is one of the first goal or of the others
      · exact ⟨u, v, hu, .inl hv, hjoins⟩
      · exact ⟨u, v, hu, .inr hv, hjoins⟩
    · obtain ⟨u, v, hu, hv, hjoins⟩ := hv
      exact hv.imp (fun hv => ⟨u, v, hu, hv, hjoins⟩) fun hv => ⟨u, v, hu, hv, hjoins⟩

/-- Solutions of a body that are merged with the input are joined to the views without the binders. -/
private theorem hasViews_exists {binders : List String} {body : Goal} {b : Bindings} {s : Solutions}
    (hresult : b.result = none)
    (hs : s.HasViews (View.Join (· = (b.erase binders).view) (body.Describes w))) :
    Solutions.HasViews
      (Catalog.ofListFirst (s.toList.filterMap fun d => (d.erase binders).consistentMerge? b))
      (View.Join (· = b.view) ((Goal.exists binders body).Describes w)) := by
  rw [Bindings.view_erase] at hs
  refine Solutions.hasViews_ofListFirst (fun c hc => ?_) fun v hv => ?_
  · obtain ⟨d, hd, hmerge⟩ := List.mem_filterMap.1 hc
    -- the binders are erased, and the outer bindings joined again
    obtain ⟨hdresult, _, u, rfl, hu, hjoins⟩ := hs.sound d hd
    refine ⟨Bindings.result_of_consistentMerge? hmerge hdresult hresult, b.view, u.hide binders, rfl,
      ⟨u, hu, rfl⟩, View.exists_joins_hide.1 ⟨d.view, hjoins, ?_⟩⟩
    rw [← Bindings.view_erase]
    exact Bindings.joins_of_consistentMerge? hmerge
  · -- a view without the binders is joined to the input where the whole one is to the rest of it
    obtain ⟨_, _, rfl, ⟨u, hu, rfl⟩, hjoins⟩ := hv
    obtain ⟨x, hx, hv⟩ := View.exists_joins_hide.2 hjoins
    obtain ⟨d, hd, rfl⟩ := hs.complete x ⟨_, u, rfl, hu, hx⟩
    rw [← Bindings.view_erase] at hv
    obtain ⟨c, hmerge⟩ := Bindings.exists_consistentMerge? (b := d.erase binders)
      (hs.sound d hd).1 hresult hv.agree
    exact ⟨c, List.mem_filterMap.2 ⟨d, hd, hmerge⟩,
      (Bindings.joins_of_consistentMerge? hmerge).unique hv⟩

/-- Solving a goal joins the input to the views that the goal describes. -/
theorem returns_solve (htypes : w.program.types.SeesPlaces) {g : Goal} (hg : g.Typed τ)
    (harity : g.WellFormed w.store.arity?) {b : Bindings} (hresult : b.result = none)
    (hb : b.view.Accepted w.program.types τ g.free) :
    Returns (g.solve w b) fun s => s.HasViews (View.Join (· = b.view) (g.Describes w)) := by
  induction hg generalizing b with
  | true =>
    refine returns_pure ?_
    rw [Describes, View.join_none]
    exact Solutions.hasViews_singleton hresult
  | false =>
    refine returns_pure ⟨fun c hc => absurd hc List.not_mem_nil, fun v hv => ?_⟩
    obtain ⟨_, _, _, hfalse, _⟩ := hv
    exact hfalse.elim
  | and hitems ih =>
    cases harity with
    | and harities =>
      refine returns_solveAnd htypes hitems (fun g hg b hresult hb => ih g hg (harities g hg) hresult hb)
        (Solutions.hasViews_singleton hresult) fun u hu => ?_
      rw [hu]
      exact hb
  | or hitems ih =>
    cases harity with
    | or harities =>
      exact returns_solveOr fun g hg => ih g hg (harities g hg) hresult <|
        hb.mono fun _ hn => mem_free_of_mem hg hn
  | @exists_ τ τ' binders body hτ _ ih =>
    cases harity with
    | exists_ hbody =>
      -- the binders have no values inside, and other names have their types from outside
      have hinner : (b.erase binders).view.Accepted w.program.types τ' body.free := by
        intro n hn e he
        rw [Bindings.view_erase, View.hide] at he
        split at he
        · cases he
        · rename_i hnot
          rw [hτ n hnot]
          exact hb n (List.mem_filter.2 ⟨hn, by simpa using hnot⟩) e he
      refine returns_bind (ih hbody (b := b.erase binders) hresult hinner) fun s hs => returns_pure ?_
      exact hasViews_exists hresult hs
  | trait hargs =>
    cases harity with
    | trait hname _ => exact World.returns_solveTrait htypes hname hargs hb hresult

/-- The solutions for an input, whose entities are of the right types, are the product of the input with
the solutions for no input; so the parts of a conjunction can be solved in every order. -/
theorem solve_eq_product {store : Store} {s : Scope} {e : Expr} {g : Goal}
    (hg : e.compile store s = .ok g) (hjoin : g.isJoin = Bool.true)
    (harity : g.WellFormed w.store.arity?) (htypes : w.program.types.SeesPlaces) {m : Bindings}
    (hresult : m.result = none)
    (haccepts : ∀ n ∈ g.free, ∀ x, m.find? n = some x →
      (s.typeOf n).accepts w.program.types x = Bool.true) (a : Arena) :
    ∃ found alone, Gives (g.solve w m) a found a ∧ Gives (g.solve w .empty) a alone a ∧
      found.same (Solutions.product (Catalog.singleton m) alone) = Bool.true ∧
      ∀ gs gs', g = .and gs → gs.Perm gs' →
        ∃ found', Gives ((and gs').solve w m) a found' a ∧ found'.same found = Bool.true := by
  have htyped := Expr.compile_typed hg hjoin
  -- what is bound is accepted, and so is everything at the same place
  have hm : m.view.Accepted w.program.types s.typeOf g.free := by
    intro n hn x hx
    obtain ⟨y, hy, hlocated⟩ := Bindings.view_eq_some_iff.1 hx
    exact ParamType.accepts_of_located htypes hlocated (haccepts n hn y hy)
  obtain ⟨found, hfound, hviews⟩ := (returns_solve htypes htyped harity hresult hm).exists_gives a
  obtain ⟨alone, halone, hviews₀⟩ := (returns_solve htypes htyped harity
    (b := .empty) rfl .none).exists_gives a
  refine ⟨found, alone, hfound, halone, ?_, ?_⟩
  · rw [Bindings.view_empty, View.none_join] at hviews₀
    exact hviews.same ((Solutions.hasViews_singleton hresult).product hviews₀)
  · rintro gs gs' rfl hperm
    -- the conditions on a conjunction do not depend on the order of its goals
    have htyped' : (and gs').Typed s.typeOf := by
      cases htyped with
      | and h => exact .and fun k hk => h k (hperm.mem_iff.2 hk)
    have harity' : (and gs').WellFormed w.store.arity? := by
      cases harity with
      | and h => exact .and fun k hk => h k (hperm.mem_iff.2 hk)
    have hm' : m.view.Accepted w.program.types s.typeOf (and gs').free := hm.mono fun n hn => by
      rw [free, freeAll_eq_flatMap] at hn ⊢
      exact (hperm.flatMap_right _).mem_iff.2 hn
    obtain ⟨found', hfound', hviews'⟩ :=
      (returns_solve htypes htyped' harity' hresult hm').exists_gives a
    refine ⟨found', hfound', hviews'.same ?_⟩
    rw [Describes, ← describesAll_perm hperm]
    exact hviews

end Goal

/-! ### An input that is joined under a quantifier -/

namespace Joined

/-- A number. -/
def number (i : Int) : Entity := .value (.int i)

/-- A relation of single numbers. -/
def relation : Relation :=
  let signature : Signature := ⟨"r", [⟨"n", .any⟩], {}⟩
  { signature
    tuples := Catalog.ofListFirst
      ([1, 2].filterMap fun i => (Tuple.ofValues signature [number i]).toOption) }

/-- A world without a program. -/
def world : World := ⟨Program.ofClasses [], Dict.set ∅ "r" relation, []⟩

/-- A scope with a variable for values. -/
def scope : Scope := { declared := Dict.set ∅ "y" (.category .value) }

/-- Some number, hidden by the quantifier, and one that the outer variables stand for. -/
def expr : Expr :=
  .and [.exists .synthetic [⟨"x", .category "any"⟩] (.trait .synthetic "r" [.var "x"]),
    .or [.trait .synthetic "r" [.var "y"], .trait .synthetic "r" [.var "x"]]]

/-- The goal that the expression means. -/
def goal : Goal :=
  .and [.exists ["x"] (.trait .synthetic "r" [.var "x" .any]),
    .or [.trait .synthetic "r" [.var "y" (.category .value)], .trait .synthetic "r" [.var "x" .any]]]

/-- Two numbers, of which one is in the relation. -/
def input : Bindings := (Bindings.empty.bind "x" (number 7)).bind "y" (number 2)

/-- Types in the world depend on shapes only, as no node is known. -/
theorem seesPlaces_types : world.program.types.SeesPlaces := by
  intro e e' h
  have hshape := (Entity.aliases_iff.1 h).1
  cases e with
  | node n =>
    obtain ⟨n', rfl, -⟩ := Entity.exists_node_of_shape hshape.symm
    exact TypeOracle.seesShapes_intrinsic _ _ hshape
  | list items =>
    obtain ⟨items', rfl, -⟩ := Entity.exists_list_of_shape hshape.symm
    rfl
  | _ => rw [Entity.eq_of_shape hshape.symm rfl fun _ hlist => by cases hlist]

/-- The solutions for the input are those of its product with the four solutions for no input. -/
theorem solve_eq_product_joined :
    ∃ found alone, Gives (goal.solve world input) (.unused 0) found (.unused 0) ∧
      Gives (goal.solve world .empty) (.unused 0) alone (.unused 0) ∧
      found.same (Solutions.product (Catalog.singleton input) alone) = true ∧
      found.size = 1 ∧ alone.size = 4 := by
  have hg : expr.compile world.store scope = .ok goal := rfl
  have harity : goal.WellFormed world.store.arity? := Expr.compile_wellFormed hg
  obtain ⟨found, alone, hfound, halone, hsame, _⟩ := Goal.solve_eq_product hg rfl harity seesPlaces_types
    (m := input) rfl (by decide) (.unused 0)
  have hfound' : Gives (goal.solve world input) (.unused 0) _ _ := gives_getD (d := ∅) (by decide +kernel)
  have halone' : Gives (goal.solve world .empty) (.unused 0) _ _ := gives_getD (d := ∅) (by decide +kernel)
  obtain ⟨rfl, -⟩ := hfound.unique hfound'
  obtain ⟨rfl, -⟩ := halone.unique halone'
  exact ⟨_, _, hfound, halone, hsame, by decide +kernel, by decide +kernel⟩

end Joined

end CodeRules
