import CodeRules.Proofs.Fragment.Scope
import CodeRules.Proofs.Goal.Mention
import CodeRules.Proofs.Goal.Variant

/-!
# Expressions in different scopes

A scope matters to an expression only through what it says about the free variables of the expression,
and there only up to normal forms. Variants of an expression compile to variants of its goal when
variables that are paired mean the same (`Expr.Variant.exists_compile`).
-/

namespace CodeRules

variable {base : UInt32} {N : Pairing}

/-! ### Declarations -/

/-- A type means the same for every owner, but for the name of a relation. -/
theorem ParamType.exists_resolve {owner : String} {written : TypeExpr} {type : ParamType}
    (h : resolve owner written = .ok type) (owner' : String) :
    ∃ type', resolve owner' written = .ok type' ∧ type.Alike type' := by
  -- the checks of the parameters name the owner in their reports only
  have hcheck (ps : List Param) (seen : List String) (h : checkParams owner seen ps = .ok ()) :
      checkParams owner' seen ps = .ok () := by
    induction ps generalizing seen with
    | nil => rfl
    | cons p ps ih =>
      unfold checkParams at h ⊢
      split at h
      · cases h
      · rename_i hnew
        rw [if_neg hnew]
        exact ih _ h
  cases written with
  | category name =>
    simp only [resolve] at h ⊢
    split at h
    · rename_i c hname
      exact ⟨.category c, rfl, Except.ok.inj h ▸ .refl _⟩
    · cases h
  | program t => exact ⟨type, h, .refl type⟩
  | relation params =>
    simp only [resolve, Except.bind_eq_ok, Except.pure_eq_ok] at h ⊢
    obtain ⟨resolved, hresolved, _, hok, rfl⟩ := h
    exact ⟨_, ⟨resolved, hresolved, (), hcheck resolved [] hok, rfl⟩, .relation owner owner' resolved⟩

namespace Scope

variable {s s' inner : Scope} {name : String}

/-- A declared variable has the declared type, and other names mean what they meant. -/
theorem lookup_declare (s : Scope) (name : String) (type : ParamType) (n : String) :
    (s.declare name type).lookup n = if n = name then .free type else s.lookup n := by
  simp only [lookup, declare, Dict.find?_set]
  by_cases hn : n = name
  · rw [if_pos hn, if_pos hn]
  · rw [if_neg hn, if_neg hn]

/-- Scopes that are alike are alike on fewer pairs. -/
theorem AlikeOn.mono {N' : Pairing} (h : s.AlikeOn base N s') (hN : ∀ n m, N' n m → N n m) :
    s.AlikeOn base N' s' := fun n m hn => h n m (hN n m hn)

/-- Declarations of types alike keep scopes alike, and the declared variables are alike afterwards. -/
theorem AlikeOn.declare (h : s.AlikeOn base N s') (name name' : String) {type type' : ParamType}
    (htype : type.Alike type') :
    (s.declare name type).AlikeOn base (N.under [name] [name']) (s'.declare name' type') := by
  intro n m hn
  -- a pair of new variables is a pair of the declaration
  have hbound : n = name ↔ m = name' := by simpa using Pairing.mem_binders_iff hn
  rw [lookup_declare, lookup_declare]
  by_cases hself : n = name
  · rw [if_pos hself, if_pos (hbound.1 hself)]
    exact .free htype
  · rw [if_neg hself, if_neg (mt hbound.2 hself)]
    exact h n m (Pairing.pairs_of_under hn (by simpa using hself))

/-- Variables of the same types are declared one by one with the same success. -/
private theorem AlikeOn.exists_declareWritten {binders binders' : List Binder}
    (h : s.AlikeOn base N s') (htypes : binders'.map Named.type = binders.map Named.type)
    (hunique : Relator.BiUnique fun n m =>
      (n, m) ∈ (binders.map Named.name).zip (binders'.map Named.name))
    (hinner : binders.foldlM declareWritten s = .ok inner) :
    ∃ inner', binders'.foldlM declareWritten s' = .ok inner' ∧
      inner.AlikeOn base (N.under (binders.map Named.name) (binders'.map Named.name)) inner' := by
  induction binders generalizing N s s' binders' with
  | nil =>
    obtain rfl := List.map_eq_nil_iff.1 htypes
    obtain rfl := Except.ok.inj hinner
    exact ⟨s', rfl, h.mono fun n m hn => Pairing.pairs_of_under hn List.not_mem_nil⟩
  | cons x binders ih =>
    cases binders' with
    | nil => cases htypes
    | cons x' binders' =>
      simp only [List.map_cons, List.cons.injEq] at htypes
      simp only [List.foldlM_cons, declareWritten, Except.bind_eq_ok, Except.pure_eq_ok] at hinner ⊢
      obtain ⟨_, ⟨type, htype, rfl⟩, hinner⟩ := hinner
      obtain ⟨type', htype', halike⟩ := ParamType.exists_resolve htype x'.name
      have hrest : Relator.BiUnique fun n m =>
          (n, m) ∈ (binders.map Named.name).zip (binders'.map Named.name) :=
        ⟨fun _ _ _ hn hn' => hunique.1 (List.mem_cons_of_mem _ hn) (List.mem_cons_of_mem _ hn'),
          fun _ _ _ hn hn' => hunique.2 (List.mem_cons_of_mem _ hn) (List.mem_cons_of_mem _ hn')⟩
      obtain ⟨inner', hinner', hs⟩ := ih (h.declare x.name x'.name halike) htypes.2 hrest hinner
      -- variables are declared one by one, and so they are paired one by one
      refine ⟨inner', ⟨_, ⟨type', htypes.1 ▸ htype', rfl⟩, hinner'⟩, hs.mono fun n m hn => ?_⟩
      refine Pairing.under_cons ?_ hunique hn
      simpa using (congrArg List.length htypes.2).symm

/-- The variables of a quantifier are declared in scopes alike with the same success. -/
theorem AlikeOn.exists_declareAll {span : Span} {binders binders' : List Binder}
    (h : s.AlikeOn base N s') (htypes : binders'.map Named.type = binders.map Named.type)
    (hproper : (N.under (binders.map Named.name) (binders'.map Named.name)).Proper)
    (hinner : s.declareAll span binders = .ok inner) :
    ∃ inner', s'.declareAll span binders' = .ok inner' ∧
      inner.AlikeOn base (N.under (binders.map Named.name) (binders'.map Named.name)) inner' := by
  unfold declareAll at hinner ⊢
  have hunique : Relator.BiUnique fun n m =>
      (n, m) ∈ (binders.map Named.name).zip (binders'.map Named.name) :=
    ⟨fun _ _ _ hn hn' => hproper.biUnique.1 (.inl hn) (.inl hn'),
      fun _ _ _ hn hn' => hproper.biUnique.2 (.inl hn) (.inl hn')⟩
  obtain ⟨inner', hinner', halike⟩ :=
    h.exists_declareWritten htypes hunique (Except.mapError_eq_ok.1 hinner)
  exact ⟨inner', Except.mapError_eq_ok.2 hinner', halike⟩

end Scope

/-! ### Terms -/

namespace Term

variable {s s' : Scope} {ts ts' : List Term}

/-- Variants of several terms compile to variants. -/
private theorem exists_compileAll {us : List GoalTerm} (hts : List.Forall₂ (Variant N) ts ts')
    (h : ∀ t ∈ ts, ∀ t' u, t.Variant N t' → t.compile s = .ok u →
      ∃ u', t'.compile s' = .ok u' ∧ u.Variant base N u') (hus : compileAll s ts = .ok us) :
    ∃ us', compileAll s' ts' = .ok us' ∧ List.Forall₂ (GoalTerm.Variant base N) us us' := by
  simp only [compileAll_eq_ok] at hus ⊢
  induction hts generalizing us with
  | nil =>
    obtain rfl := List.forall₂_nil_left_iff.1 hus
    exact ⟨[], .nil, .nil⟩
  | cons ht _ ih =>
    obtain ⟨u, vs, hu, hvs, rfl⟩ := List.forall₂_cons_left_iff.1 hus
    obtain ⟨u', hu', huu'⟩ := h _ (List.mem_cons_self ..) _ u ht hu
    obtain ⟨us', hus', hall⟩ := ih (fun t hmem => h t (List.mem_cons_of_mem _ hmem)) hvs
    exact ⟨u' :: us', .cons hu' hus', .cons huu' hall⟩

/-- Variants of a term compile to variants in scopes that say the same about their variables. -/
theorem Variant.exists_compile {t t' : Term} {u : GoalTerm} (hN : N.Proper) (hs : s.AlikeOn base N s')
    (ht : t.Variant N t') (h : t.compile s = .ok u) :
    ∃ u', t'.compile s' = .ok u' ∧ u.Variant base N u' := by
  induction t using Term.induction generalizing t' u with
  | var name =>
    cases ht with
    | @var _ name' hname =>
      have hlookup := hs name name' hname
      have hwildcard := hN.wildcard_iff hname
      simp only [compile] at h ⊢
      -- the wildcard is never looked up
      by_cases hself : name = wildcard
      · rw [if_pos hself] at h
        rw [if_pos (hwildcard.1 hself)]
        exact ⟨_, rfl, Except.ok.inj h ▸ .wildcard⟩
      · rw [if_neg hself] at h
        rw [if_neg (mt hwildcard.2 hself)]
        generalize s.lookup name = l at h hlookup
        generalize s'.lookup name' = l' at hlookup
        cases hlookup with
        | bound he => exact ⟨_, rfl, Except.ok.inj h ▸ .const he⟩
        | free htype => exact ⟨_, rfl, Except.ok.inj h ▸ .var hname htype⟩
        | unknown => exact ⟨_, rfl, Except.ok.inj h ▸ .var hname (.refl .any)⟩
  | entity e =>
    cases ht with
    | entity => exact ⟨_, rfl, Except.ok.inj h ▸ .const rfl⟩
  | pattern p =>
    cases ht with
    | pattern hp =>
      simp only [compile, Pattern.compileIn, Except.bind_eq_ok, Except.mapError_eq_ok,
        Except.pure_eq_ok] at h ⊢
      obtain ⟨f, hf, rfl⟩ := h
      obtain ⟨f', hf', hvariant⟩ := hp.exists_compile hN hs hf
      exact ⟨_, ⟨f', hf', rfl⟩, .pattern hvariant⟩
  -- the arguments are compiled one by one
  | apply func args ih =>
    cases ht with
    | apply _ hargs =>
      simp only [compile, Except.bind_eq_ok, Except.pure_eq_ok] at h ⊢
      obtain ⟨us, hus, rfl⟩ := h
      obtain ⟨us', hus', hall⟩ :=
        exists_compileAll hargs (fun t hmem t' u ht hu => ih t hmem ht hu) hus
      exact ⟨_, ⟨us', hus', rfl⟩, .apply func hall⟩

end Term

/-! ### Expressions -/

namespace Expr

variable {store : Store} {s : Scope} {e : Expr} {g : Goal}

/-- Variants of the expression compile to variants of the goal in all scopes that say the same about
their variables. -/
private def Portable (base : UInt32) (store : Store) (s : Scope) (e : Expr) (g : Goal) : Prop :=
  ∀ (N : Pairing) (s' : Scope) (e' : Expr), N.Proper → s.AlikeOn base N s' → e.Variant N e' →
    ∃ g', e'.compile store s' = .ok g' ∧ g.Variant base N g'

/-- Variants of several expressions compile to variants. -/
private theorem exists_compileAll {es es' : List Expr} {gs : List Goal} {s' : Scope}
    (h : List.Forall₂ (Portable base store s) es gs) (hN : N.Proper) (hs : s.AlikeOn base N s')
    (hes : VariantAll N es es') :
    ∃ gs', compileAll store s' es' = .ok gs' ∧ Goal.VariantAll base N gs gs' := by
  simp only [compileAll_eq_ok]
  induction h generalizing es' with
  | nil =>
    cases hes with
    | nil => exact ⟨[], .nil, .nil⟩
  | cons hg _ ih =>
    cases hes with
    | cons he hes =>
      obtain ⟨g', hg', hvariant⟩ := hg N s' _ hN hs he
      obtain ⟨gs', hgs', hall⟩ := ih hes
      exact ⟨g' :: gs', .cons hg' hgs', .cons hvariant hall⟩

/-- Variants of an expression compile to variants in scopes that say the same about their variables. -/
theorem Variant.exists_compile {s' : Scope} {e' : Expr} (hN : N.Proper) (hs : s.AlikeOn base N s')
    (he : e.Variant N e') (h : e.compile store s = .ok g) :
    ∃ g', e'.compile store s' = .ok g' ∧ g.Variant base N g' := by
  -- a quantifier changes the scopes and the pairs, so the statement is for all of them
  suffices hportable : Portable base store s e g from hportable N s' e' hN hs he
  clear hN hs he
  apply compile_induction (P := Portable base store) (h := h)
  case true =>
    intro s N s' e' _ _ he
    cases he with
    | true => exact ⟨_, rfl, .true⟩
  case false =>
    intro s N s' e' _ _ he
    cases he with
    | false => exact ⟨_, rfl, .false⟩
  case and =>
    intro s es gs hgs N s' e' hN hs he
    cases he with
    | and hes =>
      obtain ⟨gs', hgs', hall⟩ := exists_compileAll hgs hN hs hes
      simp only [compile, Except.bind_eq_ok, Except.pure_eq_ok]
      exact ⟨_, ⟨gs', hgs', rfl⟩, .and hall⟩
  case or =>
    intro s es gs hgs N s' e' hN hs he
    cases he with
    | or hes =>
      obtain ⟨gs', hgs', hall⟩ := exists_compileAll hgs hN hs hes
      simp only [compile, Except.bind_eq_ok, Except.pure_eq_ok]
      exact ⟨_, ⟨gs', hgs', rfl⟩, .or hall⟩
  case not =>
    intro s e g ih N s' e' hN hs he
    cases he with
    | not he =>
      obtain ⟨g', hg', hvariant⟩ := ih N s' _ hN hs he
      simp only [compile, Except.bind_eq_ok, Except.pure_eq_ok]
      exact ⟨_, ⟨g', hg', rfl⟩, .not hvariant⟩
  case implies =>
    intro s e₁ e₂ g₁ g₂ ih₁ ih₂ N s' e' hN hs he
    cases he with
    | implies he₁ he₂ =>
      obtain ⟨g₁', h₁, hvariant₁⟩ := ih₁ N s' _ hN hs he₁
      obtain ⟨g₂', h₂, hvariant₂⟩ := ih₂ N s' _ hN hs he₂
      simp only [compile, Except.bind_eq_ok, Except.pure_eq_ok]
      exact ⟨_, ⟨g₁', h₁, g₂', h₂, rfl⟩, .implies hvariant₁ hvariant₂⟩
  case iff =>
    intro s e₁ e₂ g₁ g₂ ih₁ ih₂ N s' e' hN hs he
    cases he with
    | iff he₁ he₂ =>
      obtain ⟨g₁', h₁, hvariant₁⟩ := ih₁ N s' _ hN hs he₁
      obtain ⟨g₂', h₂, hvariant₂⟩ := ih₂ N s' _ hN hs he₂
      simp only [compile, Except.bind_eq_ok, Except.pure_eq_ok]
      exact ⟨_, ⟨g₁', h₁, g₂', h₂, rfl⟩, .iff hvariant₁ hvariant₂⟩
  case exists_ =>
    intro s span binders inner e g hinner ih N s' e' hN hs he
    cases he with
    -- the binders are declared in both scopes, with the same types
    | exists_ _ hproper htypes he =>
      obtain ⟨inner', hinner', halike⟩ := hs.exists_declareAll htypes hproper hinner
      obtain ⟨g', hg', hvariant⟩ := ih _ inner' _ hproper halike he
      simp only [compile, Except.bind_eq_ok, Except.pure_eq_ok]
      exact ⟨_, ⟨inner', hinner', g', hg', rfl⟩, .exists_ hproper hvariant⟩
  case forall_ =>
    intro s span binders inner e₁ e₂ g₁ g₂ hinner ih₁ ih₂ N s' e' hN hs he
    cases he with
    | forall_ _ hproper htypes he₁ he₂ =>
      -- range and body are compiled in the scope with the binders
      obtain ⟨inner', hinner', halike⟩ := hs.exists_declareAll htypes hproper hinner
      obtain ⟨g₁', h₁, hvariant₁⟩ := ih₁ _ inner' _ hproper halike he₁
      obtain ⟨g₂', h₂, hvariant₂⟩ := ih₂ _ inner' _ hproper halike he₂
      simp only [compile, Except.bind_eq_ok, Except.pure_eq_ok]
      exact ⟨_, ⟨inner', hinner', g₁', h₁, g₂', h₂, rfl⟩, .forall_ hproper hvariant₁ hvariant₂⟩
  case trait =>
    intro s span name args us harity hus N s' e' hN hs he
    cases he with
    | trait _ _ hargs =>
      obtain ⟨us', hus', hall⟩ :=
        Term.exists_compileAll hargs (fun t _ t' u ht hu => ht.exists_compile hN hs hu) hus
      obtain ⟨r, hr, hcount⟩ := Option.map_eq_some_iff.1 harity
      -- the relation is the same, and so is the number of arguments
      refine ⟨.trait span name us', ?_, .trait span name hall⟩
      simp only [compile, hr, hcount, hargs.length_eq, ne_eq, not_true_eq_false, ↓reduceIte, hus']
      rfl
  case matches_ =>
    intro s span t u p f hu hf N s' e' hN hs he
    cases he with
    | matches_ _ ht hp =>
      obtain ⟨u', hu', hterm⟩ := ht.exists_compile hN hs hu
      obtain ⟨f', hf', hfragment⟩ := hp.exists_compile hN hs hf
      simp only [compile, Pattern.compileIn, Except.bind_eq_ok, Except.mapError_eq_ok,
        Except.pure_eq_ok]
      exact ⟨_, ⟨u', hu', f', hf', rfl⟩, .matches_ span hterm hfragment⟩
  case eq =>
    intro s span t₁ t₂ u₁ u₂ h₁ h₂ N s' e' hN hs he
    cases he with
    | eq _ ht₁ ht₂ =>
      obtain ⟨u₁', h₁', hterm₁⟩ := ht₁.exists_compile hN hs h₁
      obtain ⟨u₂', h₂', hterm₂⟩ := ht₂.exists_compile hN hs h₂
      simp only [compile, Except.bind_eq_ok, Except.pure_eq_ok]
      exact ⟨_, ⟨u₁', h₁', u₂', h₂', rfl⟩, .eq span hterm₁ hterm₂⟩
  case ne =>
    intro s span t₁ t₂ u₁ u₂ h₁ h₂ N s' e' hN hs he
    cases he with
    | ne _ ht₁ ht₂ =>
      obtain ⟨u₁', h₁', hterm₁⟩ := ht₁.exists_compile hN hs h₁
      obtain ⟨u₂', h₂', hterm₂⟩ := ht₂.exists_compile hN hs h₂
      simp only [compile, Except.bind_eq_ok, Except.pure_eq_ok]
      exact ⟨_, ⟨u₁', h₁', u₂', h₂', rfl⟩, .ne span hterm₁ hterm₂⟩

end Expr

end CodeRules
