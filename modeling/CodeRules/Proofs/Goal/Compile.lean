import CodeRules.Goal.Compile
import CodeRules.Proofs.Effect
import CodeRules.Proofs.List
import CodeRules.Proofs.Rule.Induction

/-!
# Induction over compiled expressions

`Expr.compile_induction` follows the compiler through an expression: what holds of an expression and
its goal whenever it holds of their parts holds of every expression that compiles. Of the store only
the numbers of parameters matter (`Expr.compile_congr`).
-/

namespace CodeRules

/-- The number of parameters of a relation. -/
def Store.arity? (s : Store) (name : String) : Option Nat :=
  (s.find? name).map (·.signature.arity)

namespace Expr

variable {store : Store} {s : Scope}

/-- Expressions compile one by one. -/
theorem compileAll_eq_ok {es : List Expr} {gs : List Goal} :
    compileAll store s es = .ok gs ↔
      List.Forall₂ (fun e g => e.compile store s = .ok g) es gs := by
  induction es generalizing gs with
  | nil => rw [compileAll, List.forall₂_nil_left_iff, Except.ok.injEq, eq_comm]
  | cons e es ih =>
    simp only [compileAll, Except.bind_eq_ok, Except.pure_eq_ok, ih, List.forall₂_cons_left_iff]
    constructor
    · intro h
      obtain ⟨g, hg, gs, hgs, rfl⟩ := h
      exact ⟨g, gs, hg, hgs, rfl⟩
    · intro h
      obtain ⟨g, gs, hg, hgs, rfl⟩ := h
      exact ⟨g, hg, gs, hgs, rfl⟩

/-- What holds of an expression and its goal whenever it holds of their parts holds of every
expression that compiles. -/
theorem compile_induction {P : Scope → Expr → Goal → Prop} (true : ∀ s, P s .true .true)
    (false : ∀ s, P s .false .false)
    (and : ∀ s es gs, List.Forall₂ (P s) es gs → P s (.and es) (.and gs))
    (or : ∀ s es gs, List.Forall₂ (P s) es gs → P s (.or es) (.or gs))
    (not : ∀ s e g, P s e g → P s (.not e) (.not g))
    (implies : ∀ s e e' g g', P s e g → P s e' g' → P s (.implies e e') (.implies g g'))
    (iff : ∀ s e e' g g', P s e g → P s e' g' → P s (.iff e e') (.iff g g'))
    (exists_ : ∀ s span binders inner e g, s.declareAll span binders = .ok inner → P inner e g →
      P s (.exists span binders e) (.exists (binders.map Named.name) g))
    (forall_ : ∀ s span binders inner e e' g g', s.declareAll span binders = .ok inner →
      P inner e g → P inner e' g' →
      P s (.forall span binders e e') (.forall (binders.map Named.name) g g'))
    (trait : ∀ s span name args us, Store.arity? store name = some args.length →
      Term.compileAll s args = .ok us → P s (.trait span name args) (.trait span name us))
    (matches_ : ∀ s span t u p f, t.compile s = .ok u → p.compile s = .ok f →
      P s (.matches span t p) (.matches span u f))
    (eq : ∀ s span t t' u u', t.compile s = .ok u → t'.compile s = .ok u' →
      P s (.eq span t t') (.eq span u u'))
    (ne : ∀ s span t t' u u', t.compile s = .ok u → t'.compile s = .ok u' →
      P s (.ne span t t') (.ne span u u'))
    {s : Scope} {e : Expr} {g : Goal} (h : e.compile store s = .ok g) : P s e g := by
  induction e using Expr.induction generalizing s g with
  | true => exact Except.ok.inj h ▸ true s
  | false => exact Except.ok.inj h ▸ false s
  -- the induction hypothesis is used for each item of the list
  | and items ih =>
    simp only [compile, Except.bind_eq_ok, Except.pure_eq_ok, compileAll_eq_ok] at h
    obtain ⟨gs, hgs, rfl⟩ := h
    exact and _ _ _ (hgs.imp_of_mem fun e he g _ hg => ih e he hg)
  | or items ih =>
    simp only [compile, Except.bind_eq_ok, Except.pure_eq_ok, compileAll_eq_ok] at h
    obtain ⟨gs, hgs, rfl⟩ := h
    exact or _ _ _ (hgs.imp_of_mem fun e he g _ hg => ih e he hg)
  | not body ih =>
    simp only [compile, Except.bind_eq_ok, Except.pure_eq_ok] at h
    obtain ⟨b, hb, rfl⟩ := h
    exact not _ _ _ (ih hb)
  | implies premise conclusion ihp ihc =>
    simp only [compile, Except.bind_eq_ok, Except.pure_eq_ok] at h
    obtain ⟨p, hp, c, hc, rfl⟩ := h
    exact implies _ _ _ _ _ (ihp hp) (ihc hc)
  | iff left right ihl ihr =>
    simp only [compile, Except.bind_eq_ok, Except.pure_eq_ok] at h
    obtain ⟨l, hl, r, hr, rfl⟩ := h
    exact iff _ _ _ _ _ (ihl hl) (ihr hr)
  | exists_ span binders body ih =>
    -- the binders are declared first, and the body is compiled in the inner scope
    simp only [compile, Except.bind_eq_ok, Except.pure_eq_ok] at h
    obtain ⟨inner, hinner, b, hb, rfl⟩ := h
    exact exists_ _ _ _ _ _ _ hinner (ih hb)
  | forall_ span binders range body ihr ihb =>
    simp only [compile, Except.bind_eq_ok, Except.pure_eq_ok] at h
    obtain ⟨inner, hinner, r, hr, b, hb, rfl⟩ := h
    exact forall_ _ _ _ _ _ _ _ _ hinner (ihr hr) (ihb hb)
  | trait span name args =>
    -- the relation must exist, with as many parameters as there are arguments
    simp only [compile] at h
    split at h
    · cases h
    · rename_i r hr
      split at h
      · cases h
      · rename_i harity
        simp only [Except.bind_eq_ok, Except.pure_eq_ok] at h
        obtain ⟨us, hus, rfl⟩ := h
        refine trait _ _ _ _ _ ?_ hus
        simpa [Store.arity?, hr] using harity
  -- a pattern that does not compile is reported at the span of the match, which does not matter here
  | matches_ span subject pattern =>
    simp only [compile, Pattern.compileIn, Except.bind_eq_ok, Except.mapError_eq_ok,
      Except.pure_eq_ok] at h
    obtain ⟨t, ht, f, hf, rfl⟩ := h
    exact matches_ _ _ _ _ _ _ ht hf
  | eq span left right =>
    simp only [compile, Except.bind_eq_ok, Except.pure_eq_ok] at h
    obtain ⟨l, hl, r, hr, rfl⟩ := h
    exact eq _ _ _ _ _ _ hl hr
  | ne span left right =>
    simp only [compile, Except.bind_eq_ok, Except.pure_eq_ok] at h
    obtain ⟨l, hl, r, hr, rfl⟩ := h
    exact ne _ _ _ _ _ _ hl hr

/-- Expressions that compile alike in two stores make lists that do. -/
private theorem compileAll_congr {store' : Store} {es : List Expr}
    (h : ∀ e ∈ es, e.compile store' s = e.compile store s) :
    compileAll store' s es = compileAll store s es := by
  induction es with
  | nil => rfl
  | cons e es ih =>
    have he := h e (List.mem_cons_self ..)
    have hes := ih fun d hd => h d (List.mem_cons_of_mem _ hd)
    simp only [compileAll, he, hes]

/-- An expression compiles to the same goal when relations have the same numbers of parameters. -/
theorem compile_congr {store' : Store} (h : store'.arity? = store.arity?) (e : Expr) (s : Scope) :
    e.compile store' s = e.compile store s := by
  induction e using Expr.induction generalizing s with
  | true => rfl
  | false => rfl
  | and items ih =>
    have hitems := compileAll_congr fun e he => ih e he s
    simp only [compile, hitems]
  | or items ih =>
    have hitems := compileAll_congr fun e he => ih e he s
    simp only [compile, hitems]
  | not body ih => simp only [compile, ih]
  | implies premise conclusion ihp ihc => simp only [compile, ihp, ihc]
  | iff left right ihl ihr => simp only [compile, ihl, ihr]
  | exists_ span binders body ih => simp only [compile, ih]
  | forall_ span binders range body ihr ihb => simp only [compile, ihr, ihb]
  | trait span name args =>
    -- the relations are looked up, and only their numbers of parameters are compared
    have harity := congrFun h name
    unfold Store.arity? at harity
    simp only [compile]
    cases hr : store.find? name with
    | none =>
      rw [hr, Option.map_none, Option.map_eq_none_iff] at harity
      rw [harity]
    | some r =>
      rw [hr, Option.map_some, Option.map_eq_some_iff] at harity
      obtain ⟨r', hr', harity⟩ := harity
      rw [hr']
      simp only [harity]
  | matches_ span subject pattern => rfl
  | eq span left right => rfl
  | ne span left right => rfl

end Expr

end CodeRules
