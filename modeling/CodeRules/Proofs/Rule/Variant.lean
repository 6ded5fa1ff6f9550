import CodeRules.Proofs.Binding.Pairing
import CodeRules.Proofs.List
import CodeRules.Proofs.Rule.Induction
import CodeRules.Statement.Mention

/-!
# Variants of expressions

Expressions are variants when they differ in the names of variables only. Variants mention the same
traits and the same free variables (`Expr.Variant.references_eq`).
-/

namespace CodeRules

variable {N : Pairing} {V : String → Prop} {tested asValue : Bool} {hidden hidden' : List String}

/-! ### Mentions -/

namespace Mention

/-- The variables that are mentioned are such as `V` says. -/
def VarsIn (V : String → Prop) (mentions : List Mention) : Prop :=
  ∀ n tested asValue, var n tested asValue ∈ mentions → V n

variable {ms ms' : List Mention}

/-- Fewer mentions name no other variables. -/
theorem VarsIn.of_subset (h : VarsIn V ms) (hsub : ms' ⊆ ms) : VarsIn V ms' :=
  fun n tested asValue hmem => h n tested asValue (hsub hmem)

/-- The variables mentioned first. -/
theorem VarsIn.left (h : VarsIn V (ms ++ ms')) : VarsIn V ms :=
  h.of_subset (List.subset_append_left ..)

/-- The variables mentioned last. -/
theorem VarsIn.right (h : VarsIn V (ms ++ ms')) : VarsIn V ms' :=
  h.of_subset (List.subset_append_right ..)

/-- The variables are such as `V` says, or bound. -/
theorem VarsIn.widen (h : VarsIn V ms) (binders : List String) :
    VarsIn (fun n => V n ∨ n ∈ binders) ms := fun n t v hmem => .inl (h n t v hmem)

/-- A variable is mentioned or hidden. -/
theorem VarsIn.of_ofVar {name : String} (h : VarsIn V (ofVar tested hidden asValue name))
    (hhidden : ∀ n ∈ hidden, V n) : V name := by
  unfold ofVar at h
  split at h
  · rename_i hname
    exact hhidden name (List.contains_iff_mem.1 hname.2)
  · exact h name tested asValue (List.mem_singleton_self _)

/-- Variables that are paired are hidden together, and have the same name otherwise. -/
def HidesAlike (N : Pairing) (hidden hidden' : List String) : Prop :=
  ∀ n m, N n m → (n ∈ hidden ↔ m ∈ hidden') ∧ (n ∉ hidden → n = m)

/-- Below quantifiers the variables that they bind are hidden as well, in both. -/
theorem HidesAlike.under (h : HidesAlike N hidden hidden') (binders binders' : List String) :
    HidesAlike (N.under binders binders') (hidden ++ binders) (hidden' ++ binders') := by
  intro n m hn
  have hbound := Pairing.mem_binders_iff hn
  rw [List.mem_append, List.mem_append]
  by_cases hin : n ∈ binders
  · exact ⟨iff_of_true (.inr hin) (.inr (hbound.1 hin)), fun hnot => absurd (.inr hin) hnot⟩
  · obtain ⟨hiff, heq⟩ := h n m (Pairing.pairs_of_under hn hin)
    exact ⟨or_congr hiff hbound, fun hnot => heq fun hmem => hnot (.inl hmem)⟩

/-- Paired variables give the same mention: none if they are hidden, and the same name otherwise. -/
theorem ofVar_eq (hN : N.Proper) (h : HidesAlike N hidden hidden') {n m : String} (hn : N n m) :
    ofVar tested hidden' asValue m = ofVar tested hidden asValue n := by
  obtain ⟨hiff, heq⟩ := h n m hn
  have hwildcard := hN.wildcard_iff hn
  unfold ofVar
  simp only [List.contains_iff_mem, ← hiff, ne_eq, ← hwildcard]
  split
  · rfl
  · rename_i hnot
    by_cases hself : n = wildcard
    · rw [hself, hwildcard.1 hself]
    · rw [heq fun hmem => hnot ⟨hself, hmem⟩]

end Mention

open Mention (VarsIn HidesAlike)

/-! ### Patterns and terms -/

namespace Pattern

/-- The same pattern with other names for its variables. -/
inductive Variant (N : Pairing) : Pattern → Pattern → Prop
  | var (span : Span) {name name' : String} (h : N name name') :
    Variant N (.var span name) (.var span name')
  | resolved (span : Span) (e : Entity) : Variant N (.resolved span e) (.resolved span e)
  | node (span : Span) (tag : Tag) {slots slots' : List Pattern}
    (h : List.Forall₂ (Variant N) slots slots') :
    Variant N (.node span tag slots) (.node span tag slots')
  | list (span : Span) {items items' : List Pattern} (h : List.Forall₂ (Variant N) items items') :
    Variant N (.list span items) (.list span items')
  | modifierSet (span : Span) {items items' : List Pattern}
    (h : List.Forall₂ (Variant N) items items') :
    Variant N (.modifierSet span items) (.modifierSet span items')
  | access (span : Span) {name name' : Option String} (h : Option.Rel N name name') :
    Variant N (.access span name) (.access span name')
  | empty (span : Span) : Variant N (.empty span) (.empty span)

/-- Patterns mention what each of them mentions. -/
theorem mentionsAll_eq_flatMap (ps : List Pattern) :
    mentionsAll tested hidden ps = ps.flatMap (mentions tested hidden) := by
  induction ps with
  | nil => rfl
  | cons p ps ih => rw [mentionsAll, ih, List.flatMap_cons]

namespace Variant

variable {p p' : Pattern}

/-- A pattern is a variant of itself. -/
theorem refl (hhidden : ∀ n ∈ hidden, V n) (hV : VarsIn V (p.mentions tested hidden)) :
    p.Variant (.identity V) p := by
  -- the patterns of a list mention names of the list only
  have hall {ps : List Pattern}
      (ih : ∀ p ∈ ps, VarsIn V (p.mentions tested hidden) → p.Variant (.identity V) p)
      (hV : VarsIn V (mentionsAll tested hidden ps)) :
      List.Forall₂ (Variant (.identity V)) ps ps := by
    rw [mentionsAll_eq_flatMap] at hV
    exact List.forall₂_same.2 fun p hp =>
      ih p hp (hV.of_subset fun m hm => List.mem_flatMap.2 ⟨p, hp, hm⟩)
  induction p using Pattern.induction with
  | var span name => exact .var span ⟨rfl, hV.of_ofVar hhidden⟩
  | resolved span e => exact .resolved span e
  | node span tag slots ih => exact .node span tag (hall ih hV)
  | list span items ih => exact .list span (hall ih hV)
  | modifierSet span items ih => exact .modifierSet span (hall ih hV)
  | access span name =>
    cases name with
    | none => exact .access span .none
    | some name => exact .access span (.some ⟨rfl, hV.of_ofVar hhidden⟩)
  | empty span => exact .empty span

/-- Variants of patterns are so the other way round. -/
theorem symm (h : p.Variant N p') : p'.Variant N.symm p := by
  have hall {ps ps' : List Pattern} (ih : ∀ p ∈ ps, ∀ {p'}, p.Variant N p' → p'.Variant N.symm p)
      (h : List.Forall₂ (Variant N) ps ps') : List.Forall₂ (Variant N.symm) ps' ps :=
    List.Forall₂.flip (h.imp_of_mem fun p hp p' _ hpp' => ih p hp hpp')
  induction p using Pattern.induction generalizing p' with
  | var span name => cases h with | var _ hn => exact .var span hn
  | resolved span e => cases h with | resolved => exact .resolved span e
  | node span tag slots ih => cases h with | node _ _ h => exact .node span tag (hall ih h)
  | list span items ih => cases h with | list _ h => exact .list span (hall ih h)
  | modifierSet span items ih => cases h with | modifierSet _ h => exact .modifierSet span (hall ih h)
  | access span name =>
    cases h with
    | access _ h =>
      cases h with
      | none => exact .access span .none
      | some hn => exact .access span (.some hn)
  | empty span => cases h with | empty => exact .empty span

/-- Variants of a pattern mention the same variables outside the quantifiers. -/
theorem mentions_eq (hN : N.Proper) (hhidden : HidesAlike N hidden hidden') (h : p.Variant N p') :
    p'.mentions tested hidden' = p.mentions tested hidden := by
  -- the mentions of a list are those of its patterns
  have hall {ps ps' : List Pattern} (h : List.Forall₂ (Variant N) ps ps')
      (ih : ∀ p ∈ ps, ∀ {p'}, p.Variant N p' → p'.mentions tested hidden' = p.mentions tested hidden) :
      mentionsAll tested hidden' ps' = mentionsAll tested hidden ps := by
    induction h with
    | nil => rfl
    | cons hp _ ihps =>
      rw [mentionsAll, mentionsAll, ih _ (List.mem_cons_self ..) hp,
        ihps fun q hq => ih q (List.mem_cons_of_mem _ hq)]
  induction p using Pattern.induction generalizing p' with
  | var span name => cases h with | var _ hn => exact Mention.ofVar_eq hN hhidden hn
  | resolved span e => cases h with | resolved => rfl
  | node span tag slots ih => cases h with | node _ _ h => exact hall h ih
  | list span items ih => cases h with | list _ h => exact hall h ih
  | modifierSet span items ih => cases h with | modifierSet _ h => exact hall h ih
  | access span name =>
    cases h with
    | access _ h =>
      cases h with
      | none => rfl
      | some hn => exact Mention.ofVar_eq hN hhidden hn
  | empty span => cases h with | empty => rfl

end Variant

end Pattern

namespace Term

/-- The same term with other names for its variables. -/
inductive Variant (N : Pairing) : Term → Term → Prop
  | var {name name' : String} (h : N name name') : Variant N (.var name) (.var name')
  | entity (e : Entity) : Variant N (.entity e) (.entity e)
  | pattern {p p' : Pattern} (h : p.Variant N p') : Variant N (.pattern p) (.pattern p')
  | apply (func : EntityFunction) {args args' : List Term} (h : List.Forall₂ (Variant N) args args') :
    Variant N (.apply func args) (.apply func args')

/-- Terms mention what each of them mentions. -/
theorem mentionsAll_eq_flatMap (ts : List Term) :
    mentionsAll tested hidden asValue ts = ts.flatMap (mentions tested hidden asValue) := by
  induction ts with
  | nil => rfl
  | cons t ts ih => rw [mentionsAll, ih, List.flatMap_cons]

namespace Variant

variable {t t' : Term} {ts ts' : List Term}

/-- Terms are variants of themselves if each of them is. -/
private theorem refl_all
    (ih : ∀ t ∈ ts, VarsIn V (t.mentions tested hidden asValue) → t.Variant (.identity V) t)
    (hV : VarsIn V (mentionsAll tested hidden asValue ts)) :
    List.Forall₂ (Variant (.identity V)) ts ts := by
  rw [mentionsAll_eq_flatMap] at hV
  exact List.forall₂_same.2 fun t ht =>
    ih t ht (hV.of_subset fun m hm => List.mem_flatMap.2 ⟨t, ht, hm⟩)

/-- A term is a variant of itself. -/
theorem refl (hhidden : ∀ n ∈ hidden, V n) (hV : VarsIn V (t.mentions tested hidden asValue)) :
    t.Variant (.identity V) t := by
  induction t using Term.induction generalizing asValue with
  | var name => exact .var ⟨rfl, hV.of_ofVar hhidden⟩
  | entity e => exact .entity e
  | pattern p => exact .pattern (.refl hhidden hV)
  | apply func args ih => exact .apply func (refl_all (fun t ht hV => ih t ht hV) hV)

/-- Several terms are variants of themselves. -/
theorem refl_list (hhidden : ∀ n ∈ hidden, V n)
    (hV : VarsIn V (mentionsAll tested hidden asValue ts)) :
    List.Forall₂ (Variant (.identity V)) ts ts := refl_all (fun _ _ hV => refl hhidden hV) hV

/-- Variants of terms are so the other way round. -/
theorem symm (h : t.Variant N t') : t'.Variant N.symm t := by
  induction t using Term.induction generalizing t' with
  | var name => cases h with | var hn => exact .var hn
  | entity e => cases h with | entity => exact .entity e
  | pattern p => cases h with | pattern hp => exact .pattern hp.symm
  | apply func args ih =>
    cases h with
    | apply _ hargs =>
      exact .apply func (List.Forall₂.flip (hargs.imp_of_mem fun t ht t' _ htt' => ih t ht htt'))

/-- Variants of several terms are so the other way round. -/
theorem symm_list (h : List.Forall₂ (Variant N) ts ts') : List.Forall₂ (Variant N.symm) ts' ts :=
  List.Forall₂.flip (h.imp fun _ _ ht => ht.symm)

/-- Terms mention the same if each of them does. -/
private theorem mentionsAll_eq (h : List.Forall₂ (Variant N) ts ts')
    (ih : ∀ t ∈ ts, ∀ {t'}, t.Variant N t' →
      t'.mentions tested hidden' asValue = t.mentions tested hidden asValue) :
    mentionsAll tested hidden' asValue ts' = mentionsAll tested hidden asValue ts := by
  induction h with
  | nil => rfl
  | cons ht _ ihts =>
    rw [mentionsAll, mentionsAll, ih _ (List.mem_cons_self ..) ht,
      ihts fun u hu => ih u (List.mem_cons_of_mem _ hu)]

/-- Variants of a term mention the same variables outside the quantifiers. -/
theorem mentions_eq (hN : N.Proper) (hhidden : HidesAlike N hidden hidden') (h : t.Variant N t') :
    t'.mentions tested hidden' asValue = t.mentions tested hidden asValue := by
  induction t using Term.induction generalizing asValue t' with
  | var name => cases h with | var hn => exact Mention.ofVar_eq hN hhidden hn
  | entity e => cases h with | entity => rfl
  | pattern p => cases h with | pattern hp => exact hp.mentions_eq hN hhidden
  | apply func args ih =>
    cases h with | apply _ h => exact mentionsAll_eq h fun t ht _ htt' => ih t ht htt'

/-- Variants of several terms mention the same variables outside the quantifiers. -/
theorem mentions_list_eq (hN : N.Proper) (hhidden : HidesAlike N hidden hidden')
    (h : List.Forall₂ (Variant N) ts ts') :
    mentionsAll tested hidden' asValue ts' = mentionsAll tested hidden asValue ts :=
  mentionsAll_eq h fun _ _ _ htt' => htt'.mentions_eq hN hhidden

end Variant

end Term

/-! ### Expressions -/

namespace Expr

mutual

/-- The same expression with other names for its variables. Quantified variables keep their types. -/
inductive Variant : Pairing → Expr → Expr → Prop
  | true {N : Pairing} : Variant N .true .true
  | false {N : Pairing} : Variant N .false .false
  | and {N : Pairing} {items items' : List Expr} (h : VariantAll N items items') :
    Variant N (.and items) (.and items')
  | or {N : Pairing} {items items' : List Expr} (h : VariantAll N items items') :
    Variant N (.or items) (.or items')
  | not {N : Pairing} {body body' : Expr} (h : Variant N body body') :
    Variant N (.not body) (.not body')
  | implies {N : Pairing} {premise premise' conclusion conclusion' : Expr}
    (hpremise : Variant N premise premise') (hconclusion : Variant N conclusion conclusion') :
    Variant N (.implies premise conclusion) (.implies premise' conclusion')
  | iff {N : Pairing} {left left' right right' : Expr} (hleft : Variant N left left')
    (hright : Variant N right right') : Variant N (.iff left right) (.iff left' right')
  | exists_ {N : Pairing} (span : Span) {binders binders' : List Binder} {body body' : Expr}
    (hproper : (N.under (binders.map Named.name) (binders'.map Named.name)).Proper)
    (htypes : binders'.map Named.type = binders.map Named.type)
    (hbody : Variant (N.under (binders.map Named.name) (binders'.map Named.name)) body body') :
    Variant N (.exists span binders body) (.exists span binders' body')
  | forall_ {N : Pairing} (span : Span) {binders binders' : List Binder}
    {range range' body body' : Expr}
    (hproper : (N.under (binders.map Named.name) (binders'.map Named.name)).Proper)
    (htypes : binders'.map Named.type = binders.map Named.type)
    (hrange : Variant (N.under (binders.map Named.name) (binders'.map Named.name)) range range')
    (hbody : Variant (N.under (binders.map Named.name) (binders'.map Named.name)) body body') :
    Variant N (.forall span binders range body) (.forall span binders' range' body')
  | trait {N : Pairing} (span : Span) (name : String) {args args' : List Term}
    (h : List.Forall₂ (Term.Variant N) args args') :
    Variant N (.trait span name args) (.trait span name args')
  | matches_ {N : Pairing} (span : Span) {subject subject' : Term} {pattern pattern' : Pattern}
    (hsubject : subject.Variant N subject') (hpattern : pattern.Variant N pattern') :
    Variant N (.matches span subject pattern) (.matches span subject' pattern')
  | eq {N : Pairing} (span : Span) {left left' right right' : Term} (hleft : left.Variant N left')
    (hright : right.Variant N right') : Variant N (.eq span left right) (.eq span left' right')
  | ne {N : Pairing} (span : Span) {left left' right right' : Term} (hleft : left.Variant N left')
    (hright : right.Variant N right') : Variant N (.ne span left right) (.ne span left' right')

/-- Several expressions and their variants. -/
inductive VariantAll : Pairing → List Expr → List Expr → Prop
  | nil {N : Pairing} : VariantAll N [] []
  | cons {N : Pairing} {e e' : Expr} {es es' : List Expr} (h : Variant N e e')
    (hs : VariantAll N es es') : VariantAll N (e :: es) (e' :: es')

end

/-- Expressions that are variants are so one by one. -/
theorem variantAll_iff {es es' : List Expr} :
    VariantAll N es es' ↔ List.Forall₂ (Variant N) es es' := by
  constructor
  · intro h
    induction es generalizing es' with
    | nil => cases h with | nil => exact .nil
    | cons e es ih => cases h with | cons h hs => exact .cons h (ih hs)
  · intro h
    induction h with
    | nil => exact .nil
    | cons h _ ih => exact .cons h ih

namespace Variant

variable {e e' : Expr} {es es' : List Expr}

/-- Variants of expressions are so the other way round. -/
theorem symm (h : e.Variant N e') : e'.Variant N.symm e := by
  have hall {N : Pairing} {es es' : List Expr}
      (ih : ∀ e ∈ es, ∀ {N : Pairing} {e'}, e.Variant N e' → e'.Variant N.symm e)
      (h : VariantAll N es es') : VariantAll N.symm es' es :=
    variantAll_iff.2 <| List.Forall₂.flip <|
      (variantAll_iff.1 h).imp_of_mem fun e he e' _ hee' => ih e he hee'
  -- Below a quantifier the pairs are turned round, which pairs the binders the other way round.
  induction e using Expr.induction generalizing N e' with
  | true => cases h with | true => exact .true
  | false => cases h with | false => exact .false
  | and items ih => cases h with | and h => exact .and (hall ih h)
  | or items ih => cases h with | or h => exact .or (hall ih h)
  | not body ih => cases h with | not h => exact .not (ih h)
  | implies premise conclusion ihp ihc =>
    cases h with | implies hp hc => exact .implies (ihp hp) (ihc hc)
  | iff left right ihl ihr => cases h with | iff hl hr => exact .iff (ihl hl) (ihr hr)
  | exists_ span binders body ih =>
    cases h with
    | exists_ _ hproper htypes hbody =>
      have hproper := hproper.symm
      have hbody := ih hbody
      rw [Pairing.symm_under] at hproper hbody
      exact .exists_ span hproper htypes.symm hbody
  | forall_ span binders range body ihr ihb =>
    cases h with
    | forall_ _ hproper htypes hrange hbody =>
      have hproper := hproper.symm
      have hrange := ihr hrange
      have hbody := ihb hbody
      rw [Pairing.symm_under] at hproper hrange hbody
      exact .forall_ span hproper htypes.symm hrange hbody
  | trait span name args =>
    cases h with | trait _ _ h => exact .trait span name (Term.Variant.symm_list h)
  | matches_ span subject pattern =>
    cases h with | matches_ _ hs hp => exact .matches_ span hs.symm hp.symm
  | eq span left right => cases h with | eq _ hl hr => exact .eq span hl.symm hr.symm
  | ne span left right => cases h with | ne _ hl hr => exact .ne span hl.symm hr.symm

/-- Expressions are variants of themselves if each of them is. -/
private theorem refl_all
    (ih : ∀ e ∈ es, VarsIn V (e.mentions tested hidden) → e.Variant (.identity V) e)
    (hV : VarsIn V (mentionsAll tested hidden es)) : VariantAll (.identity V) es es := by
  induction es with
  | nil => exact .nil
  | cons e es ihes =>
    exact .cons (ih e (List.mem_cons_self ..) hV.left)
      (ihes (fun d hd => ih d (List.mem_cons_of_mem _ hd)) hV.right)

/-- An expression is a variant of itself. -/
theorem refl (hhidden : ∀ n ∈ hidden, V n) (hV : VarsIn V (e.mentions tested hidden)) :
    e.Variant (.identity V) e := by
  -- What is hidden below a quantifier was hidden before or is bound by it.
  have hinner {V : String → Prop} {hidden : List String} (hhidden : ∀ n ∈ hidden, V n)
      (binders : List String) : ∀ n ∈ hidden ++ binders, V n ∨ n ∈ binders :=
    fun n hn => (List.mem_append.1 hn).imp_left (hhidden n)
  induction e using Expr.induction generalizing V tested hidden with
  | true => exact .true
  | false => exact .false
  | and items ih => exact .and (refl_all (fun e he hV => ih e he hhidden hV) hV)
  | or items ih => exact .or (refl_all (fun e he hV => ih e he hhidden hV) hV)
  | not body ih => exact .not (ih hhidden hV)
  | implies premise conclusion ihp ihc => exact .implies (ihp hhidden hV.left) (ihc hhidden hV.right)
  | iff left right ihl ihr => exact .iff (ihl hhidden hV.left) (ihr hhidden hV.right)
  | exists_ span binders body ih =>
    have hbody := ih (hinner hhidden _) (VarsIn.widen hV _)
    rw [← Pairing.under_identity] at hbody
    refine .exists_ span ?_ rfl hbody
    rw [Pairing.under_identity]
    exact Pairing.proper_identity _
  | forall_ span binders range body ihr ihb =>
    have hrange := ihr (hinner hhidden _) (VarsIn.widen hV.left _)
    have hbody := ihb (hinner hhidden _) (VarsIn.widen hV.right _)
    rw [← Pairing.under_identity] at hrange hbody
    refine .forall_ span ?_ rfl hrange hbody
    rw [Pairing.under_identity]
    exact Pairing.proper_identity _
  | trait span name args =>
    exact .trait span name (Term.Variant.refl_list hhidden (hV.of_subset (List.subset_cons_self ..)))
  | matches_ span subject pattern =>
    exact .matches_ span (.refl hhidden hV.left) (.refl hhidden hV.right)
  | eq span left right => exact .eq span (.refl hhidden hV.left) (.refl hhidden hV.right)
  | ne span left right => exact .ne span (.refl hhidden hV.left) (.refl hhidden hV.right)

/-- Expressions mention the same if each of them does. -/
private theorem mentionsAll_eq (h : VariantAll N es es')
    (ih : ∀ e ∈ es, ∀ {e'}, e.Variant N e' → e'.mentions tested hidden' = e.mentions tested hidden) :
    mentionsAll tested hidden' es' = mentionsAll tested hidden es := by
  induction es generalizing es' with
  | nil => cases h with | nil => rfl
  | cons e es ihes =>
    cases h with
    | cons he hes =>
      rw [mentionsAll, mentionsAll, ih e (List.mem_cons_self ..) he,
        ihes hes fun d hd => ih d (List.mem_cons_of_mem _ hd)]

/-- Variants of an expression mention the same traits and the same variables outside the quantifiers. -/
theorem mentions_eq (hN : N.Proper) (hhidden : HidesAlike N hidden hidden') (h : e.Variant N e') :
    e'.mentions tested hidden' = e.mentions tested hidden := by
  -- The induction is on the expression, for all pairs: quantifiers add their binders to the hidden
  -- variables.
  induction e using Expr.induction generalizing N tested hidden hidden' e' with
  | true => cases h with | true => rfl
  | false => cases h with | false => rfl
  | and items ih =>
    cases h with | and h => exact mentionsAll_eq h fun e he _ hee' => ih e he hN hhidden hee'
  | or items ih =>
    cases h with | or h => exact mentionsAll_eq h fun e he _ hee' => ih e he hN hhidden hee'
  | not body ih => cases h with | not h => exact ih hN hhidden h
  | implies premise conclusion ihp ihc =>
    cases h with
    | implies hp hc => simp only [mentions, ihp hN hhidden hp, ihc hN hhidden hc]
  | iff left right ihl ihr =>
    cases h with
    | iff hl hr => simp only [mentions, ihl hN hhidden hl, ihr hN hhidden hr]
  | exists_ span binders body ih =>
    cases h with
    | exists_ _ hproper _ hbody => simp only [mentions, ih hproper (hhidden.under _ _) hbody]
  | forall_ span binders range body ihr ihb =>
    cases h with
    | forall_ _ hproper _ hrange hbody =>
      simp only [mentions, ihr hproper (hhidden.under _ _) hrange,
        ihb hproper (hhidden.under _ _) hbody]
  | trait span name args =>
    cases h with
    | trait _ _ h => simp only [mentions, Term.Variant.mentions_list_eq hN hhidden h]
  | matches_ span subject pattern =>
    cases h with
    | matches_ _ hs hp => simp only [mentions, hs.mentions_eq hN hhidden, hp.mentions_eq hN hhidden]
  | eq span left right =>
    cases h with
    | eq _ hl hr => simp only [mentions, hl.mentions_eq hN hhidden, hr.mentions_eq hN hhidden]
  | ne span left right =>
    cases h with
    | ne _ hl hr => simp only [mentions, hl.mentions_eq hN hhidden, hr.mentions_eq hN hhidden]

/-- Variants that name their free variables alike have the same references. -/
theorem references_eq (h : e.Variant (.identity V) e') : e'.references = e.references :=
  h.mentions_eq (Pairing.proper_identity V) fun _ _ hn => ⟨iff_of_false List.not_mem_nil List.not_mem_nil,
    fun _ => hn.1⟩

end Variant

end Expr

end CodeRules
