import CodeRules.Proofs.Rule.Variant
import Mathlib.Logic.Function.Basic

/-!
# Renaming quantified variables

`Expr.RenamesBinder x y e e'` says that `e'` is `e` with one quantified variable `x` renamed to `y`,
together with the occurrences that it binds. When `y` is new to `e` both are variants
(`Expr.RenamesBinder.variant`).
-/

namespace CodeRules

/-! ### Names -/

namespace Pattern

mutual

/-- The names of variables, from left to right. -/
def names : Pattern → List String
  | var _ name | access _ (some name) => [name]
  | node _ _ items | list _ items | modifierSet _ items => namesAll items
  | resolved .. | access _ none | empty _ => []

/-- The names in several patterns. -/
def namesAll : List Pattern → List String
  | [] => []
  | p :: ps => names p ++ namesAll ps

end

mutual

/-- The pattern with its variables renamed. -/
def rename (ρ : String → String) : Pattern → Pattern
  | var span name => .var span (ρ name)
  | resolved span e => .resolved span e
  | node span tag slots => .node span tag (renameAll ρ slots)
  | list span items => .list span (renameAll ρ items)
  | modifierSet span items => .modifierSet span (renameAll ρ items)
  | access span name => .access span (name.map ρ)
  | empty span => .empty span

/-- The patterns with their variables renamed. -/
def renameAll (ρ : String → String) : List Pattern → List Pattern
  | [] => []
  | p :: ps => rename ρ p :: renameAll ρ ps

end

end Pattern

namespace Term

mutual

/-- The names of variables, from left to right. -/
def names : Term → List String
  | var name => [name]
  | entity _ => []
  | pattern p => p.names
  | apply _ args => namesAll args

/-- The names in several terms. -/
def namesAll : List Term → List String
  | [] => []
  | t :: ts => names t ++ namesAll ts

end

mutual

/-- The term with its variables renamed. -/
def rename (ρ : String → String) : Term → Term
  | var name => .var (ρ name)
  | entity e => .entity e
  | pattern p => .pattern (p.rename ρ)
  | apply func args => .apply func (renameAll ρ args)

/-- The terms with their variables renamed. -/
def renameAll (ρ : String → String) : List Term → List Term
  | [] => []
  | t :: ts => rename ρ t :: renameAll ρ ts

end

end Term

/-- A quantified variable under a new name. -/
def Binder.rename (ρ : String → String) (b : Binder) : Binder := { b with name := ρ b.name }

namespace Expr

mutual

/-- The names of variables, free or quantified, from left to right. -/
def names : Expr → List String
  | true | false => []
  | and items | or items => namesAll items
  | not body => names body
  | implies left right | iff left right => names left ++ names right
  | .exists _ binders body => binders.map Named.name ++ names body
  | .forall _ binders range body => binders.map Named.name ++ (names range ++ names body)
  | trait _ _ args => Term.namesAll args
  | .matches _ subject pattern => subject.names ++ pattern.names
  | eq _ left right | ne _ left right => left.names ++ right.names

/-- The names in several expressions. -/
def namesAll : List Expr → List String
  | [] => []
  | e :: es => names e ++ namesAll es

end

/-- Names that a quantifier binds are not renamed below it. -/
def hide (binders : List Binder) (ρ : String → String) (n : String) : String :=
  if n ∈ binders.map Named.name then n else ρ n

mutual

/-- The expression with its free variables renamed. -/
def rename (ρ : String → String) : Expr → Expr
  | true => .true
  | false => .false
  | and items => .and (renameAll ρ items)
  | or items => .or (renameAll ρ items)
  | not body => .not (rename ρ body)
  | implies premise conclusion => .implies (rename ρ premise) (rename ρ conclusion)
  | iff left right => .iff (rename ρ left) (rename ρ right)
  | .exists span binders body => .exists span binders (rename (hide binders ρ) body)
  | .forall span binders range body =>
    .forall span binders (rename (hide binders ρ) range) (rename (hide binders ρ) body)
  | trait span name args => .trait span name (Term.renameAll ρ args)
  | .matches span subject pattern => .matches span (subject.rename ρ) (pattern.rename ρ)
  | eq span left right => .eq span (left.rename ρ) (right.rename ρ)
  | ne span left right => .ne span (left.rename ρ) (right.rename ρ)

/-- The expressions with their free variables renamed. -/
def renameAll (ρ : String → String) : List Expr → List Expr
  | [] => []
  | e :: es => rename ρ e :: renameAll ρ es

end

mutual

/-- No quantifier binds a name twice. -/
def BindsDistinct : Expr → Prop
  | and items | or items => BindsDistinctAll items
  | not body => BindsDistinct body
  | implies left right | iff left right => BindsDistinct left ∧ BindsDistinct right
  | .exists _ binders body => (binders.map Named.name).Nodup ∧ BindsDistinct body
  | .forall _ binders range body =>
    (binders.map Named.name).Nodup ∧ BindsDistinct range ∧ BindsDistinct body
  | true | false | trait .. | .matches .. | eq .. | ne .. => True

/-- No quantifier of several expressions binds a name twice. -/
def BindsDistinctAll : List Expr → Prop
  | [] => True
  | e :: es => BindsDistinct e ∧ BindsDistinctAll es

end

/-- One quantified variable `x` of the first expression, and the occurrences that it binds, are called
`y` in the second one. -/
inductive RenamesBinder (x y : String) : Expr → Expr → Prop
  | exists_binder (span : Span) {binders : List Binder} (body : Expr)
    (hx : x ∈ binders.map Named.name) :
    RenamesBinder x y (.exists span binders body)
      (.exists span (binders.map (Binder.rename (Function.update id x y)))
        (body.rename (Function.update id x y)))
  | forall_binder (span : Span) {binders : List Binder} (range body : Expr)
    (hx : x ∈ binders.map Named.name) :
    RenamesBinder x y (.forall span binders range body)
      (.forall span (binders.map (Binder.rename (Function.update id x y)))
        (range.rename (Function.update id x y)) (body.rename (Function.update id x y)))
  | and (before : List Expr) {e e' : Expr} (after : List Expr) (h : RenamesBinder x y e e') :
    RenamesBinder x y (.and (before ++ e :: after)) (.and (before ++ e' :: after))
  | or (before : List Expr) {e e' : Expr} (after : List Expr) (h : RenamesBinder x y e e') :
    RenamesBinder x y (.or (before ++ e :: after)) (.or (before ++ e' :: after))
  | not {e e' : Expr} (h : RenamesBinder x y e e') : RenamesBinder x y (.not e) (.not e')
  | premise {e e' : Expr} (conclusion : Expr) (h : RenamesBinder x y e e') :
    RenamesBinder x y (.implies e conclusion) (.implies e' conclusion)
  | conclusion (premise : Expr) {e e' : Expr} (h : RenamesBinder x y e e') :
    RenamesBinder x y (.implies premise e) (.implies premise e')
  | iff_left {e e' : Expr} (right : Expr) (h : RenamesBinder x y e e') :
    RenamesBinder x y (.iff e right) (.iff e' right)
  | iff_right (left : Expr) {e e' : Expr} (h : RenamesBinder x y e e') :
    RenamesBinder x y (.iff left e) (.iff left e')
  | exists_body (span : Span) (binders : List Binder) {e e' : Expr} (h : RenamesBinder x y e e') :
    RenamesBinder x y (.exists span binders e) (.exists span binders e')
  | forall_range (span : Span) (binders : List Binder) {e e' : Expr} (body : Expr)
    (h : RenamesBinder x y e e') :
    RenamesBinder x y (.forall span binders e body) (.forall span binders e' body)
  | forall_body (span : Span) (binders : List Binder) (range : Expr) {e e' : Expr}
    (h : RenamesBinder x y e e') :
    RenamesBinder x y (.forall span binders range e) (.forall span binders range e')

end Expr

/-! ### Renaming free variables -/

variable {N : Pairing} {ρ : String → String} {x y : String}

namespace Pattern

/-- A pattern with its variables renamed is a variant. -/
theorem variant_rename {p : Pattern} (h : ∀ n ∈ p.names, N n (ρ n)) : p.Variant N (p.rename ρ) := by
  -- the patterns of a list are renamed one by one
  have hall {ps : List Pattern} (ih : ∀ p ∈ ps, (∀ n ∈ p.names, N n (ρ n)) → p.Variant N (p.rename ρ))
      (h : ∀ n ∈ namesAll ps, N n (ρ n)) : List.Forall₂ (Variant N) ps (renameAll ρ ps) := by
    induction ps with
    | nil => exact .nil
    | cons p ps ihps =>
      exact .cons (ih p (List.mem_cons_self ..) fun n hn => h n (List.mem_append_left _ hn))
        (ihps (fun q hq => ih q (List.mem_cons_of_mem _ hq)) fun n hn =>
          h n (List.mem_append_right _ hn))
  induction p using Pattern.induction with
  | var span name => exact .var span (h name (List.mem_singleton_self name))
  | resolved span e => exact .resolved span e
  | node span tag slots ih => exact .node span tag (hall ih h)
  | list span items ih => exact .list span (hall ih h)
  | modifierSet span items ih => exact .modifierSet span (hall ih h)
  | access span name =>
    cases name with
    | none => exact .access span .none
    | some name => exact .access span (.some (h name (List.mem_singleton_self name)))
  | empty span => exact .empty span

end Pattern

namespace Term

/-- Terms with their variables renamed are variants one by one. -/
private theorem variant_renameAll {ts : List Term}
    (ih : ∀ t ∈ ts, (∀ n ∈ t.names, N n (ρ n)) → t.Variant N (t.rename ρ))
    (h : ∀ n ∈ namesAll ts, N n (ρ n)) : List.Forall₂ (Variant N) ts (renameAll ρ ts) := by
  induction ts with
  | nil => exact .nil
  | cons t ts ihts =>
    exact .cons (ih t (List.mem_cons_self ..) fun n hn => h n (List.mem_append_left _ hn))
      (ihts (fun u hu => ih u (List.mem_cons_of_mem _ hu)) fun n hn => h n (List.mem_append_right _ hn))

/-- A term with its variables renamed is a variant. -/
theorem variant_rename {t : Term} (h : ∀ n ∈ t.names, N n (ρ n)) : t.Variant N (t.rename ρ) := by
  induction t using Term.induction with
  | var name => exact .var (h name (List.mem_singleton_self name))
  | entity e => exact .entity e
  | pattern p => exact .pattern (Pattern.variant_rename h)
  | apply func args ih => exact .apply func (variant_renameAll ih h)

end Term

namespace Expr

/-- Expressions with their free variables renamed are variants one by one. -/
private theorem variant_renameAll {es : List Expr}
    (ih : ∀ e ∈ es, e.BindsDistinct → (∀ n ∈ e.names, N n (ρ n)) →
      (∀ n ∈ e.names, ρ n = n ∨ ρ n ∉ e.names) → e.Variant N (e.rename ρ))
    (hdistinct : BindsDistinctAll es) (h : ∀ n ∈ namesAll es, N n (ρ n))
    (hfresh : ∀ n ∈ namesAll es, ρ n = n ∨ ρ n ∉ namesAll es) :
    VariantAll N es (renameAll ρ es) := by
  induction es with
  | nil => exact .nil
  | cons e es ihes =>
    simp only [namesAll, List.mem_append, not_or] at h hfresh
    refine .cons (ih e (List.mem_cons_self ..) hdistinct.1 (fun n hn => h n (.inl hn))
      fun n hn => (hfresh n (.inl hn)).imp_right And.left) ?_
    exact ihes (fun d hd => ih d (List.mem_cons_of_mem _ hd)) hdistinct.2 (fun n hn => h n (.inr hn))
      fun n hn => (hfresh n (.inr hn)).imp_right And.right

/-- Below a quantifier that does not catch the new names the renaming goes along the inner pairs. -/
private theorem under_hide (binders : List Binder) {names : List String}
    (h : ∀ n ∈ names, N n (ρ n))
    (hfresh : ∀ n ∈ names, ρ n = n ∨ ρ n ∉ binders.map Named.name ∧ ρ n ∉ names) :
    (∀ n ∈ names, N.under (binders.map Named.name) (binders.map Named.name) n (hide binders ρ n)) ∧
      ∀ n ∈ names, hide binders ρ n = n ∨ hide binders ρ n ∉ names := by
  -- A bound name is paired with itself, and the renaming leaves it alone; other names stay what they were.
  constructor
  · intro n hn
    unfold hide
    split
    · rename_i hbound
      exact .inl (Pairing.mem_zip_self.2 ⟨hbound, rfl⟩)
    · rename_i hbound
      refine .inr ⟨hbound, ?_, h n hn⟩
      rcases hfresh n hn with hself | hnew
      · rwa [hself]
      · exact hnew.1
  · intro n hn
    unfold hide
    split
    · exact .inl rfl
    · exact (hfresh n hn).imp_right And.right

/-- An expression with its free variables renamed to new names is a variant. -/
theorem variant_rename {e : Expr} (hN : N.Proper) (hdistinct : e.BindsDistinct)
    (h : ∀ n ∈ e.names, N n (ρ n)) (hfresh : ∀ n ∈ e.names, ρ n = n ∨ ρ n ∉ e.names) :
    e.Variant N (e.rename ρ) := by
  induction e using Expr.induction generalizing N ρ with
  | true => exact .true
  | false => exact .false
  | and items ih =>
    exact .and (variant_renameAll (fun e he hd h hf => ih e he hN hd h hf) hdistinct h hfresh)
  | or items ih =>
    exact .or (variant_renameAll (fun e he hd h hf => ih e he hN hd h hf) hdistinct h hfresh)
  | not body ih => exact .not (ih hN hdistinct h hfresh)
  | implies premise conclusion ihp ihc =>
    -- the new name is in neither part, as it is not in the whole
    simp only [names, List.mem_append, not_or] at h hfresh
    exact .implies
      (ihp hN hdistinct.1 (fun n hn => h n (.inl hn)) fun n hn =>
        (hfresh n (.inl hn)).imp_right And.left)
      (ihc hN hdistinct.2 (fun n hn => h n (.inr hn)) fun n hn =>
        (hfresh n (.inr hn)).imp_right And.right)
  | iff left right ihl ihr =>
    simp only [names, List.mem_append, not_or] at h hfresh
    exact .iff
      (ihl hN hdistinct.1 (fun n hn => h n (.inl hn)) fun n hn =>
        (hfresh n (.inl hn)).imp_right And.left)
      (ihr hN hdistinct.2 (fun n hn => h n (.inr hn)) fun n hn =>
        (hfresh n (.inr hn)).imp_right And.right)
  | exists_ span binders body ih =>
    simp only [names, List.mem_append, not_or] at h hfresh
    -- a quantifier that binds a renamed name again keeps its own variable
    obtain ⟨hinner, hnew⟩ := under_hide binders (fun n hn => h n (.inr hn))
      fun n hn => hfresh n (.inr hn)
    have hproper := hN.under_self hdistinct.1
    exact .exists_ span hproper rfl (ih hproper hdistinct.2 hinner hnew)
  | forall_ span binders range body ihr ihb =>
    simp only [names, List.mem_append, not_or] at h hfresh
    -- the binders are different, so each is paired with what it is renamed to
    have hproper := hN.under_self hdistinct.1
    obtain ⟨hrange, hnewr⟩ := under_hide binders (fun n hn => h n (.inr (.inl hn)))
      fun n hn => (hfresh n (.inr (.inl hn))).imp_right fun hnot => ⟨hnot.1, hnot.2.1⟩
    obtain ⟨hbody, hnewb⟩ := under_hide binders (fun n hn => h n (.inr (.inr hn)))
      fun n hn => (hfresh n (.inr (.inr hn))).imp_right fun hnot => ⟨hnot.1, hnot.2.2⟩
    exact .forall_ span hproper rfl (ihr hproper hdistinct.2.1 hrange hnewr)
      (ihb hproper hdistinct.2.2 hbody hnewb)
  | trait span name args =>
    exact .trait span name (Term.variant_renameAll (fun _ _ => Term.variant_rename) h)
  | matches_ span subject pattern =>
    exact .matches_ span (Term.variant_rename fun n hn => h n (List.mem_append_left _ hn))
      (Pattern.variant_rename fun n hn => h n (List.mem_append_right _ hn))
  | eq span left right =>
    exact .eq span (Term.variant_rename fun n hn => h n (List.mem_append_left _ hn))
      (Term.variant_rename fun n hn => h n (List.mem_append_right _ hn))
  | ne span left right =>
    exact .ne span (Term.variant_rename fun n hn => h n (List.mem_append_left _ hn))
      (Term.variant_rename fun n hn => h n (List.mem_append_right _ hn))

/-! ### Renaming one quantified variable -/

/-- Every expression is a variant of itself. -/
theorem variant_self (e : Expr) : e.Variant .same e :=
  .refl (fun _ _ => trivial) (show Mention.VarsIn _ e.references from fun _ _ _ _ => trivial)

/-- Several expressions are variants of themselves. -/
private theorem variantAll_self (es : List Expr) : VariantAll .same es es :=
  variantAll_iff.2 (List.forall₂_same.2 fun e _ => e.variant_self)

/-- Names other than the new one stay apart. -/
private theorem eq_of_update_eq {n m : String} (hn : n ≠ y) (hm : m ≠ y)
    (h : Function.update id x y n = Function.update id x y m) : n = m := by
  -- There are four cases: both, one or none of the names are the one that is renamed.
  simp only [Function.update_apply, id_eq] at h
  split at h
  · split at h
    · rename_i hnx hmx
      rw [hnx, hmx]
    · exact absurd h.symm hm
  · split at h
    · exact absurd h hn
    · exact h

/-- Below the quantifier the pairs stay one to one, and none of the names is the wildcard. -/
private theorem proper_under_update {names : List String} (hnodup : names.Nodup) (hy : y ∉ names)
    (hxw : x ≠ wildcard) (hyw : y ≠ wildcard) :
    (Pairing.same.under names (names.map (Function.update id x y))).Proper := by
  refine Pairing.proper_same.under_map hnodup (fun n hn m hm => eq_of_update_eq ?_ ?_) fun n _ => ?_
  · exact fun heq => hy (heq ▸ hn)
  · exact fun heq => hy (heq ▸ hm)
  · by_cases hnx : n = x
    · rw [hnx, Function.update_self]
      exact iff_of_false hxw hyw
    · rw [Function.update_of_ne hnx, id_eq]

/-- Below the quantifier that binds `x` the new name is paired with it, and all other names with
themselves. -/
private theorem under_update {names : List String} (hx : x ∈ names) (hy : y ∉ names) {n : String}
    (hn : n ≠ y) : Pairing.same.under names (names.map (Function.update id x y)) n
      (Function.update id x y n) := by
  by_cases hbound : n ∈ names
  · exact .inl (Pairing.mem_zip_map.2 ⟨hbound, rfl⟩)
  · have hnx : n ≠ x := by
      rintro rfl
      exact hbound hx
    refine .inr ⟨hbound, fun hmem => ?_, ?_, trivial⟩
    -- A name that is not bound is not the new name of a bound one, as renaming keeps names apart.
    · obtain ⟨k, hk, heq⟩ := List.mem_map.1 hmem
      have hky : k ≠ y := by
        rintro rfl
        exact hy hk
      rw [eq_of_update_eq hky hn heq] at hk
      exact hbound hk
    · rw [Function.update_of_ne hnx, id_eq]

/-- A part below the quantifier that binds `x`. -/
private theorem variant_update {names : List String} {e : Expr} (hproper :
    (Pairing.same.under names (names.map (Function.update id x y))).Proper) (hx : x ∈ names)
    (hy : y ∉ names) (hdistinct : e.BindsDistinct) (hnew : y ∉ e.names) :
    e.Variant (Pairing.same.under names (names.map (Function.update id x y)))
      (e.rename (Function.update id x y)) := by
  refine variant_rename hproper hdistinct (fun n hn => under_update hx hy fun heq => hnew (heq ▸ hn))
    fun n _ => ?_
  by_cases hnx : n = x
  · rw [hnx, Function.update_self]
    exact .inr hnew
  · exact .inl (Function.update_of_ne hnx y id)

/-- The names of renamed variables are the renamed names. -/
private theorem names_renamed (binders : List Binder) (ρ : String → String) :
    (binders.map (Binder.rename ρ)).map Named.name = (binders.map Named.name).map ρ := by
  rw [List.map_map, List.map_map]
  rfl

/-- Renamed variables keep their types. -/
private theorem types_renamed (binders : List Binder) (ρ : String → String) :
    (binders.map (Binder.rename ρ)).map Named.type = binders.map Named.type := by
  rw [List.map_map]
  rfl

/-- Renaming a quantified variable to a new name gives a variant. -/
theorem RenamesBinder.variant {e e' : Expr} (h : RenamesBinder x y e e') (hdistinct : e.BindsDistinct)
    (hx : x ≠ wildcard) (hy : y ≠ wildcard) (hnew : y ∉ e.names) : e.Variant .same e' := by
  have hitem {before after : List Expr} {e e' : Expr} (h : e.Variant .same e') :
      VariantAll .same (before ++ e :: after) (before ++ e' :: after) := by
    rw [variantAll_iff]
    exact List.rel_append (variantAll_iff.1 (variantAll_self before))
      (.cons h (variantAll_iff.1 (variantAll_self after)))
  -- One of several expressions binds distinct names and does not have the new one.
  have hpart {before after : List Expr} {e : Expr}
      (hdistinct : BindsDistinctAll (before ++ e :: after))
      (hnew : y ∉ namesAll (before ++ e :: after)) : e.BindsDistinct ∧ y ∉ e.names := by
    induction before with
    | nil => exact ⟨hdistinct.1, fun h => hnew (List.mem_append_left _ h)⟩
    | cons d before ih => exact ih hdistinct.2 fun h => hnew (List.mem_append_right _ h)
  -- quantifiers around the renamed one pair each variable with itself
  have hinner {e e' : Expr} (h : e.Variant .same e') (binders : List String) :
      (Pairing.same.under binders binders).Proper ∧
        e.Variant (Pairing.same.under binders binders) e' := by
    rw [Pairing.under_same]
    exact ⟨Pairing.proper_same, h⟩
  -- Either the quantifier binds the variable itself, or it stands around the part in which the variable is
  -- renamed.
  induction h with
  | exists_binder span body hmem =>
    simp only [names, List.mem_append, not_or] at hnew
    have hproper := proper_under_update hdistinct.1 hnew.1 hx hy
    have hbody := variant_update hproper hmem hnew.1 hdistinct.2 hnew.2
    rw [← names_renamed] at hproper hbody
    exact .exists_ span hproper (types_renamed _ _) hbody
  | forall_binder span range body hmem =>
    simp only [names, List.mem_append, not_or] at hnew
    have hproper := proper_under_update hdistinct.1 hnew.1 hx hy
    have hrange := variant_update hproper hmem hnew.1 hdistinct.2.1 hnew.2.1
    have hbody := variant_update hproper hmem hnew.1 hdistinct.2.2 hnew.2.2
    rw [← names_renamed] at hproper hrange hbody
    exact .forall_ span hproper (types_renamed _ _) hrange hbody
  | and before after _ ih =>
    obtain ⟨hd, hn⟩ := hpart hdistinct hnew
    exact .and (hitem (ih hd hn))
  | or before after _ ih =>
    obtain ⟨hd, hn⟩ := hpart hdistinct hnew
    exact .or (hitem (ih hd hn))
  | not _ ih => exact .not (ih hdistinct hnew)
  | premise conclusion _ ih =>
    exact .implies (ih hdistinct.1 fun h => hnew (List.mem_append_left _ h)) conclusion.variant_self
  | conclusion premise _ ih =>
    exact .implies premise.variant_self (ih hdistinct.2 fun h => hnew (List.mem_append_right _ h))
  | iff_left right _ ih =>
    exact .iff (ih hdistinct.1 fun h => hnew (List.mem_append_left _ h)) right.variant_self
  | iff_right left _ ih =>
    exact .iff left.variant_self (ih hdistinct.2 fun h => hnew (List.mem_append_right _ h))
  | exists_body span binders _ ih =>
    obtain ⟨hproper, hbody⟩ := hinner (ih hdistinct.2 fun h => hnew (List.mem_append_right _ h)) _
    exact .exists_ span hproper rfl hbody
  | forall_range span binders body _ ih =>
    simp only [names, List.mem_append, not_or] at hnew
    obtain ⟨hproper, hrange⟩ := hinner (ih hdistinct.2.1 hnew.2.1) _
    exact .forall_ span hproper rfl hrange (hinner body.variant_self _).2
  | forall_body span binders range _ ih =>
    simp only [names, List.mem_append, not_or] at hnew
    obtain ⟨hproper, hbody⟩ := hinner (ih hdistinct.2.2 hnew.2.2) _
    exact .forall_ span hproper rfl (hinner range.variant_self _).2 hbody

end Expr

end CodeRules
