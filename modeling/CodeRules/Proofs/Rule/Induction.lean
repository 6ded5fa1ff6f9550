import CodeRules.Goal.Basic

/-!
# Induction over rules

What rules are written in has lists of itself inside. Each principle of this module proves a
property from the same property of all direct parts, where the parts of a list are its members.
-/

namespace CodeRules

/-- What holds of an entity whenever it holds of its items holds of every entity. -/
theorem Entity.induction {P : Entity → Prop} (node : ∀ n, P (.node n)) (type : ∀ t, P (.type t))
    (list : ∀ items, (∀ e ∈ items, P e) → P (.list items)) (modifier : ∀ m, P (.modifier m))
    (signature : ∀ s, P (.signature s)) (value : ∀ v, P (.value v)) (empty : P .empty)
    (e : Entity) : P e :=
  @Entity.rec P (fun es => ∀ e ∈ es, P e) node type list modifier signature value empty
    (by simp) (fun _ _ he hes => by simpa using ⟨he, hes⟩) e

/-- What holds of a pattern whenever it holds of its parts holds of every pattern. -/
theorem Pattern.induction {P : Pattern → Prop} (var : ∀ span name, P (.var span name))
    (resolved : ∀ span e, P (.resolved span e))
    (node : ∀ span tag slots, (∀ p ∈ slots, P p) → P (.node span tag slots))
    (list : ∀ span items, (∀ p ∈ items, P p) → P (.list span items))
    (modifierSet : ∀ span items, (∀ p ∈ items, P p) → P (.modifierSet span items))
    (access : ∀ span name, P (.access span name)) (empty : ∀ span, P (.empty span))
    (p : Pattern) : P p :=
  @Pattern.rec P (fun ps => ∀ p ∈ ps, P p) var resolved node list modifierSet access empty
    (by simp) (fun _ _ hp hps => by simpa using ⟨hp, hps⟩) p

/-- What holds of a term whenever it holds of its arguments holds of every term. -/
theorem Term.induction {P : Term → Prop} (var : ∀ name, P (.var name))
    (entity : ∀ e, P (.entity e)) (pattern : ∀ p, P (.pattern p))
    (apply : ∀ func args, (∀ t ∈ args, P t) → P (.apply func args)) (t : Term) : P t :=
  @Term.rec P (fun ts => ∀ t ∈ ts, P t) var entity pattern apply
    (by simp) (fun _ _ ht hts => by simpa using ⟨ht, hts⟩) t

/-- What holds of an expression whenever it holds of its parts holds of every expression. -/
theorem Expr.induction {P : Expr → Prop} (true : P .true) (false : P .false)
    (and : ∀ items, (∀ e ∈ items, P e) → P (.and items))
    (or : ∀ items, (∀ e ∈ items, P e) → P (.or items)) (not : ∀ body, P body → P (.not body))
    (implies : ∀ premise conclusion, P premise → P conclusion → P (.implies premise conclusion))
    (iff : ∀ left right, P left → P right → P (.iff left right))
    (exists_ : ∀ span binders body, P body → P (.exists span binders body))
    (forall_ : ∀ span binders range body, P range → P body → P (.forall span binders range body))
    (trait : ∀ span name args, P (.trait span name args))
    (matches_ : ∀ span subject pattern, P (.matches span subject pattern))
    (eq : ∀ span left right, P (.eq span left right))
    (ne : ∀ span left right, P (.ne span left right)) (e : Expr) : P e :=
  @Expr.rec P (fun es => ∀ e ∈ es, P e) true false and or not implies iff exists_ forall_ trait
    matches_ eq ne (by simp) (fun _ _ he hes => by simpa using ⟨he, hes⟩) e

/-- What holds of a fragment whenever it holds of its parts holds of every fragment. -/
theorem Fragment.induction {P : Fragment → Prop}
    (node : ∀ tag slots, (∀ f ∈ slots, P f) → P (.node tag slots))
    (ordered : ∀ items, (∀ f ∈ items, P f) → P (.ordered items))
    (unordered : ∀ access fixed rest, (∀ f ∈ access, P f) → (∀ f ∈ fixed, P f) →
      (∀ f ∈ rest, P f) → P (.unordered access fixed rest))
    (resolved : ∀ e, P (.resolved e)) (var : ∀ name type, P (.var name type))
    (wildcard : P .wildcard) (empty : P .empty)
    (fieldAccess : ∀ receiver field asTarget, P receiver → P field →
      P (.fieldAccess receiver field asTarget))
    (fieldAssign : ∀ target value, P target → P value → P (.fieldAssign target value))
    (f : Fragment) : P f :=
  @Fragment.rec P (fun fs => ∀ f ∈ fs, P f) (fun f? => ∀ f ∈ f?, P f) node ordered
    (fun access fixed rest ha hf hr => unordered access fixed rest ha hf hr) resolved var wildcard
    empty fieldAccess fieldAssign (by simp) (fun _ _ hf hfs => by simpa using ⟨hf, hfs⟩)
    (by simp) (fun _ hf => by simpa using hf) f

/-- What holds of a term whenever it holds of its arguments holds of every term. -/
theorem GoalTerm.induction {P : GoalTerm → Prop} (wildcard : P .wildcard)
    (var : ∀ name type, P (.var name type)) (const : ∀ e, P (.const e))
    (pattern : ∀ f, P (.pattern f))
    (apply : ∀ func args, (∀ t ∈ args, P t) → P (.apply func args)) (t : GoalTerm) : P t :=
  @GoalTerm.rec P (fun ts => ∀ t ∈ ts, P t) wildcard var const pattern apply
    (by simp) (fun _ _ ht hts => by simpa using ⟨ht, hts⟩) t

/-- What holds of a goal whenever it holds of its parts holds of every goal. -/
theorem Goal.induction {P : Goal → Prop} (true : P .true) (false : P .false)
    (and : ∀ items, (∀ g ∈ items, P g) → P (.and items))
    (or : ∀ items, (∀ g ∈ items, P g) → P (.or items)) (not : ∀ body, P body → P (.not body))
    (implies : ∀ premise conclusion, P premise → P conclusion → P (.implies premise conclusion))
    (iff : ∀ left right, P left → P right → P (.iff left right))
    (exists_ : ∀ binders body, P body → P (.exists binders body))
    (forall_ : ∀ binders range body, P range → P body → P (.forall binders range body))
    (trait : ∀ span name args, P (.trait span name args))
    (matches_ : ∀ span subject f, P (.matches span subject f))
    (eq : ∀ span left right, P (.eq span left right))
    (ne : ∀ span left right, P (.ne span left right)) (g : Goal) : P g :=
  @Goal.rec P (fun gs => ∀ g ∈ gs, P g) true false and or not implies iff exists_ forall_ trait
    matches_ eq ne (by simp) (fun _ _ hg hgs => by simpa using ⟨hg, hgs⟩) g

end CodeRules
