import CodeRules.Proofs.Fragment.Variant
import CodeRules.Proofs.Goal.Free
import CodeRules.Proofs.Goal.Solution

/-!
# Variants of goals

Goals are variants when they differ in the names of variables and in the numbers of made nodes only.
For bindings that agree along the pairs of variables, the terms of variants have the same values and
stand for the same entities (`Program.value_eq`, `Program.rel_unify`), and so the questions that goals
are made of have matching solutions.
-/

namespace CodeRules

/-! ### Terms and goals -/

namespace GoalTerm

/-- The same term with other names for its variables and other numbers for made nodes. -/
inductive Variant (base : UInt32) (N : Pairing) : GoalTerm → GoalTerm → Prop
  | wildcard : Variant base N .wildcard .wildcard
  | var {name name' : String} {type type' : ParamType} (hname : N name name')
    (htype : type.Alike type') : Variant base N (.var name type) (.var name' type')
  | const {e e' : Entity} (h : e'.normal base = e.normal base) : Variant base N (.const e) (.const e')
  | pattern {f f' : Fragment} (h : f.Variant base N f') : Variant base N (.pattern f) (.pattern f')
  | apply (func : EntityFunction) {args args' : List GoalTerm}
    (h : List.Forall₂ (Variant base N) args args') :
    Variant base N (.apply func args) (.apply func args')

variable {base : UInt32} {N : Pairing} {t t' : GoalTerm}

/-- Variants have occurrences of paired variables. -/
theorem Variant.forall₂_occurrences (h : Variant base N t t') :
    List.Forall₂ N t.occurrences t'.occurrences := by
  induction t using GoalTerm.induction generalizing t' with
  | wildcard => cases h with | wildcard => exact .nil
  | var name type => cases h with | var hname => exact .cons hname .nil
  | const e => cases h with | const => exact .nil
  | pattern f => cases h with | pattern h => exact h.forall₂_occurrences
  | apply func args ih =>
    cases h with
    | @apply _ _ args' h =>
      show List.Forall₂ N (occurrencesAll args) (occurrencesAll args')
      rw [occurrencesAll_eq_flatMap, occurrencesAll_eq_flatMap]
      exact List.rel_flatMap (h.imp_of_mem fun t ht t' _ htt' => ih t ht htt') fun _ _ h => h

/-- The variables of paired arguments are paired. -/
theorem Variant.forall₂_occurrencesAll {ts ts' : List GoalTerm}
    (h : List.Forall₂ (Variant base N) ts ts') :
    List.Forall₂ N (occurrencesAll ts) (occurrencesAll ts') := by
  rw [occurrencesAll_eq_flatMap, occurrencesAll_eq_flatMap]
  exact List.rel_flatMap h fun _ _ => Variant.forall₂_occurrences

end GoalTerm

namespace Goal

mutual

/-- The same goal with other names for its variables and other numbers for made nodes. -/
inductive Variant (base : UInt32) : Pairing → Goal → Goal → Prop
  | true {N : Pairing} : Variant base N .true .true
  | false {N : Pairing} : Variant base N .false .false
  | and {N : Pairing} {items items' : List Goal} (h : VariantAll base N items items') :
    Variant base N (.and items) (.and items')
  | or {N : Pairing} {items items' : List Goal} (h : VariantAll base N items items') :
    Variant base N (.or items) (.or items')
  | not {N : Pairing} {body body' : Goal} (h : Variant base N body body') :
    Variant base N (.not body) (.not body')
  | implies {N : Pairing} {premise premise' conclusion conclusion' : Goal}
    (hpremise : Variant base N premise premise')
    (hconclusion : Variant base N conclusion conclusion') :
    Variant base N (.implies premise conclusion) (.implies premise' conclusion')
  | iff {N : Pairing} {left left' right right' : Goal} (hleft : Variant base N left left')
    (hright : Variant base N right right') : Variant base N (.iff left right) (.iff left' right')
  | exists_ {N : Pairing} {binders binders' : List String} {body body' : Goal}
    (hproper : (N.under binders binders').Proper)
    (hbody : Variant base (N.under binders binders') body body') :
    Variant base N (.exists binders body) (.exists binders' body')
  | forall_ {N : Pairing} {binders binders' : List String} {range range' body body' : Goal}
    (hproper : (N.under binders binders').Proper)
    (hrange : Variant base (N.under binders binders') range range')
    (hbody : Variant base (N.under binders binders') body body') :
    Variant base N (.forall binders range body) (.forall binders' range' body')
  | trait {N : Pairing} (span : Span) (name : String) {args args' : List GoalTerm}
    (h : List.Forall₂ (GoalTerm.Variant base N) args args') :
    Variant base N (.trait span name args) (.trait span name args')
  | matches_ {N : Pairing} (span : Span) {subject subject' : GoalTerm} {f f' : Fragment}
    (hsubject : subject.Variant base N subject') (hf : f.Variant base N f') :
    Variant base N (.matches span subject f) (.matches span subject' f')
  | eq {N : Pairing} (span : Span) {left left' right right' : GoalTerm}
    (hleft : left.Variant base N left') (hright : right.Variant base N right') :
    Variant base N (.eq span left right) (.eq span left' right')
  | ne {N : Pairing} (span : Span) {left left' right right' : GoalTerm}
    (hleft : left.Variant base N left') (hright : right.Variant base N right') :
    Variant base N (.ne span left right) (.ne span left' right')

/-- Several goals and their variants. -/
inductive VariantAll (base : UInt32) : Pairing → List Goal → List Goal → Prop
  | nil {N : Pairing} : VariantAll base N [] []
  | cons {N : Pairing} {g g' : Goal} {gs gs' : List Goal} (h : Variant base N g g')
    (hs : VariantAll base N gs gs') : VariantAll base N (g :: gs) (g' :: gs')

end

variable {base : UInt32} {N : Pairing}

/-- Goals that are variants are so one by one. -/
theorem variantAll_iff {gs gs' : List Goal} :
    VariantAll base N gs gs' ↔ List.Forall₂ (Variant base N) gs gs' := by
  constructor
  · intro h
    induction gs generalizing gs' with
    | nil => cases h with | nil => exact .nil
    | cons g gs ih => cases h with | cons h hs => exact .cons h (ih hs)
  · intro h
    induction h with
    | nil => exact .nil
    | cons h _ ih => exact .cons h ih

/-- Outside the quantifier the variables that it does not bind are paired. -/
private theorem forall₂_filter {binders binders' l l' : List String}
    (h : List.Forall₂ (N.under binders binders') l l') :
    List.Forall₂ N (l.filter fun n => !binders.contains n)
      (l'.filter fun n => !binders'.contains n) := by
  induction h with
  | nil => exact .nil
  | @cons n m l l' hn _ ih =>
    -- The quantifiers bind both variables of a pair or neither.
    have hbound := Pairing.mem_binders_iff hn
    by_cases hin : n ∈ binders
    · rwa [List.filter_cons_of_neg (by simpa using hin),
        List.filter_cons_of_neg (by simpa using hbound.1 hin)]
    · rw [List.filter_cons_of_pos (by simpa using hin),
        List.filter_cons_of_pos (by simpa using mt hbound.2 hin)]
      exact .cons (Pairing.pairs_of_under hn hin) ih

/-- The free variables of variants are paired. -/
theorem Variant.forall₂_free {g g' : Goal} (h : Variant base N g g') :
    List.Forall₂ N g.free g'.free := by
  have hall {N : Pairing} {gs gs' : List Goal} (ih : ∀ g ∈ gs, ∀ {N : Pairing} {g'},
      Variant base N g g' → List.Forall₂ N g.free g'.free) (h : VariantAll base N gs gs') :
      List.Forall₂ N (freeAll gs) (freeAll gs') := by
    rw [freeAll_eq_flatMap, freeAll_eq_flatMap]
    exact List.rel_flatMap ((variantAll_iff.1 h).imp_of_mem fun g hg g' _ hgg' => ih g hg hgg')
      fun _ _ h => h
  induction g using Goal.induction generalizing N g' with
  | true => cases h with | true => exact .nil
  | false => cases h with | false => exact .nil
  | and items ih => cases h with | and h => exact hall ih h
  | or items ih => cases h with | or h => exact hall ih h
  | not body ih => cases h with | not h => exact (ih h : List.Forall₂ N body.free _)
  | implies premise conclusion ihp ihc =>
    cases h with | implies hp hc => exact List.rel_append (ihp hp) (ihc hc)
  | iff left right ihl ihr => cases h with | iff hl hr => exact List.rel_append (ihl hl) (ihr hr)
  -- the binders are paired with each other, so what is free in both is paired as before
  | exists_ binders body ih => cases h with | exists_ _ hbody => exact forall₂_filter (ih hbody)
  | forall_ binders range body ihr ihb =>
    cases h with
    | forall_ _ hrange hbody => exact forall₂_filter (List.rel_append (ihr hrange) (ihb hbody))
  | trait span name args =>
    cases h with | trait _ _ h => exact GoalTerm.Variant.forall₂_occurrencesAll h
  | matches_ span subject f =>
    cases h with
    | matches_ _ hs hf => exact List.rel_append hs.forall₂_occurrences hf.forall₂_occurrences
  | eq span left right =>
    cases h with | eq _ hl hr => exact List.rel_append hl.forall₂_occurrences hr.forall₂_occurrences
  | ne span left right =>
    cases h with | ne _ hl hr => exact List.rel_append hl.forall₂_occurrences hr.forall₂_occurrences

end Goal

/-! ### Matching solutions -/

namespace Bindings

variable {N : Pairing} {P P' : Bindings → Prop} {b b' : Bindings}

/-- What one predicate says of bindings the other one says of bindings that agree, and the other way
round. -/
structure Matching (N : Pairing) (P P' : Bindings → Prop) : Prop where
  forth : ∀ c, P c → ∃ c', P' c' ∧ c.AgreeOn N c'
  back : ∀ c', P' c' → ∃ c, P c ∧ c.AgreeOn N c'

namespace Matching

/-- One has a solution if and only if the other has one. -/
theorem exists_iff (h : Matching N P P') : (∃ c, P c) ↔ ∃ c', P' c' :=
  ⟨fun ⟨c, hc⟩ => (h.forth c hc).imp fun _ hc' => hc'.1,
    fun ⟨c', hc'⟩ => (h.back c' hc').imp fun _ hc => hc.1⟩

/-- What follows from all solutions follows from all that match. -/
theorem forall_iff {Q Q' : Bindings → Prop} (h : Matching N P P')
    (hQ : ∀ d d', P d → P' d' → d.AgreeOn N d' → (Q d ↔ Q' d')) :
    (∀ d, P d → Q d) ↔ ∀ d', P' d' → Q' d' := by
  constructor
  · intro hall d' hd'
    obtain ⟨d, hd, hagree⟩ := h.back d' hd'
    exact (hQ d d' hd hd' hagree).1 (hall d hd)
  · intro hall d hd
    obtain ⟨d', hd', hagree⟩ := h.forth d hd
    exact (hQ d d' hd hd' hagree).2 (hall d' hd')

/-- A single solution matches one that agrees with it. -/
theorem same (h : b.AgreeOn N b') : Matching N (fun c => c = b) fun c => c = b' :=
  ⟨fun _ hc => ⟨b', rfl, hc ▸ h⟩, fun _ hc => ⟨b, rfl, hc ▸ h⟩⟩

/-- One step after the other. -/
theorem comp {Q Q' : Bindings → Bindings → Prop} (h : Matching N P P')
    (hQ : ∀ d d', P d → P' d' → d.AgreeOn N d' → Matching N (Q d) (Q' d')) :
    Matching N (fun c => ∃ d, P d ∧ Q d c) fun c => ∃ d, P' d ∧ Q' d c where
  forth c hc := by
    obtain ⟨d, hd, hc⟩ := hc
    obtain ⟨d', hd', hagree⟩ := h.forth d hd
    obtain ⟨c', hc', hagree⟩ := (hQ d d' hd hd' hagree).forth c hc
    exact ⟨c', ⟨d', hd', hc'⟩, hagree⟩
  back c' hc' := by
    obtain ⟨d', hd', hc'⟩ := hc'
    obtain ⟨d, hd, hagree⟩ := h.back d' hd'
    obtain ⟨c, hc, hagree⟩ := (hQ d d' hd hd' hagree).back c' hc'
    exact ⟨c, ⟨d, hd, hc⟩, hagree⟩

/-- Alternatives that match, match together. -/
theorem or {Q Q' : Bindings → Prop} (h : Matching N P P') (hQ : Matching N Q Q') :
    Matching N (fun c => P c ∨ Q c) fun c => P' c ∨ Q' c where
  forth c hc := hc.elim (fun hc => (h.forth c hc).imp fun _ hc' => ⟨.inl hc'.1, hc'.2⟩)
    fun hc => (hQ.forth c hc).imp fun _ hc' => ⟨.inr hc'.1, hc'.2⟩
  back c' hc' := hc'.elim (fun hc' => (h.back c' hc').imp fun _ hc => ⟨.inl hc.1, hc.2⟩)
    fun hc' => (hQ.back c' hc').imp fun _ hc => ⟨.inr hc.1, hc.2⟩

/-- A test keeps bindings that agree. -/
theorem test (h : b.AgreeOn N b') {Q Q' : Prop} (hQ : Q ↔ Q') :
    Matching N (fun c => c = b ∧ Q) fun c => c = b' ∧ Q' :=
  ⟨fun _ hc => ⟨b', ⟨rfl, hQ.1 hc.2⟩, hc.1 ▸ h⟩, fun _ hc => ⟨b, ⟨rfl, hQ.2 hc.2⟩, hc.1 ▸ h⟩⟩

/-- Matching is a property of what the predicates say. -/
theorem congr {Q Q' : Bindings → Prop} (h : Matching N P P') (hP : ∀ c, P c ↔ Q c)
    (hP' : ∀ c, P' c ↔ Q' c) : Matching N Q Q' where
  forth c hc := (h.forth c ((hP c).2 hc)).imp fun c' hc' => ⟨(hP' c').1 hc'.1, hc'.2⟩
  back c' hc' := (h.back c' ((hP' c').2 hc')).imp fun c hc => ⟨(hP c).1 hc.1, hc.2⟩

/-- Where there are no solutions they match. -/
theorem of_not (h : ∀ c, ¬ P c) (h' : ∀ c, ¬ P' c) : Matching N P P' :=
  ⟨fun c hc => (h c hc).elim, fun c hc => (h' c hc).elim⟩

/-- The bindings that two results are match, if the results agree. -/
theorem of_rel {o o' : Option Bindings} (h : Option.Rel (AgreeOn N) o o') :
    Matching N (fun c => o = some c) fun c => o' = some c := by
  cases h with
  | none =>
    exact .of_not (fun c hc => Option.some_ne_none c hc.symm) fun c hc =>
      Option.some_ne_none c hc.symm
  | @some b b' h =>
    refine ⟨fun c hc => ⟨b', rfl, ?_⟩, fun c hc => ⟨b, rfl, ?_⟩⟩
    · exact Option.some.inj hc ▸ h
    · exact Option.some.inj hc ▸ h

/-- Results that may be errors match as far as they are not. -/
theorem of_outcome {o o' : Option (Option Bindings)} (h : Option.Rel (Option.Rel (AgreeOn N)) o o') :
    Matching N (fun c => o = some (some c)) fun c => o' = some (some c) := by
  cases h with
  | none =>
    exact .of_not (fun _ hc => Option.some_ne_none _ hc.symm) fun _ hc =>
      Option.some_ne_none _ hc.symm
  | some h => exact (of_rel h).congr (fun _ => Option.some_inj.symm) fun _ => Option.some_inj.symm

/-- What is found among the same elements matches, if it does for each of them. -/
theorem exists_mem {α : Type} {l : List α} {P P' : α → Bindings → Prop}
    (h : ∀ a ∈ l, Matching N (P a) (P' a)) :
    Matching N (fun c => ∃ a ∈ l, P a c) fun c => ∃ a ∈ l, P' a c where
  forth c hc := by
    obtain ⟨a, ha, hc⟩ := hc
    exact ((h a ha).forth c hc).imp fun c' hc' => ⟨⟨a, ha, hc'.1⟩, hc'.2⟩
  back c' hc' := by
    obtain ⟨a, ha, hc'⟩ := hc'
    exact ((h a ha).back c' hc').imp fun c hc => ⟨⟨a, ha, hc.1⟩, hc.2⟩

end Matching

end Bindings

namespace Solutions

open Bindings (AgreeOn)

variable {N : Pairing} {b b' : Bindings}

/-- Each solution of one set agrees with one of the other. -/
def Matching (N : Pairing) (s s' : Solutions) : Prop :=
  Bindings.Matching N (fun c => c ∈ s.toList) fun c => c ∈ s'.toList

/-- Single solutions that agree match. -/
theorem Matching.singleton (h : b.AgreeOn N b') :
    Matching N (Catalog.singleton b) (Catalog.singleton b') :=
  (Bindings.Matching.same h).congr (fun _ => List.mem_singleton.symm) fun _ =>
    List.mem_singleton.symm

/-- The same test keeps the bindings in both, or drops them. -/
theorem Matching.test (h : b.AgreeOn N b') (q : Bool) :
    Matching N (Solutions.test q b) (Solutions.test q b') := by
  cases q with
  | false => exact .of_not (fun _ => List.not_mem_nil) fun _ => List.not_mem_nil
  | true => exact .singleton h

/-- Results that agree are solutions that match. -/
theorem Matching.ofOption {o o' : Option Bindings} (h : Option.Rel (AgreeOn N) o o') :
    Matching N (Solutions.ofOption o) (Solutions.ofOption o') := by
  cases h with
  | none => exact .of_not (fun _ => List.not_mem_nil) fun _ => List.not_mem_nil
  | some h => exact .singleton h

/-- Solutions that are found unless there is an error. -/
theorem Matching.of_outcome {o o' : Option Solutions} (h : Option.Rel (Matching N) o o') :
    Bindings.Matching N (fun c => ∃ s, o = some s ∧ c ∈ s.toList) fun c =>
      ∃ s, o' = some s ∧ c ∈ s.toList := by
  cases h with
  | none => exact .of_not (by simp) (by simp)
  | some h => exact h.congr (fun _ => by simp) fun _ => by simp

end Solutions

/-! ### Values -/

open Bindings (AgreeOn Matching)

variable {base : UInt32} {N : Pairing} {b b' : Bindings}

namespace Program

variable {p : Program} {e : Entity} {f f' : Fragment} {t t' : GoalTerm} {ts ts' : List GoalTerm}

/-- What is recognized in a normal form is in normal form. -/
theorem recognize_isNormal (hp : p.Below base) (he : e.IsNormal base) {m : Bindings}
    (h : f.recognize p.surroundings e = .ok (some m)) : m.withoutResult.IsNormal base where
  uniform := Fragment.uniform_of_recognize hp he.uniform h
  normal := by
    have hmap := f.recognize_normal hp he.uniform
    rw [he.normal, h] at hmap
    have hm : m = m.normal base := Option.some.inj (Except.ok.inj hmap)
    rw [Bindings.normal_withoutResult, ← hm]

/-- Variants of a fragment match the same entities, with bindings that agree. -/
theorem rel_matched (hp : p.Below base) (hN : N.Proper) (hf : f.Variant base N f')
    (he : e.IsNormal base) (hb : b.IsNormal base) (hb' : b'.IsNormal base) (h : b.AgreeOn N b') :
    Option.Rel (Option.Rel (AgreeOn N)) (p.matched f b e) (p.matched f' b' e) := by
  have hnormal (f : Fragment) (m : Bindings) (h : f.recognize p.surroundings e = .ok (some m)) :
      m.withoutResult.IsNormal base := recognize_isNormal hp he h
  have halike := hf.recognize hN p.surroundings e
  have hm := hnormal f
  -- Recognizing gives bindings that agree, and merging bindings that agree either works on both sides or on
  -- none.
  have hm' := hnormal f'
  rw [matched_eq, matched_eq]
  generalize f.recognize p.surroundings e = x at halike hm
  generalize f'.recognize p.surroundings e = y at halike hm'
  cases halike with
  | malformed d d' => exact .none
  | found ho =>
    cases ho with
    | none => exact .some .none
    | @some m m' hmm' =>
      have hmm' := hmm'.withoutResult
      refine .some (Option.rel_of_exists (fun c hc => ?_) fun c' hc' => ?_)
      · exact h.merge hmm'.toAgreeOn (hm m rfl) (hm' m' rfl) hb hb'
          (fun n x hx => (hmm'.right n x hx).2) hc
      · obtain ⟨c, hc, _⟩ := h.symm.merge hmm'.toAgreeOn.symm (hm' m' rfl) (hm m rfl) hb' hb
          (fun n x hx => (hmm'.left n x hx).2) hc'
        exact ⟨c, hc⟩

/-- The same value up to normal forms, for bindings that need not be in normal form. -/
private theorem valueOf_eq (hp : p.Below base) (ht : t.Variant base N t') (htu : t.Uniform base)
    (htu' : t'.Uniform base) (hb : b.Uniform base) (hb' : b'.Uniform base) (h : b.AgreeOn N b') :
    (p.bare.valueOf (.unused base) b' t').toOption.map (Option.map (Entity.normal base)) =
      (p.bare.valueOf (.unused base) b t).toOption.map (Option.map (Entity.normal base)) := by
  induction t using GoalTerm.induction generalizing t' with
  | wildcard => cases ht with | wildcard => rfl
  | pattern f => cases ht with | pattern => rfl
  | var name type =>
    cases ht with
    | var hname => simp only [World.valueOf, h.vars name _ hname]
  | const e => cases ht with | const he => exact congrArg (fun x => some (some x)) he
  | apply func args ih =>
    cases ht with
    | @apply _ _ args' hargs =>
      -- The arguments are equal up to normal forms, and so is what a function gives for them.
      have hvalues : (p.bare.argumentsOf (.unused base) b' func args').toOption.map
            (List.map (Entity.normal base)) =
          (p.bare.argumentsOf (.unused base) b func args).toOption.map
            (List.map (Entity.normal base)) :=
        World.toOption_argumentsOf (List.Forall₂.flip (hargs.imp_of_mem fun t ht t' ht' htt' =>
          ih t ht htt' (htu.arg ht) (htu'.arg ht'))) func
      have huniform {b : Bindings} (hb : b.Uniform base) {ts : List GoalTerm}
          (hts : ∀ t ∈ ts, t.Uniform base) {es : List Entity}
          (h : es ∈ (p.bare.argumentsOf (.unused base) b func ts).toOption) :
          ∀ e ∈ es, e.Uniform base :=
        World.uniform_argumentsOf
          (fun t ht e => World.uniform_valueOf (w := p.bare) hp hb (hts t ht))
          (Except.toOption_eq_some_iff.1 h)
      simp only [World.valueOf, Except.toOption_bind, Except.toOption_pure, Option.map_bind]
      apply Option.bind_eq_bind_of_map hvalues
      intro es' hes' es hes hnormal
      have hes := huniform hb (fun t ht => htu.arg ht) hes
      have hes' := huniform hb' (fun t ht => htu'.arg ht) hes'
      have hcall := World.toOption_call (w := p.bare) hp Arena.intact_unused func hes' hes hnormal
      have hcall' := World.toOption_call (w := p.bare) hp Arena.intact_unused func hes hes rfl
      -- Both calls equal the call with the values of the other term, up to normal forms.
      simp only [Function.comp_apply, hcall, hcall']

/-- Variants of a term have the same value. -/
theorem value_eq (hp : p.Below base) (ht : t.Variant base N t') (htu : t.Uniform base)
    (htu' : t'.Uniform base) (hb : b.IsNormal base) (hb' : b'.IsNormal base) (h : b.AgreeOn N b') :
    p.value base b' t' = p.value base b t := valueOf_eq hp ht htu htu' hb.uniform hb'.uniform h

/-! ### Unification -/

/-- Variants of a term stand for the same entities, after bindings that agree were extended by bindings
that agree. -/
theorem rel_unify (hp : p.Below base) (hN : N.Proper) (ht : t.Variant base N t')
    (htu : t.Uniform base) (htu' : t'.Uniform base) (he : e.IsNormal base) (hb : b.IsNormal base)
    (hb' : b'.IsNormal base) (h : b.AgreeOn N b') :
    Option.Rel (Option.Rel (AgreeOn N)) (p.bare.unify (.unused base) t e b).toOption
      (p.bare.unify (.unused base) t' e b').toOption := by
  have htest (q : Bool) : Option.Rel (Option.Rel (AgreeOn N)) (some (if q then some b else none))
      (some (if q then some b' else none)) := by
    cases q with
    | false => exact .some .none
    | true => exact .some (.some h)
  cases ht with
  | wildcard => exact .some (.some h)
  | @var name name' type type' hname htype =>
    simp only [World.unify, ← h.vars name name' hname, htype.accepts_eq]
    cases b.find? name with
    | some known => exact htest _
    | none =>
      dsimp only
      split
      · exact .some (.some (h.bind hN hname e))
      · exact .some .none
  | @const known known' hnormal =>
    have halias : known'.aliases e = known.aliases e := by
      rw [Entity.aliases, ← Entity.located_normal base, hnormal, Entity.located_normal,
        Entity.aliases]
    simp only [World.unify, halias]
    exact htest _
  | pattern hf => exact rel_matched hp hN hf he hb hb' h
  | @apply func args args' hargs =>
    have hvalue := value_eq hp (.apply func hargs) htu htu' hb hb' h
    rw [value, value] at hvalue
    simp only [World.unify, Except.toOption_bind, Except.toOption_pure]
    generalize (p.bare.valueOf (.unused base) b (.apply func args)).toOption = v at hvalue
    generalize (p.bare.valueOf (.unused base) b' (.apply func args')).toOption = v' at hvalue
    -- values are compared by their shapes
    have hshape {x x' : Entity} (hx : x'.normal base = x.normal base) :
        x'.sameShape e = x.sameShape e := by
      rw [Entity.sameShape, ← Entity.shape_normal base, hx, Entity.shape_normal, Entity.sameShape]
    cases v with
    | none =>
      obtain rfl := Option.map_eq_none_iff.1 hvalue
      exact .none
    | some value =>
      obtain ⟨value', rfl, hvalue'⟩ := Option.map_eq_some_iff.1 hvalue
      cases value with
      | none =>
        obtain rfl := Option.map_eq_none_iff.1 hvalue'
        exact .some .none
      | some x =>
        obtain ⟨x', rfl, hx⟩ := Option.map_eq_some_iff.1 hvalue'
        simp only [Option.bind_some, hshape hx]
        exact htest _

/-- Variants of terms stand for the same entities, after bindings that agree were extended by bindings
that agree. -/
theorem rel_unifyAll (hp : p.Below base) (hN : N.Proper)
    (hts : List.Forall₂ (GoalTerm.Variant base N) ts ts') (htu : ∀ t ∈ ts, t.Uniform base)
    (htu' : ∀ t ∈ ts', t.Uniform base) {es : List Entity} (hes : ∀ e ∈ es, e.IsNormal base)
    (hb : b.IsNormal base) (hb' : b'.IsNormal base) (h : b.AgreeOn N b') :
    Option.Rel (Option.Rel (AgreeOn N)) (p.bare.unifyAll (.unused base) ts es b).toOption
      (p.bare.unifyAll (.unused base) ts' es b').toOption := by
  induction hts generalizing es b b' with
  | nil => exact .some (.some h)
  | @cons t t' ts ts' ht _ ih =>
    cases es with
    | nil => exact .some (.some h)
    | cons e es =>
      have he := hes e (List.mem_cons_self ..)
      have htu₁ := htu t (List.mem_cons_self ..)
      have htu₁' := htu' t' (List.mem_cons_self ..)
      have hfirst := rel_unify hp hN ht htu₁ htu₁' he hb hb' h
      have hnormal := fun o ho => unify_isNormal (o := o) hp hb htu₁ he ho
      have hnormal' := fun o ho => unify_isNormal (o := o) hp hb' htu₁' he ho
      simp only [World.unifyAll, Except.toOption_bind]
      generalize (p.bare.unify (.unused base) t e b).toOption = x at hfirst hnormal
      generalize (p.bare.unify (.unused base) t' e b').toOption = y at hfirst hnormal'
      cases hfirst with
      | none => exact .none
      | some hfirst =>
        cases hfirst with
        | none => exact .some .none
        -- what is left is unified with what was bound so far, which agrees
        | @some c c' hc =>
          exact ih (fun u hu => htu u (List.mem_cons_of_mem _ hu))
            (fun u hu => htu' u (List.mem_cons_of_mem _ hu))
            (fun x hx => hes x (List.mem_cons_of_mem _ hx)) (hnormal _ rfl c rfl)
            (hnormal' _ rfl c' rfl) hc

/-! ### Equations -/

variable {left left' right right' : GoalTerm}

/-- Variants of a variable and a pattern extend the bindings in the same way: the made entity has a normal
form that does not depend on names. -/
theorem rel_generatedInto (hN : N.Proper) {name name' : String} {type type' : ParamType}
    (hname : N name name') (htype : type.Alike type') (hf : f.Variant base N f') (h : b.AgreeOn N b') :
    Option.Rel (AgreeOn N) (p.generatedInto base name type f b)
      (p.generatedInto base name' type' f' b') := by
  unfold generatedInto
  rw [hf.generated_eq h, htype.accepts_eq]
  cases f.generated base p.types b with
  | none => exact .none
  | some e =>
    show Option.Rel _ (if _ then _ else _) (if _ then _ else _)
    split
    · exact .some (h.withoutResult.bind hN hname _)
    · exact .none

/-- Variants of an equation have matching solutions. -/
theorem rel_eqAnswers (hp : p.Below base) (hN : N.Proper) (hleft : left.Variant base N left')
    (hright : right.Variant base N right') (hlu : left.Uniform base) (hlu' : left'.Uniform base)
    (hru : right.Uniform base) (hru' : right'.Uniform base) (hb : b.IsNormal base)
    (hb' : b'.IsNormal base) (h : b.AgreeOn N b') :
    Option.Rel (Solutions.Matching N) (p.eqAnswers base left right b)
      (p.eqAnswers base left' right' b') := by
  have hnormal (o : Option Entity) (ho : p.value base b left = some o) := value_isNormal hp hb hlu ho
  have hnormal' (o : Option Entity) (ho : p.value base b right = some o) := value_isNormal hp hb hru ho
  have hunify {t t' : GoalTerm} (ht : t.Variant base N t') (htu : t.Uniform base)
      (htu' : t'.Uniform base) {e : Entity} (he : e.IsNormal base) :
      Option.Rel (Solutions.Matching N)
        (do return Solutions.ofOption (← (p.bare.unify (.unused base) t e b).toOption))
        (do return Solutions.ofOption (← (p.bare.unify (.unused base) t' e b').toOption)) :=
    Option.rel_bind (rel_unify hp hN ht htu htu' he hb hb' h) fun _ _ ho => .some (.ofOption ho)
  have hmade {name name' : String} {type type' : ParamType} {f f' : Fragment} (hname : N name name')
      (htype : type.Alike type') (hf : f.Variant base N f') :
      Option.Rel (Solutions.Matching N)
        (do return Catalog.singleton (← p.generatedInto base name type f b))
        (do return Catalog.singleton (← p.generatedInto base name' type' f' b')) :=
    Option.rel_bind (rel_generatedInto hN hname htype hf h) fun _ _ hc => .some (.singleton hc)
  -- the sides have the same values, so the same question is asked
  unfold eqAnswers
  rw [value_eq hp hleft hlu hlu' hb hb' h, value_eq hp hright hru hru' hb hb' h]
  generalize p.value base b left = l at hnormal
  generalize p.value base b right = r at hnormal'
  match l, r with
  | none, _ => exact .none
  | some none, none | some (some _), none => exact .none
  | some (some l), some (some r) => exact .some (.test h _)
  | some (some l), some none => exact hunify hright hru hru' (hnormal _ rfl l rfl)
  | some none, some (some r) => exact hunify hleft hlu hlu' (hnormal' _ rfl r rfl)
  -- with neither side known, one is a variable and the other the pattern that makes its entity
  | some none, some none =>
    cases hleft with
    | var hname htype =>
      cases hright with
      | pattern hf => exact hmade hname htype hf
      | _ => exact .none
    | pattern hf =>
      cases hright with
      | var hname htype => exact hmade hname htype hf
      | _ => exact .none
    | _ => exact .none

/-- Variants of an inequation have matching solutions. -/
theorem rel_neAnswers (hp : p.Below base) (hleft : left.Variant base N left')
    (hright : right.Variant base N right') (hlu : left.Uniform base) (hlu' : left'.Uniform base)
    (hru : right.Uniform base) (hru' : right'.Uniform base) (hb : b.IsNormal base)
    (hb' : b'.IsNormal base) (h : b.AgreeOn N b') :
    Option.Rel (Solutions.Matching N) (p.neAnswers base left right b)
      (p.neAnswers base left' right' b') := by
  unfold neAnswers
  rw [value_eq hp hleft hlu hlu' hb hb' h, value_eq hp hright hru hru' hb hb' h]
  match p.value base b left, p.value base b right with
  | none, _ => exact .none
  | some none, none | some (some _), none => exact .none
  | some (some l), some (some r) => exact .some (.test h _)
  | some (some _), some none | some none, some (some _) | some none, some none => exact .none

end Program

/-! ### Relations and fragments -/

namespace Solutions

variable {α : Type} {f f' : α → Option (Option Bindings)} {l : List α}

/-- Findings are collected unless there is an error for one of the elements. -/
theorem isSome_collected : (collected f l).isSome ↔ ∀ a ∈ l, (f a).isSome := by
  have hfold (acc : Solutions) :
      (l.foldlM (fun (out : Solutions) x => do return (← f x).elim out out.insert) acc).isSome ↔
        ∀ a ∈ l, (f a).isSome := by
    induction l generalizing acc with
    | nil => simp
    | cons a l ih =>
      rw [List.foldlM_cons, List.forall_mem_cons]
      cases f a with
      | none => simp
      | some o => simpa using ih _
  exact hfold ∅

/-- Whether there is an error is decided element by element. -/
theorem isSome_collected_iff (h : ∀ a ∈ l, (f a).isSome = (f' a).isSome) :
    (collected f l).isSome ↔ (collected f' l).isSome := by
  rw [isSome_collected, isSome_collected]
  exact forall₂_congr fun a ha => by rw [h a ha]

end Solutions

namespace World

variable {w : World} {subject subject' : GoalTerm} {args args' : List GoalTerm} {f f' : Fragment}
  {name : String}

/-- What a view of a relation shows is in normal form. -/
theorem isNormal_of_view (hstore : w.store.Uniform base) {k : Nat} {facts : List (List Entity)}
    (hview : w.store.view base name = some (k, facts)) : ∀ es ∈ facts, ∀ e ∈ es, e.IsNormal base := by
  obtain ⟨r, hr, hfacts⟩ := Option.map_eq_some_iff.1 hview
  obtain ⟨-, rfl⟩ := Prod.mk.inj hfacts
  intro es hes e he
  obtain ⟨t, ht, rfl⟩ := List.mem_map.1 hes
  obtain ⟨x, hx, rfl⟩ := List.mem_map.1 he
  exact (hstore name r hr t ht x hx).isNormal

/-- Variants ask a relation with matching solutions. -/
theorem TraitSolution.matching (hw : w.Uniform base) (hstore : w.store.Uniform base) (hN : N.Proper)
    (hargs : List.Forall₂ (GoalTerm.Variant base N) args args') (hu : ∀ t ∈ args, t.Uniform base)
    (hu' : ∀ t ∈ args', t.Uniform base) (hb : b.IsNormal base) (hb' : b'.IsNormal base)
    (h : b.AgreeOn N b') :
    Matching N (w.TraitSolution base name args b) (w.TraitSolution base name args' b') := by
  -- Both arguments ask for the same facts of the same relation.
  have hfacts (facts : List (List Entity))
      (hview : w.store.view base name = some (args.length, facts)) :=
    Matching.exists_mem fun es hes => .of_outcome <|
      Program.rel_unifyAll hw.program hN hargs hu hu' (isNormal_of_view hstore hview es hes) hb hb' h
  have hlength := hargs.length_eq
  refine ⟨fun c hc => ?_, fun c' hc' => ?_⟩
  · obtain ⟨facts, hview, hc⟩ := hc
    obtain ⟨c', hc', hagree⟩ := (hfacts facts hview).forth c hc
    exact ⟨c', ⟨facts, hlength ▸ hview, hc'⟩, hagree⟩
  · obtain ⟨facts, hview, hc'⟩ := hc'
    obtain ⟨c, hc, hagree⟩ := (hfacts facts (hlength ▸ hview)).back c' hc'
    exact ⟨c, ⟨facts, hlength ▸ hview, hc⟩, hagree⟩

/-- Asking a relation is an error for both variants or for none. -/
theorem isSome_traitAnswers_iff (hw : w.Uniform base) (hstore : w.store.Uniform base) (hN : N.Proper)
    (hargs : List.Forall₂ (GoalTerm.Variant base N) args args') (hu : ∀ t ∈ args, t.Uniform base)
    (hu' : ∀ t ∈ args', t.Uniform base) (hb : b.IsNormal base) (hb' : b'.IsNormal base)
    (h : b.AgreeOn N b') : (w.traitAnswers base name args b).isSome ↔
      (w.traitAnswers base name args' b').isSome := by
  unfold traitAnswers
  rw [← hargs.length_eq]
  cases hview : w.store.view base name with
  | none => rfl
  | some view =>
    obtain ⟨arity, facts⟩ := view
    simp only [Option.bind_eq_bind, Option.bind_some]
    split
    · rfl
    · exact Solutions.isSome_collected_iff fun es hes => Option.isSome_eq_of_rel <|
        Program.rel_unifyAll hw.program hN hargs hu hu' (isNormal_of_view hstore hview es hes) hb hb' h

/-- The same entities are candidates for both variants. -/
private theorem candidates_eq {type type' : ParamType} (htype : type.Alike type')
    (hf : f.Variant base N f') : w.candidates type' f' = w.candidates type f := by
  simp only [candidates, htype.toCategory_eq, htype.accepts_eq, hf.rootTags_eq]

/-- What a fragment finds in a candidate, and the variable that stands for the candidate. -/
private theorem rel_candidate (hw : w.Uniform base) (hN : N.Proper) (hf : f.Variant base N f')
    {name name' : String} (hname : N name name') (hb : b.IsNormal base) (hb' : b'.IsNormal base)
    (h : b.AgreeOn N b') {e : Entity} (he : e.IsNormal base) :
    Option.Rel (Option.Rel (AgreeOn N))
      (do return (← w.program.matched f b e).bind (·.bind? name e))
      (do return (← w.program.matched f' b' e).bind (·.bind? name' e)) :=
  Option.rel_bind (Program.rel_matched hw.program hN hf he hb hb' h) fun _ _ ho =>
    .some (Option.rel_bind ho fun _ _ hc => hc.rel_bind? hN hname e)

/-- A candidate is a solution if the fragment matches it and the variable can stand for it. -/
private theorem candidate_iff {f : Fragment} {name : String} {b c : Bindings} {e : Entity} :
    (do return (← w.program.matched f b e).bind (·.bind? name e)) = some (some c) ↔
      ∃ d, w.program.matched f b e = some (some d) ∧ d.bind? name e = some c := by
  cases w.program.matched f b e with
  | none => simp
  | some found => cases found <;> simp

/-- Variants ask about fragments with matching solutions. -/
theorem MatchSolution.matching (hw : w.Uniform base) (hN : N.Proper)
    (hsubject : subject.Variant base N subject') (hf : f.Variant base N f')
    (hu : subject.Uniform base) (hu' : subject'.Uniform base) (hb : b.IsNormal base)
    (hb' : b'.IsNormal base) (h : b.AgreeOn N b') :
    Matching N (w.MatchSolution base subject f b) (w.MatchSolution base subject' f' b') := by
  have hnormal (o : Option Entity) (ho : w.program.value base b subject = some o) :=
    Program.value_isNormal hw.program hb hu ho
  have hmatched {e : Entity} (he : e.IsNormal base) :=
    Matching.of_outcome (Program.rel_matched hw.program hN hf he hb hb' h)
  unfold MatchSolution
  -- Both subjects have the same value, so either both are matched or both are searched for.
  rw [Program.value_eq hw.program hsubject hu hu' hb hb' h]
  generalize w.program.value base b subject = v at hnormal
  match v with
  | none => exact .of_not (fun _ => id) fun _ => id
  | some (some e) => exact hmatched (hnormal _ rfl e rfl)
  | some none =>
    cases hsubject with
    | var hname htype =>
      simp only [candidates_eq htype hf]
      refine .exists_mem fun e he => ?_
      have hrel := rel_candidate hw hN hf hname hb hb' h (hw.candidates he).isNormal
      exact (Matching.of_outcome hrel).congr (fun _ => candidate_iff) fun _ => candidate_iff
    | wildcard =>
      simp only [candidates_eq (.refl .any) hf]
      exact .exists_mem fun e he => hmatched (hw.candidates he).isNormal
    | _ => exact .of_not (fun _ => id) fun _ => id

/-- Asking about a fragment is an error for both variants or for none. -/
theorem isSome_matchAnswers_iff (hw : w.Uniform base) (hN : N.Proper)
    (hsubject : subject.Variant base N subject') (hf : f.Variant base N f')
    (hu : subject.Uniform base) (hu' : subject'.Uniform base) (hb : b.IsNormal base)
    (hb' : b'.IsNormal base) (h : b.AgreeOn N b') :
    (w.matchAnswers base subject f b).isSome ↔ (w.matchAnswers base subject' f' b').isSome := by
  have hnormal (o : Option Entity) (ho : w.program.value base b subject = some o) :=
    Program.value_isNormal hw.program hb hu ho
  -- variants recognize the same candidates
  have hmatched {e : Entity} (he : e.IsNormal base) :
      (w.program.matched f b e).isSome = (w.program.matched f' b' e).isSome :=
    Option.isSome_eq_of_rel (Program.rel_matched hw.program hN hf he hb hb' h)
  have hcandidate {type : ParamType} {e : Entity}
      (he : e ∈ (w.candidates type f).map (Entity.normal base)) : e.IsNormal base := by
    obtain ⟨x, hx, rfl⟩ := List.mem_map.1 he
    exact (hw.candidates hx).isNormal
  unfold matchAnswers
  rw [Program.value_eq hw.program hsubject hu hu' hb hb' h]
  generalize w.program.value base b subject = v at hnormal
  match v with
  | none => rfl
  | some (some e) =>
    have he := hmatched (hnormal _ rfl e rfl)
    simp only [Option.bind_eq_bind, Option.bind_some, Option.pure_def, Option.isSome_bind]
    simpa using he
  | some none =>
    cases hsubject with
    | var hname htype =>
      simp only [candidates_eq htype hf]
      exact Solutions.isSome_collected_iff fun e he => Option.isSome_eq_of_rel <|
        rel_candidate hw hN hf hname hb hb' h (hcandidate he)
    | wildcard =>
      simp only [candidates_eq (.refl .any) hf]
      exact Solutions.isSome_collected_iff fun e he => hmatched (hcandidate he)
    | _ => rfl

end World

end CodeRules
