import CodeRules.Proofs.Goal.NormalAnswers

/-!
# The solutions of goals

`Goal.Solution` says which bindings solve a goal, connective by connective, with no regard to the
order in which solutions are found or to errors. When a goal can be solved its answers are exactly the
solutions (`Goal.mem_answers_iff`).
-/

namespace CodeRules

section

variable (base : UInt32) (w : World)

/-- A fact of the trait extends `b` to `c`. -/
def World.TraitSolution (name : String) (args : List GoalTerm) (b c : Bindings) : Prop :=
  ∃ facts, w.store.view base name = some (args.length, facts) ∧
    ∃ es ∈ facts, (w.program.bare.unifyAll (.unused base) args es b).toOption = some (some c)

/-- What the fragment finds in the subject extends `b` to `c`. -/
def World.MatchSolution (subject : GoalTerm) (f : Fragment) (b c : Bindings) : Prop :=
  match w.program.value base b subject with
  | none => False
  | some (some e) => w.program.matched f b e = some (some c)
  | some none =>
    match subject with
    | .var name type => ∃ e ∈ w.candidates type f, ∃ d,
        w.program.matched f b (e.normal base) = some (some d) ∧ d.bind? name (e.normal base) = some c
    | .wildcard => ∃ e ∈ w.candidates .any f, w.program.matched f b (e.normal base) = some (some c)
    | _ => False

namespace Goal

mutual

/-- The goal holds under `c`, which extends `b`. -/
def Solution : Goal → Bindings → Bindings → Prop
  | true, b, c => c = b
  | false, _, _ => False
  | and items, b, c => SolutionAll items b c
  | or items, b, c => SolutionAny items b c
  | not body, b, c => c = b ∧ ¬ ∃ d, Solution body b d
  | implies premise conclusion, b, c => c = b ∧ ∀ d, Solution premise b d → ∃ e, Solution conclusion d e
  | iff left right, b, c => c = b ∧ ((∃ d, Solution left b d) ↔ ∃ d, Solution right b d)
  | .exists binders body, b, c =>
    ∃ d, Solution body (b.erase binders) d ∧ (d.erase binders).consistentMerge? b = some c
  | .forall binders range body, b, c =>
    c = b ∧ ∀ d, Solution range (b.erase binders) d → ∃ e, Solution body d e
  | trait _ name args, b, c => w.TraitSolution base name args b c
  | .matches _ subject f, b, c => w.MatchSolution base subject f b c
  | eq _ left right, b, c => ∃ s, w.program.eqAnswers base left right b = some s ∧ c ∈ s.toList
  | ne _ left right, b, c => ∃ s, w.program.neAnswers base left right b = some s ∧ c ∈ s.toList

/-- The goals hold in turn, each for what solves those before it. -/
def SolutionAll : List Goal → Bindings → Bindings → Prop
  | [], b, c => c = b
  | g :: gs, b, c => ∃ d, Solution g b d ∧ SolutionAll gs d c

/-- One of the goals holds. -/
def SolutionAny : List Goal → Bindings → Bindings → Prop
  | [], _, _ => False
  | g :: gs, b, c => Solution g b c ∨ SolutionAny gs b c

end

end Goal

end

namespace Goal

variable {base : UInt32} {w : World} {gs : List Goal} {b c : Bindings}

/-- A disjunction holds when one of its goals does. -/
theorem solutionAny_iff : SolutionAny base w gs b c ↔ ∃ g ∈ gs, Solution base w g b c := by
  induction gs with
  | nil => simp [SolutionAny]
  | cons g gs ih => simp [SolutionAny, ih]

/-! ### Solutions are normal forms -/

end Goal

namespace World

variable {base : UInt32} {w : World} {b c : Bindings}

/-- Solutions of a trait are normal forms. -/
theorem TraitSolution.isNormal (hw : w.Uniform base) (hstore : w.store.Uniform base)
    {name : String} {args : List GoalTerm} (hargs : ∀ t ∈ args, t.Uniform base)
    (hb : b.IsNormal base) (h : w.TraitSolution base name args b c) : c.IsNormal base := by
  obtain ⟨facts, hview, es, hes, hc⟩ := h
  obtain ⟨r, hr, hfacts⟩ := Option.map_eq_some_iff.1 hview
  obtain ⟨-, rfl⟩ := Prod.mk.inj hfacts
  obtain ⟨t, ht, rfl⟩ := List.mem_map.1 hes
  refine Program.unifyAll_isNormal hw.program hb hargs (fun e he => ?_) hc c rfl
  obtain ⟨e', he', rfl⟩ := List.mem_map.1 he
  exact (hstore name r hr t ht e' he').isNormal

/-- Solutions of a match are normal forms. -/
theorem MatchSolution.isNormal (hw : w.Uniform base) {subject : GoalTerm}
    (hsubject : subject.Uniform base) {f : Fragment} (hb : b.IsNormal base)
    (h : w.MatchSolution base subject f b c) : c.IsNormal base := by
  have hcandidate {type : ParamType} {e : Entity} (he : e ∈ w.candidates type f) {d : Bindings}
      (hd : w.program.matched f b (e.normal base) = some (some d)) : d.IsNormal base :=
    Program.matched_isNormal hw.program hb (hw.candidates he).isNormal hd d rfl
  unfold MatchSolution at h
  split at h
  · exact h.elim
  · rename_i e hvalue
    have he := Program.value_isNormal hw.program hb hsubject hvalue e rfl
    exact Program.matched_isNormal hw.program hb he h c rfl
  · split at h
    · rename_i name _ _
      obtain ⟨e, he, d, hd, hbind⟩ := h
      have hnormal := hcandidate he hd
      have he := (hw.candidates he).isNormal
      -- a candidate is bound to the subject as well
      refine ⟨hnormal.uniform.bind? he.uniform hbind, ?_⟩
      have hmap := d.normal_bind? base name (e.normal base)
      rw [hnormal.normal, he.normal, hbind] at hmap
      exact Option.some.inj hmap
    · obtain ⟨e, he, hd⟩ := h
      exact hcandidate he hd
    · exact h.elim

end World

namespace Goal

variable {base : UInt32} {w : World} {g : Goal} {gs : List Goal} {b c : Bindings} {s : Solutions}

/-- Solutions of a conjunction are normal forms when those of its goals are. -/
theorem SolutionAll.isNormal
    (h : ∀ g ∈ gs, ∀ b c, b.IsNormal base → g.Solution base w b c → c.IsNormal base)
    (hb : b.IsNormal base) (hc : SolutionAll base w gs b c) : c.IsNormal base := by
  induction gs generalizing b with
  | nil => exact hc ▸ hb
  | cons g gs ih =>
    obtain ⟨d, hd, hc⟩ := hc
    exact ih (fun k hk => h k (List.mem_cons_of_mem _ hk)) (h g (List.mem_cons_self ..) b d hb hd) hc

/-- Solutions for bindings in normal form are normal forms. -/
theorem Solution.isNormal (hw : w.Uniform base) (hstore : w.store.Uniform base)
    (hg : g.Uniform base) (hb : b.IsNormal base) (h : g.Solution base w b c) : c.IsNormal base := by
  induction g using Goal.induction generalizing b c with
  | true => exact (show c = b from h) ▸ hb
  | false => exact h.elim
  | and items ih =>
    exact SolutionAll.isNormal (fun g hmem b c hb => ih g hmem (Uniform.item hg hmem) hb) hb h
  | or items ih =>
    obtain ⟨g, hmem, hc⟩ := solutionAny_iff.1 h
    exact ih g hmem (Uniform.item hg hmem) hb hc
  | not body ih => exact h.1 ▸ hb
  | implies premise conclusion ihp ihc => exact h.1 ▸ hb
  | iff left right ihl ihr => exact h.1 ▸ hb
  | exists_ binders body ih =>
    obtain ⟨d, hd, hmerge⟩ := h
    exact ((ih hg (hb.erase binders) hd).erase binders).consistentMerge? hb hmerge
  | forall_ binders range body ihr ihb => exact h.1 ▸ hb
  | trait span name args => exact World.TraitSolution.isNormal hw hstore hg hb h
  | matches_ span subject f =>
    exact World.MatchSolution.isNormal hw (hg subject (List.mem_singleton_self _)) hb h
  | eq span left right =>
    -- the solutions of an equation are those it is answered with
    obtain ⟨s, hs, hc⟩ := h
    exact Program.eqAnswers_isNormal hw.program hb (hg left (by simp [terms]))
      (hg right (by simp [terms])) hs c hc
  | ne span left right =>
    obtain ⟨s, hs, hc⟩ := h
    exact Program.neAnswers_isNormal hb hs c hc

end Goal

/-! ### Answers are solutions -/

namespace Solutions

variable {f : Bindings → Option Solutions}

/-- Among solutions there is always one, or there is one without any. -/
theorem everywhere_eq_true_iff {l : List Bindings} {P : Bindings → Prop} {q : Bool}
    (hf : ∀ d ∈ l, ∀ s, f d = some s → (s.isEmpty = false ↔ P d)) (h : everywhere f l = some q) :
    q = true ↔ ∀ d ∈ l, P d := by
  induction l with
  | nil =>
    obtain rfl := Option.some.inj h
    simp
  | cons d l ih =>
    obtain ⟨s, hs, h⟩ := Option.bind_eq_some_iff.1 h
    have hd := hf d (List.mem_cons_self ..) s hs
    split at h
    · rename_i hempty
      obtain rfl := Option.some.inj h
      rw [hempty] at hd
      -- the first without a solution decides
      simpa using fun hP => absurd (hd.2 hP) (by simp)
    · rename_i hsome
      rw [ih (fun k hk => hf k (List.mem_cons_of_mem _ hk)) h, List.forall_mem_cons, ← hd]
      simp [hsome]

/-- A set of solutions is exactly what a predicate says, up to equal solutions. -/
structure Are (s : Solutions) (P : Bindings → Prop) : Prop where
  sound : ∀ c ∈ s.toList, P c
  complete : ∀ c, P c → Catalog.contains s c.shape = true

/-- There are answers when something is a solution. -/
theorem Are.isEmpty_eq_false_iff {s : Solutions} {P : Bindings → Prop} (h : s.Are P) :
    s.isEmpty = false ↔ ∃ c, P c := by
  rw [Bool.eq_false_iff, Ne, Catalog.isEmpty_iff, ← ne_eq, List.ne_nil_iff_exists_cons]
  constructor
  · rintro ⟨c, l, hl⟩
    exact ⟨c, h.sound c (hl ▸ List.mem_cons_self ..)⟩
  · rintro ⟨c, hc⟩
    obtain ⟨d, hd, _⟩ := Catalog.contains_iff.1 (h.complete c hc)
    exact List.exists_cons_of_ne_nil (List.ne_nil_of_mem hd)

/-- What the solutions are can be said in another way. -/
theorem Are.congr {s : Solutions} {P Q : Bindings → Prop} (h : s.Are P) (hPQ : ∀ c, P c ↔ Q c) :
    s.Are Q := ⟨fun c hc => (hPQ c).1 (h.sound c hc), fun c hc => h.complete c ((hPQ c).2 hc)⟩

/-- A single answer is the only solution. -/
theorem are_singleton (b : Bindings) : Are (Catalog.singleton b) fun c => c = b where
  sound c hc := List.mem_singleton.1 hc
  complete c hc := Catalog.contains_iff.2 ⟨b, List.mem_singleton_self b, by rw [hc]⟩

/-- A test has its input as a solution if it holds. -/
theorem are_test {q : Bool} {Q : Prop} (b : Bindings) (h : q = true ↔ Q) :
    Are (test q b) fun c => c = b ∧ Q := by
  unfold test
  split
  · rename_i hq
    exact (are_singleton b).congr fun c => by simp [h.1 hq]
  · rename_i hq
    exact ⟨fun c hc => (List.not_mem_nil hc).elim, fun c hc => absurd (h.2 hc.2) hq⟩

/-- The answer of an attempt is what it finds. -/
theorem are_ofOption (o : Option Bindings) : Are (ofOption o) fun c => o = some c := by
  cases o with
  | none => exact ⟨fun c hc => (List.not_mem_nil hc).elim, fun c hc => (Option.some_ne_none c hc.symm).elim⟩
  | some b => exact (are_singleton b).congr fun c => by simp [eq_comm]

/-- Solutions are what is in them. -/
theorem are_mem (s : Solutions) : s.Are fun c => c ∈ s.toList :=
  ⟨fun _ hc => hc, fun c hc => Catalog.contains_iff.2 ⟨c, hc, rfl⟩⟩

/-- Solutions that are given are what is in them. -/
theorem are_of_eq_some {o : Option Solutions} {s : Solutions} (h : o = some s) :
    s.Are fun c => ∃ t, o = some t ∧ c ∈ t.toList := by
  refine (are_mem s).congr fun c => ⟨fun hc => ⟨s, h, hc⟩, fun hc => ?_⟩
  obtain ⟨t, ht, hc⟩ := hc
  obtain rfl := Option.some.inj (h.symm.trans ht)
  exact hc

/-- Solutions that are made from others are what is made from one of them. -/
theorem are_ofListFirst_filterMap (s : Solutions) (f : Bindings → Option Bindings) :
    Are (Catalog.ofListFirst (s.toList.filterMap f)) fun c => ∃ d, d ∈ s.toList ∧ f d = some c where
  sound _ hc := List.mem_filterMap.1 (Catalog.mem_of_mem_ofListFirst hc)
  complete c hc := Catalog.contains_ofListFirst.2 ⟨c, List.mem_filterMap.2 hc, rfl⟩

/-- Collected solutions are found for one of the elements. -/
theorem are_collected {α : Type} {f : α → Option (Option Bindings)} {l : List α} {s : Solutions}
    (h : collected f l = some s) : s.Are fun c => ∃ a ∈ l, f a = some (some c) where
  sound c hc := mem_of_collected h hc
  complete c hc := by
    obtain ⟨a, ha, hc⟩ := hc
    exact (contains_collected h).2 ⟨a, ha, c, hc, rfl⟩

/-- Among normal forms the solutions themselves are found. -/
theorem Are.mem_iff {base : UInt32} {s : Solutions} {P : Bindings → Prop} (h : s.Are P)
    (hP : ∀ c, P c → c.IsNormal base) {c : Bindings} : c ∈ s.toList ↔ P c := by
  refine ⟨h.sound c, fun hc => ?_⟩
  have hs : s.IsNormal base := fun d hd => hP d (h.sound d hd)
  exact (hs.mem_iff (hP c hc)).1 (h.complete c hc)

/-- Solutions taken together are those of one or the other. -/
theorem Are.union {s t : Solutions} {P Q : Bindings → Prop} (hs : s.Are P) (ht : t.Are Q) :
    Are (Catalog.union s t) fun c => P c ∨ Q c where
  sound c hc := (Catalog.mem_of_mem_union hc).imp (hs.sound c) (ht.sound c)
  complete c hc := Catalog.contains_union.2 (hc.imp (hs.complete c) (ht.complete c))

/-- Joined solutions are found for one of the bindings. -/
theorem are_joined {f : Bindings → Option Solutions} {s t : Solutions}
    {P : Bindings → Bindings → Prop} (hf : ∀ b ∈ s.toList, ∀ r, f b = some r → r.Are (P b))
    (h : joined f s = some t) : t.Are fun c => ∃ b ∈ s.toList, P b c where
  sound c hc := by
    obtain ⟨b, hb, r, hr, hc⟩ := mem_of_joined h hc
    exact ⟨b, hb, (hf b hb r hr).sound c hc⟩
  complete c hc := by
    obtain ⟨b, hb, hc⟩ := hc
    obtain ⟨r, hr⟩ := isSome_of_joined h hb
    exact (contains_joined h).2 ⟨b, hb, r, hr, (hf b hb r hr).complete c hc⟩

end Solutions

namespace World

open Solutions

variable {base : UInt32} {w : World} {b : Bindings} {s : Solutions}

/-- The answers to a trait are its solutions. -/
theorem traitAnswers_are {name : String} {args : List GoalTerm}
    (h : w.traitAnswers base name args b = some s) : s.Are (w.TraitSolution base name args b) := by
  obtain ⟨⟨arity, facts⟩, hview, h⟩ := Option.bind_eq_some_iff.1 h
  simp only at h
  split at h
  · cases h
  · rename_i harity
    obtain rfl := not_not.1 harity
    refine (are_collected h).congr fun c => ⟨fun hc => ⟨facts, hview, hc⟩, fun hc => ?_⟩
    obtain ⟨facts', hview', hc⟩ := hc
    rw [hview] at hview'
    obtain ⟨-, rfl⟩ := Prod.mk.inj (Option.some.inj hview')
    exact hc

/-- The answers to a match are its solutions. -/
theorem matchAnswers_are {subject : GoalTerm} {f : Fragment}
    (h : w.matchAnswers base subject f b = some s) : s.Are (w.MatchSolution base subject f b) := by
  obtain ⟨o, ho, h⟩ := Option.bind_eq_some_iff.1 h
  unfold MatchSolution
  rw [ho]
  cases o with
  -- a subject that is known is matched itself
  | some e =>
    obtain ⟨found, hfound, h⟩ := Option.bind_eq_some_iff.1 h
    obtain rfl := Option.some.inj h
    dsimp only
    rw [hfound]
    exact (are_ofOption found).congr fun c => by rw [Option.some.injEq]
  | none =>
    cases subject with
    | var name type =>
      -- a variable takes the candidate, and other subjects take nothing
      refine (are_collected h).congr fun c => ?_
      simp only [List.mem_map, exists_exists_and_eq_and]
      refine exists_congr fun e => and_congr_right fun _ => ?_
      cases w.program.matched f b (e.normal base) with
      | none => simp
      | some found => cases found <;> simp
    | wildcard =>
      refine (are_collected h).congr fun c => ?_
      simp only [List.mem_map, exists_exists_and_eq_and]
    | _ => cases h

end World

namespace Goal

open Solutions

variable {base : UInt32} {w : World} {g : Goal} {gs : List Goal} {b c : Bindings} {s : Solutions}

/-- The answers to a conjunction are what solves its goals in turn. -/
private theorem answersAnd_are
    (hnormal : ∀ g ∈ gs, ∀ b c, b.IsNormal base → g.Solution base w b c → c.IsNormal base)
    (h : ∀ g ∈ gs, ∀ b s, b.IsNormal base → g.answers base w b = some s →
      s.Are (g.Solution base w b))
    {current : Solutions} (hcurrent : current.IsNormal base)
    (hs : answersAnd base w gs current = some s) :
    s.Are fun c => ∃ b ∈ current.toList, SolutionAll base w gs b c := by
  induction gs generalizing current with
  | nil =>
    obtain rfl := Option.some.inj hs
    exact (are_mem _).congr fun c => by simp [SolutionAll]
  | cons g gs ih =>
    obtain ⟨next, hnext, hs⟩ := Option.bind_eq_some_iff.1 hs
    have hnext := are_joined
      (fun b hb r hr => h g (List.mem_cons_self ..) b r (hcurrent b hb) hr) hnext
    have hmem {d : Bindings} : d ∈ next.toList ↔ ∃ b ∈ current.toList, g.Solution base w b d :=
      hnext.mem_iff fun d ⟨b, hb, hd⟩ => hnormal g (List.mem_cons_self ..) b d (hcurrent b hb) hd
    -- what solves the rest starts from an answer to the first goal
    have hchain (c : Bindings) : (∃ d ∈ next.toList, SolutionAll base w gs d c) ↔
        ∃ b ∈ current.toList, SolutionAll base w (g :: gs) b c := by
      constructor
      · rintro ⟨d, hd, hc⟩
        obtain ⟨b, hb, hd⟩ := hmem.1 hd
        exact ⟨b, hb, d, hd, hc⟩
      · rintro ⟨b, hb, d, hd, hc⟩
        exact ⟨d, hmem.2 ⟨b, hb, hd⟩, hc⟩
    refine Are.congr ?_ hchain
    split at hs
    · -- without solutions so far there are none in the end
      rename_i hempty
      obtain rfl := Option.some.inj hs
      have hnil := Catalog.isEmpty_iff.1 hempty
      refine ⟨fun c hc => ?_, fun c hc => ?_⟩
      · rw [hnil] at hc
        cases hc
      · obtain ⟨d, hd, _⟩ := hc
        rw [hnil] at hd
        cases hd
    · refine ih (fun k hk => hnormal k (List.mem_cons_of_mem _ hk))
        (fun k hk => h k (List.mem_cons_of_mem _ hk)) (fun d hd => ?_) hs
      obtain ⟨b, hb, hd⟩ := hmem.1 hd
      exact hnormal g (List.mem_cons_self ..) b d (hcurrent b hb) hd

/-- The answers to a disjunction are what solves one of its goals. -/
private theorem answersOr_are
    (h : ∀ g ∈ gs, ∀ s, g.answers base w b = some s → s.Are (g.Solution base w b))
    (hs : answersOr base w gs b = some s) : s.Are (SolutionAny base w gs b) := by
  induction gs generalizing s with
  | nil =>
    obtain rfl := Option.some.inj hs
    exact ⟨fun c hc => (List.not_mem_nil hc).elim, fun c hc => hc.elim⟩
  | cons g gs ih =>
    obtain ⟨first, hfirst, hs⟩ := Option.bind_eq_some_iff.1 hs
    obtain ⟨rest, hrest, hs⟩ := Option.bind_eq_some_iff.1 hs
    obtain rfl := Option.some.inj hs
    exact (h g (List.mem_cons_self ..) first hfirst).union
      (ih (fun k hk => h k (List.mem_cons_of_mem _ hk)) hrest)

/-- A universal test looks at the solutions of its range. -/
private theorem everywhere_iff (hw : w.Uniform base) (hstore : w.store.Uniform base) {range body : Goal}
    (hrange : range.Uniform base) (hbody : ∀ d, d.IsNormal base → ∀ s, body.answers base w d = some s →
      s.Are (body.Solution base w d))
    (hb : b.IsNormal base) {r : Solutions} (hr : r.Are (range.Solution base w b)) {q : Bool}
    (hq : everywhere (body.answers base w) r.toList = some q) :
    q = Bool.true ↔ ∀ d, range.Solution base w b d → ∃ e, body.Solution base w d e := by
  have hnormal (d : Bindings) (hd : range.Solution base w b d) : d.IsNormal base :=
    Solution.isNormal hw hstore hrange hb hd
  rw [everywhere_eq_true_iff (P := fun d => ∃ e, body.Solution base w d e) (fun d hd s hs =>
    (hbody d (hnormal d (hr.sound d hd)) s hs).isEmpty_eq_false_iff) hq]
  -- every solution of the range is among its answers, for both are normal forms
  exact forall_congr' fun d => imp_congr_left (hr.mem_iff hnormal)

/-- The answers to a goal are its solutions. -/
theorem answers_are (hw : w.Uniform base) (hstore : w.store.Uniform base) (hg : g.Uniform base)
    (hb : b.IsNormal base) (h : g.answers base w b = some s) : s.Are (g.Solution base w b) := by
  induction g using Goal.induction generalizing b s with
  | true =>
    obtain rfl := Option.some.inj h
    exact are_singleton b
  | false =>
    obtain rfl := Option.some.inj h
    exact ⟨fun c hc => (List.not_mem_nil hc).elim, fun c hc => hc.elim⟩
  | and items ih =>
    -- the solutions so far start from the given bindings alone
    have hitems := answersAnd_are
      (fun g hmem b c hb => Solution.isNormal hw hstore (Uniform.item hg hmem) hb)
      (fun g hmem b s hb => ih g hmem (Uniform.item hg hmem) hb) (isNormal_singleton hb) h
    refine hitems.congr fun c => ⟨fun hc => ?_, fun hc => ⟨b, List.mem_singleton_self b, hc⟩⟩
    obtain ⟨d, hd, hc⟩ := hc
    obtain rfl := List.mem_singleton.1 hd
    exact hc
  | or items ih =>
    exact answersOr_are (fun g hmem s => ih g hmem (Uniform.item hg hmem) hb) h
  | not body ih =>
    obtain ⟨r, hr, h⟩ := Option.bind_eq_some_iff.1 h
    -- it is answered with the given bindings if the body has no answers
    obtain rfl := Option.some.inj h
    refine are_test b ?_
    rw [← (ih hg hb hr).isEmpty_eq_false_iff, Bool.not_eq_false]
  | implies premise conclusion ihp ihc =>
    obtain ⟨r, hr, h⟩ := Option.bind_eq_some_iff.1 h
    obtain ⟨q, hq, h⟩ := Option.bind_eq_some_iff.1 h
    obtain rfl := Option.some.inj h
    have hpremise := Uniform.left hg
    exact are_test b
      (everywhere_iff hw hstore hpremise (fun d hd s => ihc (Uniform.right hg) hd) hb
        (ihp hpremise hb hr) hq)
  | iff left right ihl ihr =>
    obtain ⟨l, hl, h⟩ := Option.bind_eq_some_iff.1 h
    obtain ⟨r, hr, h⟩ := Option.bind_eq_some_iff.1 h
    obtain rfl := Option.some.inj h
    have hleft := ihl (Uniform.left hg) hb hl
    have hright := ihr (Uniform.right hg) hb hr
    refine are_test b ?_
    rw [← hleft.isEmpty_eq_false_iff, ← hright.isEmpty_eq_false_iff]
    cases l.isEmpty <;> cases r.isEmpty <;> decide
  | exists_ binders body ih =>
    obtain ⟨r, hr, h⟩ := Option.bind_eq_some_iff.1 h
    obtain rfl := Option.some.inj h
    -- the binders are free in the body, so it starts without them
    have hb' := hb.erase binders
    have hr := ih hg hb' hr
    refine (are_ofListFirst_filterMap r _).congr fun c => exists_congr fun d => and_congr_left fun _ => ?_
    exact hr.mem_iff fun d => Solution.isNormal hw hstore (g := body) hg hb'
  | forall_ binders range body ihr ihb =>
    obtain ⟨r, hr, h⟩ := Option.bind_eq_some_iff.1 h
    obtain ⟨q, hq, h⟩ := Option.bind_eq_some_iff.1 h
    obtain rfl := Option.some.inj h
    have hrange := Uniform.left hg
    have hb' := hb.erase binders
    exact are_test b
      (everywhere_iff hw hstore hrange (fun d hd s => ihb (Uniform.right hg) hd) hb'
        (ihr hrange hb' hr) hq)
  | trait span name args => exact World.traitAnswers_are h
  | matches_ span subject f => exact World.matchAnswers_are h
  | eq span left right => exact are_of_eq_some h
  | ne span left right => exact are_of_eq_some h

/-- When a goal can be solved, its answers are exactly its solutions. -/
theorem mem_answers_iff (hw : w.Uniform base) (hstore : w.store.Uniform base) (hg : g.Uniform base)
    (hb : b.IsNormal base) (h : g.answers base w b = some s) :
    c ∈ s.toList ↔ g.Solution base w b c :=
  (answers_are hw hstore hg hb h).mem_iff fun _ => Solution.isNormal hw hstore hg hb

/-- The answers to a goal are normal forms. -/
theorem answers_isNormal (hw : w.Uniform base) (hstore : w.store.Uniform base) (hg : g.Uniform base)
    (hb : b.IsNormal base) (h : g.answers base w b = some s) : s.IsNormal base := fun _ hc =>
  Solution.isNormal hw hstore hg hb ((mem_answers_iff hw hstore hg hb h).1 hc)

end Goal

end CodeRules
