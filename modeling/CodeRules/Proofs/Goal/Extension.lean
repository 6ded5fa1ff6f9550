import CodeRules.Proofs.Binding.View
import CodeRules.Proofs.Fragment.Variant
import CodeRules.Proofs.Goal.Free
import CodeRules.Proofs.Goal.WellFormed
import CodeRules.Proofs.Goal.Yields

/-!
# Solutions extend what was bound

Solving a goal keeps the entities of the variables that are bound already, up to aliasing, and binds no
other variables than those that the goal can bind (`Goal.solve_extends`).
-/

namespace CodeRules

open Effect

namespace View

/-- `v` has the names of `u`, and beyond these only names of `names`, among which the wildcard does not
count. -/
structure ExtendedBy (u : View) (names : List String) (v : View) : Prop where
  kept : ∀ n k, u n = some k → v n = some k
  others : ∀ n, n ∉ names ∨ n = wildcard → v n = u n

variable {u v w : View} {names more : List String}

namespace ExtendedBy

/-- A view extends itself. -/
theorem refl (u : View) : u.ExtendedBy names u := ⟨fun _ _ h => h, fun _ _ => rfl⟩

/-- A view can be extended twice. -/
theorem trans (h : u.ExtendedBy names v) (h' : v.ExtendedBy names w) : u.ExtendedBy names w where
  kept n k hk := h'.kept n k (h.kept n k hk)
  others n hn := (h'.others n hn).trans (h.others n hn)

/-- More names can be added. -/
theorem mono (h : u.ExtendedBy names v) (hnames : ∀ n ∈ names, n ∈ more) : u.ExtendedBy more v where
  kept := h.kept
  others n hn := h.others n (hn.imp_left fun hn hmem => hn (hnames n hmem))

/-- A view is extended by those that are joined to it. -/
theorem of_joins (h : Joins u v w) (hu : ∀ n k, u n = some k → n ∈ names ∧ n ≠ wildcard) :
    v.ExtendedBy names w where
  kept _ _ hk := h.of_right hk
  others n hn := by
    have hnone : u n = .none := Option.eq_none_iff_forall_ne_some.2 fun k hk =>
      hn.elim (fun hn => hn (hu n k hk).1) (hu n k hk).2
    rw [h.eq, hnone, Option.none_or]

/-- What extends a view without some names, and hides them, is joined to the whole view. -/
theorem of_joins_hide {hidden : List String} (h : (u.hide hidden).ExtendedBy names v)
    (hj : Joins (v.hide hidden) u w) :
    u.ExtendedBy (names.filter fun n => !hidden.contains n) w where
  kept _ _ hk := hj.of_right hk
  others n hn := by
    rw [hj.eq, hide]
    split
    · rfl
    · rename_i hmem
      have hkept := h.others n <| hn.imp_left fun hn hnames =>
        hn (List.mem_filter.2 ⟨hnames, by simpa using hmem⟩)
      rw [hkept, hide, if_neg hmem, Option.or_self]

end ExtendedBy

end View

namespace Bindings

variable {b c d : Bindings} {name : String} {e : Entity} {names more : List String}

/-- Binding a variable changes the view of no other variable. -/
theorem view_bind? (h : b.bind? name e = some c) : b.view.ExtendedBy [name] c.view where
  kept n k hk := by
    obtain ⟨x, hx, rfl⟩ := view_eq_some_iff.1 hk
    unfold bind? at h
    -- nothing is bound, or the entity that is there already, or a new one
    split at h
    · exact Option.some.inj h ▸ hk
    · split at h
      · split at h
        · exact Option.some.inj h ▸ hk
        · cases h
      · -- the variable was unbound, so it is not `n`
        rename_i hnone
        obtain rfl := Option.some.inj h
        have hne : n ≠ name := fun heq => by
          rw [heq, hnone] at hx
          cases hx
        refine view_of_find? ?_
        rw [find?, Dict.find?_set, if_neg hne]
        exact hx
  -- a name that still stands for nothing was not bound
  others n hn := by
    rw [view, view, find?_bind?_eq h, if_neg]
    rintro ⟨rfl, hname⟩
    exact hn.elim (fun hn => hn (List.mem_singleton_self n)) hname

/-- `c` binds what `b` binds, and beyond it only some names; no result comes up. -/
structure WidenedBy (b : Bindings) (names : List String) (c : Bindings) : Prop where
  view : b.view.ExtendedBy names c.view
  result : b.result = none → c.result = none

namespace WidenedBy

/-- Bindings need not change. -/
theorem refl (b : Bindings) : b.WidenedBy names b := ⟨.refl _, id⟩

/-- Bindings can be widened twice. -/
theorem trans (h : b.WidenedBy names c) (h' : c.WidenedBy names d) : b.WidenedBy names d :=
  ⟨h.view.trans h'.view, fun hb => h'.result (h.result hb)⟩

/-- More names can be bound. -/
theorem mono (h : b.WidenedBy names c) (hnames : ∀ n ∈ names, n ∈ more) : b.WidenedBy more c :=
  ⟨h.view.mono hnames, h.result⟩

/-- A new value of a variable widens the bindings. -/
theorem bind? (h : b.bind? name e = some c) : b.WidenedBy [name] c :=
  ⟨view_bind? h, fun hb => (result_of_bind? h).trans hb⟩

/-- So does a value that may be in conflict with an older one. -/
theorem bind (b : Bindings) (name : String) (e : Entity) : b.WidenedBy [name] (b.bind name e) := by
  rw [Bindings.bind]
  cases h : b.bind? name e with
  | none => exact refl b
  | some c => exact bind? h

/-- Bindings are widened when others without a result are merged into them. -/
theorem of_merge (h : b.consistentMerge? c = some d) (hb : b.result = none)
    (hnames : ∀ n e, b.find? n = some e → n ∈ names ∧ n ≠ wildcard) : c.WidenedBy names d where
  view := .of_joins (joins_of_consistentMerge? h) fun n k hk => by
    obtain ⟨x, hx, _⟩ := view_eq_some_iff.1 hk
    exact hnames n x hx
  result hc := result_of_consistentMerge? h hb hc

/-- Without the hidden names, what widens the rest can be merged into the whole. -/
theorem of_merge_erase {hidden : List String} (h : (b.erase hidden).WidenedBy names c)
    (hd : (c.erase hidden).consistentMerge? b = some d) :
    b.WidenedBy (names.filter fun n => !hidden.contains n) d where
  view := by
    have hjoins := joins_of_consistentMerge? hd
    have hextended := h.view
    rw [view_erase] at hjoins hextended
    exact .of_joins_hide hextended hjoins
  result hb := result_of_consistentMerge? hd (h.result hb) hb

/-- Such a merge succeeds, because what was bound before is kept. -/
theorem exists_merge_erase {hidden : List String} (h : (b.erase hidden).WidenedBy names c)
    (hb : b.result = none) : ∃ d, (c.erase hidden).consistentMerge? b = some d := by
  refine exists_consistentMerge? (h.result hb) hb fun n k k' hk hk' => ?_
  rw [view_erase, View.hide] at hk
  split at hk
  · cases hk
  · rename_i hn
    have hkept := h.view.kept n k' (by rwa [view_erase, View.hide, if_neg hn])
    exact Option.some.inj (hk.symm.trans hkept)

end WidenedBy

end Bindings

/-! ### Terms and fragments -/

namespace World

variable {w : World} {a : Arena} {b c : Bindings}

/-- A match binds variables of its fragment only. -/
theorem widenedBy_of_matchInto {f : Fragment} {e : Entity}
    (h : w.matchInto f e b = .ok (some c)) : b.WidenedBy f.occurrences c := by
  unfold matchInto at h
  split at h
  · cases h
  · rename_i found hfound
    obtain ⟨m, rfl, hmerge⟩ := Option.bind_eq_some_iff.1 (Except.ok.inj h)
    exact .of_merge hmerge rfl fun n x hx => (Fragment.within_occurrences hfound hx).symm

/-- Unifying binds variables of the term only. -/
theorem widenedBy_of_unify {t : GoalTerm} {e : Entity} (h : w.unify a t e b = .ok (some c)) :
    b.WidenedBy t.occurrences c := by
  have hsame {q : Bool} (h : (if q then some b else none) = some c) : b = c := by
    cases q with
    | false => cases h
    | true => exact Option.some.inj h
  cases t with
  | wildcard => exact Option.some.inj (Except.ok.inj h) ▸ .refl _
  | var name type =>
    simp only [unify] at h
    split at h
    · exact hsame (Except.ok.inj h) ▸ .refl _
    · have h := Except.ok.inj h
      split at h
      · exact Option.some.inj h ▸ .bind b name e
      · cases h
  | const known => exact hsame (Except.ok.inj h) ▸ .refl _
  | pattern f => exact widenedBy_of_matchInto h
  | apply func args =>
    -- values of functions are compared, and bind nothing
    simp only [unify, Except.bind_eq_ok, Except.pure_eq_ok, Option.bind_eq_some_iff] at h
    obtain ⟨_, _, v, _, h⟩ := h
    exact hsame h ▸ .refl _

/-- Unifying one by one binds variables of the terms only. -/
theorem widenedBy_of_unifyAll {ts : List GoalTerm} {es : List Entity}
    (h : w.unifyAll a ts es b = .ok (some c)) : b.WidenedBy (GoalTerm.occurrencesAll ts) c := by
  induction ts generalizing es b with
  | nil => exact Option.some.inj (Except.ok.inj h) ▸ .refl _
  | cons t ts ih =>
    cases es with
    | nil => exact Option.some.inj (Except.ok.inj h) ▸ .refl _
    | cons e es =>
      simp only [unifyAll, Except.bind_eq_ok] at h
      obtain ⟨o, ho, h⟩ := h
      cases o with
      | none => cases h
      | some d =>
        rw [GoalTerm.occurrencesAll]
        exact ((widenedBy_of_unify ho).mono fun _ hn => List.mem_append_left _ hn).trans
          ((ih h).mono fun _ hn => List.mem_append_right _ hn)

end World

/-! ### Solving -/

namespace World

variable {w : World} {span : Span} {input : Bindings} {I : Arena → Prop}

/-- Generating binds no variable: the entity becomes the result. -/
private theorem yields_instantiate (types : TypeOracle) (f : Fragment) :
    Yields (fun _ => True) (f.instantiate types input) fun c => c.view = input.view := by
  have hrecord (l : List Replacement) (c : Bindings) : (l.foldl Bindings.record c).view = c.view := by
    induction l generalizing c with
    | nil => rfl
    | cons r l ih =>
      rw [List.foldl_cons, ih]
      rfl
  refine yields_bind yields_get fun _ _ => yields_bind (P := fun _ => True) (fun v _ => ?_)
    fun e _ => yields_bind yields_get fun _ _ => yields_pure ?_
  · exact ends_of_gives fun _ _ _ => ⟨trivial, trivial⟩
  · rw [hrecord]
    rfl

/-- A new entity is bound to its variable, and is the result no longer. -/
private theorem yields_generateInto {name : String} {type : ParamType} {f : Fragment} :
    Yields (fun _ => True) (w.generateInto span name type f input) fun c =>
      input.WidenedBy [name] c := by
  have hmade : Yields (fun _ => True)
      (Solving.generate span (f.instantiate w.program.types input)) fun c => c.view = input.view :=
    fun a _ => Solving.ends_generate.2
      ((yields_instantiate w.program.types f { arena := a } trivial).imp
        (fun _ _ h => ⟨h.1, trivial⟩) fun _ _ _ => trivial)
  refine yields_bind hmade fun made hview => ?_
  cases made.result with
  | none => exact yields_throw
  | some e =>
    dsimp only
    split
    · have hbound := Bindings.WidenedBy.bind made.withoutResult name e
      exact yields_pure ⟨hview ▸ hbound.view, fun _ => hbound.result rfl⟩
    · exact yields_throw

/-- A trait binds variables of its arguments only. -/
private theorem yields_solveTrait {name : String} {args : List GoalTerm} :
    Yields I (w.solveTrait span name args input)
      (Solutions.All fun c => input.WidenedBy (GoalTerm.occurrencesAll args) c) := by
  unfold solveTrait
  split
  · exact yields_throw
  · dsimp only
    split
    · exact yields_throw
    · refine Solving.yields_collect fun t _ => Solving.yields_ask fun a _ o ho b hb => ?_
      exact widenedBy_of_unifyAll (hb ▸ ho)

/-- A match binds its subject and variables of its fragment. -/
private theorem yields_solveMatches {subject : GoalTerm} {f : Fragment} :
    Yields I (w.solveMatches span subject f input)
      (Solutions.All fun c => input.WidenedBy (subject.occurrences ++ f.occurrences) c) := by
  have hfind (e : Entity) : Yields I (Solving.ask span fun _ => w.matchInto f e input) fun o =>
      ∀ c, o = some c → input.WidenedBy (subject.occurrences ++ f.occurrences) c :=
    Solving.yields_ask fun _ _ o ho c hc =>
      (widenedBy_of_matchInto (hc ▸ ho)).mono fun _ hn => List.mem_append_right _ hn
  refine yields_bind (Solving.yields_ask fun _ _ _ _ => trivial) fun v _ => ?_
  -- a subject that is known is matched; otherwise it is bound to what it is matched against
  cases v with
  | some e => exact yields_bind (hfind e) fun o ho => yields_pure (Solutions.all_ofOption ho)
  | none =>
    cases subject with
    | var name type =>
      refine Solving.yields_collect fun e _ => yields_bind (hfind e) fun o ho => yields_pure ?_
      intro c hc
      obtain ⟨d, rfl, hbind⟩ := Option.bind_eq_some_iff.1 hc
      exact (ho d rfl).trans
        ((Bindings.WidenedBy.bind? hbind).mono fun _ hn => List.mem_append_left _ hn)
    | wildcard => exact Solving.yields_collect fun e _ => hfind e
    | _ => exact yields_throw

/-- An equality binds variables of the side that has no value. -/
private theorem yields_solveEq {left right : GoalTerm} :
    Yields (fun _ => True) (w.solveEq span left right input)
      (Solutions.All fun c => input.WidenedBy (left.occurrences ++ right.occurrences) c) := by
  have hunify (t : GoalTerm) (e : Entity) (ht : ∀ n ∈ t.occurrences,
      n ∈ left.occurrences ++ right.occurrences) :
      Yields (fun _ => True) (Solving.ask span fun a => w.unify a t e input) fun o =>
        ∀ c, o = some c → input.WidenedBy (left.occurrences ++ right.occurrences) c :=
    Solving.yields_ask fun _ _ o ho c hc => (widenedBy_of_unify (hc ▸ ho)).mono ht
  refine yields_bind (Solving.yields_ask fun _ _ _ _ => trivial) fun l _ => ?_
  refine yields_bind (Solving.yields_ask fun _ _ _ _ => trivial) fun r _ => ?_
  cases l with
  | some l =>
    cases r with
    | some r => exact yields_pure (Solutions.all_test (.refl _))
    | none =>
      exact yields_bind (hunify right l fun _ hn => List.mem_append_right _ hn) fun _ ho =>
        yields_pure (Solutions.all_ofOption ho)
  | none =>
    cases r with
    | some r =>
      exact yields_bind (hunify left r fun _ hn => List.mem_append_left _ hn) fun _ ho =>
        yields_pure (Solutions.all_ofOption ho)
    | none =>
      dsimp only
      -- the variable is bound to what is made
      split
      · exact yields_bind yields_generateInto fun c hc => yields_pure <| Solutions.all_singleton <|
          hc.mono fun _ hn => List.mem_append_left _ hn
      · exact yields_bind yields_generateInto fun c hc => yields_pure <| Solutions.all_singleton <|
          hc.mono fun _ hn => List.mem_append_right _ hn
      · exact yields_throw

/-- An inequality has its input as a solution, or none. -/
private theorem yields_solveNe {left right : GoalTerm} {P : Bindings → Prop} (h : P input) :
    Yields I (w.solveNe span left right input) (Solutions.All P) := by
  refine yields_bind (Solving.yields_ask fun _ _ _ _ => trivial) fun l _ => ?_
  refine yields_bind (Solving.yields_ask fun _ _ _ _ => trivial) fun r _ => ?_
  cases l with
  | none => exact yields_throw
  | some l =>
    cases r with
    | none => exact yields_throw
    | some r => exact yields_pure (Solutions.all_test h)

end World

namespace Goal

variable {w : World}

/-- A goal that is a test gives no solution or its input. -/
private theorem yields_test {g : Goal} (hg : g.isTest = Bool.true) (input : Bindings) :
    Yields (fun _ => True) (g.solve w input) fun s => s = ∅ ∨ s = Catalog.singleton input := by
  cases g with
  | not body => exact yields_bind yields_trivial fun _ _ => yields_pure (Solutions.test_eq _ _)
  | implies premise conclusion | «forall» binders range body =>
    exact yields_bind yields_trivial fun _ _ => yields_bind yields_trivial fun _ _ =>
      yields_pure (Solutions.test_eq _ _)
  | iff left right =>
    exact yields_bind yields_trivial fun _ _ => yields_bind yields_trivial fun _ _ =>
      yields_pure (Solutions.test_eq _ _)
  | _ => cases hg

/-- Every solution widens the bindings it is found for. -/
theorem yields_solve (g : Goal) (input : Bindings) :
    Yields (fun _ => True) (g.solve w input)
      (Solutions.All fun c => input.WidenedBy g.bindable c) := by
  have htest {g : Goal} (hg : g.isTest = Bool.true) (input : Bindings) :
      Yields (fun _ => True) (g.solve w input)
        (Solutions.All fun c => input.WidenedBy g.bindable c) := by
    refine (yields_test hg input).mono fun s hs => ?_
    rcases hs with rfl | rfl
    · exact Solutions.all_empty
    · exact Solutions.all_singleton (.refl _)
  -- by induction on the goal, for all inputs: a conjunction goes on from what was bound
  induction g using Goal.induction generalizing input with
  | true => exact yields_pure (Solutions.all_singleton (.refl _))
  | false => exact yields_pure Solutions.all_empty
  | and items ih =>
    refine yields_solveAnd (fun g hg b hb => (ih g hg b).mono fun _ hs c hc => hb.trans
      ((hs c hc).mono fun _ hn => mem_bindable_of_mem hg hn)) (Solutions.all_singleton (.refl _))
  | or items ih =>
    exact yields_solveOr fun g hg => (ih g hg input).mono fun _ hs c hc =>
      (hs c hc).mono fun _ hn => mem_bindable_of_mem hg hn
  | not body => exact htest rfl input
  | implies premise conclusion => exact htest rfl input
  | iff left right => exact htest rfl input
  | exists_ binders body ih =>
    refine yields_bind (ih (input.erase binders)) fun s hs => yields_pure fun c hc => ?_
    obtain ⟨b, hb, hmerge⟩ := List.mem_filterMap.1 (Catalog.mem_of_mem_ofListFirst hc)
    exact .of_merge_erase (hs b hb) hmerge
  | forall_ binders range body => exact htest rfl input
  | trait span name args => exact World.yields_solveTrait
  | matches_ span subject f => exact World.yields_solveMatches
  | eq span left right => exact World.yields_solveEq
  | ne span left right => exact World.yields_solveNe (.refl _)

/-- Solving never binds the wildcard. -/
theorem yields_find?_wildcard (g : Goal) {input : Bindings} (h : input.find? wildcard = none) :
    Yields (fun _ => True) (g.solve w input) (Solutions.All fun c => c.find? wildcard = none) :=
  (yields_solve g input).mono fun _ hs c hc => Bindings.view_eq_none_iff.1 <|
    ((hs c hc).view.others wildcard (.inr rfl)).trans (Bindings.view_eq_none_iff.2 h)

/-- A solution keeps what was bound, up to aliasing, and binds beyond it free variables of the goal
only, of which those under tests do not count. Tests bind nothing. -/
theorem solve_extends {g : Goal} {input : Bindings} {a a' : Arena} {s : Solutions}
    (h : Gives (g.solve w input) a s a') :
    (∀ c ∈ s.toList,
      (∀ n e, input.find? n = some e → ∃ e', c.find? n = some e' ∧ e'.aliases e = Bool.true) ∧
      ∀ n, c.binds n = Bool.true → input.binds n = Bool.true ∨ n ∈ g.bindable) ∧
    (g.isTest = Bool.true → s = ∅ ∨ s = Catalog.singleton input) := by
  refine ⟨fun c hc => ?_, fun hg => ((yields_test hg input).gives trivial h).1⟩
  have hextended := (((yields_solve g input).gives trivial h).1 c hc).view
  refine ⟨fun n e he => ?_, fun n hn => ?_⟩
  · obtain ⟨e', he', hlocated⟩ :=
      Bindings.view_eq_some_iff.1 (hextended.kept n _ (Bindings.view_of_find? he))
    exact ⟨e', he', decide_eq_true hlocated⟩
  · by_cases hmem : n ∈ g.bindable
    · exact .inr hmem
    · have hview := congrArg Option.isSome (hextended.others n (.inl hmem))
      rw [Bindings.view, Bindings.view, Option.isSome_map, Option.isSome_map] at hview
      exact .inl (hview.symm.trans hn)

end Goal

/-! ### A variable that a quantifier hides -/

namespace Hidden

/-- A number. -/
def number (i : Int) : Entity := .value (.int i)

/-- A relation of single numbers. -/
def relation : Relation :=
  let signature : Signature := ⟨"r", [⟨"n", .any⟩], {}⟩
  { signature
    tuples := Catalog.ofListFirst
      ([1, 2].filterMap fun i => (Tuple.ofValues signature [number i]).toOption) }

/-- A world without a program. -/
def world : World := ⟨Program.ofClasses [], Dict.set ∅ "r" relation, []⟩

/-- Some number, hidden by the quantifier, and another one, while 3 is no number. -/
def goal : Goal :=
  .and [.exists ["x"] (.trait .synthetic "r" [.var "x" .any]), .trait .synthetic "r" [.var "y" .any],
    .not (.trait .synthetic "r" [.const (number 3)])]

/-- Solving for a variable of the name that is hidden. -/
def solving : Solving Solutions := goal.solve world (Bindings.empty.bind "x" (number 7))

/-- The solutions. -/
def solutions : Solutions := (solving.run.run (.unused 0)).1.toOption.getD ∅

/-- Every solution keeps the outer variable and binds the free one. -/
theorem solve_extends_hidden :
    solutions.size = 2 ∧ ∀ c ∈ solutions.toList,
      (∃ e, c.find? "x" = some e ∧ e.aliases (number 7) = true) ∧
        ∀ n, c.binds n = true → n = "x" ∨ n = "y" := by
  have hgives : Gives solving (.unused 0) solutions (solving.run.run (.unused 0)).2 :=
    gives_getD (by decide +kernel)
  refine ⟨by decide +kernel, fun c hc => ?_⟩
  obtain ⟨hkept, honly⟩ := (Goal.solve_extends hgives).1 c hc
  refine ⟨hkept "x" (number 7) rfl, fun n hn => ?_⟩
  rcases honly n hn with hn | hn
  · by_cases hx : n = "x"
    · exact .inl hx
    · rw [Bindings.binds, Bindings.find?_bind_of_ne hx] at hn
      cases hn
  · exact .inr (List.mem_singleton.1 hn)

end Hidden

end CodeRules
