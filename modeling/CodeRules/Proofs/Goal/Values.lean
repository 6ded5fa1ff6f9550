import CodeRules.Goal.Compile
import CodeRules.Proofs.Fragment.Values
import CodeRules.Proofs.Goal.Answers
import CodeRules.Proofs.Goal.Compile
import CodeRules.Proofs.Goal.Yields

/-!
# What variables of goals stand for

The variables of a goal stand for entities of every set that holds what the world is about and is closed
under the parts of entities and under functions. Equations with patterns make new entities, so such a
set may depend on the nodes made so far (`World.Tracks`, `Goal.leads_solve`). A goal without such
equations makes no node (`Goal.yields_valuesIn`).
-/

namespace CodeRules

open Effect

/-! ### Equations with patterns -/

/-- Whether the term is a pattern. -/
def Term.isPattern : Term → Bool
  | pattern _ => true
  | _ => false

namespace Expr

mutual

/-- Whether an equation in the expression has a pattern as a side. -/
def equatesPattern : Expr → Bool
  | and items | or items => anyEquatesPattern items
  | not body | .exists _ _ body => equatesPattern body
  | implies left right | iff left right | .forall _ _ left right =>
    equatesPattern left || equatesPattern right
  | eq _ left right => left.isPattern || right.isPattern
  | true | false | trait .. | .matches .. | ne .. => Bool.false

/-- Whether an equation in one of several expressions has a pattern as a side. -/
def anyEquatesPattern : List Expr → Bool
  | [] => Bool.false
  | e :: es => equatesPattern e || anyEquatesPattern es

end

end Expr

/-- Whether the term is a pattern. -/
def GoalTerm.isPattern : GoalTerm → Bool
  | pattern _ => true
  | _ => false

namespace Goal

mutual

/-- Whether an equation in the goal has a pattern as a side. -/
def equatesPattern : Goal → Bool
  | and items | or items => anyEquatesPattern items
  | not body | .exists _ body => equatesPattern body
  | implies left right | iff left right | .forall _ left right =>
    equatesPattern left || equatesPattern right
  | eq _ left right => left.isPattern || right.isPattern
  | true | false | trait .. | .matches .. | ne .. => Bool.false

/-- Whether an equation in one of several goals has a pattern as a side. -/
def anyEquatesPattern : List Goal → Bool
  | [] => Bool.false
  | g :: gs => equatesPattern g || anyEquatesPattern gs

end

/-- Several goals equate a pattern when one of them does. -/
theorem anyEquatesPattern_eq_any (gs : List Goal) :
    anyEquatesPattern gs = gs.any equatesPattern := by
  induction gs with
  | nil => rfl
  | cons g gs ih => rw [anyEquatesPattern, ih, List.any_cons]

end Goal

/-- A term is compiled to a pattern only if it is one. -/
theorem Term.isPattern_of_compile {s : Scope} {t : Term} {u : GoalTerm} (h : t.compile s = .ok u) :
    u.isPattern = t.isPattern := by
  cases t with
  | var name =>
    simp only [compile] at h
    split at h
    -- only a pattern is compiled to a pattern
    · obtain rfl := Except.ok.inj h
      rfl
    · split at h <;> obtain rfl := Except.ok.inj h <;> rfl
  | entity e =>
    obtain rfl := Except.ok.inj h
    rfl
  | pattern p =>
    simp only [compile, Except.bind_eq_ok, Except.pure_eq_ok] at h
    obtain ⟨f, _, rfl⟩ := h
    rfl
  | apply func args =>
    simp only [compile, Except.bind_eq_ok, Except.pure_eq_ok] at h
    obtain ⟨us, _, rfl⟩ := h
    rfl

/-- The goal of an expression equates what the expression equates. -/
theorem Expr.equatesPattern_of_compile {store : Store} {s : Scope} {e : Expr} {g : Goal}
    (h : e.compile store s = .ok g) : g.equatesPattern = e.equatesPattern := by
  -- the compiler keeps the sides of equations, so both sides are compared by induction on it
  have hall {es : List Expr} {gs : List Goal}
      (hes : List.Forall₂ (fun e g => g.equatesPattern = e.equatesPattern) es gs) :
      Goal.anyEquatesPattern gs = anyEquatesPattern es := by
    induction hes with
    | nil => rfl
    | cons h _ ih => rw [Goal.anyEquatesPattern, anyEquatesPattern, h, ih]
  have hboth {left right : Expr} {l r : Goal} (hl : l.equatesPattern = left.equatesPattern)
      (hr : r.equatesPattern = right.equatesPattern) :
      (l.equatesPattern || r.equatesPattern) = (left.equatesPattern || right.equatesPattern) := by
    rw [hl, hr]
  apply compile_induction (P := fun _ e g => g.equatesPattern = e.equatesPattern) (h := h)
  case true | false => exact fun _ => rfl
  case and | or => exact fun _ _ _ => hall
  case not => exact fun _ _ _ h => h
  case implies | iff => exact fun _ _ _ _ _ => hboth
  case exists_ => exact fun _ _ _ _ _ _ _ h => h
  case forall_ => exact fun _ _ _ _ _ _ _ _ _ => hboth
  case trait => exact fun _ _ _ _ _ _ _ => rfl
  case matches_ => exact fun _ _ _ _ _ _ _ _ => rfl
  case ne => exact fun _ _ _ _ _ _ _ _ => rfl
  case eq =>
    intro s span left right l r hl hr
    rw [Goal.equatesPattern, equatesPattern, Term.isPattern_of_compile hl,
      Term.isPattern_of_compile hr]

/-! ### Worlds -/

/-- The set holds the entities of the world, apart from its relations, and evaluating terms does not
lead out of it. -/
structure World.Closes (w : World) (a : Arena) (D : Entity → Prop) : Prop
    extends w.program.surroundings.Closes D where
  call : ∀ {func e v}, D e → w.call? a func e = some v → D v
  known : ∀ e ∈ w.program.entities, D e
  made : ∀ e ∈ w.overlay, D e

/-- All tuples hold entities of the set. -/
def Store.ValuesIn (D : Entity → Prop) (s : Store) : Prop :=
  ∀ n r, s.find? n = some r → ∀ t ∈ r.tuples.toList, ∀ e ∈ t.values, D e

variable {D : Entity → Prop}

namespace Store.ValuesIn

variable {s : Store} {r : Relation} {n : String}

/-- A relation is put whose tuples hold entities of the set. -/
theorem set (hs : s.ValuesIn D) (hr : ∀ t ∈ r.tuples.toList, ∀ e ∈ t.values, D e) :
    ValuesIn D (Dict.set s n r) := by
  intro m q hq
  rw [Dict.find?_set] at hq
  split at hq
  · obtain rfl := Option.some.inj hq
    exact hr
  · exact hs m q hq

/-- A tuple of entities of the set is added. -/
theorem insert (hs : s.ValuesIn D) (hr : s.find? n = some r) {t : Tuple} (ht : ∀ e ∈ t.values, D e) :
    ValuesIn D (Dict.set s n (r.insert t)) := by
  refine hs.set fun u hu => ?_
  rcases Catalog.mem_of_mem_insert hu with rfl | hu
  · exact ht
  · exact hs n r hr u hu

end Store.ValuesIn

namespace World

variable {w : World} {a : Arena} {b c : Bindings}

namespace Closes

/-- Candidates for a variable are known or made. -/
theorem candidates (hw : w.Closes a D) {type : ParamType} {f : Fragment} :
    ∀ e ∈ w.candidates type f, D e := by
  have hknown (c : Category) (tag : Option Tag) : ∀ e ∈ w.program.candidates c tag, D e := by
    intro e he
    cases tag with
    | none => exact hw.known e (List.mem_of_mem_filter he)
    | some tag => exact hw.known e (List.mem_of_mem_filter he)
  intro e he
  unfold World.candidates at he
  rcases List.mem_append.1 (List.mem_of_mem_filter he) with he | he
  · split at he
    · exact hknown _ _ e he
    · obtain ⟨tag, _, he⟩ := List.mem_flatMap.1 he
      exact hknown _ _ e he
  · exact hw.made e (List.mem_of_mem_filter he)

/-- Arguments have values in the set. -/
private theorem argumentsOf_in {ts : List GoalTerm} {func : EntityFunction} {es : List Entity}
    (hts : ∀ t ∈ ts, ∀ v, w.valueOf a b t = .ok (some v) → D v)
    (h : w.argumentsOf a b func ts = .ok es) : ∀ e ∈ es, D e := by
  induction ts generalizing es with
  | nil =>
    obtain rfl := Except.ok.inj h
    exact fun e he => absurd he List.not_mem_nil
  | cons t ts ih =>
    simp only [argumentsOf, Except.bind_eq_ok] at h
    obtain ⟨o, ho, h⟩ := h
    cases o with
    | none => cases h
    | some v =>
      simp only [Except.bind_eq_ok, Except.pure_eq_ok] at h
      obtain ⟨vs, hvs, rfl⟩ := h
      exact List.forall_mem_cons.2 ⟨hts t (List.mem_cons_self ..) v ho,
        ih (fun u hu => hts u (List.mem_cons_of_mem _ hu)) hvs⟩

/-- Values of terms are in the set. -/
theorem valueOf (hw : w.Closes a D) (hb : b.ValuesIn D) {t : GoalTerm} (ht : ∀ e ∈ t.constants, D e)
    {v : Entity} (h : w.valueOf a b t = .ok (some v)) : D v := by
  induction t using GoalTerm.induction generalizing v with
  | wildcard => cases h
  | var name type => exact hb name v (Except.ok.inj h)
  | const e =>
    obtain rfl := Option.some.inj (Except.ok.inj h)
    exact ht e (List.mem_singleton_self e)
  | pattern f => cases h
  | apply func args ih =>
    simp only [World.valueOf, Except.bind_eq_ok, Except.pure_eq_ok, Option.some.injEq] at h
    obtain ⟨es, hes, v, hcall, rfl⟩ := h
    -- the arguments have values in the set
    have hin : ∀ e ∈ es, D e := argumentsOf_in (fun t htmem v hv => ih t htmem (fun e he => ht e (by
      rw [GoalTerm.constants, GoalTerm.constantsAll_eq_flatMap]
      exact List.mem_flatMap.2 ⟨t, htmem, he⟩)) hv) hes
    cases es with
    | nil => cases hcall
    | cons arg rest =>
      cases rest with
      | nil =>
        obtain rfl := Except.ok.inj hcall
        cases hv : w.call? a func arg with
        | none => exact hw.empty
        | some v => exact hw.call (hin arg (List.mem_singleton_self arg)) hv
      | cons _ _ => cases hcall

variable {P : Bindings → Prop}

/-- Matching keeps what binding and merging keep. -/
theorem matchInto (hw : w.Closes a D) (hP : Bindings.Gathers D P) (hb : P b) {f : Fragment}
    {e : Entity} (he : D e) (h : w.matchInto f e b = .ok (some c)) : P c := by
  unfold World.matchInto at h
  split at h
  · cases h
  · rename_i found hfound
    obtain ⟨m, rfl, hmerge⟩ := Option.bind_eq_some_iff.1 (Except.ok.inj h)
    have hm : P m := Fragment.gathers_of_recognize hP hw.toCloses he hfound
    exact hP.mergeWith? (hP.withoutResult hm) hb hmerge

/-- So does unifying with an entity of the set. -/
theorem unify (hw : w.Closes a D) (hP : Bindings.Gathers D P) (hb : P b) {t : GoalTerm} {e : Entity}
    (he : D e) (h : w.unify a t e b = .ok (some c)) : P c := by
  -- what is compared binds nothing
  have hsame {q : Bool} (h : (if q then some b else none) = some c) : P c := by
    cases q with
    | false => cases h
    | true => exact Option.some.inj h ▸ hb
  cases t with
  | wildcard => exact Option.some.inj (Except.ok.inj h) ▸ hb
  | var name type =>
    simp only [World.unify] at h
    split at h
    · exact hsame (Except.ok.inj h)
    · have h := Except.ok.inj h
      split at h
      · exact Option.some.inj h ▸ hP.bind hb he name
      · cases h
  | const known => exact hsame (Except.ok.inj h)
  | pattern f => exact hw.matchInto hP hb he h
  | apply func args =>
    simp only [World.unify, Except.bind_eq_ok, Except.pure_eq_ok, Option.bind_eq_some_iff] at h
    obtain ⟨_, _, v, _, h⟩ := h
    exact hsame h

/-- And unifying with several. -/
theorem unifyAll (hw : w.Closes a D) (hP : Bindings.Gathers D P) (hb : P b) {ts : List GoalTerm}
    {es : List Entity} (hes : ∀ e ∈ es, D e) (h : w.unifyAll a ts es b = .ok (some c)) : P c := by
  induction ts generalizing es b with
  | nil => exact Option.some.inj (Except.ok.inj h) ▸ hb
  | cons t ts ih =>
    cases es with
    | nil => exact Option.some.inj (Except.ok.inj h) ▸ hb
    | cons e es =>
      simp only [World.unifyAll, Except.bind_eq_ok] at h
      obtain ⟨o, ho, h⟩ := h
      cases o with
      | none => cases h
      | some d =>
        exact ih (hw.unify hP hb (hes e (List.mem_cons_self ..)) ho)
          (fun x hx => hes x (List.mem_cons_of_mem _ hx)) h

end Closes

/-! ### Solving -/

/-- From `a` on, in the sense of `r`, the entities that the world holds are in the sets `D`, and `P`
holds of bindings that are put together from such entities. -/
structure Tracks (w : World) (r : Arena → Arena → Prop) (D : Arena → Entity → Prop)
    (P : Bindings → Arena → Prop) (a : Arena) : Prop where
  closes : ∀ a', r a a' → w.Closes a' (D a')
  store : w.store.ValuesIn (D a)
  grows : ∀ a' a'' e, r a' a'' → D a' e → D a'' e
  gathers : ∀ a', Bindings.Gathers (D a') (P · a')
  values : ∀ b a', P b a' → b.ValuesIn (D a')
  erase : ∀ b names a', P b a' → P (b.erase names) a'
  later : ∀ b a' a'', r a' a'' → P b a' → P b a''

variable {r : Arena → Arena → Prop} [Std.Refl r] [IsTrans Arena r] {D : Arena → Entity → Prop}
  {P : Bindings → Arena → Prop} {span : Span} {input : Bindings}

omit [Std.Refl r] in
/-- What holds from an arena on holds from a later one on. -/
theorem Tracks.mono {a' : Arena} (hw : w.Tracks r D P a) (ha : r a a') : w.Tracks r D P a' where
  closes a'' h := hw.closes a'' (IsTrans.trans _ _ _ ha h)
  store n rel hrel t ht e he := hw.grows a a' e ha (hw.store n rel hrel t ht e he)
  grows := hw.grows
  gathers := hw.gathers
  values := hw.values
  erase := hw.erase
  later := hw.later

section

variable (hw : w.Tracks r D P a) (hinput : P input a)
include hw hinput

/-- Solutions of a trait are put together from its tuples. -/
private theorem leads_solveTrait {name : String} {args : List GoalTerm} :
    Leads r (w.solveTrait span name args input) a fun s a' => s.All (P · a') := by
  unfold solveTrait
  split
  · exact leads_throw trivial
  · rename_i rel hrel
    dsimp only
    split
    · exact leads_throw trivial
    · refine Solving.leads_collect hw.later fun t ht a' ha' => Solving.leads_ask fun o ho c hc => ?_
      subst hc
      have hw' := hw.mono ha'
      exact (hw'.closes a' (Std.Refl.refl a')).unifyAll (hw.gathers a') (hw.later input a a' ha' hinput)
        (hw'.store name rel hrel t ht) ho

omit [IsTrans Arena r] in
/-- The value of a term is in the set. -/
private theorem leads_value {t : GoalTerm} (ht : ∀ e ∈ t.constants, D a e) :
    Leads r (Solving.ask span fun a => w.valueOf a input t) a
      fun o a' => ∀ v, o = some v → D a' v :=
  Solving.leads_ask fun o ho v hv => by
    subst hv
    exact (hw.closes a (Std.Refl.refl a)).valueOf (hw.values input a hinput) ht ho

omit [IsTrans Arena r] in
/-- A match is put together from parts of an entity of the set. -/
private theorem leads_find {f : Fragment} {e : Entity} (he : D a e) :
    Leads r (Solving.ask span fun _ => w.matchInto f e input) a
      fun o a' => ∀ c, o = some c → P c a' :=
  Solving.leads_ask fun _ ho _ hc =>
    (hw.closes a (Std.Refl.refl a)).matchInto (hw.gathers a) hinput he (hc ▸ ho)

omit [IsTrans Arena r] in
/-- So is what unifying gives. -/
private theorem leads_unify {t : GoalTerm} {e : Entity} (he : D a e) :
    Leads r (Solving.ask span fun a => w.unify a t e input) a
      fun o a' => ∀ c, o = some c → P c a' :=
  Solving.leads_ask fun _ ho _ hc =>
    (hw.closes a (Std.Refl.refl a)).unify (hw.gathers a) hinput he (hc ▸ ho)

/-- Solutions of a match are put together from the subject or from a candidate. -/
private theorem leads_solveMatches {subject : GoalTerm} {f : Fragment}
    (hsubject : ∀ e ∈ subject.constants, D a e) :
    Leads r (w.solveMatches span subject f input) a fun s a' => s.All (P · a') := by
  refine leads_bind (leads_value hw hinput hsubject) fun v a₁ h₁ hv => ?_
  -- the value was asked first, so the rest starts in a later arena
  replace hw := hw.mono h₁
  replace hinput := hw.later input a a₁ h₁ hinput
  cases v with
  | some e =>
    exact leads_bind (leads_find hw hinput (hv e rfl)) fun o a₂ _ ho =>
      leads_pure (Solutions.all_ofOption ho)
  | none =>
    have hcandidate {type : ParamType} {e : Entity} (he : e ∈ w.candidates type f) {a₂ : Arena}
        (h₂ : r a₁ a₂) : Leads r (Solving.ask span fun _ => w.matchInto f e input) a₂
          fun o a' => D a' e ∧ ∀ c, o = some c → P c a' := by
      have he' := (hw.closes a₂ h₂).candidates e he
      exact (leads_find (hw.mono h₂) (hw.later input a₁ a₂ h₂ hinput) he').mono fun o a₃ h₃ ho =>
        ⟨hw.grows a₂ a₃ e h₃ he', ho⟩
    cases subject with
    | var name type =>
      refine Solving.leads_collect hw.later fun e he a₂ h₂ => ?_
      refine leads_bind (hcandidate he h₂) fun o a₃ _ ho => leads_pure fun c hc => ?_
      obtain ⟨d, rfl, hbind⟩ := Option.bind_eq_some_iff.1 hc
      exact (hw.gathers a₃).bind? (ho.2 d rfl) ho.1 hbind
    | wildcard =>
      exact Solving.leads_collect hw.later fun e he a₂ h₂ => (hcandidate he h₂).mono fun _ _ _ ho => ho.2
    | _ => exact leads_throw trivial

/-- Solutions of an equality are put together from the sides, or from what a pattern makes. -/
private theorem leads_solveEq {left right : GoalTerm} (hleft : ∀ e ∈ left.constants, D a e)
    (hright : ∀ e ∈ right.constants, D a e)
    (hmakes : ∀ a', r a a' → ∀ name type f, GoalTerm.pattern f ∈ [left, right] →
      P input a' → Leads r (w.generateInto span name type f input) a' P) :
    Leads r (w.solveEq span left right input) a fun s a' => s.All (P · a') := by
  refine leads_bind (leads_value hw hinput hleft) fun l a₁ h₁ hl => ?_
  have hright : ∀ e ∈ right.constants, D a₁ e := fun e he => hw.grows a a₁ e h₁ (hright e he)
  refine leads_bind (leads_value (hw.mono h₁) (hw.later input a a₁ h₁ hinput) hright)
    fun r' a₂ h₂ hr => ?_
  have h₁₂ : r a a₂ := IsTrans.trans _ _ _ h₁ h₂
  -- values that were found earlier are still in the set, which grows along the relation
  replace hl : ∀ v, l = some v → D a₂ v := fun v hv => hw.grows a₁ a₂ v h₂ (hl v hv)
  replace hw := hw.mono h₁₂
  replace hinput := hw.later input a a₂ h₁₂ hinput
  -- the entity that a pattern makes is bound in a later arena
  have hmade {name : String} {type : ParamType} {f : Fragment}
      (hf : GoalTerm.pattern f ∈ [left, right]) :
      Leads r (do return Catalog.singleton (← w.generateInto span name type f input)) a₂
        fun s a' => Solutions.All (P · a') s :=
    leads_bind (hmakes a₂ h₁₂ name type f hf hinput) fun b a₃ _ hb =>
      leads_pure (Solutions.all_singleton hb)
  cases l with
  | some l =>
    cases r' with
    | some r' => exact leads_pure (Solutions.all_test hinput)
    | none =>
      exact leads_bind (leads_unify hw hinput (hl l rfl)) fun _ _ _ ho =>
        leads_pure (Solutions.all_ofOption ho)
  | none =>
    cases r' with
    | some r' =>
      exact leads_bind (leads_unify hw hinput (hr r' rfl)) fun _ _ _ ho =>
        leads_pure (Solutions.all_ofOption ho)
    | none =>
      dsimp only
      split
      · exact hmade (by simp)
      · exact hmade (by simp)
      · exact leads_throw trivial

/-- Solutions of an inequality are the input. -/
private theorem leads_solveNe {left right : GoalTerm} :
    Leads r (w.solveNe span left right input) a fun s a' => s.All (P · a') := by
  have hask (t : GoalTerm) (a' : Arena) : Leads r (Solving.ask span fun a => w.valueOf a input t) a'
      fun _ _ => True := Solving.leads_ask fun _ _ => trivial
  refine leads_bind (hask left a) fun l a₁ h₁ _ => leads_bind (hask right a₁) fun r' a₂ h₂ _ => ?_
  cases l with
  | none => exact leads_throw trivial
  | some l =>
    cases r' with
    | none => exact leads_throw trivial
    | some r' =>
      have hinput := hw.later input a₁ a₂ h₂ (hw.later input a a₁ h₁ hinput)
      exact leads_pure (Solutions.all_test hinput)

end

end World

namespace Goal

variable {w : World} {a : Arena}

/-- All entities that stand in the goal are of the set. -/
def ConstantsIn (D : Entity → Prop) (g : Goal) : Prop := ∀ t ∈ g.terms, ∀ e ∈ t.constants, D e

section

variable {r : Arena → Arena → Prop} [Std.Refl r] [IsTrans Arena r] {D : Arena → Entity → Prop}
  {P : Bindings → Arena → Prop}

/-- From arenas after `a` on, what the patterns in equations of the goal generate is as `P` says. -/
def Makes (w : World) (r : Arena → Arena → Prop) (P : Bindings → Arena → Prop) (a : Arena)
    (g : Goal) : Prop :=
  g.equatesPattern = Bool.true → ∀ a', r a a' → ∀ span name type f input, GoalTerm.pattern f ∈ g.terms →
    P input a' → Leads r (w.generateInto span name type f input) a' P

/-- All that solving the goal from `a` on needs. -/
private structure Ready (w : World) (r : Arena → Arena → Prop) (D : Arena → Entity → Prop)
    (P : Bindings → Arena → Prop) (a : Arena) (g : Goal) : Prop where
  tracks : w.Tracks r D P a
  constants : g.ConstantsIn (D a)
  makes : g.Makes w r P a

namespace Ready

variable {a' : Arena} {gs : List Goal} {g g' : Goal}

omit [Std.Refl r] in
/-- A part of the goal may be solved in a later arena. -/
private theorem part (h : Ready w r D P a g) {k : Goal} (ha : r a a')
    (hequates : k.equatesPattern = Bool.true → g.equatesPattern = Bool.true)
    (hterms : ∀ t ∈ k.terms, t ∈ g.terms) : Ready w r D P a' k where
  tracks := h.tracks.mono ha
  constants t ht e he := h.tracks.grows a a' e ha (h.constants t (hterms t ht) e he)
  makes hk a'' ha'' span name type f input hf :=
    h.makes (hequates hk) a'' (IsTrans.trans _ _ _ ha ha'') span name type f input (hterms _ hf)

omit [Std.Refl r] in
/-- So may one of several goals. -/
private theorem item (h : Ready w r D P a (and gs)) (hg : g ∈ gs) (ha : r a a') : Ready w r D P a' g := by
  refine h.part ha (fun hequates => ?_) fun t ht => ?_
  · rw [equatesPattern, anyEquatesPattern_eq_any]
    exact List.any_eq_true.2 ⟨g, hg, hequates⟩
  · rw [terms, termsAll_eq_flatMap]
    exact List.mem_flatMap.2 ⟨g, hg, ht⟩

/-- The first of two parts is solved at once. -/
private theorem left (h : Ready w r D P a (iff g g')) : Ready w r D P a g :=
  h.part (Std.Refl.refl a) (fun hequates => Bool.or_eq_true_iff.2 (.inl hequates))
    fun _ ht => List.mem_append_left _ ht

omit [Std.Refl r] in
/-- The second of two parts is solved later on. -/
private theorem right (h : Ready w r D P a (iff g g')) (ha : r a a') : Ready w r D P a' g' :=
  h.part ha (fun hequates => Bool.or_eq_true_iff.2 (.inr hequates)) fun _ ht => List.mem_append_right _ ht

end Ready

/-- A universal test gives its input back when its range and its body can be solved. -/
private theorem leads_test (hw : w.Tracks r D P a) {range body : Goal} {b inner : Bindings}
    (hb : P b a) (hrange : Leads r (range.solve w inner) a fun s a' => s.All (P · a'))
    (hbody : ∀ c a', r a a' → P c a' → Leads r (body.solve w c) a' fun s a'' => s.All (P · a'')) :
    Leads r (do
      let s ← range.solve w inner
      return .test (← Solving.everywhere (body.solve w) s.toList) b) a
      fun s a' => Solutions.All (P · a') s := by
  refine leads_bind hrange fun s a₁ h₁ hs => ?_
  refine leads_bind (Solving.leads_everywhere hw.later hs fun c a₂ h₂ hc => ?_) fun _ a₂ h₂ _ =>
    leads_pure (Solutions.all_test (hw.later b a₁ a₂ h₂ (hw.later b a a₁ h₁ hb)))
  exact hbody c a₂ (IsTrans.trans _ _ _ h₁ h₂) hc

/-- A goal leads to solutions as `P` says, by induction on the goal. -/
private theorem Ready.leads {g : Goal} (hg : Ready w r D P a g) {b : Bindings} (hb : P b a) :
    Leads r (g.solve w b) a fun s a' => s.All (P · a') := by
  have hw := hg.tracks
  induction g using Goal.induction generalizing a b with
  | true => exact leads_pure (Solutions.all_singleton hb)
  | false => exact leads_pure Solutions.all_empty
  | and items ih =>
    exact leads_solveAnd hw.later (fun g hmem b a' ha' hb =>
      ih g hmem (hg.item hmem ha') hb (hw.mono ha')) (Solutions.all_singleton hb)
  | or items ih =>
    have hitems : Ready w r D P a (and items) := ⟨hw, hg.constants, hg.makes⟩
    exact leads_solveOr hw.later hb fun g hmem a' ha' hb =>
      ih g hmem (hitems.item hmem ha') hb (hw.mono ha')
  | not body ih =>
    exact leads_bind (ih ⟨hw, hg.constants, hg.makes⟩ hb hw) fun s a' ha' _ =>
      leads_pure (Solutions.all_test (hw.later b a a' ha' hb))
  | implies premise conclusion ihp ihc =>
    -- a test leads along both parts, and gives back the bindings it started from
    have hboth : Ready w r D P a (iff premise conclusion) := ⟨hw, hg.constants, hg.makes⟩
    exact leads_test hw hb (ihp hboth.left hb hw) fun c a' ha' hc =>
      ihc (hboth.right ha') hc (hw.mono ha')
  | iff left right ihl ihr =>
    refine leads_bind (ihl hg.left hb hw) fun s a₁ h₁ _ => ?_
    have hb₁ := hw.later b a a₁ h₁ hb
    refine leads_bind (ihr (hg.right h₁) hb₁ (hw.mono h₁)) fun _ a₂ h₂ _ => ?_
    exact leads_pure (Solutions.all_test (hw.later b a₁ a₂ h₂ hb₁))
  | exists_ binders body ih =>
    refine leads_bind (ih ⟨hw, hg.constants, hg.makes⟩ (hw.erase b binders a hb) hw) fun s a' ha' hs =>
      leads_pure fun c hc => ?_
    -- what was bound inside is merged with what was bound outside
    obtain ⟨d, hd, hmerge⟩ := List.mem_filterMap.1 (Catalog.mem_of_mem_ofListFirst hc)
    exact (hw.gathers a').mergeWith? (hw.erase d binders a' (hs d hd)) (hw.later b a a' ha' hb) hmerge
  | forall_ binders range body ihr ihb =>
    have hboth : Ready w r D P a (iff range body) := ⟨hw, hg.constants, hg.makes⟩
    exact leads_test hw hb (ihr hboth.left (hw.erase b binders a hb) hw) fun c a' ha' hc =>
      ihb (hboth.right ha') hc (hw.mono ha')
  | trait span name args => exact World.leads_solveTrait hw hb
  | matches_ span subject f =>
    exact World.leads_solveMatches hw hb (hg.constants subject (List.mem_singleton_self subject))
  | eq span left right =>
    refine World.leads_solveEq hw hb (hg.constants left (List.mem_cons_self ..))
      (hg.constants right (List.mem_cons_of_mem _ (List.mem_singleton_self right))) ?_
    -- the pattern is one of the sides, so the equation is one with a pattern
    intro a' ha' name type f hf hb'
    refine hg.makes (Bool.or_eq_true_iff.2 ?_) a' ha' span name type f b hf hb'
    rcases List.mem_cons.1 hf with rfl | hf
    · exact .inl rfl
    · obtain rfl := List.mem_singleton.1 hf
      exact .inr rfl
  | ne span left right => exact World.leads_solveNe hw hb

/-- What holds of all bindings that are put together from entities of growing sets holds of the
solutions. -/
theorem leads_solve {g : Goal} (hw : w.Tracks r D P a) (hg : g.ConstantsIn (D a))
    (hmakes : g.Makes w r P a) {b : Bindings} (hb : P b a) :
    Leads r (g.solve w b) a fun s a' => s.All (P · a') := Ready.leads ⟨hw, hg, hmakes⟩ hb

end

variable {D : Entity → Prop}

/-- The variables of a goal that equates no patterns stand for entities of the set, and no node is
made. -/
theorem yields_valuesIn (hw : w.Closes a D) (hstore : w.store.ValuesIn D) {g : Goal}
    (hg : g.ConstantsIn D) (hmakes : g.equatesPattern = Bool.false) {b : Bindings}
    (hb : b.ValuesIn D) : Yields (· = a) (g.solve w b) (Solutions.All (Bindings.ValuesIn D)) := by
  intro s hs
  subst hs
  have htracks : w.Tracks Eq (fun _ => D) (fun b _ => b.ValuesIn D) s := {
    closes := fun a' ha' => ha' ▸ hw
    store := hstore
    grows := fun _ _ _ _ he => he
    gathers := fun _ => Bindings.gathers_valuesIn D
    values := fun _ _ hb => hb
    erase := fun _ names _ hb => hb.erase names
    later := fun _ _ _ _ hb => hb }
  have hleads := leads_solve htracks hg (fun h => by rw [hmakes] at h; cases h) hb
  exact Ends.imp hleads (fun s _ hs => ⟨hs.2, hs.1.symm⟩) fun _ _ ha => ha.1.symm

end Goal

end CodeRules
