import CodeRules.Proofs.Code.Copy
import CodeRules.Proofs.Effect
import CodeRules.Proofs.Fragment.Normal
import CodeRules.Proofs.Rule.Induction

/-!
# The values of terms and normal forms

The value of a term, and how a term is unified with an entity, do not depend on the numbers of made
nodes: an arena in which no node is meant for a type can be replaced by the unused one, and bindings
by their normal form. What the store holds does not matter either.
-/

namespace CodeRules

/-- The world of a program about which no fact is known. -/
def Program.bare (p : Program) : World := ⟨p, ∅, []⟩

namespace GoalTerm

mutual

/-- The entities that stand in a term. -/
def constants : GoalTerm → List Entity
  | const e => [e]
  | apply _ args => constantsAll args
  | _ => []

/-- The entities that stand in several terms. -/
def constantsAll : List GoalTerm → List Entity
  | [] => []
  | t :: ts => t.constants ++ constantsAll ts

end

/-- The entities in several terms are those in each of them. -/
theorem constantsAll_eq_flatMap (ts : List GoalTerm) : constantsAll ts = ts.flatMap constants := by
  induction ts with
  | nil => rfl
  | cons t ts ih => rw [constantsAll, ih, List.flatMap_cons]

/-- All entities that stand in the term are uniform. -/
def Uniform (base : UInt32) (t : GoalTerm) : Prop := ∀ e ∈ t.constants, e.Uniform base

/-- The arguments of a uniform term are uniform. -/
theorem Uniform.arg {base : UInt32} {func : EntityFunction} {args : List GoalTerm}
    (h : (apply func args).Uniform base) {t : GoalTerm} (ht : t ∈ args) : t.Uniform base := by
  intro e he
  refine h e ?_
  rw [constants, constantsAll_eq_flatMap]
  exact List.mem_flatMap.2 ⟨t, ht, he⟩

end GoalTerm

namespace World

variable {base : UInt32} {w w' : World} {a a' : Arena}

/-! ### Functions -/

/-- The value of a function depends on the normal form of its argument only. -/
theorem call?_normal (hp : w.program.Below base) (ha : a.Intact base) (func : EntityFunction)
    {e : Entity} (he : e.Uniform base) :
    w.call? a func e = w.program.bare.call? (.unused base) func (e.normal base) := by
  cases func with
  | typeOf => exact congrArg (Option.map Entity.type) (hp.typeOf?_normal he).symm
  | declarationOf => cases e <;> rfl
  | nameOf => exact congrArg (Option.map Entity.name) (Entity.name?_node?_normal base e).symm
  | signatureOf =>
    exact congrArg (Option.map Entity.signature) (Entity.signature?_node?_normal base e).symm
  | declaringType =>
    refine congrArg (Option.map Entity.type) ?_
    cases e with
    | node n =>
      have hunused : (Arena.unused base).Intact base := Arena.intact_unused
      show w.declaringType? a n.id = w.program.bare.declaringType? (.unused base) (n.normal base).id
      rw [declaringType?, declaringType?, ha.declaringType_get?, hunused.declaringType_get?]
      show w.program.declaringType? n.id = w.program.declaringType? (n.normal base).id
      rcases he.root with hread | hmade
      · rw [hread.id_normal]
      -- a made node is declared by no type, whatever its number is
      · have hid : base ≤ (n.normal base).id.word := by
          rw [hmade.id_normal]
          exact UInt32.le_refl base
        exact (hp.declaring _ hmade.2).trans (hp.declaring _ hid).symm
    | _ => rfl

/-- The class that a type names is one of the program. -/
private theorem mem_values_of_class? {p : Program} {t : CodeType} {c : Node}
    (h : p.declarationOf? t = some c) : c ∈ p.classes.values := by
  unfold Program.declarationOf? at h
  split at h
  · rw [ClassTable.class?, Option.orElse_eq_some] at h
    rcases h with h | ⟨_, h⟩
    · exact List.mem_map.2 ⟨_, Dict.find?_eq_some_iff.1 h, rfl⟩
    · exact List.mem_map.2 ⟨_, Dict.find?_eq_some_iff.1 h, rfl⟩
  · cases h

/-- The values of functions are uniform. -/
theorem uniform_call? (hp : w.program.Below base) {func : EntityFunction} {e v : Entity}
    (h : w.call? a func e = some v) : v.Uniform base := by
  have hmap {α : Type} {o : Option α} {f : α → Entity} (hf : ∀ x, (f x).nodes = [])
      (h : o.map f = some v) : v.Uniform base := by
    obtain ⟨x, _, rfl⟩ := Option.map_eq_some_iff.1 h
    exact Entity.uniform_of_nodes_eq_nil (hf x)
  cases func with
  | declarationOf =>
    cases e with
    | type t =>
      obtain ⟨c, hc, rfl⟩ := Option.map_eq_some_iff.1 h
      exact .inl (hp.classes c (mem_values_of_class? hc))
    | _ => cases h
  | _ => exact hmap (fun _ => rfl) h

/-- The result of a function depends on the normal forms of its arguments only. -/
theorem toOption_call (hp : w.program.Below base) (ha : a.Intact base)
    (func : EntityFunction) {es es' : List Entity} (hes : ∀ e ∈ es, e.Uniform base)
    (hes' : ∀ e ∈ es', e.Uniform base)
    (h : es.map (Entity.normal base) = es'.map (Entity.normal base)) :
    (w.call a func es).toOption = (w.program.bare.call (.unused base) func es').toOption := by
  have hlength : es.length = es'.length := by simpa using congrArg List.length h
  rcases es with _ | ⟨e, _ | ⟨_, _⟩⟩ <;> rcases es' with _ | ⟨e', _ | ⟨_, _⟩⟩ <;>
    simp only [List.length_cons, List.length_nil] at hlength <;> first | rfl | omega | skip
  -- functions take one argument, and other numbers of them fail alike
  have he : w.call? a func e = w.program.bare.call? (.unused base) func (e.normal base) :=
    call?_normal hp ha func (hes e (List.mem_singleton_self e))
  have he' : w.program.bare.call? (.unused base) func e' =
      w.program.bare.call? (.unused base) func (e'.normal base) :=
    call?_normal (w := w.program.bare) hp Arena.intact_unused func
      (hes' e' (List.mem_singleton_self e'))
  have hnormal : e.normal base = e'.normal base := by simpa using h
  rw [call, call, he, he', hnormal]

/-- The values of terms are uniform. -/
theorem uniform_valueOf (hp : w.program.Below base) {b : Bindings} (hb : b.Uniform base)
    {t : GoalTerm} (ht : t.Uniform base) {e : Entity} (h : w.valueOf a b t = .ok (some e)) :
    e.Uniform base := by
  cases t with
  | wildcard | pattern f => cases h
  | var name type => exact hb.vars name e (Except.ok.inj h)
  | const known =>
    obtain rfl := Option.some.inj (Except.ok.inj h)
    exact ht _ (List.mem_singleton_self _)
  -- a function gives a type, a name, or a node of the program
  | apply func args =>
    simp only [valueOf, Except.bind_eq_ok, Except.pure_eq_ok, Option.some.injEq] at h
    obtain ⟨es, _, v, hv, rfl⟩ := h
    unfold call at hv
    split at hv
    · obtain rfl := Except.ok.inj hv
      cases hcall : w.call? a func _ with
      | none => exact Entity.uniform_of_nodes_eq_nil rfl
      | some v => exact uniform_call? hp hcall
    · cases hv

section

variable {b b' : Bindings}

/-- The arguments of a function have values of the same normal forms. -/
theorem toOption_argumentsOf {ts ts' : List GoalTerm}
    (h : List.Forall₂ (fun t t' => (w.valueOf a b t).toOption.map (Option.map (Entity.normal base)) =
      (w'.valueOf a' b' t').toOption.map (Option.map (Entity.normal base))) ts ts')
    (func : EntityFunction) :
    (w.argumentsOf a b func ts).toOption.map (List.map (Entity.normal base)) =
      (w'.argumentsOf a' b' func ts').toOption.map (List.map (Entity.normal base)) := by
  induction h with
  | nil => rfl
  | cons ht _ ih =>
    simp only [argumentsOf, Except.toOption_bind, Option.map_bind]
    apply Option.bind_eq_bind_of_map ht
    intro v _ v' _ hv
    -- both arguments have values, or neither has
    cases v with
    | none =>
      cases v' with
      | none => rfl
      | some e' => cases hv
    | some e =>
      -- both values are unknown, or they have the same normal form
      cases v' with
      | none => cases hv
      | some e' =>
        have he : e.normal base = e'.normal base := Option.some.inj hv
        simp only [Function.comp_apply, Except.toOption_bind, Except.toOption_pure, Option.map_bind]
        apply Option.bind_eq_bind_of_map ih
        intro es _ es' _ hes
        exact congrArg some (congrArg₂ List.cons he hes)

/-- The values of arguments are uniform. -/
theorem uniform_argumentsOf {ts : List GoalTerm} {func : EntityFunction} {es : List Entity}
    (h : ∀ t ∈ ts, ∀ e, w.valueOf a b t = .ok (some e) → e.Uniform base)
    (hes : w.argumentsOf a b func ts = .ok es) : ∀ e ∈ es, e.Uniform base := by
  induction ts generalizing es with
  | nil =>
    obtain rfl := Except.ok.inj hes
    exact fun e he => by cases he
  | cons t ts ih =>
    simp only [argumentsOf, Except.bind_eq_ok] at hes
    obtain ⟨v, hv, hes⟩ := hes
    -- an argument without a value ends the evaluation
    cases v with
    | none => cases hes
    | some e =>
      simp only [Except.bind_eq_ok, Except.pure_eq_ok] at hes
      obtain ⟨rest, hrest, rfl⟩ := hes
      have htail := ih (fun s hs => h s (List.mem_cons_of_mem _ hs)) hrest
      intro x hx
      rcases List.mem_cons.1 hx with rfl | hx
      · exact h t (List.mem_cons_self ..) x hv
      · exact htail x hx

end

/-- The value of a term depends on the normal forms of what is bound only. -/
theorem valueOf_normal (hp : w.program.Below base) (ha : a.Intact base) {b : Bindings}
    (hb : b.Uniform base) {t : GoalTerm} (ht : t.Uniform base) :
    (w.valueOf a b t).toOption.map (Option.map (Entity.normal base)) =
      (w.program.bare.valueOf (.unused base) (b.normal base) t).toOption.map
        (Option.map (Entity.normal base)) := by
  induction t using GoalTerm.induction with
  | wildcard | pattern f => rfl
  | const e => rfl
  | var name type =>
    simp only [valueOf, Bindings.find?_normal, Except.toOption, Option.map_some, Option.map_map,
      Option.some.injEq]
    exact Option.map_congr fun e _ => (Entity.normal_normal base e).symm
  | apply func args ih =>
    have hargs := toOption_argumentsOf (List.forall₂_same.2 fun t h => ih t h (ht.arg h)) func
    -- the bindings and their normal form are both uniform
    have hunused := Bindings.Uniform.normal hb
    simp only [valueOf, Except.toOption_bind, Except.toOption_pure, Option.map_bind]
    apply Option.bind_eq_bind_of_map hargs
    intro es hes es' hes' hnormal
    have hcall := toOption_call hp ha func
      (uniform_argumentsOf (fun t h e => uniform_valueOf hp hb (ht.arg h))
        (Except.toOption_eq_some_iff.1 hes))
      (uniform_argumentsOf (fun t h e => uniform_valueOf (w := w.program.bare) hp hunused (ht.arg h))
        (Except.toOption_eq_some_iff.1 hes')) hnormal
    simp only [Function.comp_apply, hcall]

/-! ### Unification -/

variable {b : Bindings} {e : Entity}

/-- Matching depends on normal forms only. -/
theorem matchInto_normal (hp : w.program.Below base) (f : Fragment) (he : e.Uniform base) :
    (w.matchInto f e b).toOption.map (Option.map (Bindings.normal base)) =
      (w.program.bare.matchInto f (e.normal base) (b.normal base)).toOption := by
  have hf := f.recognize_normal hp he
  unfold matchInto
  rw [show w.program.bare.program = w.program from rfl, hf]
  cases f.recognize w.program.surroundings e with
  | error d => rfl
  | ok found =>
    cases found with
    | none => rfl
    | some m => exact congrArg some (m.withoutResult.normal_consistentMerge? base b)

/-- A match finds uniform bindings. -/
theorem uniform_matchInto (hp : w.program.Below base) {f : Fragment} (he : e.Uniform base)
    (hb : b.Uniform base) {c : Bindings} (h : w.matchInto f e b = .ok (some c)) : c.Uniform base := by
  unfold matchInto at h
  cases hfound : f.recognize w.program.surroundings e with
  | error d =>
    rw [hfound] at h
    cases h
  | ok found =>
    rw [hfound] at h
    obtain ⟨m, rfl, hm⟩ := Option.bind_eq_some_iff.1 (Except.ok.inj h)
    exact (Fragment.uniform_of_recognize hp he hfound).consistentMerge? hb hm

/-- Unifying a term with an entity depends on normal forms only. -/
theorem unify_normal (hp : w.program.Below base) (ha : a.Intact base) {t : GoalTerm}
    (ht : t.Uniform base) (he : e.Uniform base) (hb : b.Uniform base) :
    (w.unify a t e b).toOption.map (Option.map (Bindings.normal base)) =
      (w.program.bare.unify (.unused base) t (e.normal base) (b.normal base)).toOption := by
  cases t with
  | wildcard => rfl
  | var name type =>
    simp only [unify, Bindings.find?_normal]
    cases b.find? name with
    -- types are seen alike in normal forms, so the same entities are accepted
    | none =>
      have haccepts := hp.accepts_normal he type
      simp only [Option.map_none, show w.program.bare.program = w.program from rfl, haccepts]
      split
      · exact congrArg (fun c => some (some c)) (b.normal_bind base name e)
      · rfl
    | some known =>
      simp only [Option.map_some, Entity.aliases_normal]
      split <;> rfl
  | const known =>
    have halias : known.aliases (e.normal base) = known.aliases e := by
      rw [Entity.aliases, Entity.located_normal, Entity.aliases]
    simp only [unify, halias]
    split <;> rfl
  | pattern f => exact matchInto_normal hp f he
  | apply func args =>
    have hvalue := valueOf_normal hp ha hb ht
    simp only [unify, Except.toOption_bind, Except.toOption_pure, Option.map_bind]
    apply Option.bind_eq_bind_of_map hvalue
    intro v _ v' _ hv
    -- only the shape of the value counts
    have hshape (x y : Entity) (h : x.normal base = y.normal base) :
        y.sameShape (e.normal base) = x.sameShape e := by
      rw [← Entity.sameShape_normal base y, ← h, Entity.normal_normal, Entity.sameShape_normal]
    cases v with
    | none =>
      cases v' with
      | none => rfl
      | some y => cases hv
    | some x =>
      cases v' with
      | none => cases hv
      | some y =>
        simp only [Function.comp_apply, Option.bind_some, Option.map_some,
          hshape x y (Option.some.inj hv)]
        split <;> rfl

/-- Unifying with a uniform entity gives uniform bindings. -/
theorem uniform_unify (hp : w.program.Below base) {t : GoalTerm} (he : e.Uniform base)
    (hb : b.Uniform base) {c : Bindings} (h : w.unify a t e b = .ok (some c)) : c.Uniform base := by
  -- nothing is bound where entities are only compared
  have hsame {q : Bool} (h : (if q then some b else none) = some c) : c.Uniform base := by
    split at h
    · exact Option.some.inj h ▸ hb
    · cases h
  unfold unify at h
  split at h
  · exact Option.some.inj (Except.ok.inj h) ▸ hb
  · split at h
    · exact hsame (Except.ok.inj h)
    · have h := Except.ok.inj h
      split at h
      · exact Option.some.inj h ▸ hb.bind he _
      · cases h
  · exact hsame (Except.ok.inj h)
  · exact uniform_matchInto hp he hb h
  · simp only [Except.bind_eq_ok, Except.pure_eq_ok] at h
    obtain ⟨o, _, h⟩ := h
    obtain ⟨v, rfl, h⟩ := Option.bind_eq_some_iff.1 h
    exact hsame h

/-- So does unifying with several. -/
theorem uniform_unifyAll (hp : w.program.Below base) {ts : List GoalTerm} {es : List Entity}
    (hes : ∀ e ∈ es, e.Uniform base) (hb : b.Uniform base) {c : Bindings}
    (h : w.unifyAll a ts es b = .ok (some c)) : c.Uniform base := by
  induction ts generalizing es b with
  | nil => exact Option.some.inj (Except.ok.inj h) ▸ hb
  | cons t ts ih =>
    cases es with
    | nil => exact Option.some.inj (Except.ok.inj h) ▸ hb
    | cons e es =>
      simp only [unifyAll, Except.bind_eq_ok] at h
      obtain ⟨o, ho, h⟩ := h
      cases o with
      | none => cases h
      | some d =>
        have hd := uniform_unify hp (hes e (List.mem_cons_self ..)) hb ho
        exact ih (fun x hx => hes x (List.mem_cons_of_mem _ hx)) hd h

/-- Unifying terms with entities depends on normal forms only. -/
theorem unifyAll_normal (hp : w.program.Below base) (ha : a.Intact base) {ts : List GoalTerm}
    (hts : ∀ t ∈ ts, t.Uniform base) {es : List Entity} (hes : ∀ e ∈ es, e.Uniform base)
    (hb : b.Uniform base) :
    (w.unifyAll a ts es b).toOption.map (Option.map (Bindings.normal base)) =
      (w.program.bare.unifyAll (.unused base) ts (es.map (Entity.normal base))
        (b.normal base)).toOption := by
  induction ts generalizing es b with
  | nil => rfl
  | cons t ts ih =>
    cases es with
    | nil => rfl
    | cons e es =>
      have he := hes e (List.mem_cons_self ..)
      have hunify := unify_normal hp ha (hts t (List.mem_cons_self ..)) he hb
      simp only [unifyAll, List.map_cons, Except.toOption_bind, ← hunify, Option.map_bind,
        Option.bind_map]
      apply Option.bind_congr
      intro o ho
      -- what is left is unified with the bindings so far
      cases o with
      | none => rfl
      | some c =>
        have hc := uniform_unify hp he hb (Except.toOption_eq_some_iff.1 ho)
        exact ih (fun s hs => hts s (List.mem_cons_of_mem _ hs))
          (fun x hx => hes x (List.mem_cons_of_mem _ hx)) hc

end World

end CodeRules
