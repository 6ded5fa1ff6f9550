import CodeRules.Proofs.Fragment.Assignment
import CodeRules.Proofs.Fragment.Scope

/-!
# Names that stand for an entity

A name that stands for an entity becomes a constant when a pattern is compiled. This is the same as
leaving it a variable and keeping only what binds the variable to an entity of that shape
(`Pattern.recognize_bound_iff`): under an assignment that gives the name the shape of the entity, the
two fragments describe the same entities (`Fragment.Fixes.describes_iff`).

Modifier sets are excepted: they sort their items by what these are, and a constant is no remainder.
-/

namespace CodeRules

/-! ### Patterns without modifier sets -/

namespace Pattern

mutual

/-- Whether there is a modifier set in the pattern. -/
def hasModifierSet : Pattern → Bool
  | modifierSet .. => true
  | node _ _ items | list _ items => anyModifierSet items
  | var .. | resolved .. | access .. | empty _ => false

/-- Whether there is a modifier set in one of several patterns. -/
def anyModifierSet : List Pattern → Bool
  | [] => false
  | p :: ps => p.hasModifierSet || anyModifierSet ps

end

/-- There is a modifier set in some pattern when there is one in any of them. -/
theorem anyModifierSet_eq_any (ps : List Pattern) : anyModifierSet ps = ps.any hasModifierSet := by
  induction ps with
  | nil => rfl
  | cons p ps ih => rw [anyModifierSet, ih, List.any_cons]

end Pattern

/-! ### Constants in place of a variable -/

namespace Fragment

/-- The second fragment has the entity wherever the first has the variable, which takes all
entities. There are no modifier sets. -/
inductive Fixes (x : String) (v : Entity) : Fragment → Fragment → Prop
  | here : Fixes x v (var x .any) (resolved v)
  | var {name : String} (hname : name ≠ x) (type : ParamType) :
    Fixes x v (var name type) (var name type)
  | resolved (e : Entity) : Fixes x v (resolved e) (resolved e)
  | wildcard : Fixes x v wildcard wildcard
  | empty : Fixes x v empty empty
  | composite {f g : Fragment} (hform : SameForm f g)
    (hchildren : ∀ y ∈ f.children.zip g.children, Fixes x v y.1 y.2) : Fixes x v f g

namespace Fixes

variable {x n : String} {v e : Entity} {f g : Fragment} {fs gs : List Fragment} {es : List Entity}
  {s : Surroundings} {σ : Assignment}

/-- A fragment for an absent part stays one. -/
theorem isEmpty_eq (h : Fixes x v f g) : g.isEmpty = f.isEmpty := by
  cases h with
  | composite hform => cases hform <;> rfl
  | _ => rfl

/-- The other variables are the same. -/
theorem mem_occurrences_iff (h : Fixes x v f g) : n ∈ g.occurrences ↔ n ∈ f.occurrences ∧ n ≠ x := by
  induction h with
  | here => simp [occurrences]
  | var hname => simpa [occurrences] using fun hn => hn ▸ hname
  | composite hform hchildren ih =>
    rw [occurrences_eq_flatMap_children (ne_var_of_isComposite hform.isComposite_left),
      occurrences_eq_flatMap_children (ne_var_of_isComposite hform.isComposite_right)]
    simp only [List.mem_flatMap]
    have hall := List.forall₂_iff_zip.2 ⟨hform.length_children.symm, fun h => ih _ h⟩
    constructor
    -- a variable of a child of `g` is one of the child of `f` in its place, and not `x`
    · rintro ⟨g, hg, hn⟩
      obtain ⟨f, hf, hfg⟩ := hall.exists_left hg
      exact ⟨⟨f, hf, (hfg.1 hn).1⟩, (hfg.1 hn).2⟩
    · rintro ⟨⟨f, hf, hn⟩, hne⟩
      obtain ⟨g, hg, hfg⟩ := hall.exists_right hf
      exact ⟨g, hg, hfg.2 ⟨hn, hne⟩⟩
  | _ => simp [occurrences]

/-- Under an assignment that gives the variable the shape of the entity, the fragments describe the
same. -/
theorem describes_iff (h : Fixes x v f g) (hf : f.WellFormed) (hg : g.WellFormed)
    (hσ : σ x = v.shape) : g.Describes s σ e ↔ f.Describes s σ e := by
  induction h generalizing e with
  | here =>
    -- the variable takes every entity, and its shape is the one of the constant
    cases hf with
    | var hname =>
    rw [describes_resolved_iff, describes_var_iff hname, hσ]
    exact (and_iff_right (ParamType.any_accepts s.types e)).symm
  | @composite f g hform hchildren ih =>
    -- how a composite fragment takes an entity apart depends on whether its first child is empty
    have hhead : g.children.head?.map isEmpty = f.children.head?.map isEmpty := by
      have hlength := hform.length_children
      revert hchildren hlength
      cases f.children <;> cases g.children <;> intro hchildren hlength
      · rfl
      · cases hlength
      · cases hlength
      · exact congrArg some (hchildren _ (List.mem_cons_self ..)).isEmpty_eq
    have hall := List.forall₂_iff_zip.2 ⟨hform.length_children.symm, fun {f' g'} (h : (f', g') ∈ _) e =>
      ih (e := e) _ h (hf.children f' (List.of_mem_zip h).1) (hg.children g' (List.of_mem_zip h).2)⟩
    -- the children describe the same parts, each by hypothesis
    have hparts (es : List Entity) : List.Forall₂ (Describes s σ) g.children es ↔
        List.Forall₂ (Describes s σ) f.children es :=
      ⟨(hall.flip.imp fun _ _ h e => (h e).1).of_forall_imp,
        (hall.imp fun _ _ h e => (h e).2).of_forall_imp⟩
    rw [describes_composite_iff hform.isComposite_left hf,
      describes_composite_iff hform.isComposite_right hg, hform.partsOf?_eq hhead]
    simp only [hparts]
  | _ => rfl

end Fixes

end Fragment

/-! ### Scopes in which a name stands for an entity -/

/-- In the second scope the name stands for the entity, in the first for nothing; all other names mean
the same. -/
structure Scope.Binds (x : String) (v : Entity) (s s' : Scope) : Prop where
  unknown : s.lookup x = .unknown
  bound : s'.lookup x = .bound v
  others : ∀ n, n ≠ x → s'.lookup n = s.lookup n

namespace Pattern

/-- Whether the name stands in the pattern. -/
def Mentions (p : Pattern) (x : String) : Prop := Mention.var x false false ∈ p.mentions false []

variable {s s' : Scope} {x : String} {v : Entity} {p : Pattern} {ps : List Pattern} {f : Fragment}
  {fs : List Fragment}

/-- A variable mentions its own name only. -/
private theorem mentions_var_iff {span : Span} {name : String} :
    (var span name).Mentions x ↔ x = name := by
  simp [Mentions, mentions, Mention.ofVar]

/-- A name becomes a constant where it stands for the entity, and a variable where it is unknown. -/
private theorem fixes_fragment (hx : x ≠ wildcard) (hs : Scope.Binds x v s s') (name : String) :
    Fragment.Fixes x v (s.fragment name) (s'.fragment name) ∧
      (x ∈ (s.fragment name).occurrences ↔ x = name) := by
  by_cases hname : name = x
  · subst hname
    simp only [Scope.fragment, if_neg hx, hs.unknown, hs.bound]
    exact ⟨.here, by simp [Fragment.occurrences]⟩
  -- another name means the same in both scopes
  · have hne : ¬ x = name := Ne.symm hname
    simp only [Scope.fragment, hs.others name hname]
    split
    · exact ⟨.wildcard, by simp [Fragment.occurrences, hne]⟩
    · split
      · exact ⟨.resolved _, by simp [Fragment.occurrences, hne]⟩
      · exact ⟨.var hname _, by simp [Fragment.occurrences, hne]⟩
      · exact ⟨.var hname _, by simp [Fragment.occurrences, hne]⟩

/-- What a pattern compiles to in the first scope is known from what it compiles to in the second. -/
private def CompilesAlike (x : String) (v : Entity) (s' : Scope) (p : Pattern) (f : Fragment) : Prop :=
  ∃ f', p.compile s' = .ok f' ∧ Fragment.Fixes x v f f' ∧ (x ∈ f.occurrences ↔ p.Mentions x)

/-- Several patterns compile alike when each of them does. -/
private theorem compileAll_alike (h : compileAll s ps = .ok fs)
    (hps : ∀ p ∈ ps, ∀ f, p.compile s = .ok f → CompilesAlike x v s' p f) :
    ∃ fs', compileAll s' ps = .ok fs' ∧ List.Forall₂ (Fragment.Fixes x v) fs fs' ∧
      (x ∈ fs.flatMap Fragment.occurrences ↔ ∃ p ∈ ps, p.Mentions x) := by
  induction ps generalizing fs with
  | nil =>
    obtain rfl := Except.ok.inj h
    exact ⟨[], rfl, .nil, by simp⟩
  | cons p ps ih =>
    simp only [compileAll, Except.bind_eq_ok, Except.pure_eq_ok] at h
    obtain ⟨f, hf, rest, hrest, rfl⟩ := h
    obtain ⟨f', hf', hfixes, hmention⟩ := hps p (List.mem_cons_self ..) f hf
    obtain ⟨rest', hrest', hall, hmentions⟩ :=
      ih hrest fun q hq => hps q (List.mem_cons_of_mem _ hq)
    refine ⟨f' :: rest', ?_, .cons hfixes hall, ?_⟩
    · simp only [compileAll, hf', hrest']
      rfl
    · rw [List.flatMap_cons, List.mem_append, hmention, hmentions, List.exists_mem_cons_iff]

/-- A pattern mentions what its items mention. -/
private theorem mentions_iff_of_items {items : List Pattern}
    (h : p.mentions false [] = mentionsAll false [] items) :
    p.Mentions x ↔ ∃ q ∈ items, q.Mentions x := by
  rw [Mentions, h, mentionsAll_eq_flatMap]
  exact List.mem_flatMap

/-- The parts of a field compile alike, and with them the field. -/
private theorem compileField_alike {receiver field : Pattern} {f₁ f₂ : Fragment}
    (hparts : ∀ q ∈ [receiver, field], ∀ g, q.compile s = .ok g → CompilesAlike x v s' q g)
    (h₁ : receiver.compile s = .ok f₁) (h₂ : field.compile s = .ok f₂) (asTarget : Bool) :
    ∃ f₁' f₂', receiver.compile s' = .ok f₁' ∧ field.compile s' = .ok f₂' ∧
      Fragment.Fixes x v (.fieldAccess f₁ f₂ asTarget) (.fieldAccess f₁' f₂' asTarget) ∧
      (x ∈ (Fragment.fieldAccess f₁ f₂ asTarget).occurrences ↔
        ∃ q ∈ [receiver, field], q.Mentions x) := by
  obtain ⟨f₁', h₁', hf₁, hm₁⟩ := hparts receiver (by simp) f₁ h₁
  obtain ⟨f₂', h₂', hf₂, hm₂⟩ := hparts field (by simp) f₂ h₂
  refine ⟨f₁', f₂', h₁', h₂', .composite (.fieldAccess ..) ?_, ?_⟩
  · simp [Fragment.children, hf₁, hf₂]
  · rw [Fragment.occurrences, List.mem_append, hm₁, hm₂]
    simp

/-- A node compiles alike when its slots do, and the slots of a field that is assigned to. -/
private theorem compileNode_alike {span : Span} {tag : Tag} {slots : List Pattern}
    (hslots : ∀ q ∈ slots, ∀ g, q.compile s = .ok g → CompilesAlike x v s' q g)
    (htarget : ∀ inner parts, node inner .fieldAccess parts ∈ slots →
      ∀ q ∈ parts, ∀ g, q.compile s = .ok g → CompilesAlike x v s' q g)
    (h : (node span tag slots).compile s = .ok f) : CompilesAlike x v s' (node span tag slots) f := by
  have hmentions : (node span tag slots).Mentions x ↔ ∃ q ∈ slots, q.Mentions x :=
    mentions_iff_of_items rfl
  rw [compile.eq_def] at h
  rw [CompilesAlike, compile.eq_def]
  simp only at h ⊢
  split at h
  · simp only [Except.bind_eq_ok, reduceCtorEq, false_and, exists_const] at h
  rename_i hcount
  rw [if_neg hcount]
  split at h
  -- an access to a field
  · simp only [Except.bind_eq_ok, Except.pure_eq_ok] at h ⊢
    obtain ⟨f₁, h₁, f₂, h₂, rfl⟩ := h
    obtain ⟨f₁', f₂', h₁', h₂', hfixes, hmention⟩ := compileField_alike hslots h₁ h₂ false
    exact ⟨_, ⟨f₁', h₁', f₂', h₂', rfl⟩, hfixes, hmention.trans hmentions.symm⟩
  -- an assignment to a field
  · rename_i inner receiver field value
    have hinner : (node inner .fieldAccess [receiver, field]).Mentions x ↔
        ∃ q ∈ [receiver, field], q.Mentions x := mentions_iff_of_items rfl
    simp only [Except.bind_eq_ok, Except.pure_eq_ok] at h ⊢
    obtain ⟨f₁, h₁, f₂, h₂, f₃, h₃, rfl⟩ := h
    obtain ⟨f₁', f₂', h₁', h₂', hfixes, hmention⟩ :=
      compileField_alike (htarget inner _ (List.mem_cons_self ..)) h₁ h₂ true
    obtain ⟨f₃', h₃', hf₃, hm₃⟩ := hslots value (by simp) f₃ h₃
    refine ⟨_, ⟨f₁', h₁', f₂', h₂', f₃', h₃', rfl⟩, .composite (.fieldAssign ..) ?_, ?_⟩
    · simp [Fragment.children, hfixes, hf₃]
    · rw [hmentions, Fragment.occurrences, List.mem_append, hmention, hm₃, ← hinner]
      simp
  -- any other node
  · simp only [Except.bind_eq_ok, Except.pure_eq_ok] at h ⊢
    obtain ⟨fs, hfs, rfl⟩ := h
    obtain ⟨fs', hfs', hall, hmention⟩ := compileAll_alike hfs hslots
    refine ⟨_, ⟨fs', hfs', rfl⟩, ?_, ?_⟩
    · exact .composite (.node tag hall.length_eq.symm) fun y hy =>
        (List.forall₂_iff_zip.1 hall).2 hy
    · rw [hmentions, Fragment.occurrences, Fragment.occurrencesAll_eq_flatMap, hmention]

/-- Every pattern without modifier sets compiles alike. -/
private theorem compilesAlike (hx : x ≠ wildcard) (hs : Scope.Binds x v s s')
    (hsets : p.hasModifierSet = false) (h : p.compile s = .ok f) : CompilesAlike x v s' p f := by
  -- the parts of an assigned field are two levels down, so the induction is on the size
  induction hn : sizeOf p using Nat.strongRecOn generalizing p f with
  | _ n ih =>
  subst hn
  have hitem {items : List Pattern} (hitems : anyModifierSet items = false)
      (hsize : ∀ q ∈ items, sizeOf q < sizeOf p) (q : Pattern) (hq : q ∈ items) (g : Fragment)
      (hg : q.compile s = .ok g) : CompilesAlike x v s' q g := by
    rw [anyModifierSet_eq_any, List.any_eq_false] at hitems
    exact ih _ (hsize q hq) (Bool.not_eq_true _ ▸ hitems q hq) hg rfl
  cases p with
  | var span name =>
    obtain rfl := Except.ok.inj h
    obtain ⟨hfixes, hmention⟩ := fixes_fragment hx hs name
    exact ⟨_, rfl, hfixes, hmention.trans mentions_var_iff.symm⟩
  | resolved span e =>
    obtain rfl := Except.ok.inj h
    exact ⟨_, rfl, .resolved e, by simp [Fragment.occurrences, Mentions, mentions]⟩
  | empty span =>
    obtain rfl := Except.ok.inj h
    exact ⟨_, rfl, .empty, by simp [Fragment.occurrences, Mentions, mentions]⟩
  | access span name => cases h
  | modifierSet span items => cases hsets
  | list span items =>
    simp only [compile, Except.bind_eq_ok, Except.pure_eq_ok] at h
    obtain ⟨fs, hfs, rfl⟩ := h
    obtain ⟨fs', hfs', hall, hmentions⟩ := compileAll_alike hfs (hitem hsets fun q hq => by
      have := List.sizeOf_lt_of_mem hq
      simp only [list.sizeOf_spec]
      omega)
    have hmention : (list span items).Mentions x ↔ ∃ q ∈ items, q.Mentions x :=
      mentions_iff_of_items rfl
    refine ⟨.ordered fs', by simp only [compile, hfs']; rfl, ?_, ?_⟩
    · exact .composite (.ordered hall.length_eq.symm) fun y hy => (List.forall₂_iff_zip.1 hall).2 hy
    · rw [hmention, Fragment.occurrences, Fragment.occurrencesAll_eq_flatMap, hmentions]
  -- a written node may be a field access or an assignment of a field, which compile its parts
  | node span tag slots =>
    have hsize {span : Span} {tag : Tag} {items : List Pattern} {q : Pattern} (hq : q ∈ items) :
        sizeOf q < sizeOf (node span tag items) := by
      have := List.sizeOf_lt_of_mem hq
      simp only [node.sizeOf_spec]
      omega
    refine compileNode_alike (hitem hsets fun q hq => hsize hq) (fun inner parts hinner => ?_) h
    have hparts : (node inner .fieldAccess parts).hasModifierSet = false := by
      have hslots : anyModifierSet slots = false := hsets
      rw [anyModifierSet_eq_any, List.any_eq_false] at hslots
      exact Bool.not_eq_true _ ▸ hslots _ hinner
    exact hitem hparts fun q hq => (hsize hq).trans (hsize hinner)

/-- A pattern without modifier sets that is compiled with a name standing for an entity recognizes what
it recognizes with the name unknown, as far as the name is bound there to an entity of that shape. Both
bind the other names alike. -/
theorem recognize_bound_iff (hx : x ≠ wildcard) (hs : Scope.Binds x v s s')
    (hsets : p.hasModifierSet = false) (h : p.compile s = .ok f) :
    ∃ f', p.compile s' = .ok f' ∧ ∀ (env : Surroundings) (e : Entity),
      ((∃ b', f'.recognize env e = .ok (some b')) ↔ ∃ b, f.recognize env e = .ok (some b) ∧
        (p.Mentions x → ∃ w, b.find? x = some w ∧ w.shape = v.shape)) ∧
      ∀ b b', f.recognize env e = .ok (some b) → f'.recognize env e = .ok (some b') →
        ∀ n, n ≠ x → (b'.find? n).map Entity.shape = (b.find? n).map Entity.shape := by
  obtain ⟨f', hf', hfixes, hmention⟩ := compilesAlike hx hs hsets h
  have hwf := compile_wellFormed h
  have hwf' := compile_wellFormed hf'
  -- what the second fragment finds, and the entity for the name, make an assignment for both
  have hfirst {env : Surroundings} {e : Entity} {b' : Bindings}
      (hb' : f'.recognize env e = .ok (some b')) : ∃ σ : Assignment, σ x = v.shape ∧
        f'.Describes env σ e ∧ f.Describes env σ e := by
    have hself : b'.completed (fun _ => v.shape) x = v.shape := by
      refine Bindings.completed_of_not_binds (fun hbinds => ?_) _
      rw [Fragment.bindsExactly_of_recognize hwf' hb', hfixes.mem_occurrences_iff] at hbinds
      exact hbinds.2 rfl
    have hdescribes := Fragment.describes_of_recognize hb' fun _ => v.shape
    exact ⟨_, hself, hdescribes, (hfixes.describes_iff hwf hwf' hself).1 hdescribes⟩
  refine ⟨f', hf', fun env e => ⟨⟨?_, ?_⟩, ?_⟩⟩
  -- what the second fragment finds is found by the first, with an entity of that shape for the name
  · rintro ⟨b', hb'⟩
    obtain ⟨σ, hσ, -, b, hb, hfollows⟩ := hfirst hb'
    refine ⟨b, hb, fun hmentions => ?_⟩
    have hbinds := (Fragment.bindsExactly_of_recognize hwf hb x).2 (hmention.2 hmentions)
    exact Bindings.outline_eq_some_iff.1 ((hfollows.outline_eq hbinds).trans (congrArg some hσ))
  -- a name that is not mentioned may be given the shape of the entity
  · rintro ⟨b, hb, hshape⟩
    have hself : b.completed (fun _ => v.shape) x = v.shape := by
      by_cases hmentions : p.Mentions x
      · obtain ⟨w, hw, hwv⟩ := hshape hmentions
        exact (b.follows_completed _ x _ (Bindings.outline_of_find? hw)).trans hwv
      · refine Bindings.completed_of_not_binds (fun hbinds => hmentions (hmention.1 ?_)) _
        exact (Fragment.bindsExactly_of_recognize hwf hb x).1 hbinds
    obtain ⟨b', hb', -⟩ := (hfixes.describes_iff hwf hwf' hself).2
      (Fragment.describes_of_recognize hb fun _ => v.shape)
    exact ⟨b', hb'⟩
  -- both follow one assignment, so they agree on all names that both bind
  · intro b b' hb hb' n hn
    obtain ⟨σ, -, hσ', hσ⟩ := hfirst hb'
    have hiff : b'.binds n = true ↔ b.binds n = true := by
      rw [Fragment.bindsExactly_of_recognize hwf' hb', Fragment.bindsExactly_of_recognize hwf hb,
        hfixes.mem_occurrences_iff, and_iff_left hn]
    show b'.outline n = b.outline n
    by_cases hbinds : b.binds n = true
    · rw [(hσ'.follows hb').outline_eq (hiff.2 hbinds), (hσ.follows hb).outline_eq hbinds]
    · rw [Bindings.outline_eq_none_iff.2 hbinds,
        Bindings.outline_eq_none_iff.2 fun h => hbinds (hiff.1 h)]

end Pattern

/-! ### A list that begins and ends with a known name -/

namespace Bracketed

/-- A list of three, the first like the last. -/
def pattern : Pattern := .list .synthetic [.var .synthetic "x", .var .synthetic "y", .var .synthetic "x"]

/-- The scope in which `x` stands for the name `a`. -/
def scope : Scope := { bound := Bindings.empty.bind "x" (.name "a") }

def names : Entity := .list [.name "a", .name "b", .name "a"]

/-- The pattern is recognized with the known name at both ends, and `y` is the name between. -/
theorem recognize_bound_names : ∃ f', pattern.compile scope = .ok f' ∧
    ∃ b', f'.recognize .none names = .ok (some b') ∧
      (b'.find? "y").map Entity.shape = some (Entity.name "b").shape := by
  have hcompile : pattern.compile {} = .ok (.ordered [.var "x" .any, .var "y" .any, .var "x" .any]) :=
    rfl
  have hscope : Scope.Binds "x" (.name "a") {} scope := by
    refine ⟨rfl, rfl, fun n hn => ?_⟩
    have hnone : scope.bound.find? n = none := Bindings.find?_bind_of_ne hn _ _
    rw [Scope.lookup, Scope.lookup, hnone]
    rfl
  obtain ⟨f', hf', hiff⟩ := Pattern.recognize_bound_iff (by decide) hscope rfl hcompile
  -- the fragment is run to see what it binds
  have hfound : ((Fragment.ordered [.var "x" .any, .var "y" .any, .var "x" .any]).recognize .none
      names).toOption.join.map (fun b => (b.outline "x", b.outline "y")) =
        some (some (Entity.name "a").shape, some (Entity.name "b").shape) := by decide +kernel
  obtain ⟨found, hb⟩ := (Pattern.compile_wellFormed hcompile).recognize_eq_ok .none names
  rw [hb] at hfound
  obtain ⟨b, rfl, houtline⟩ := Option.map_eq_some_iff.1 hfound
  obtain ⟨hx, hy⟩ := Prod.mk.inj houtline
  obtain ⟨b', hb'⟩ := (hiff .none names).1.2 ⟨b, hb, fun _ => Bindings.outline_eq_some_iff.1 hx⟩
  exact ⟨f', hf', b', hb', ((hiff .none names).2 b b' hb hb' "y" (by decide)).trans hy⟩

end Bracketed

end CodeRules
