import CodeRules.Fragment.Compile
import CodeRules.Proofs.Effect
import CodeRules.Proofs.Fragment.Variant
import CodeRules.Proofs.Rule.Variant

/-!
# Patterns in different scopes

A scope matters to a pattern only through what it says about the variables of the pattern, and there
only up to the numbers of made nodes. Variants of a pattern compile to variants of its fragment when
variables that are paired mean the same (`Pattern.Variant.exists_compile`).
-/

namespace CodeRules

variable {base : UInt32} {N : Pairing}

/-! ### Scopes -/

/-- What names mean is the same, up to the numbers of made nodes and the names of relations. -/
inductive Lookup.Alike (base : UInt32) : Lookup → Lookup → Prop
  | bound {e e' : Entity} (h : e'.normal base = e.normal base) : Alike base (.bound e) (.bound e')
  | free {type type' : ParamType} (h : type.Alike type') : Alike base (.free type) (.free type')
  | unknown : Alike base .unknown .unknown

/-- What a name means is like itself. -/
theorem Lookup.Alike.refl (l : Lookup) : l.Alike base l := by
  cases l with
  | bound e => exact .bound rfl
  | free type => exact .free (.refl type)
  | unknown => exact .unknown

/-- Names that are paired mean the same in two scopes. -/
def Scope.AlikeOn (base : UInt32) (N : Pairing) (s s' : Scope) : Prop :=
  ∀ n m, N n m → (s.lookup n).Alike base (s'.lookup m)

namespace Fragment.Variant

variable {f f' : Fragment}

/-- Variants are both for access specifiers or both not. -/
theorem isAccess_eq (h : Variant base N f f') : f'.isAccess = f.isAccess := by
  have hnormal (e : Entity) :
      (Fragment.resolved (e.normal base)).isAccess = (Fragment.resolved e).isAccess := by
    cases e <;> rfl
  cases h with
  | resolved h => rw [← hnormal, h, hnormal]
  | @var _ _ type _ _ htype =>
    cases htype with
    | refl =>
      cases type with
      | category c => cases c <;> rfl
      | _ => rfl
    | relation => rfl
  | _ => rfl

/-- Variants can both take what is left or both not. -/
theorem isRemainder_eq (h : Variant base N f f') : f'.isRemainder = f.isRemainder := by
  cases h <;> rfl

end Fragment.Variant

namespace Scope

variable {s s' : Scope} {name name' : String}

/-- Paired names become variants in scopes alike. -/
theorem AlikeOn.fragment (hN : N.Proper) (h : AlikeOn base N s s') (hname : N name name') :
    (s.fragment name).Variant base N (s'.fragment name') := by
  have hlookup := h name name' hname
  unfold Scope.fragment
  by_cases hwildcard : name = wildcard
  · rw [if_pos hwildcard, if_pos ((hN.wildcard_iff hname).1 hwildcard)]
    exact .wildcard
  · rw [if_neg hwildcard, if_neg (mt (hN.wildcard_iff hname).2 hwildcard)]
    generalize s.lookup name = l at hlookup
    generalize s'.lookup name' = l' at hlookup
    cases hlookup with
    | bound h => exact .resolved h
    | free h => exact .var hname h
    | unknown => exact .var hname (.refl .any)

/-- Paired variables of access slots become variants in scopes alike. -/
theorem AlikeOn.accessFragment (hN : N.Proper) (h : AlikeOn base N s s') {name name' : Option String}
    (hname : Option.Rel N name name') :
    (s.accessFragment name).Variant base N (s'.accessFragment name') := by
  cases hname with
  | none => exact .wildcard
  | @some name name' hname =>
    have hlookup := h name name' hname
    simp only [Scope.accessFragment]
    by_cases hwildcard : name = wildcard
    -- the wildcard is paired with itself only
    · rw [if_pos hwildcard, if_pos ((hN.wildcard_iff hname).1 hwildcard)]
      exact .wildcard
    · rw [if_neg hwildcard, if_neg (mt (hN.wildcard_iff hname).2 hwildcard)]
      generalize s.lookup name = l at hlookup
      generalize s'.lookup name' = l' at hlookup
      cases hlookup with
      | bound h => exact .resolved h
      | free h => exact .var hname (.refl _)
      | unknown => exact .var hname (.refl _)

end Scope

/-! ### Modifier sets -/

namespace ModifierParts

variable {parts parts' next : ModifierParts} {set : Span} {item item' : Pattern} {f f' : Fragment}

/-- Variants are added to variants with the same success. -/
private theorem exists_add (hparts : parts.toFragment.Variant base N parts'.toFragment)
    (hitem : item'.isAccess = item.isAccess) (hf : f.Variant base N f')
    (h : parts.add set item f = .ok next) :
    ∃ next', parts'.add set item' f' = .ok next' ∧
      next.toFragment.Variant base N next'.toFragment := by
  obtain ⟨access, fixed, rest⟩ := parts
  obtain ⟨access', fixed', rest'⟩ := parts'
  have hisSome {o o' : Option Fragment} (ho : Option.Rel (Fragment.Variant base N) o o') :
      o'.isSome = o.isSome := by
    cases ho <;> rfl
  simp only [toFragment] at hparts
  cases hparts with
  | unordered haccess hfixed hrest =>
    simp only [add] at h
    -- which part the item becomes is decided alike for both, and so is whether it is there already
    simp only [add, hitem, hf.isAccess_eq, hf.isRemainder_eq, hisSome haccess, hisSome hrest]
    split at h
    -- an access specifier
    · rename_i hacc
      rw [if_pos hacc]
      split at h
      · cases h
      · rename_i hnone
        rw [if_neg hnone]
        obtain rfl := Except.ok.inj h
        exact ⟨_, rfl, .unordered (.some hf) hfixed hrest⟩
    · rename_i hacc
      rw [if_neg hacc]
      split at h
      -- the remainder
      · rename_i hrem
        rw [if_pos hrem]
        split at h
        · cases h
        · rename_i hnone
          rw [if_neg hnone]
          obtain rfl := Except.ok.inj h
          exact ⟨_, rfl, .unordered haccess hfixed (.some hf)⟩
      -- one of the fixed parts
      · rename_i hrem
        rw [if_neg hrem]
        obtain rfl := Except.ok.inj h
        exact ⟨_, rfl, .unordered haccess (List.rel_append hfixed (.cons hf .nil)) hrest⟩

end ModifierParts

/-! ### Patterns -/

namespace Pattern

variable {s s' : Scope} {ps ps' : List Pattern}

/-- The pattern compiles, and so do its variants, to variants. -/
private def CompilesInPair (base : UInt32) (N : Pairing) (s s' : Scope) (p p' : Pattern) : Prop :=
  ∀ f, p.compile s = .ok f → ∃ f', p'.compile s' = .ok f' ∧ f.Variant base N f'

/-- Variants of several patterns compile to variants one by one. -/
private theorem exists_compileAll {fs : List Fragment} (h : compileAll s ps = .ok fs)
    (hps : List.Forall₂ (CompilesInPair base N s s') ps ps') :
    ∃ fs', compileAll s' ps' = .ok fs' ∧ List.Forall₂ (Fragment.Variant base N) fs fs' := by
  induction hps generalizing fs with
  | nil =>
    obtain rfl := Except.ok.inj h
    exact ⟨[], rfl, .nil⟩
  | cons hp _ ih =>
    simp only [compileAll, Except.bind_eq_ok, Except.pure_eq_ok] at h
    obtain ⟨f, hf, rest, hrest, rfl⟩ := h
    obtain ⟨f', hf', hff'⟩ := hp f hf
    obtain ⟨rest', hrest', hall⟩ := ih hrest
    refine ⟨f' :: rest', ?_, .cons hff' hall⟩
    simp only [compileAll, hf', hrest']
    rfl

/-- Variants of the items of a modifier set compile to variants, whatever was added before. -/
private theorem exists_compileSet {set : Span} {parts parts' next : ModifierParts} (hN : N.Proper)
    (hs : s.AlikeOn base N s') (hparts : parts.toFragment.Variant base N parts'.toFragment)
    (h : compileSet s set parts ps = .ok next)
    (hps : List.Forall₂ (fun p p' => p.Variant N p' ∧ CompilesInPair base N s s' p p') ps ps') :
    ∃ next', compileSet s' set parts' ps' = .ok next' ∧
      next.toFragment.Variant base N next'.toFragment := by
  induction hps generalizing parts parts' with
  | nil =>
    obtain rfl := Except.ok.inj h
    exact ⟨parts', rfl, hparts⟩
  | @cons p p' ps ps' hp _ ih =>
    obtain ⟨hvariant, hcompiles⟩ := hp
    -- an item other than an access slot is compiled like any other pattern
    have hother (hnot : ∀ span name, p = access span name → False)
        (hnot' : ∀ span name, p' = access span name → False) (hitem : p'.isAccess = p.isAccess) :
        ∃ next', compileSet s' set parts' (p' :: ps') = .ok next' ∧
          next.toFragment.Variant base N next'.toFragment := by
      rw [compileSet] at h ⊢
      · simp only [Except.bind_eq_ok] at h ⊢
        obtain ⟨f, hf, mid, hmid, h⟩ := h
        obtain ⟨f', hf', hff'⟩ := hcompiles f hf
        obtain ⟨mid', hmid', hparts'⟩ := ModifierParts.exists_add hparts hitem hff' hmid
        obtain ⟨next', hnext, halike⟩ := ih hparts' h
        exact ⟨next', ⟨f', hf', mid', hmid', hnext⟩, halike⟩
      · exact hnot'
      · exact hnot
    cases hvariant with
    | access span hname =>
      simp only [compileSet, Except.bind_eq_ok] at h ⊢
      obtain ⟨mid, hmid, h⟩ := h
      obtain ⟨mid', hmid', hparts'⟩ :=
        ModifierParts.exists_add hparts rfl (hs.accessFragment hN hname) hmid
      obtain ⟨next', hnext, halike⟩ := ih hparts' h
      exact ⟨next', ⟨mid', hmid', hnext⟩, halike⟩
    | _ => exact hother (fun _ _ heq => by cases heq) (fun _ _ heq => by cases heq) rfl

/-- The variants of two patterns are two patterns. -/
private theorem exists_pair_of_variants {q r : Pattern} {qs' : List Pattern}
    (h : List.Forall₂ (Pattern.Variant N) [q, r] qs') :
    ∃ q' r', qs' = [q', r'] ∧ q.Variant N q' ∧ r.Variant N r' := by
  obtain ⟨q', _, hq, hrest, rfl⟩ := List.forall₂_cons_left_iff.1 h
  obtain ⟨r', _, hr, hnil, rfl⟩ := List.forall₂_cons_left_iff.1 hrest
  obtain rfl := List.forall₂_nil_left_iff.1 hnil
  exact ⟨q', r', rfl, hq, hr⟩

/-- Two patterns are variants of two patterns only. -/
private theorem exists_pair_of_variants' {q' r' : Pattern} {qs : List Pattern}
    (h : List.Forall₂ (Pattern.Variant N) qs [q', r']) :
    ∃ q r, qs = [q, r] ∧ q.Variant N q' ∧ r.Variant N r' := by
  obtain ⟨q, _, hq, hrest, rfl⟩ := List.forall₂_cons_right_iff.1 h
  obtain ⟨r, _, hr, hnil, rfl⟩ := List.forall₂_cons_right_iff.1 hrest
  obtain rfl := List.forall₂_nil_right_iff.1 hnil
  exact ⟨q, r, rfl, hq, hr⟩

/-- A node and its variant compile to variants when their slots do, and the parts of a field that is
assigned to. -/
private theorem exists_compileNode {span : Span} {tag : Tag} {slots slots' : List Pattern}
    {f : Fragment} (hvariants : List.Forall₂ (Pattern.Variant N) slots slots')
    (hslots : ∀ q ∈ slots, ∀ q', q.Variant N q' → CompilesInPair base N s s' q q')
    (htarget : ∀ inner parts, node inner .fieldAccess parts ∈ slots →
      ∀ q ∈ parts, ∀ q', q.Variant N q' → CompilesInPair base N s s' q q')
    (h : (node span tag slots).compile s = .ok f) :
    ∃ f', (node span tag slots').compile s' = .ok f' ∧ f.Variant base N f' := by
  rw [compile.eq_def] at h ⊢
  simp only [← hvariants.length_eq] at h ⊢
  split at h
  · simp only [Except.bind_eq_ok, reduceCtorEq, false_and, exists_const] at h
  rename_i hcount
  rw [if_neg hcount]
  split at h
  -- an access to a field
  · rename_i receiver field
    obtain ⟨receiver', field', rfl, hreceiver, hfield⟩ := exists_pair_of_variants hvariants
    simp only [Except.bind_eq_ok, Except.pure_eq_ok] at h ⊢
    obtain ⟨f₁, h₁, f₂, h₂, rfl⟩ := h
    obtain ⟨f₁', h₁', hf₁⟩ := hslots receiver (by simp) receiver' hreceiver f₁ h₁
    obtain ⟨f₂', h₂', hf₂⟩ := hslots field (by simp) field' hfield f₂ h₂
    exact ⟨_, ⟨f₁', h₁', f₂', h₂', rfl⟩, .fieldAccess false hf₁ hf₂⟩
  -- an assignment to a field
  · rename_i inner receiver field value
    obtain ⟨target', value', rfl, htargetVariant, hvalue⟩ := exists_pair_of_variants hvariants
    cases htargetVariant with
    | node _ _ hparts =>
      obtain ⟨receiver', field', rfl, hreceiver, hfield⟩ := exists_pair_of_variants hparts
      have hpart := htarget inner _ (List.mem_cons_self ..)
      simp only [Except.bind_eq_ok, Except.pure_eq_ok] at h ⊢
      obtain ⟨f₁, h₁, f₂, h₂, f₃, h₃, rfl⟩ := h
      obtain ⟨f₁', h₁', hf₁⟩ := hpart receiver (by simp) receiver' hreceiver f₁ h₁
      obtain ⟨f₂', h₂', hf₂⟩ := hpart field (by simp) field' hfield f₂ h₂
      obtain ⟨f₃', h₃', hf₃⟩ := hslots value (by simp) value' hvalue f₃ h₃
      exact ⟨_, ⟨f₁', h₁', f₂', h₂', f₃', h₃', rfl⟩, .fieldAssign (.fieldAccess true hf₁ hf₂) hf₃⟩
  · rename_i hnotAccess hnotAssign
    simp only [Except.bind_eq_ok, Except.pure_eq_ok] at h
    obtain ⟨fs, hfs, rfl⟩ := h
    obtain ⟨fs', hfs', hall⟩ := exists_compileAll hfs
      (hvariants.imp_of_mem fun q hq q' _ hqq' => hslots q hq q' hqq')
    -- the variant is no access or assignment to a field either
    split
    · obtain ⟨receiver, field, rfl, -⟩ := exists_pair_of_variants' hvariants
      exact (hnotAccess receiver field rfl rfl).elim
    · obtain ⟨target, value, rfl, htargetVariant, -⟩ := exists_pair_of_variants' hvariants
      cases htargetVariant with
      | node _ _ hparts =>
        obtain ⟨receiver, field, rfl, -⟩ := exists_pair_of_variants' hparts
        exact (hnotAssign _ receiver field value rfl rfl).elim
    · simp only [Except.bind_eq_ok, Except.pure_eq_ok]
      exact ⟨_, ⟨fs', hfs', rfl⟩, .node tag hall⟩

/-- Variants of a pattern compile to variants in scopes that say the same about their variables. -/
theorem Variant.exists_compile {p p' : Pattern} {f : Fragment} (hN : N.Proper)
    (hs : s.AlikeOn base N s') (hp : p.Variant N p') (h : p.compile s = .ok f) :
    ∃ f', p'.compile s' = .ok f' ∧ f.Variant base N f' := by
  -- the parts of an assigned field are two levels down, so the induction is on the size
  induction hn : sizeOf p using Nat.strongRecOn generalizing p p' f with
  | _ n ih =>
  subst hn
  have hpair (q : Pattern) (hsize : sizeOf q < sizeOf p) (q' : Pattern) (hqq' : q.Variant N q') :
      CompilesInPair base N s s' q q' := fun g hg => ih _ hsize hqq' hg rfl
  cases hp with
  | var span hname =>
    obtain rfl := Except.ok.inj h
    exact ⟨_, rfl, hs.fragment hN hname⟩
  | resolved span e =>
    obtain rfl := Except.ok.inj h
    exact ⟨_, rfl, .resolved rfl⟩
  | empty span =>
    obtain rfl := Except.ok.inj h
    exact ⟨_, rfl, .empty⟩
  | access span hname => cases h
  | @list span items items' hvariants =>
    have hsize (q : Pattern) (hq : q ∈ items) : sizeOf q < sizeOf (Pattern.list span items) := by
      have := List.sizeOf_lt_of_mem hq
      simp only [list.sizeOf_spec]
      omega
    simp only [compile, Except.bind_eq_ok, Except.pure_eq_ok] at h ⊢
    obtain ⟨fs, hfs, rfl⟩ := h
    obtain ⟨fs', hfs', hall⟩ := exists_compileAll hfs
      (hvariants.imp_of_mem fun q hq q' _ hqq' => hpair q (hsize q hq) q' hqq')
    exact ⟨_, ⟨fs', hfs', rfl⟩, .ordered hall⟩
  | @modifierSet span items items' hvariants =>
    have hsize (q : Pattern) (hq : q ∈ items) : sizeOf q < sizeOf (Pattern.modifierSet span items) := by
      have := List.sizeOf_lt_of_mem hq
      simp only [modifierSet.sizeOf_spec]
      omega
    simp only [compile, Except.bind_eq_ok, Except.pure_eq_ok] at h ⊢
    obtain ⟨parts, hparts, rfl⟩ := h
    have hempty : (ModifierParts.toFragment {}).Variant base N (ModifierParts.toFragment {}) :=
      .unordered .none .nil .none
    obtain ⟨parts', hparts', halike⟩ := exists_compileSet hN hs hempty hparts
      (hvariants.imp_of_mem fun q hq q' _ hqq' => ⟨hqq', hpair q (hsize q hq) q' hqq'⟩)
    exact ⟨_, ⟨parts', hparts', rfl⟩, halike⟩
  | @node span tag slots slots' hvariants =>
    have hsize {span : Span} {tag : Tag} {items : List Pattern} {q : Pattern} (hq : q ∈ items) :
        sizeOf q < sizeOf (Pattern.node span tag items) := by
      have := List.sizeOf_lt_of_mem hq
      simp only [node.sizeOf_spec]
      omega
    exact exists_compileNode hvariants (fun q hq => hpair q (hsize hq))
      (fun inner parts hinner q hq => hpair q ((hsize hq).trans (hsize hinner))) h

end Pattern

end CodeRules
