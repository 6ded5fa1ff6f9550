import CodeRules.Fragment.Compile
import CodeRules.Proofs.Effect
import CodeRules.Proofs.Rule.Induction

/-!
# What fragments spell out

The entities that a compiled pattern spells out are written in the pattern or known in the scope
(`Pattern.mem_constants_of_compile`).
-/

namespace CodeRules

namespace Fragment

mutual

/-- The entities that the fragment spells out. -/
def constants : Fragment → List Entity
  | resolved e => [e]
  | ordered items => constantsAll items
  | unordered access fixed rest => constantsOpt access ++ constantsAll fixed ++ constantsOpt rest
  | node _ slots => constantsAll slots
  | fieldAccess receiver field _ => constants receiver ++ constants field
  | fieldAssign target value => constants target ++ constants value
  | var .. | wildcard | empty => []

/-- The entities that several fragments spell out. -/
def constantsAll : List Fragment → List Entity
  | [] => []
  | f :: fs => constants f ++ constantsAll fs

/-- The entities that a fragment spells out, when it is there. -/
def constantsOpt : Option Fragment → List Entity
  | none => []
  | some f => constants f

end

/-- Several fragments spell out what each of them does. -/
theorem constantsAll_eq_flatMap (fs : List Fragment) : constantsAll fs = fs.flatMap constants := by
  induction fs with
  | nil => rfl
  | cons f fs ih => rw [constantsAll, ih, List.flatMap_cons]

end Fragment

/-! ### Compiled patterns -/

namespace Pattern

mutual

/-- The entities that are written in a pattern. -/
def entities : Pattern → List Entity
  | resolved _ e => [e]
  | node _ _ items | list _ items | modifierSet _ items => entitiesAll items
  | var .. | access .. | empty _ => []

/-- The entities that are written in several patterns. -/
def entitiesAll : List Pattern → List Entity
  | [] => []
  | p :: ps => entities p ++ entitiesAll ps

end

end Pattern

namespace Scope

variable {s : Scope} {e : Entity}

/-- What is known under a name is bound to it. -/
private theorem find?_of_lookup {name : String} (h : s.lookup name = .bound e) :
    s.bound.find? name = some e := by
  unfold lookup at h
  split at h
  · cases h
  · split at h
    · rename_i hfind
      cases h
      exact hfind
    · cases h

/-- The fragment for a name spells out what is known under the name. -/
private theorem bound_of_mem_fragment {name : String} (h : e ∈ (s.fragment name).constants) :
    ∃ name, s.bound.find? name = some e := by
  unfold fragment at h
  split at h
  · cases h
  · split at h
    · rename_i hlookup
      obtain rfl := List.mem_singleton.1 h
      exact ⟨name, find?_of_lookup hlookup⟩
    · cases h
    · cases h

/-- The fragment for an access slot spells out what is known under its name. -/
private theorem bound_of_mem_accessFragment {name : Option String}
    (h : e ∈ (s.accessFragment name).constants) : ∃ name, s.bound.find? name = some e := by
  cases name with
  | none => cases h
  | some name =>
    unfold accessFragment at h
    dsimp only at h
    split at h
    · cases h
    · split at h
      · rename_i hlookup
        obtain rfl := List.mem_singleton.1 h
        exact ⟨name, find?_of_lookup hlookup⟩
      · cases h

end Scope

namespace ModifierParts

/-- A part of a modifier set adds what it spells out. -/
private theorem constants_add {parts parts' : ModifierParts} {set : Span} {item : Pattern}
    {f : Fragment} (h : parts.add set item f = .ok parts') {e : Entity}
    (he : e ∈ parts'.toFragment.constants) : e ∈ parts.toFragment.constants ∨ e ∈ f.constants := by
  unfold add at h
  split at h
  · split at h
    -- an access specifier
    · cases h
    · obtain rfl := Except.ok.inj h
      simp only [toFragment, Fragment.constants, Fragment.constantsOpt, List.mem_append] at he ⊢
      tauto
  · split at h
    · split at h
      -- a remainder
      · cases h
      · obtain rfl := Except.ok.inj h
        simp only [toFragment, Fragment.constants, Fragment.constantsOpt, List.mem_append] at he ⊢
        tauto
    -- a fixed part
    · obtain rfl := Except.ok.inj h
      simp only [toFragment, Fragment.constants, Fragment.constantsAll_eq_flatMap, List.mem_append,
        List.flatMap_append, List.flatMap_singleton] at he ⊢
      tauto

end ModifierParts

namespace Pattern

variable {s : Scope} {e : Entity}

/-- What a fragment spells out is written in the pattern or known in the scope. -/
private def Spells (s : Scope) (p : Pattern) : Prop :=
  ∀ f, p.compile s = .ok f → ∀ e ∈ f.constants, e ∈ p.entities ∨ ∃ name, s.bound.find? name = some e

/-- Several patterns spell out what is written in one of them. -/
private theorem spells_all {ps : List Pattern} {fs : List Fragment} (hps : ∀ p ∈ ps, Spells s p)
    (h : compileAll s ps = .ok fs) (he : e ∈ Fragment.constantsAll fs) :
    e ∈ entitiesAll ps ∨ ∃ name, s.bound.find? name = some e := by
  induction ps generalizing fs with
  | nil =>
    obtain rfl := Except.ok.inj h
    cases he
  | cons p ps ih =>
    simp only [compileAll, Except.bind_eq_ok, Except.pure_eq_ok] at h
    obtain ⟨f, hf, gs, hgs, rfl⟩ := h
    rcases List.mem_append.1 he with he | he
    · exact (hps p (List.mem_cons_self ..) f hf e he).imp_left (List.mem_append_left _)
    · exact (ih (fun q hq => hps q (List.mem_cons_of_mem _ hq)) hgs he).imp_left
        (List.mem_append_right _)

/-- The items of a modifier set spell out what is written in them, beside what was there. -/
private theorem spells_set {set : Span} {ps : List Pattern} {parts parts' : ModifierParts}
    (hps : ∀ p ∈ ps, Spells s p) (h : compileSet s set parts ps = .ok parts')
    (he : e ∈ parts'.toFragment.constants) :
    e ∈ parts.toFragment.constants ∨ e ∈ entitiesAll ps ∨ ∃ name, s.bound.find? name = some e := by
  induction ps generalizing parts with
  | nil =>
    obtain rfl := Except.ok.inj h
    exact .inl he
  | cons p ps ih =>
    -- the part that is added spells out what is written in the item
    have hstep {f : Fragment} {mid : ModifierParts} (hmid : parts.add set p f = .ok mid)
        (hf : e ∈ f.constants → e ∈ p.entities ∨ ∃ name, s.bound.find? name = some e)
        (h : compileSet s set mid ps = .ok parts') : e ∈ parts.toFragment.constants ∨
          e ∈ entitiesAll (p :: ps) ∨ ∃ name, s.bound.find? name = some e := by
      rw [entitiesAll, List.mem_append]
      have hps' : ∀ q ∈ ps, Spells s q := fun q hq => hps q (List.mem_cons_of_mem _ hq)
      -- it was spelled out by the items after this one, by this item, or before
      rcases ih hps' h with he | he | he
      · rcases ModifierParts.constants_add hmid he with he | he
        · exact .inl he
        · rcases hf he with he | he
          · exact .inr (.inl (.inl he))
          · exact .inr (.inr he)
      · exact .inr (.inl (.inr he))
      · exact .inr (.inr he)
    by_cases haccess : ∃ span name, p = access span name
    · obtain ⟨span, name, rfl⟩ := haccess
      simp only [compileSet, Except.bind_eq_ok] at h
      obtain ⟨mid, hmid, h⟩ := h
      exact hstep hmid (fun he => .inr (Scope.bound_of_mem_accessFragment he)) h
    · rw [compileSet] at h
      · simp only [Except.bind_eq_ok] at h
        obtain ⟨f, hf, mid, hmid, h⟩ := h
        exact hstep hmid (hps p (List.mem_cons_self ..) f hf e) h
      · intro span name heq
        exact haccess ⟨span, name, heq⟩

/-- Every pattern spells out what is written in it or known in the scope. -/
private theorem spells (p : Pattern) : Spells s p := by
  induction p using Pattern.induction with
  | var span name =>
    intro f h e he
    obtain rfl := Except.ok.inj h
    exact .inr (Scope.bound_of_mem_fragment he)
  | resolved span x =>
    intro f h e he
    obtain rfl := Except.ok.inj h
    exact .inl he
  | empty span =>
    intro f h e he
    obtain rfl := Except.ok.inj h
    cases he
  | access span name =>
    intro f h
    cases h
  | list span items ih =>
    intro f h e he
    simp only [compile, Except.bind_eq_ok, Except.pure_eq_ok] at h
    obtain ⟨fs, hfs, rfl⟩ := h
    exact spells_all ih hfs he
  | modifierSet span items ih =>
    intro f h e he
    simp only [compile, Except.bind_eq_ok, Except.pure_eq_ok] at h
    obtain ⟨parts, hparts, rfl⟩ := h
    rcases spells_set ih hparts he with he | he
    · cases he
    · exact he
  | node span tag slots ih =>
    intro f h e he
    rw [compile.eq_def] at h
    simp only at h
    split at h
    · cases h
    · split at h
      · -- an access to a field
        rename_i receiver field _
        simp only [Except.bind_eq_ok, Except.pure_eq_ok] at h
        obtain ⟨r, hr, x, hx, rfl⟩ := h
        have hall : compileAll s [receiver, field] = .ok [r, x] := by
          simp only [compileAll, hr, hx]
          rfl
        refine spells_all ih hall ?_
        simpa only [Fragment.constants, Fragment.constantsAll, List.append_nil] using he
      · -- an assignment to a field, whose target is an access in the pattern
        rename_i place receiver field value _
        simp only [Except.bind_eq_ok, Except.pure_eq_ok] at h
        obtain ⟨r, hr, x, hx, v, hv, rfl⟩ := h
        have htarget : (node place .fieldAccess [receiver, field]).compile s =
            .ok (.fieldAccess r x false) := by
          rw [compile.eq_def]
          simp only [hr, hx]
          rfl
        have hall : compileAll s [node place .fieldAccess [receiver, field], value] =
            .ok [.fieldAccess r x false, v] := by
          simp only [compileAll, htarget, hv]
          -- the slots of the node are compiled like a list of two patterns
          rfl
        refine spells_all ih hall ?_
        simpa only [Fragment.constants, Fragment.constantsAll, List.append_nil] using he
      · simp only [Except.bind_eq_ok, Except.pure_eq_ok] at h
        obtain ⟨fs, hfs, rfl⟩ := h
        exact spells_all ih hfs he

/-- The entities that a fragment spells out are written in its pattern or known in the scope. -/
theorem mem_constants_of_compile {p : Pattern} {f : Fragment} (h : p.compile s = .ok f)
    (he : e ∈ f.constants) : e ∈ p.entities ∨ ∃ name, s.bound.find? name = some e :=
  p.spells f h e he

end Pattern

end CodeRules
