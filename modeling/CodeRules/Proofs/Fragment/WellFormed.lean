import CodeRules.Fragment.Compile
import CodeRules.Fragment.Generate
import CodeRules.Fragment.Recognize
import CodeRules.Proofs.Effect

/-!
# Well-formed fragments

Nodes of a well-formed fragment have as many slots as their tags ask for, what takes the rest of a
modifier set is a variable or the wildcard, and no variable has the name of the wildcard. Compiled
patterns are well-formed
(`Pattern.compile_wellFormed`), and well-formed fragments neither meet a defect when they recognize
an entity nor when they generate one.
-/

namespace CodeRules

namespace Fragment

/-- Nodes have the right number of slots, the rest of a modifier set can be taken, and no variable is
called like the wildcard. -/
inductive WellFormed : Fragment → Prop where
  | node {tag : Tag} {slots : List Fragment} (hcount : slots.length = tag.slotCount)
      (hslots : ∀ f ∈ slots, f.WellFormed) : WellFormed (node tag slots)
  | ordered {items : List Fragment} (hitems : ∀ f ∈ items, f.WellFormed) : WellFormed (ordered items)
  | unordered {access : Option Fragment} {fixed : List Fragment} {rest : Option Fragment}
      (haccess : ∀ f ∈ access, f.WellFormed) (hfixed : ∀ f ∈ fixed, f.WellFormed)
      (hrest : ∀ f ∈ rest, f.WellFormed) (hremainder : ∀ f ∈ rest, f.isRemainder = true) :
      WellFormed (unordered access fixed rest)
  | resolved (e : Entity) : WellFormed (resolved e)
  | var {name : String} (hname : name ≠ CodeRules.wildcard) (type : ParamType) :
      WellFormed (var name type)
  | wildcard : WellFormed wildcard
  | empty : WellFormed empty
  | fieldAccess {receiver field : Fragment} {asTarget : Bool} (hreceiver : receiver.WellFormed)
      (hfield : field.WellFormed) : WellFormed (fieldAccess receiver field asTarget)
  | fieldAssign {target value : Fragment} (htarget : target.WellFormed)
      (hvalue : value.WellFormed) : WellFormed (fieldAssign target value)

end Fragment

/-! ### Compiled patterns -/

namespace ModifierParts

/-- The parts collected so far make a well-formed fragment. -/
private theorem add_wellFormed {parts parts' : ModifierParts} {set : Span} {item : Pattern}
    {f : Fragment} (h : parts.add set item f = .ok parts') (hparts : parts.toFragment.WellFormed)
    (hf : f.WellFormed) : parts'.toFragment.WellFormed := by
  obtain ⟨access, fixed, rest⟩ := parts
  cases hparts with
  | unordered haccess hfixed hrest hremainder =>
  simp only [add] at h
  split at h
  -- the access slot, which is taken at most once
  · split at h
    · cases h
    · simp only [Except.ok.injEq] at h
      subst h
      exact .unordered (by simpa using hf) hfixed hrest hremainder
  -- the remainder, which is taken at most once
  · split at h
    · rename_i hrem
      split at h
      · cases h
      · simp only [Except.ok.injEq] at h
        subst h
        exact .unordered haccess hfixed (by simpa using hf) (by simpa using hrem)
    -- a fixed item comes after those collected before
    · simp only [Except.ok.injEq] at h
      subst h
      refine .unordered haccess (fun g hg => ?_) hrest hremainder
      rcases List.mem_append.1 hg with hg | hg
      · exact hfixed g hg
      · exact List.mem_singleton.1 hg ▸ hf

end ModifierParts

namespace Scope

/-- What a name stands for is a well-formed fragment. -/
private theorem fragment_wellFormed (s : Scope) (name : String) : (s.fragment name).WellFormed := by
  simp only [fragment]
  split
  · exact .wildcard
  · rename_i hname
    split
    · exact .resolved _
    · exact .var hname _
    · exact .var hname _

/-- So is what an access specifier stands for. -/
private theorem accessFragment_wellFormed (s : Scope) (name : Option String) :
    (s.accessFragment name).WellFormed := by
  cases name with
  | none => exact .wildcard
  | some name =>
    simp only [accessFragment]
    split
    · exact .wildcard
    · rename_i hname
      split
      · exact .resolved _
      · exact .var hname _

end Scope

namespace Pattern

/-- Patterns compile one by one to as many well-formed fragments. -/
private theorem compileAll_wellFormed {s : Scope} {ps : List Pattern} {fs : List Fragment}
    (h : compileAll s ps = .ok fs)
    (hps : ∀ p ∈ ps, ∀ f, p.compile s = .ok f → f.WellFormed) :
    fs.length = ps.length ∧ ∀ f ∈ fs, f.WellFormed := by
  induction ps generalizing fs with
  | nil =>
    simp only [compileAll, Except.ok.injEq] at h
    subst h
    simp
  | cons p ps ih =>
    simp only [compileAll, Except.bind_eq_ok, Except.pure_eq_ok] at h
    obtain ⟨f, hf, gs, hgs, rfl⟩ := h
    obtain ⟨hlen, hwf⟩ := ih hgs fun q hq => hps q (List.mem_cons_of_mem _ hq)
    refine ⟨by simp [hlen], fun g hg => ?_⟩
    rcases List.mem_cons.1 hg with rfl | hg
    · exact hps p (List.mem_cons_self ..) _ hf
    · exact hwf g hg

/-- Collecting the items of a modifier set keeps its parts well-formed. -/
private theorem compileSet_wellFormed {s : Scope} {set : Span} {ps : List Pattern}
    {parts parts' : ModifierParts} (h : compileSet s set parts ps = .ok parts')
    (hparts : parts.toFragment.WellFormed)
    (hps : ∀ p ∈ ps, ∀ f, p.compile s = .ok f → f.WellFormed) :
    parts'.toFragment.WellFormed := by
  induction ps generalizing parts with
  | nil =>
    simp only [compileSet, Except.ok.injEq] at h
    exact h ▸ hparts
  | cons p ps ih =>
    have hps' := fun q hq => hps q (List.mem_cons_of_mem p hq)
    -- an access specifier is the only item with its own way of compiling
    by_cases hacc : ∃ span name, p = access span name
    · obtain ⟨span, name, rfl⟩ := hacc
      simp only [compileSet, Except.bind_eq_ok] at h
      obtain ⟨mid, hmid, h⟩ := h
      exact ih h (ModifierParts.add_wellFormed hmid hparts (s.accessFragment_wellFormed name)) hps'
    · rw [compileSet] at h
      · simp only [Except.bind_eq_ok] at h
        obtain ⟨f, hf, mid, hmid, h⟩ := h
        exact ih h (ModifierParts.add_wellFormed hmid hparts (hps p (List.mem_cons_self ..) f hf)) hps'
      · intro span name e
        exact hacc ⟨span, name, e⟩

/-- What a pattern compiles to is well-formed. -/
theorem compile_wellFormed {s : Scope} {p : Pattern} {f : Fragment} (h : p.compile s = .ok f) :
    f.WellFormed := by
  -- a target of an assignment is compiled inside the assignment, so the induction is on the size
  induction hn : sizeOf p using Nat.strongRecOn generalizing p f with
  | _ n ih =>
  subst hn
  cases p with
  | var span name =>
    simp only [compile, Except.ok.injEq] at h
    exact h ▸ s.fragment_wellFormed name
  | resolved span e =>
    simp only [compile, Except.ok.injEq] at h
    exact h ▸ .resolved e
  | empty span =>
    simp only [compile, Except.ok.injEq] at h
    exact h ▸ .empty
  | access span name => cases h
  | list span items =>
    simp only [compile, Except.bind_eq_ok, Except.pure_eq_ok] at h
    obtain ⟨fs, hfs, rfl⟩ := h
    refine .ordered (compileAll_wellFormed hfs fun q hq g hg => ih _ ?_ hg rfl).2
    have := List.sizeOf_lt_of_mem hq
    simp only [list.sizeOf_spec]
    omega
  | modifierSet span items =>
    simp only [compile, Except.bind_eq_ok, Except.pure_eq_ok] at h
    obtain ⟨parts, hparts, rfl⟩ := h
    refine compileSet_wellFormed hparts ?_ fun q hq g hg => ih _ ?_ hg rfl
    · exact .unordered (by simp) (by simp) (by simp) (by simp)
    · have := List.sizeOf_lt_of_mem hq
      simp only [modifierSet.sizeOf_spec]
      omega
  | node span tag slots =>
    rw [compile.eq_def] at h
    -- accesses to fields and assignments to them compile to fragments of their own
    simp only at h
    split at h
    · simp only [Except.bind_eq_ok, reduceCtorEq, false_and, exists_const] at h
    · rename_i hcount
      have hcount : slots.length = tag.slotCount := by simpa using hcount
      split at h
      -- an access to a field
      · rename_i receiver field
        simp only [Except.bind_eq_ok, Except.pure_eq_ok] at h
        obtain ⟨f₁, h₁, f₂, h₂, rfl⟩ := h
        exact .fieldAccess (ih _ (by simp; omega) h₁ rfl) (ih _ (by simp; omega) h₂ rfl)
      -- an assignment to a field
      · rename_i receiver field value
        simp only [Except.bind_eq_ok, Except.pure_eq_ok] at h
        obtain ⟨f₁, h₁, f₂, h₂, f₃, h₃, rfl⟩ := h
        exact .fieldAssign (.fieldAccess (ih _ (by simp; omega) h₁ rfl)
          (ih _ (by simp; omega) h₂ rfl)) (ih _ (by simp; omega) h₃ rfl)
      · simp only [Except.bind_eq_ok, Except.pure_eq_ok] at h
        obtain ⟨fs, hfs, rfl⟩ := h
        have := compileAll_wellFormed hfs fun q hq g hg => ih _ (by
          have := List.sizeOf_lt_of_mem hq
          simp only [node.sizeOf_spec]
          omega) hg rfl
        exact .node (this.1.trans hcount) this.2

end Pattern

/-! ### Recognizing -/

/-- A search without defects has an outcome. -/
theorem firstSuccess_eq_ok {α : Type} {attempt : α → Recognition} {l : List α}
    (h : ∀ a ∈ l, ∃ b, attempt a = .ok b) : ∃ b, firstSuccess attempt l = .ok b := by
  induction l with
  | nil => exact ⟨none, rfl⟩
  | cons a l ih =>
    obtain ⟨b, hb⟩ := h a (List.mem_cons_self ..)
    simp only [firstSuccess, hb]
    cases b with
    | none => exact ih fun c hc => h c (List.mem_cons_of_mem _ hc)
    | some b => exact ⟨some b, rfl⟩

namespace Fragment

section

variable {s : Surroundings} {fs : List Fragment}

/-- Parts are recognized without a defect when each of them is. -/
private theorem recognizeAll_eq_ok (h : ∀ f ∈ fs, ∀ e, ∃ b, f.recognize s e = .ok b)
    (es : List Entity) (b : Bindings) : ∃ r, recognizeAll s fs es b = .ok r := by
  induction fs generalizing es b with
  | nil => exact ⟨some b, by simp [recognizeAll]⟩
  | cons f fs ih =>
    cases es with
    | nil => exact ⟨some b, by simp [recognizeAll]⟩
    | cons e es =>
      obtain ⟨r, hr⟩ := h f (List.mem_cons_self ..) e
      simp only [recognizeAll, hr]
      cases hj : b.joinPart r with
      | none => exact ⟨none, by simp [bind, Except.bind, hj]⟩
      | some b' =>
        simp only [bind, Except.bind, hj]
        exact ih (fun g hg => h g (List.mem_cons_of_mem _ hg)) es b'

/-- The access slot is recognized without a defect. -/
private theorem recognizeAccess_eq_ok {access : Option Fragment}
    (h : ∀ f ∈ access, ∀ e, ∃ b, f.recognize s e = .ok b) (e : Entity) (b : Bindings) :
    ∃ r, recognizeAccess s access e b = .ok r := by
  unfold recognizeAccess
  split
  · exact ⟨_, rfl⟩
  · exact ⟨_, rfl⟩
  · rename_i f _
    obtain ⟨r, hr⟩ := h f rfl e
    exact ⟨_, by rw [hr]; rfl⟩

/-- A remainder takes what is left, or fails. -/
private theorem recognizeRest_eq_ok {rest : Option Fragment}
    (h : ∀ f ∈ rest, f.isRemainder = true) (types : TypeOracle) (left : List Entity)
    (b : Bindings) : ∃ r, recognizeRest types rest left b = .ok r := by
  unfold recognizeRest
  split
  all_goals try exact ⟨_, rfl⟩
  -- no other fragment is a remainder
  rename_i f hwild hvar _ _
  have := h f rfl
  cases f with
  | wildcard => exact absurd rfl hwild
  | var name type => exact absurd rfl (hvar name type)
  | _ => cases this

/-- A modifier set is searched without a defect when its parts have none. -/
theorem recognizeSet_eq_ok {rest : Option Fragment}
    (h : ∀ f ∈ fs, ∀ e, ∃ b, f.recognize s e = .ok b)
    (hrest : ∀ f ∈ rest, f.isRemainder = true) (items : List Entity) (b : Bindings) :
    ∃ r, recognizeSet s fs rest items b = .ok r := by
  induction fs generalizing items b with
  | nil => simpa only [recognizeSet] using recognizeRest_eq_ok hrest s.types items b
  | cons f fs ih =>
    simp only [recognizeSet]
    refine firstSuccess_eq_ok fun x _ => ?_
    obtain ⟨e, others⟩ := x
    obtain ⟨r, hr⟩ := h f (List.mem_cons_self ..) e
    simp only [hr]
    cases hj : b.joinPart r with
    | none => exact ⟨none, by simp [bind, Except.bind, hj]⟩
    | some b' =>
      simp only [bind, Except.bind, hj]
      exact ih (fun g hg => h g (List.mem_cons_of_mem _ hg)) others b'

end

/-- Two parts that are recognized one after the other. -/
private theorem joinParts_eq_ok {x y : Recognition} (hx : ∃ r, x = .ok r) (hy : ∃ r, y = .ok r)
    (b : Bindings) : ∃ r, (do
      match b.joinPart (← x) with
      | none => .ok none
      | some b => return b.joinPart (← y) : Recognition) = .ok r := by
  obtain ⟨p, rfl⟩ := hx
  obtain ⟨q, rfl⟩ := hy
  cases hj : b.joinPart p with
  | none => exact ⟨none, by simp [bind, Except.bind, hj]⟩
  | some b' => exact ⟨b'.joinPart q, by simp [bind, Except.bind, hj, pure, Except.pure]⟩

/-- A well-formed fragment recognizes an entity or not, but never meets a defect. -/
theorem WellFormed.recognize_eq_ok {f : Fragment} (h : f.WellFormed) (s : Surroundings)
    (e : Entity) : ∃ r, f.recognize s e = .ok r := by
  induction h generalizing e with
  | node hcount hslots ih =>
    -- the number of slots is right, so the check for it cannot fail
    simp only [recognize, hcount, ne_eq, not_true_eq_false, ↓reduceIte]
    split
    -- the entity is no node
    · exact ⟨none, rfl⟩
    · split
      · exact ⟨_, rfl⟩
      · split
        · exact recognizeAll_eq_ok (fun f hf e => ih f hf e) _ _
        · exact ⟨none, rfl⟩
  | ordered hitems ih =>
    simp only [recognize]
    split
    · exact ⟨none, rfl⟩
    · split
      · exact recognizeAll_eq_ok (fun f hf e => ih f hf e) _ _
      · exact ⟨none, rfl⟩
  | unordered haccess hfixed hrest hremainder iha ihf =>
    simp only [recognize]
    split
    · exact ⟨none, rfl⟩
    · split
      · exact ⟨none, rfl⟩
      · rename_i items _ _
        obtain ⟨r, hr⟩ := recognizeAccess_eq_ok (fun f hf e => iha f hf e)
          ((items.filter Entity.isAccessSpecifier).head?.getD .empty) (.ofResult e)
        rw [hr]
        cases r with
        | none => exact ⟨none, rfl⟩
        -- the rest is a variable or a wildcard, which is what the search expects
        | some b => exact recognizeSet_eq_ok (fun f hf e => ihf f hf e) hremainder _ b
  | resolved known => simp only [recognize, Except.ok.injEq, exists_eq']
  | var hname type => simp only [recognize, Except.ok.injEq, exists_eq']
  | wildcard => simp only [recognize, Except.ok.injEq, exists_eq']
  | empty => cases e <;> simp only [recognize, Except.ok.injEq, exists_eq']
  | fieldAccess hreceiver hfield ihr ihf =>
    simp only [recognize]
    split
    · exact ⟨none, rfl⟩
    · split
      · exact ⟨none, rfl⟩
      · split
        · exact ⟨none, rfl⟩
        · exact joinParts_eq_ok (ihr _) (ihf _) _
  | fieldAssign htarget hvalue iht ihv =>
    simp only [recognize]
    split
    · exact joinParts_eq_ok (iht _) (ihv _) _
    · exact ⟨none, rfl⟩

end Fragment

/-! ### Generating -/

namespace NodeKind

/-- The outcome is no complaint about the number of slots. -/
private def Counted {α : Type} (r : Except SlotError α) : Prop := ∀ t n, r ≠ .error (.count t n)

/-- A built kind has the right number of slots. -/
private theorem counted_pure {α : Type} (a : α) : Counted (pure a) := by
  intro t n h
  cases h

/-- A complaint about one slot does not count slots. -/
private theorem counted_inSlot {α : Type} (tag : Tag) (i : Nat) (r : Except SlotMismatch α) :
    Counted (inSlot tag i r) := by
  intro t n
  cases r <;> simp [inSlot, Except.mapError]

/-- Steps that do not count slots make a step that does not. -/
private theorem counted_bind {α β : Type} {r : Except SlotError α} {f : α → Except SlotError β}
    (hr : Counted r) (hf : ∀ a, Counted (f a)) : Counted (r >>= f) := by
  intro t n
  cases r with
  | error e => exact fun h => hr t n (by simpa [bind, Except.bind] using h)
  | ok a => exact hf a t n

/-- Slots of the right number can only be of the wrong sort. -/
theorem ofSlots_ne_count {tag : Tag} {slots : List Entity} (h : slots.length = tag.slotCount)
    (t : Tag) (n : Nat) : ofSlots tag slots ≠ .error (.count t n) := by
  revert t n
  show Counted (ofSlots tag slots)
  -- no tag has more than six slots
  rcases slots with _ | ⟨a, _ | ⟨b, _ | ⟨c, _ | ⟨d, _ | ⟨e, _ | ⟨f, _ | ⟨g, slots⟩⟩⟩⟩⟩⟩⟩ <;>
    cases tag <;> simp only [List.length_cons, List.length_nil, Tag.slotCount] at h <;>
    (try omega) <;> simp only [ofSlots] <;>
    repeat' first
      | exact counted_pure _
      | exact counted_inSlot _ _ _
      | refine counted_bind (counted_inSlot _ _ _) fun _ => ?_

end NodeKind

namespace GenerateError

/-- The failure is not the fault of the engine. -/
def IsUser (e : GenerateError) : Prop := ∀ d, e ≠ .defect d

end GenerateError

namespace Generating

open Effect

/-- Making a node cannot fail. -/
private theorem failsOnly_make {E : GenerateError → Prop} (kind : NodeKind Node) :
    FailsOnly (make kind) E := by
  intro w
  simp only [make, ends_bind, ends_get]
  trivial

/-- Copying an entity cannot fail. -/
private theorem failsOnly_copy {E : GenerateError → Prop} (e : Entity) :
    FailsOnly (copy e) E := by
  intro w
  simp only [copy, ends_bind, ends_get]
  trivial

/-- A node with the right number of slots is built, or one of them is of the wrong sort. -/
private theorem failsOnly_build {tag : Tag} {slots : List Entity}
    (h : slots.length = tag.slotCount) : FailsOnly (build tag slots) GenerateError.IsUser := by
  simp only [build]
  split
  · exact failsOnly_make _
  · rename_i he
    exact absurd he (NodeKind.ofSlots_ne_count h _ _)
  · exact failsOnly_throw (by intro d h; cases h)

end Generating

namespace Fragment

open Effect

section

variable {types : TypeOracle} {b : Bindings}

/-- As many entities are generated as there are parts. -/
private theorem ends_generateAll {fs : List Fragment}
    (h : ∀ f ∈ fs, FailsOnly (f.generate types b) GenerateError.IsUser) (w : Workshop) :
    Ends (generateAll types b fs) w (fun es _ => es.length = fs.length)
      (fun e _ => e.IsUser) := by
  induction fs generalizing w with
  | nil => simp [generateAll]
  | cons f fs ih =>
    simp only [generateAll, ends_bind, ends_pure]
    refine (h f (List.mem_cons_self ..) w).imp (fun e w' _ => ?_) fun _ _ he => he
    refine (ih (fun g hg => h g (List.mem_cons_of_mem _ hg)) w').imp
      (fun es _ hes => ?_) fun _ _ he => he
    simp [hes]

/-- An optional part fails as the part does. -/
private theorem failsOnly_generateOpt {f? : Option Fragment}
    (h : ∀ f ∈ f?, FailsOnly (f.generate types b) GenerateError.IsUser) :
    FailsOnly (generateOpt types b f?) GenerateError.IsUser := by
  cases f? with
  | none => exact failsOnly_pure
  | some f => exact failsOnly_bind (h f rfl) fun _ => failsOnly_pure

/-- A variable fails when it is unbound or has an entity of the wrong type. -/
private theorem failsOnly_generateVar (name : String) (type : ParamType) :
    FailsOnly (generateVar types b name type) GenerateError.IsUser := by
  simp only [generateVar]
  split
  · exact failsOnly_throw (by intro d h; cases h)
  · exact Generating.failsOnly_copy _
  · split
    · exact Generating.failsOnly_copy _
    · exact failsOnly_throw (by intro d h; cases h)

/-- An access to a field has two slots or one. -/
private theorem failsOnly_generateAccess (receiver field : Entity) :
    FailsOnly (generateAccess receiver field) GenerateError.IsUser := by
  simp only [generateAccess]
  split
  · split
    · exact Generating.failsOnly_build rfl
    · exact Generating.failsOnly_build rfl
  · exact failsOnly_throw (by intro d h; cases h)

end

/-- Generating from a well-formed fragment meets no defect. -/
theorem WellFormed.failsOnly_generate {f : Fragment} (h : f.WellFormed) (types : TypeOracle)
    (b : Bindings) : FailsOnly (f.generate types b) GenerateError.IsUser := by
  induction h with
  | node hcount hslots ih =>
    intro w
    simp only [generate, ends_bind]
    refine (ends_generateAll ih w).imp (fun es w' hes => ?_) fun _ _ he => he
    -- what comes out has the number of entities that the tag asks for
    exact Generating.failsOnly_build (hes.trans hcount) w'
  | ordered hitems ih =>
    intro w
    simp only [generate, ends_bind, ends_pure]
    exact (ends_generateAll ih w).imp (fun _ _ _ => trivial) fun _ _ he => he
  | unordered haccess hfixed hrest hremainder iha ihf ihr =>
    simp only [generate]
    refine failsOnly_bind (failsOnly_generateOpt iha) fun _ => ?_
    refine failsOnly_bind (fun w => ?_) fun _ => ?_
    · exact (ends_generateAll ihf w).imp (fun _ _ _ => trivial) fun _ _ he => he
    · exact failsOnly_bind (failsOnly_generateOpt ihr) fun _ => failsOnly_pure
  | resolved e => exact Generating.failsOnly_copy e
  | var hname type => exact failsOnly_generateVar _ type
  | wildcard => exact failsOnly_throw (by intro d h; cases h)
  | empty => exact failsOnly_pure
  | fieldAccess hreceiver hfield ihr ihf =>
    simp only [generate]
    exact failsOnly_bind ihr fun owner => failsOnly_bind ihf fun name =>
      failsOnly_generateAccess owner name
  | fieldAssign htarget hvalue iht ihv =>
    simp only [generate]
    exact failsOnly_bind iht fun _ => failsOnly_bind ihv fun _ => Generating.failsOnly_build rfl

/-- An entity that was generated is the result of the bindings. -/
theorem WellFormed.ends_instantiate {f : Fragment} (h : f.WellFormed) (types : TypeOracle)
    (b : Bindings) (w : Workshop) : Ends (instantiate types b f) w
      (fun b' _ => b'.result.isSome = true) (fun e _ => e.IsUser) := by
  simp only [instantiate, ends_bind, ends_get, ends_pure]
  refine (h.failsOnly_generate types b w).imp (fun e w' _ => ?_) fun _ _ he => he
  -- recording copies does not touch the result
  have hrec (l : List Replacement) (b : Bindings) : (l.foldl Bindings.record b).result = b.result := by
    induction l generalizing b with
    | nil => rfl
    | cons r l ih => rw [List.foldl_cons, ih]; rfl
  rw [hrec]
  rfl

end Fragment

end CodeRules
