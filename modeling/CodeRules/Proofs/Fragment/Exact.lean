import CodeRules.Proofs.Binding.View
import CodeRules.Proofs.Code.Rebuild
import CodeRules.Proofs.Fragment.Parts

/-!
# Recognizing is exact

Bindings that a well-formed fragment finds have the entity as their result, and bind all variables of
the fragment and no others. Together with the absence of defects this is all that the rest of the
engine relies on (`Pattern.recognize_generate_exact`).
-/

namespace CodeRules

namespace Bindings

variable {b d : Bindings} {part : Option Bindings}

/-- A part that is joined leaves the result as it is. -/
theorem result_of_joinPart (h : b.joinPart part = some d) : d.result = b.result := by
  obtain ⟨p, rfl, h⟩ := Option.bind_eq_some_iff.1 h
  change b.unifyMerge? p.withoutResult = some d at h
  unfold unifyMerge? mergeWith? at h
  split at h
  · rw [(result_of_mergeInto? h).1]
    exact Option.or_none
  · rw [(result_of_mergeInto? h).1]
    exact Option.none_or

/-- The empty bindings bind nothing. -/
theorem not_binds_empty (n : String) : ¬ Bindings.empty.binds n = true := Bool.false_ne_true

/-- A result binds nothing. -/
theorem not_binds_ofResult (e : Entity) (n : String) : ¬ (ofResult e).binds n = true :=
  Bool.false_ne_true

/-- Bindings without variables bind what is bound in them, and nothing else. -/
theorem binds_bind_iff {name n : String} (hname : name ≠ wildcard) (h : ∀ n, ¬ b.binds n = true)
    (e : Entity) : (b.bind name e).binds n = true ↔ n = name := by
  have hnone : b.find? name = none :=
    Option.not_isSome_iff_eq_none.1 (h name)
  have hn : ¬ (b.find? n).isSome = true := h n
  rw [binds_iff_outline, ← Option.isSome_iff_exists, outline_bind hname hnone]
  split
  · rename_i heq
    simp [heq]
  · rename_i hne
    simp [hne, outline, hn]

end Bindings

namespace Fragment

variable {s : Surroundings} {f : Fragment} {fs : List Fragment} {access rest : Option Fragment}
  {e : Entity} {items left : List Entity} {b c : Bindings} {n : String}

/-! ### The result -/

/-- Recognizing parts leaves the result as it is. -/
private theorem result_of_recognizeAll {es : List Entity}
    (h : recognizeAll s fs es b = .ok (some c)) : c.result = b.result := by
  induction fs generalizing es b with
  | nil =>
    obtain rfl := Option.some.inj (Except.ok.inj h)
    rfl
  | cons f fs ih =>
    cases es with
    | nil =>
      obtain rfl := Option.some.inj (Except.ok.inj h)
      rfl
    | cons e es =>
      rw [recognizeAll] at h
      obtain ⟨p, mid, -, hmid, h⟩ := exists_of_join h
      exact (ih h).trans (Bindings.result_of_joinPart hmid)

/-- Taking the rest of a modifier set leaves the result as it is. -/
private theorem result_of_recognizeRest {types : TypeOracle}
    (h : recognizeRest types rest left b = .ok (some c)) : c.result = b.result := by
  unfold recognizeRest at h
  split at h
  · rw [Option.some.inj (Except.ok.inj h)]
  · cases h
  · rw [Option.some.inj (Except.ok.inj h)]
  · exact Bindings.result_of_bind? (Except.ok.inj h)
  · exact Bindings.result_of_joinPart (Except.ok.inj h)
  · cases h
  · cases h

/-- Recognizing the access slot leaves the result as it is. -/
private theorem result_of_recognizeAccess (h : recognizeAccess s access e b = .ok (some c)) :
    c.result = b.result := by
  unfold recognizeAccess at h
  split at h
  · rw [Option.some.inj (Except.ok.inj h)]
  · exact Bindings.result_of_joinPart (Except.ok.inj h)
  · obtain ⟨part, -, h⟩ := Except.bind_eq_ok.1 h
    exact Bindings.result_of_joinPart (Except.ok.inj h)

/-- Recognizing the items of a modifier set leaves the result as it is. -/
private theorem result_of_recognizeSet (h : recognizeSet s fs rest items b = .ok (some c)) :
    c.result = b.result := by
  induction fs generalizing items b with
  | nil =>
    rw [recognizeSet] at h
    exact result_of_recognizeRest h
  | cons f fs ih =>
    rw [recognizeSet] at h
    obtain ⟨x, -, h⟩ := exists_of_firstSuccess h
    obtain ⟨p, mid, -, hmid, h⟩ := exists_of_join h
    exact (ih h).trans (Bindings.result_of_joinPart hmid)

/-- What is found has the entity as its result. -/
theorem result_of_recognize (hwf : f.WellFormed) (h : f.recognize s e = .ok (some b)) :
    b.result = some e := by
  -- a composite fragment starts from the entity as the result, and its parts keep it
  have hcomposite (hf : f.isComposite = true) : b.result = some e := by
    rw [recognize_of_isComposite hf hwf] at h
    split at h
    · cases h
    · exact result_of_recognizeAll h
  -- what is left are the fragments that are no composites
  cases hwf with
  | unordered =>
    rw [recognize] at h
    split at h
    · cases h
    · dsimp only at h
      split at h
      · cases h
      · obtain ⟨o, ho, h⟩ := Except.bind_eq_ok.1 h
        cases o with
        | none => cases h
        | some mid => exact (result_of_recognizeSet h).trans (result_of_recognizeAccess ho)
  | wildcard =>
    obtain rfl := Option.some.inj (Except.ok.inj h)
    rfl
  | resolved known =>
    rw [recognize] at h
    split at h
    · obtain rfl := Option.some.inj (Except.ok.inj h)
      rfl
    · cases h
  | var hname type =>
    rw [recognize, recognizeVar] at h
    split at h
    · obtain rfl := Option.some.inj (Except.ok.inj h)
      exact Bindings.result_bind ..
    · cases h
  | empty =>
    cases e with
    | empty =>
      obtain rfl := Option.some.inj (Except.ok.inj h)
      rfl
    | _ => cases h
  | _ => exact hcomposite rfl

/-! ### The variables -/

/-- The bindings bind the variables of the fragment and no others. -/
def BindsExactly (f : Fragment) (b : Bindings) : Prop := ∀ n, b.binds n = true ↔ n ∈ f.occurrences

/-- What several fragments find binds the variables of all of them. -/
private theorem bindsExactly_all {found : List Bindings} (h : List.Forall₂ BindsExactly fs found) :
    (∃ b ∈ found, b.binds n = true) ↔ n ∈ fs.flatMap occurrences := by
  rw [List.mem_flatMap]
  constructor
  · rintro ⟨b, hb, hn⟩
    obtain ⟨f, hf, hfb⟩ := h.exists_left hb
    exact ⟨f, hf, (hfb n).1 hn⟩
  · rintro ⟨f, hf, hn⟩
    obtain ⟨b, hb, hfb⟩ := h.exists_right hf
    exact ⟨b, hb, (hfb n).2 hn⟩

/-- A variable of a slot that nothing fills is bound all the same. -/
private theorem bindsExactly_unbound {name : String} (hname : name ≠ CodeRules.wildcard)
    (type : ParamType) : (var name type).BindsExactly (Bindings.empty.bind name .empty) := by
  intro n
  rw [Bindings.binds_bind_iff hname Bindings.not_binds_empty, occurrences, List.mem_singleton]

/-- The access slot of a modifier set binds its variables and no others, also when there is no access
specifier. -/
theorem AccessFinds.binds_iff {specifier : Option Entity} {a : Bindings}
    (h : AccessFinds s access specifier a) (hwf : ∀ f ∈ access, f.WellFormed)
    (hf : ∀ f ∈ access, ∀ e b, f.recognize s e = .ok (some b) → f.BindsExactly b) :
    a.binds n = true ↔ n ∈ occurrencesOpt access := by
  cases h with
  | unconstrained => simp [occurrencesOpt, Bindings.not_binds_empty]
  | specifier h => exact hf _ rfl _ _ h n
  | unbound name type =>
    cases hwf _ rfl with
    | var hname => exact bindsExactly_unbound hname type n
  | absence _ h => exact hf _ rfl _ _ h n

/-- What takes the rest of a modifier set binds its variables and no others, also when nothing is left. -/
theorem RestFinds.binds_iff {r : Bindings} (h : RestFinds s rest left r)
    (hwf : ∀ f ∈ rest, f.WellFormed)
    (hf : ∀ f ∈ rest, ∀ e b, f.recognize s e = .ok (some b) → f.BindsExactly b) :
    r.binds n = true ↔ n ∈ occurrencesOpt rest := by
  cases h with
  | nothing => simp [occurrencesOpt, Bindings.not_binds_empty]
  | anything => simp [occurrencesOpt, occurrences, Bindings.not_binds_empty]
  | unbound name type =>
    cases hwf _ rfl with
    | var hname => exact bindsExactly_unbound hname type n
  | single h => exact hf _ rfl _ _ h n

/-- A modifier set recognizes lists only. -/
theorem exists_items_of_recognize {fixed : List Fragment}
    (h : (unordered access fixed rest).recognize s e = .ok (some b)) :
    ∃ items, e.items? = some items := by
  rw [recognize] at h
  split at h
  · cases h
  · exact ⟨_, ‹_›⟩

/-- A well-formed fragment binds its variables and no others. -/
theorem bindsExactly_of_recognize (hwf : f.WellFormed) (h : f.recognize s e = .ok (some b)) :
    f.BindsExactly b := by
  induction f using induction_composite generalizing e b with
  | composite f hf ih =>
    intro n
    -- what a composite fragment finds unites what its children find
    obtain ⟨es, found, -, hfound, hb⟩ := exists_parts hf hwf h
    rw [hb.binds_iff, occurrences_eq_flatMap_children (ne_var_of_isComposite hf)]
    exact bindsExactly_all (hfound.forall₂ fun g hg _ _ hg' => ih g hg (hwf.children g hg) hg')
  | unordered access fixed rest iha ihf ihr =>
    intro n
    obtain ⟨items, hitems⟩ := exists_items_of_recognize h
    -- what a modifier set finds unites what its slots find for some division of the items
    obtain ⟨d, hb⟩ := exists_division hwf hitems h
    cases hwf with
    | unordered haccess hfixed hrest =>
    have hfound := d.pairsFind.forall₂ fun g hg _ _ hg' => ihf g hg (hfixed g hg) hg'
    rw [hb.binds_iff, occurrences, List.mem_append, List.mem_append, occurrencesAll_eq_flatMap,
      ← bindsExactly_all hfound,
      ← d.accessFinds.binds_iff haccess fun g hg _ _ hg' => iha g hg (haccess g hg) hg',
      ← d.restFinds.binds_iff hrest fun g hg _ _ hg' => ihr g hg (hrest g hg) hg']
    simp [Division.parts, or_and_right, exists_or, or_assoc]
  | resolved known =>
    rw [recognize] at h
    split at h
    · obtain rfl := Option.some.inj (Except.ok.inj h)
      simp [BindsExactly, occurrences, Bindings.not_binds_ofResult]
    · cases h
  | var name type =>
    rw [recognize, recognizeVar] at h
    split at h
    · obtain rfl := Option.some.inj (Except.ok.inj h)
      cases hwf with
      | var hname =>
      intro n
      rw [Bindings.binds_bind_iff hname (Bindings.not_binds_ofResult e), occurrences,
        List.mem_singleton]
    · cases h
  | wildcard =>
    obtain rfl := Option.some.inj (Except.ok.inj h)
    simp [BindsExactly, occurrences, Bindings.not_binds_ofResult]
  | empty =>
    cases e with
    | empty =>
      obtain rfl := Option.some.inj (Except.ok.inj h)
      simp [BindsExactly, occurrences, Bindings.not_binds_ofResult]
    | _ => cases h

/-- The names of the variables are those that occur, once each. -/
theorem mem_variableNames_iff : n ∈ f.variableNames ↔ n ∈ f.occurrences := List.mem_eraseDups

end Fragment

/-- What a pattern compiles to meets no defect. What it recognizes becomes the result, with exactly
the variables of the fragment bound. Generating fails through the fault of the rules only, whatever the
bindings; and the nodes that it copies are rebuilt from the copies of their slots, which always fit. -/
theorem Pattern.recognize_generate_exact {scope : Scope} {p : Pattern} {f : Fragment}
    (h : p.compile scope = .ok f) :
    (∀ (s : Surroundings) (e : Entity), ∃ found, f.recognize s e = .ok found ∧
      ∀ b ∈ found, b.result = some e ∧ ∀ n, n ∈ b.names ↔ n ∈ f.variableNames) ∧
    (∀ (types : TypeOracle) (b : Bindings),
      Effect.FailsOnly (f.generate types b) GenerateError.IsUser) ∧
    ∀ (n : Node) (a : Arena), ∃ slots kind a',
      (Entity.copyAll n.kind.slots).run a = (slots, a') ∧ NodeKind.ofSlots n.tag slots = .ok kind ∧
        n.copy.run a = (Arena.make { copiedFrom := some n.id } kind).run a' := by
  have hwf := compile_wellFormed h
  refine ⟨fun s e => ?_, hwf.failsOnly_generate, Node.exists_ofSlots_copyAll⟩
  obtain ⟨found, hfound⟩ := hwf.recognize_eq_ok s e
  refine ⟨found, hfound, fun b hb => ?_⟩
  obtain rfl : found = some b := hb
  refine ⟨Fragment.result_of_recognize hwf hfound, fun n => ?_⟩
  have hexact := Fragment.bindsExactly_of_recognize hwf hfound n
  rw [Fragment.mem_variableNames_iff, ← hexact]
  exact Dict.isSome_find?_iff.symm

/-- A set of three modifiers is recognized with both of its variables bound. -/
theorem StaticMember.recognize_generate_modifiers :
    pattern.compile {} = .ok (.unordered access fixed rest) ∧
    (∃ b, (Fragment.unordered access fixed rest).recognize .none (.list modifiers) = .ok (some b) ∧
      b.result = some (.list modifiers) ∧ ∀ n, n ∈ b.names ↔ n ∈ ["access", "more"]) ∧
    Effect.FailsOnly ((Fragment.unordered access fixed rest).generate .intrinsic .empty)
      GenerateError.IsUser := by
  have hcompile : pattern.compile {} = .ok (.unordered access fixed rest) := rfl
  obtain ⟨hrecognize, hgenerate, -⟩ := Pattern.recognize_generate_exact hcompile
  obtain ⟨found, hfound, hexact⟩ := hrecognize .none (.list modifiers)
  have hsome : (((Fragment.unordered access fixed rest).recognize .none
      (.list modifiers)).toOption.join).isSome = true := by decide +kernel
  rw [hfound] at hsome
  obtain ⟨b, rfl⟩ := Option.isSome_iff_exists.1 hsome
  exact ⟨hcompile, ⟨b, hfound, hexact b rfl⟩, hgenerate .intrinsic .empty⟩

end CodeRules
