import CodeRules.Proofs.Binding.Outline
import CodeRules.Proofs.Fragment.ModifierSet
import CodeRules.Proofs.Fragment.Variant

/-!
# Parts

All fragments with parts in a fixed order are recognized in one way: the entity is taken apart
(`Fragment.partsOf?`), each child of the fragment recognizes the part at its place, and what the
children find is united (`Fragment.exists_parts`). The other way round, parts that are recognized one
by one and unify are recognized together (`Fragment.exists_recognize_of_parts`).
-/

namespace CodeRules

namespace Fragment

/-- The fragments directly below a fragment, from left to right. -/
def children : Fragment → List Fragment
  | node _ slots => slots
  | ordered items => items
  | unordered access fixed rest => access.toList ++ fixed ++ rest.toList
  | fieldAccess receiver field _ => [receiver, field]
  | fieldAssign target value => [target, value]
  | resolved _ | var .. | wildcard | empty => []

/-- Whether the children are for parts in a fixed order. -/
def isComposite : Fragment → Bool
  | node .. | ordered .. | fieldAccess .. | fieldAssign .. => true
  | unordered .. | resolved _ | var .. | wildcard | empty => false

/-- The parts of an entity that the children are for, or nothing when the entity does not have such
parts. -/
def partsOf? (s : Surroundings) (e : Entity) : Fragment → Option (List Entity)
  | node tag slots => e.node?.bind fun n =>
    match tag, n.kind with
    | .this, .implicitReceiver _ false => some []
    | _, _ => if n.tag = tag then some (callSlots s n slots) else none
  | ordered items => e.items?.bind fun values =>
    if values.length = items.length then some values else none
  | fieldAccess _ _ asTarget => e.node?.bind fun n =>
    if !asTarget && s.isAssignmentTarget n.id then none
    else (fieldParts? s n).map fun (owner, name) => [owner, name]
  | fieldAssign _ _ =>
    match e.node?.map Node.kind with
    | some (.assign left right) => some [.node left, .node right]
    | _ => none
  | unordered .. | resolved _ | var .. | wildcard | empty => none

variable {s : Surroundings} {f g : Fragment} {fs : List Fragment} {e : Entity} {es : List Entity}
  {b c : Bindings} {found : List Bindings} {n : String}

/-! ### Children -/

/-- A variable stands below a fragment that is no variable itself when it stands below a child. -/
theorem occurrences_eq_flatMap_children (hvar : ∀ name type, f ≠ var name type) :
    f.occurrences = f.children.flatMap occurrences := by
  have hopt (o : Option Fragment) : occurrencesOpt o = o.toList.flatMap occurrences := by
    cases o <;> simp [occurrencesOpt]
  cases f with
  | var name type => exact absurd rfl (hvar name type)
  | node => rw [occurrences, occurrencesAll_eq_flatMap, children]
  | ordered => rw [occurrences, occurrencesAll_eq_flatMap, children]
  | unordered =>
    rw [occurrences, occurrencesAll_eq_flatMap, hopt, hopt, children, List.flatMap_append,
      List.flatMap_append]
  | _ => simp [occurrences, children]

/-- A composite fragment is no variable. -/
theorem ne_var_of_isComposite (h : f.isComposite = true) (name : String) (type : ParamType) :
    f ≠ var name type := by
  rintro rfl
  cases h

/-- The children of a well-formed fragment are well-formed. -/
theorem WellFormed.children (h : f.WellFormed) : ∀ g ∈ f.children, g.WellFormed := by
  cases h with
  | unordered haccess hfixed hrest =>
    simp only [Fragment.children, List.mem_append, Option.mem_toList]
    intro g hg
    rcases hg with (hg | hg) | hg
    · exact haccess g hg
    · exact hfixed g hg
    · exact hrest g hg
  | node hcount hslots => exact hslots
  | ordered hitems => exact hitems
  | fieldAccess hreceiver hfield => simp [Fragment.children, hreceiver, hfield]
  | fieldAssign htarget hvalue => simp [Fragment.children, htarget, hvalue]
  | _ => simp [Fragment.children]

/-- Induction in which all fragments with parts in a fixed order are one case. -/
theorem induction_composite {P : Fragment → Prop}
    (composite : ∀ f, f.isComposite = true → (∀ g ∈ f.children, P g) → P f)
    (unordered : ∀ access fixed rest, (∀ f ∈ access, P f) → (∀ f ∈ fixed, P f) →
      (∀ f ∈ rest, P f) → P (unordered access fixed rest))
    (resolved : ∀ e, P (resolved e)) (var : ∀ name type, P (var name type)) (wildcard : P wildcard)
    (empty : P empty) (f : Fragment) : P f := by
  induction f using Fragment.induction with
  | node tag slots ih => exact composite _ rfl ih
  | ordered items ih => exact composite _ rfl ih
  | fieldAccess receiver field asTarget ihr ihf => exact composite _ rfl (by simp [children, ihr, ihf])
  | fieldAssign target value iht ihv => exact composite _ rfl (by simp [children, iht, ihv])
  | unordered access fixed rest iha ihf ihr => exact unordered access fixed rest iha ihf ihr
  | resolved e => exact resolved e
  | var name type => exact var name type
  | wildcard => exact wildcard
  | empty => exact empty

/-! ### Taking an entity apart -/

/-- A node is seen with as many slots as its tag has. -/
theorem length_callSlots (s : Surroundings) (n : Node) (slots : List Fragment) :
    (callSlots s n slots).length = n.tag.slotCount := by
  rw [Node.tag, ← NodeKind.length_slots]
  unfold callSlots
  split
  · rename_i hslots
    rw [hslots, List.length_cons, List.length_cons]
  · rfl

/-- There is a part for each child. -/
theorem length_partsOf? (hwf : f.WellFormed) (h : f.partsOf? s e = some es) :
    f.children.length = es.length := by
  cases hwf with
  -- `this` has no parts, other nodes have as many as they have slots
  | node hcount hslots =>
    obtain ⟨n, -, h⟩ := Option.bind_eq_some_iff.1 h
    rw [children, hcount]
    split at h
    · obtain rfl := Option.some.inj h
      rfl
    · split at h
      · rename_i htag
        obtain rfl := Option.some.inj h
        rw [length_callSlots, htag]
      · cases h
  | ordered =>
    obtain ⟨values, -, h⟩ := Option.bind_eq_some_iff.1 h
    split at h
    · rename_i hlength
      obtain rfl := Option.some.inj h
      exact hlength.symm
    · cases h
  -- receiver and field, or target and value, are two parts
  | fieldAccess =>
    obtain ⟨n, -, h⟩ := Option.bind_eq_some_iff.1 h
    split at h
    · cases h
    · obtain ⟨x, -, rfl⟩ := Option.map_eq_some_iff.1 h
      rfl
  | fieldAssign =>
    rw [partsOf?] at h
    split at h
    · obtain rfl := Option.some.inj h
      rfl
    · cases h
  | _ => cases h

/-- Only the receiver of a call depends on the fragments for the slots. -/
theorem tail_callSlots (s : Surroundings) (n : Node) (slots : List Fragment) :
    (callSlots s n slots).tail = n.kind.slots.tail := by
  unfold callSlots
  split
  · rename_i hslots
    rw [hslots, List.tail_cons, List.tail_cons]
  · rfl

/-- The slots that are seen depend on whether the first fragment is for an absent part. -/
theorem callSlots_congr {slots slots' : List Fragment}
    (h : slots'.head?.map isEmpty = slots.head?.map isEmpty) (s : Surroundings) (n : Node) :
    callSlots s n slots' = callSlots s n slots := by
  cases slots with
  | nil =>
    cases slots' with
    | nil => rfl
    | cons f' slots' => cases h
  | cons f slots =>
    cases slots' with
    | nil => cases h
    | cons f' slots' =>
      have hempty : f'.isEmpty = f.isEmpty := Option.some.inj h
      unfold callSlots
      cases n.kind.slots with
      | nil => rfl
      | cons e values => cases e <;> simp only [hempty]

/-- Both fragments have parts in the same fixed order, and as many of them. -/
inductive SameForm : Fragment → Fragment → Prop
  | node (tag : Tag) {slots slots' : List Fragment} (hlength : slots'.length = slots.length) :
    SameForm (node tag slots) (node tag slots')
  | ordered {items items' : List Fragment} (hlength : items'.length = items.length) :
    SameForm (ordered items) (ordered items')
  | fieldAccess (receiver receiver' field field' : Fragment) (asTarget : Bool) :
    SameForm (fieldAccess receiver field asTarget) (fieldAccess receiver' field' asTarget)
  | fieldAssign (target target' value value' : Fragment) :
    SameForm (fieldAssign target value) (fieldAssign target' value')

namespace SameForm

/-- The first fragment has parts in a fixed order. -/
theorem isComposite_left (h : SameForm f g) : f.isComposite = true := by
  cases h <;> rfl

/-- The second fragment has parts in a fixed order. -/
theorem isComposite_right (h : SameForm f g) : g.isComposite = true := by
  cases h <;> rfl

/-- Fragments of the same form have as many children. -/
theorem length_children (h : SameForm f g) : g.children.length = f.children.length := by
  cases h with
  | node _ hlength => exact hlength
  | ordered hlength => exact hlength
  | fieldAccess => rfl
  | fieldAssign => rfl

/-- A fragment of the same form is well-formed when its children are. -/
theorem wellFormed (h : SameForm f g) (hf : f.WellFormed)
    (hg : ∀ x ∈ g.children, x.WellFormed) : g.WellFormed := by
  cases h with
  | node tag hlength =>
    cases hf with
    | node hcount _ => exact .node (hlength.trans hcount) hg
  | ordered hlength => exact .ordered hg
  | fieldAccess receiver receiver' field field' =>
    exact .fieldAccess (hg receiver' (by simp [children])) (hg field' (by simp [children]))
  | fieldAssign target target' value value' =>
    exact .fieldAssign (hg target' (by simp [children])) (hg value' (by simp [children]))

/-- Fragments of the same form take an entity apart alike, but for the receiver of a call. -/
theorem exists_partsOf? (h : SameForm f g) (hes : f.partsOf? s e = some es) : ∃ es',
    g.partsOf? s e = some es' ∧ es'.length = es.length ∧ es'.tail = es.tail := by
  cases h with
  -- fragments of the same form have as many slots, and the first slot of a call alone depends on the
  -- fragment in it
  | @node tag slots slots' hlength =>
    rw [partsOf?] at hes ⊢
    obtain ⟨n, hn, hes⟩ := Option.bind_eq_some_iff.1 hes
    rw [hn, Option.bind_some]
    split at hes
    · obtain rfl := Option.some.inj hes
      exact ⟨[], rfl, rfl, rfl⟩
    · split at hes
      · rename_i htag
        obtain rfl := Option.some.inj hes
        refine ⟨callSlots s n slots', if_pos htag, ?_, ?_⟩
        · rw [length_callSlots, length_callSlots]
        · rw [tail_callSlots, tail_callSlots]
      · cases hes
  | ordered hlength =>
    rw [partsOf?] at hes ⊢
    rw [hlength]
    exact ⟨es, hes, rfl, rfl⟩
  | fieldAccess => exact ⟨es, hes, rfl, rfl⟩
  | fieldAssign => exact ⟨es, hes, rfl, rfl⟩

/-- The receiver is the same too, unless only one of the fragments is for an absent receiver. -/
theorem partsOf?_eq (h : SameForm f g)
    (hempty : g.children.head?.map isEmpty = f.children.head?.map isEmpty) :
    g.partsOf? s e = f.partsOf? s e := by
  cases h with
  | @node tag slots slots' hlength =>
    have hslots (n : Node) : callSlots s n slots' = callSlots s n slots :=
      callSlots_congr hempty s n
    simp only [partsOf?, hslots]
  | ordered hlength => rw [partsOf?, partsOf?, hlength]
  | fieldAccess => rfl
  | fieldAssign => rfl

end SameForm

/-- Two parts that are joined one after the other are joined like several parts. -/
private theorem recognizeAll_pair (s : Surroundings) (f g : Fragment) (e e' : Entity)
    (b : Bindings) : recognizeAll s [f, g] [e, e'] b = (do
      match b.joinPart (← f.recognize s e) with
      | none => .ok none
      | some b => return b.joinPart (← g.recognize s e')) := by
  rw [recognizeAll]
  congr 1
  funext part
  cases b.joinPart part with
  | none => rfl
  | some b =>
    simp only [recognizeAll]
    congr 1
    funext part
    cases b.joinPart part <;> rfl

/-- A fragment with parts in a fixed order is recognized part by part. -/
theorem recognize_of_isComposite (hf : f.isComposite = true) (hwf : f.WellFormed) :
    f.recognize s e = match f.partsOf? s e with
      | none => .ok none
      | some es => recognizeAll s f.children es (.ofResult e) := by
  cases hwf with
  | @node tag slots hcount hslots =>
    simp only [recognize, hcount, ne_eq, not_true_eq_false, if_false, partsOf?]
    cases e.node? with
    | none => rfl
    -- a call without a written receiver is seen with one
    | some n =>
      simp only [Option.bind_some]
      split
      · -- `this` has no slots
        obtain rfl := List.length_eq_zero_iff.1 hcount
        simp_all [children, recognizeAll]
      · split <;> simp_all [children]
  | @ordered items hitems =>
    simp only [recognize, partsOf?]
    cases e.items? with
    | none => rfl
    | some values =>
      simp only [Option.bind_some]
      split <;> rfl
  -- two parts are recognized one after the other, like a list of two
  | fieldAccess hreceiver hfield =>
    simp only [recognize, partsOf?]
    cases e.node? with
    | none => rfl
    | some n =>
      simp only [Option.bind_some]
      split
      · rfl
      · cases fieldParts? s n with
        | none => rfl
        | some x => exact (recognizeAll_pair ..).symm
  | fieldAssign htarget hvalue =>
    simp only [recognize, partsOf?]
    cases e.node?.map Node.kind with
    | none => rfl
    | some k =>
      cases k with
      | assign left right => exact (recognizeAll_pair ..).symm
      | _ => rfl
  | _ => cases hf

/-! ### Joining what the children find -/

/-- What was recognized in order was recognized one by one and united. -/
private theorem exists_of_recognizeAll (hlength : fs.length = es.length)
    (h : recognizeAll s fs es b = .ok (some c)) :
    ∃ found, PairsFind s fs es found ∧ c.Unites (b :: found) := by
  induction fs generalizing es b with
  | nil =>
    obtain rfl := List.length_eq_zero_iff.1 hlength.symm
    obtain rfl := Option.some.inj (Except.ok.inj h)
    refine ⟨[], .nil, fun p hp => ?_, fun n e he => ⟨b, List.mem_cons_self .., he⟩⟩
    rw [List.mem_singleton.1 hp]
  | cons f fs ih =>
    cases es with
    | nil => cases hlength
    | cons e es =>
      rw [recognizeAll] at h
      obtain ⟨p, mid, hp, hmid, h⟩ := exists_of_join h
      obtain ⟨found, hfound, hc⟩ := ih (Nat.succ.inj hlength) h
      exact ⟨p :: found, .cons hp hfound, hc.trans (Bindings.unites_of_joinPart hmid)⟩

/-- What is recognized one by one and unifies is recognized in order. -/
private theorem PairsFind.exists_recognizeAll (h : PairsFind s fs es found)
    (hunify : (b :: found).Pairwise Bindings.Unifies) :
    ∃ c, recognizeAll s fs es b = .ok (some c) := by
  induction h generalizing b with
  | nil => exact ⟨b, rfl⟩
  | @cons f e p fs es found hp _ ih =>
    obtain ⟨mid, hmid⟩ := Bindings.exists_joinPart_iff.2
      ⟨p, rfl, List.rel_of_pairwise_cons hunify (List.mem_cons_self ..)⟩
    obtain ⟨c, hc⟩ := ih ((Bindings.unites_of_joinPart hmid).pairwise_cons hunify)
    refine ⟨c, ?_⟩
    simp only [recognizeAll, hp, bind, Except.bind, hmid, hc]

/-- An entity that is recognized has the parts, each child recognizes its part, and what the children
find is united. -/
theorem exists_parts (hf : f.isComposite = true) (hwf : f.WellFormed)
    (h : f.recognize s e = .ok (some c)) : ∃ es found, f.partsOf? s e = some es ∧
      PairsFind s f.children es found ∧ c.Unites found := by
  rw [recognize_of_isComposite hf hwf] at h
  split at h
  · cases h
  · rename_i es hes
    obtain ⟨found, hfound, hc⟩ := exists_of_recognizeAll (length_partsOf? hwf hes) h
    exact ⟨es, found, hes, hfound, hc.of_cons fun _ => rfl⟩

/-- An entity is recognized when the children recognize its parts and what they find unifies. -/
theorem exists_recognize_of_parts (hf : f.isComposite = true) (hwf : f.WellFormed)
    (hes : f.partsOf? s e = some es) (hfound : PairsFind s f.children es found)
    (hunify : found.Pairwise Bindings.Unifies) : ∃ c, f.recognize s e = .ok (some c) := by
  rw [recognize_of_isComposite hf hwf, hes]
  exact hfound.exists_recognizeAll (List.pairwise_cons.2
    ⟨fun _ _ => Bindings.unifies_of_find?_eq_none fun _ => rfl, hunify⟩)

/-- Fragments find one thing each. -/
theorem PairsFind.unique {found' : List Bindings} (h : PairsFind s fs es found)
    (h' : PairsFind s fs es found') : found = found' := by
  induction h generalizing found' with
  | nil =>
    cases h'
    rfl
  | cons hb _ ih =>
    cases h' with
    | cons hb' hrest =>
      rw [Option.some.inj (Except.ok.inj (hb.symm.trans hb')), ih hrest]

/-- What is known of each fragment and all that it finds is known of what several fragments find. -/
theorem PairsFind.forall₂ {R : Fragment → Bindings → Prop} (h : PairsFind s fs es found)
    (hR : ∀ f ∈ fs, ∀ e b, f.recognize s e = .ok (some b) → R f b) : List.Forall₂ R fs found := by
  induction h with
  | nil => exact .nil
  | @cons f e b fs es found hb _ ih =>
    refine .cons (hR f (List.mem_cons_self ..) e b hb) (ih fun g hg => ?_)
    exact hR g (List.mem_cons_of_mem _ hg)

end Fragment

end CodeRules
