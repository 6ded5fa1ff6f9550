import CodeRules.Proofs.Binding.Agreement
import CodeRules.Proofs.Fragment.Generated
import CodeRules.Proofs.List
import Mathlib.Combinatorics.Enumerative.DoubleCounting

/-!
# Variants of fragments

Fragments are variants when they differ in the names of variables and in the numbers of made nodes only.
Variants recognize the same entities and find the same for variables that are paired
(`Fragment.Variant.recognize`), and they generate the same (`Fragment.Variant.generated_eq`).
-/

namespace CodeRules

/-! ### Corresponding bindings -/

namespace Bindings

variable {N : Pairing} {V : String → Prop} {b b' c c' d : Bindings} {name name' : String}

/-- Nothing but paired variables is bound, and to the same. -/
structure Corresponds (N : Pairing) (b b' : Bindings) : Prop extends b.AgreeOn N b' where
  left : ∀ n e, b.find? n = some e → n ≠ wildcard ∧ N.domain n
  right : ∀ n e, b'.find? n = some e → n ≠ wildcard ∧ N.range n

namespace Corresponds

/-- Correspondence can be read backwards along the pairing. -/
theorem symm (h : b.Corresponds N b') : b'.Corresponds N.symm b := ⟨h.toAgreeOn.symm, h.right, h.left⟩

/-- Dropping the results keeps the correspondence. -/
theorem withoutResult (h : b.Corresponds N b') : b.withoutResult.Corresponds N b'.withoutResult :=
  ⟨h.toAgreeOn.withoutResult, h.left, h.right⟩

/-- Bindings without variables correspond when their results are the same. -/
theorem unbound (h : ∀ n, b.find? n = none) (h' : ∀ n, b'.find? n = none)
    (hresult : b.result = b'.result) : b.Corresponds N b' where
  vars n m _ := (h n).trans (h' m).symm
  result := hresult
  left n e he := by rw [h n] at he; cases he
  right n e he := by rw [h' n] at he; cases he

/-- Bindings of a result only correspond to themselves. -/
theorem ofResult (e : Entity) : (ofResult e).Corresponds N (ofResult e) :=
  unbound (fun _ => rfl) (fun _ => rfl) rfl

/-- Empty bindings correspond to themselves. -/
theorem empty : Corresponds N .empty .empty := unbound (fun _ => rfl) (fun _ => rfl) rfl

/-- If a variable can be bound, its partner can be bound to the same. -/
theorem bind? (hN : N.Proper) (h : b.Corresponds N b') (hname : N name name') {e : Entity}
    (hc : b.bind? name e = some c) : ∃ c', b'.bind? name' e = some c' ∧ c.Corresponds N c' := by
  obtain ⟨c', hc', hagree⟩ := h.toAgreeOn.bind? hN hname hc
  refine ⟨c', hc', hagree, fun n x hx => ?_, fun m x hx => ?_⟩
  · rw [find?_bind?_eq hc] at hx
    split at hx
    · rename_i hself
      obtain ⟨rfl, hne⟩ := hself
      exact ⟨hne, name', hname⟩
    · exact h.left n x hx
  · rw [find?_bind?_eq hc'] at hx
    split at hx
    · rename_i hself
      obtain ⟨rfl, hne⟩ := hself
      exact ⟨hne, name, hname⟩
    · exact h.right m x hx

/-- Paired variables can be bound or not at the same time. -/
theorem rel_bind? (hN : N.Proper) (h : b.Corresponds N b') (hname : N name name') (e : Entity) :
    Option.Rel (Corresponds N) (b.bind? name e) (b'.bind? name' e) :=
  Option.rel_of_exists (fun _ hc => h.bind? hN hname hc) fun _ hc' =>
    (h.symm.bind? hN.symm hname hc').imp fun _ hc => hc.1

/-- Binding paired variables to one entity keeps the correspondence. -/
theorem bind (hN : N.Proper) (h : b.Corresponds N b') (hname : N name name') (e : Entity) :
    (b.bind name e).Corresponds N (b'.bind name' e) := by
  have hrel := h.rel_bind? hN hname e
  rw [Bindings.bind, Bindings.bind]
  generalize b.bind? name e = o at hrel
  generalize b'.bind? name' e = o' at hrel
  cases hrel with
  | none => exact h
  | some hc => exact hc

/-- The variables of one side are told apart by their partners. -/
private theorem size_le (hN : N.Proper) (h : b.Corresponds N b') : b.size ≤ b'.size := by
  -- as many variables as different names, and every name has one partner
  have hcard (b : Bindings) : b.names.toFinset.card = b.size := by
    have hnodup : b.names.Nodup := Dict.nodup_keys b.vars
    rw [List.toFinset_card_of_nodup hnodup]
    exact List.length_map _
  have hmem {b : Bindings} {n : String} : n ∈ b.names.toFinset ↔ ∃ e, b.find? n = some e := by
    rw [List.mem_toFinset]
    exact Dict.isSome_find?_iff.symm.trans Option.isSome_iff_exists
  rw [← hcard, ← hcard]
  refine Finset.card_le_card_of_forall_subsingleton N (fun n hn => ?_) fun m _ => ?_
  · obtain ⟨e, he⟩ := hmem.1 hn
    obtain ⟨m, hm⟩ := (h.left n e he).2
    exact ⟨m, hmem.2 ⟨e, (h.vars n m hm).symm.trans he⟩, hm⟩
  · exact fun n hn k hk => hN.biUnique.1 hn.2 hk.2

/-- Corresponding bindings have as many variables. -/
theorem size_eq (hN : N.Proper) (h : b.Corresponds N b') : b.size = b'.size :=
  (size_le hN h).antisymm (size_le hN.symm h.symm)

/-- If one merge succeeds, the merge of the partners does. -/
private theorem exists_mergeInto {agree : Entity → Entity → Bool} (hb : b.Corresponds N b')
    (hc : c.Corresponds N c') (h : mergeInto? agree b c = some d) :
    ∃ d', mergeInto? agree b' c' = some d' ∧ d.Corresponds N d' := by
  obtain ⟨hresult, hagree⟩ := result_of_mergeInto? h
  have hmerge : ∃ d', mergeInto? agree b' c' = some d' := by
    refine exists_mergeInto? (fun m e e' he he' => ?_) fun e e' he he' => ?_
    · obtain ⟨n, hn⟩ := (hb.right m e he).2
      exact agree_of_mergeInto? h ((hb.vars n m hn).trans he) ((hc.vars n m hn).trans he')
    · exact hagree e e' (hb.result.trans he) (hc.result.trans he')
  obtain ⟨d', hd'⟩ := hmerge
  refine ⟨d', hd', ⟨fun n m hn => ?_, ?_⟩, fun n e he => ?_, fun m e he => ?_⟩
  · rw [find?_of_mergeInto? h, find?_of_mergeInto? hd', hb.vars n m hn, hc.vars n m hn]
  · rw [hresult, (result_of_mergeInto? hd').1, hb.result, hc.result]
  · rw [find?_of_mergeInto? h, Option.or_eq_some_iff] at he
    exact he.elim (hb.left n e) fun he => hc.left n e he.2
  · rw [find?_of_mergeInto? hd', Option.or_eq_some_iff] at he
    exact he.elim (hb.right m e) fun he => hc.right m e he.2

/-- Merges of corresponding bindings fail together and give corresponding bindings. -/
private theorem rel_mergeInto (agree : Entity → Entity → Bool) (hb : b.Corresponds N b')
    (hc : c.Corresponds N c') :
    Option.Rel (Corresponds N) (mergeInto? agree b c) (mergeInto? agree b' c') :=
  Option.rel_of_exists (fun _ hd => exists_mergeInto hb hc hd) fun _ hd' =>
    (exists_mergeInto hb.symm hc.symm hd').imp fun _ hd => hd.1

/-- The same bindings are merged into the other ones, since there are as many of them. -/
theorem rel_joinPart (hN : N.Proper) (hb : b.Corresponds N b') {part part' : Option Bindings}
    (hpart : Option.Rel (Corresponds N) part part') :
    Option.Rel (Corresponds N) (b.joinPart part) (b'.joinPart part') := by
  cases hpart with
  | none => exact .none
  | @some p p' hp =>
    have hp := hp.withoutResult
    show Option.Rel _ (b.unifyMerge? p.withoutResult) (b'.unifyMerge? p'.withoutResult)
    unfold unifyMerge? mergeWith?
    -- the smaller bindings are merged into the larger ones, so the sizes decide
    rw [hb.size_eq hN, hp.size_eq hN]
    split
    · exact rel_mergeInto _ hb hp
    · exact rel_mergeInto _ hp hb

end Corresponds

end Bindings

/-! ### Outcomes -/

/-- Either both fail to recognize, or corresponding bindings are found; or both are defects. -/
inductive Recognition.Alike (N : Pairing) : Recognition → Recognition → Prop
  | found {o o' : Option Bindings} (h : Option.Rel (Bindings.Corresponds N) o o') :
    Alike N (.ok o) (.ok o')
  | malformed (d d' : Defect) : Alike N (.error d) (.error d')

namespace Recognition.Alike

variable {N : Pairing} {x y : Recognition} {b b' : Bindings}

/-- Corresponding bindings are found alike. -/
theorem of_some (h : b.Corresponds N b') : Alike N (.ok (some b)) (.ok (some b')) := found (.some h)

/-- Failing is alike. -/
theorem of_none : Alike N (.ok none) (.ok none) := found .none

/-- After a part the next parts are recognized, unless the bindings disagree. -/
theorem thenPart (hN : N.Proper) (h : Alike N x y) (hb : b.Corresponds N b')
    {k k' : Bindings → Recognition} (hk : ∀ c c', c.Corresponds N c' → Alike N (k c) (k' c')) :
    Alike N
      (do match b.joinPart (← x) with
        | none => .ok none
        | some c => k c)
      (do match b'.joinPart (← y) with
        | none => .ok none
        | some c => k' c) := by
  -- both parts are malformed, or both are found and join alike
  cases h with
  | malformed d d' => exact malformed d d'
  | @found part part' hpart =>
    have hjoin := hb.rel_joinPart hN hpart
    show Alike N (match b.joinPart part with
        | none => .ok none
        | some c => k c)
      (match b'.joinPart part' with
        | none => .ok none
        | some c => k' c)
    generalize b.joinPart part = o at hjoin
    generalize b'.joinPart part' = o' at hjoin
    cases hjoin with
    | none => exact of_none
    | some hc => exact hk _ _ hc

/-- A part that was recognized is joined to what was found before. -/
theorem joinPart (hN : N.Proper) (h : Alike N x y) (hb : b.Corresponds N b') :
    Alike N (do return b.joinPart (← x)) (do return b'.joinPart (← y)) := by
  cases h with
  | malformed d d' => exact malformed d d'
  | found hpart => exact found (hb.rel_joinPart hN hpart)

/-- What comes after a success follows, and a failure stays. -/
theorem thenSome (h : Alike N x y) {k k' : Bindings → Recognition}
    (hk : ∀ c c', c.Corresponds N c' → Alike N (k c) (k' c')) :
    Alike N
      (do match ← x with
        | none => .ok none
        | some c => k c)
      (do match ← y with
        | none => .ok none
        | some c => k' c) := by
  cases h with
  | malformed d d' => exact malformed d d'
  | found hpart =>
    cases hpart with
    | none => exact of_none
    | some hc => exact hk _ _ hc

/-- The first success among attempts is found at the same place. -/
theorem firstSuccess {α : Type} {l : List α} {f f' : α → Recognition}
    (h : ∀ a ∈ l, Alike N (f a) (f' a)) :
    Alike N (CodeRules.firstSuccess f l) (CodeRules.firstSuccess f' l) := by
  induction l with
  | nil => exact of_none
  | cons a l ih =>
    have ih := ih fun c hc => h c (List.mem_cons_of_mem _ hc)
    have ha := h a (List.mem_cons_self ..)
    simp only [CodeRules.firstSuccess]
    generalize f a = x at ha ⊢
    generalize f' a = y at ha ⊢
    cases ha with
    | malformed d d' => exact malformed d d'
    | found ho =>
      cases ho with
      | none => exact ih
      | some hb => exact of_some hb

end Recognition.Alike

/-! ### Types -/

/-- The same type, but for the name of a relation. -/
inductive ParamType.Alike : ParamType → ParamType → Prop
  | refl (t : ParamType) : Alike t t
  | relation (name name' : String) (params : List Param) :
    Alike (.relation name params) (.relation name' params)

namespace ParamType.Alike

variable {t t' : ParamType}

/-- The name of a relation does not say what a type accepts. -/
theorem accepts_eq (h : t.Alike t') : t'.accepts = t.accepts := by
  cases h <;> rfl

/-- The name of a relation does not matter to the category. -/
theorem toCategory_eq (h : t.Alike t') : t'.toCategory = t.toCategory := by
  cases h <;> rfl

end ParamType.Alike

/-! ### Fragments -/

namespace Fragment

/-- Occurrences in a list of fragments are those in each of them. -/
theorem occurrencesAll_eq_flatMap (fs : List Fragment) :
    occurrencesAll fs = fs.flatMap occurrences := by
  induction fs with
  | nil => rfl
  | cons f fs ih => rw [occurrencesAll, ih, List.flatMap_cons]

/-- The same fragment with other names for its variables and other numbers for made nodes. -/
inductive Variant (base : UInt32) (N : Pairing) : Fragment → Fragment → Prop
  | node (tag : Tag) {slots slots' : List Fragment} (h : List.Forall₂ (Variant base N) slots slots') :
    Variant base N (.node tag slots) (.node tag slots')
  | ordered {items items' : List Fragment} (h : List.Forall₂ (Variant base N) items items') :
    Variant base N (.ordered items) (.ordered items')
  | unordered {access access' rest rest' : Option Fragment} {fixed fixed' : List Fragment}
    (haccess : Option.Rel (Variant base N) access access')
    (hfixed : List.Forall₂ (Variant base N) fixed fixed')
    (hrest : Option.Rel (Variant base N) rest rest') :
    Variant base N (.unordered access fixed rest) (.unordered access' fixed' rest')
  | resolved {e e' : Entity} (h : e'.normal base = e.normal base) :
    Variant base N (.resolved e) (.resolved e')
  | var {name name' : String} {type type' : ParamType} (hname : N name name')
    (htype : type.Alike type') : Variant base N (.var name type) (.var name' type')
  | wildcard : Variant base N .wildcard .wildcard
  | empty : Variant base N .empty .empty
  | fieldAccess {receiver receiver' field field' : Fragment} (asTarget : Bool)
    (hreceiver : Variant base N receiver receiver') (hfield : Variant base N field field') :
    Variant base N (.fieldAccess receiver field asTarget) (.fieldAccess receiver' field' asTarget)
  | fieldAssign {target target' value value' : Fragment} (htarget : Variant base N target target')
    (hvalue : Variant base N value value') :
    Variant base N (.fieldAssign target value) (.fieldAssign target' value')

namespace Variant

variable {base : UInt32} {N : Pairing} {V : String → Prop} {f f' : Fragment} {fs fs' : List Fragment}

/-- Variants have occurrences of paired variables. -/
theorem forall₂_occurrences (h : Variant base N f f') :
    List.Forall₂ N f.occurrences f'.occurrences := by
  -- the fragments in a list or an option are variants one by one
  have hall {l l' : List Fragment}
      (ih : ∀ f ∈ l, ∀ {f'}, Variant base N f f' → List.Forall₂ N f.occurrences f'.occurrences)
      (h : List.Forall₂ (Variant base N) l l') :
      List.Forall₂ N (occurrencesAll l) (occurrencesAll l') := by
    induction h with
    | nil => exact .nil
    | cons h _ ihl =>
      exact List.rel_append (ih _ (List.mem_cons_self ..) h)
        (ihl fun f hf => ih f (List.mem_cons_of_mem _ hf))
  have hopt {o o' : Option Fragment}
      (ih : ∀ f ∈ o, ∀ {f'}, Variant base N f f' → List.Forall₂ N f.occurrences f'.occurrences)
      (h : Option.Rel (Variant base N) o o') :
      List.Forall₂ N (occurrencesOpt o) (occurrencesOpt o') := by
    cases h with
    | none => exact .nil
    | some h => exact ih _ rfl h
  induction f using Fragment.induction generalizing f' with
  | node tag slots ih => cases h with | node _ h => exact hall ih h
  | ordered items ih => cases h with | ordered h => exact hall ih h
  -- a set mentions the names of its access specifier first, then of its fixed parts and of its rest
  | unordered access fixed rest iha ihf ihr =>
    cases h with
    | unordered ha hf hr =>
      exact List.rel_append (List.rel_append (hopt iha ha) (hall ihf hf)) (hopt ihr hr)
  | resolved e => cases h with | resolved => exact .nil
  | var name type => cases h with | var hname => exact .cons hname .nil
  | wildcard => cases h with | wildcard => exact .nil
  | empty => cases h with | empty => exact .nil
  | fieldAccess receiver field asTarget ihr ihf =>
    cases h with | fieldAccess _ hr hf => exact List.rel_append (ihr hr) (ihf hf)
  | fieldAssign target value iht ihv =>
    cases h with | fieldAssign ht hv => exact List.rel_append (iht ht) (ihv hv)

/-- A fragment is a variant of itself. -/
theorem refl (h : ∀ n ∈ f.occurrences, V n) : Variant base (Pairing.identity V) f f := by
  -- the names in a list or an option are names of one of its fragments
  have hall {l : List Fragment}
      (ih : ∀ f ∈ l, (∀ n ∈ f.occurrences, V n) → Variant base (Pairing.identity V) f f)
      (h : ∀ n ∈ occurrencesAll l, V n) : List.Forall₂ (Variant base (Pairing.identity V)) l l := by
    rw [occurrencesAll_eq_flatMap] at h
    exact List.forall₂_same.2 fun f hf => ih f hf fun n hn => h n (List.mem_flatMap.2 ⟨f, hf, hn⟩)
  have hopt {o : Option Fragment}
      (ih : ∀ f ∈ o, (∀ n ∈ f.occurrences, V n) → Variant base (Pairing.identity V) f f)
      (h : ∀ n ∈ occurrencesOpt o, V n) : Option.Rel (Variant base (Pairing.identity V)) o o := by
    cases o with
    | none => exact .none
    | some f => exact .some (ih f rfl h)
  induction f using Fragment.induction with
  | node tag slots ih => exact .node tag (hall ih h)
  | ordered items ih => exact .ordered (hall ih h)
  | unordered access fixed rest iha ihf ihr =>
    simp only [occurrences, List.mem_append] at h
    exact .unordered (hopt iha fun n hn => h n (.inl (.inl hn)))
      (hall ihf fun n hn => h n (.inl (.inr hn))) (hopt ihr fun n hn => h n (.inr hn))
  | resolved e => exact .resolved rfl
  | var name type => exact .var ⟨rfl, h name (List.mem_singleton_self name)⟩ (.refl type)
  | wildcard => exact .wildcard
  | empty => exact .empty
  | fieldAccess receiver field asTarget ihr ihf =>
    exact .fieldAccess asTarget (ihr fun n hn => h n (List.mem_append_left _ hn))
      (ihf fun n hn => h n (List.mem_append_right _ hn))
  | fieldAssign target value iht ihv =>
    exact .fieldAssign (iht fun n hn => h n (List.mem_append_left _ hn))
      (ihv fun n hn => h n (List.mem_append_right _ hn))

/-- Variants are the absent fragment together. -/
theorem isEmpty_eq (h : Variant base N f f') : f'.isEmpty = f.isEmpty := by
  cases h <;> rfl

/-- Variants recognize nodes of the same tags. -/
theorem rootTags_eq (h : Variant base N f f') : f'.rootTags = f.rootTags := by
  cases h <;> rfl

end Variant

/-! ### Recognizing -/

open Recognition (Alike)

variable {base : UInt32} {N : Pairing} {s : Surroundings} {b b' : Bindings} {f f' : Fragment}
  {fs fs' : List Fragment}

/-- The fragments recognize the same in an entity. -/
private def RecognizesAlike (N : Pairing) (s : Surroundings) (f f' : Fragment) : Prop :=
  ∀ e, Alike N (f.recognize s e) (f'.recognize s e)

/-- Paired variables accept the same entities. -/
private theorem alike_recognizeVar (hN : N.Proper) {types : TypeOracle} {name name' : String}
    {type type' : ParamType} (hname : N name name') (htype : type.Alike type') (e : Entity) :
    Alike N (.ok (recognizeVar types name type e)) (.ok (recognizeVar types name' type' e)) := by
  unfold recognizeVar
  rw [htype.accepts_eq]
  split
  · exact .of_some (.bind hN (.ofResult e) hname e)
  · exact .of_none

/-- The rest of a modifier set is left to paired variables. -/
private theorem alike_recognizeRest (hN : N.Proper) {types : TypeOracle} {rest rest' : Option Fragment}
    (h : Option.Rel (Variant base N) rest rest') (left : List Entity) (hb : b.Corresponds N b') :
    Alike N (recognizeRest types rest left b) (recognizeRest types rest' left b') := by
  cases h with
  | none =>
    cases left with
    | nil => exact .of_some hb
    | cons e left => exact .of_none
  | some h =>
    cases h with
    | var hname htype =>
      match left with
      | [] => exact .found (hb.rel_bind? hN hname .empty)
      | [e] => exact (alike_recognizeVar hN hname htype e).joinPart hN hb
      | _ :: _ :: _ => exact .of_none
    | wildcard => exact .of_some hb
    | _ => exact .malformed _ _

/-- Parts are recognized one by one. -/
private theorem alike_recognizeAll (hN : N.Proper) (h : List.Forall₂ (RecognizesAlike N s) fs fs')
    (es : List Entity) (hb : b.Corresponds N b') :
    Alike N (recognizeAll s fs es b) (recognizeAll s fs' es b') := by
  induction h generalizing es b b' with
  | nil => simpa only [recognizeAll] using Alike.of_some hb
  | cons hf _ ih =>
    cases es with
    | nil => simpa only [recognizeAll] using Alike.of_some hb
    | cons e es =>
      simp only [recognizeAll]
      exact (hf e).thenPart hN hb fun c c' hc => ih es hc

/-- The access slot is recognized alike, also where there is no specifier. -/
private theorem alike_recognizeAccess (hN : N.Proper) {access access' : Option Fragment}
    (h : Option.Rel (fun f f' => Variant base N f f' ∧ RecognizesAlike N s f f') access access')
    (e : Entity) (hb : b.Corresponds N b') :
    Alike N (recognizeAccess s access e b) (recognizeAccess s access' e b') := by
  cases h with
  | none => exact .of_some hb
  | some h =>
    have hjoin := (h.2 e).joinPart hN hb
    cases h.1 with
    | var hname htype =>
      cases e with
      | empty => exact .found (hb.rel_joinPart hN (.some (.bind hN .empty hname .empty)))
      | _ => exact hjoin
    | _ => cases e <;> exact hjoin

/-- The searches in a modifier set go the same way. -/
private theorem alike_recognizeSet (hN : N.Proper) (h : List.Forall₂ (RecognizesAlike N s) fs fs')
    {rest rest' : Option Fragment} (hrest : Option.Rel (Variant base N) rest rest')
    (items : List Entity) (hb : b.Corresponds N b') :
    Alike N (recognizeSet s fs rest items b) (recognizeSet s fs' rest' items b') := by
  induction h generalizing items b b' with
  | nil =>
    simp only [recognizeSet]
    exact alike_recognizeRest hN hrest items hb
  | cons hf _ ih =>
    simp only [recognizeSet]
    -- both try the same items in the same order, so the first success is the same attempt
    refine Alike.firstSuccess fun x _ => ?_
    exact (hf x.1).thenPart hN hb fun c c' hc => ih x.2 hc

/-- Whether a receiver that was not written is looked for depends on a fragment being absent. -/
private theorem callSlots_eq (n : Node) (h : List.Forall₂ (Variant base N) fs fs') :
    callSlots s n fs' = callSlots s n fs := by
  cases h with
  | nil => rfl
  | cons hf _ =>
    unfold callSlots
    cases n.kind.slots with
    | nil => rfl
    | cons e values => cases e <;> first | rfl | simp only [hf.isEmpty_eq]

/-- Lists of items are recognized alike when the items are. -/
private theorem alike_ordered (hN : N.Proper) (h : List.Forall₂ (RecognizesAlike N s) fs fs') :
    RecognizesAlike N s (ordered fs) (ordered fs') := by
  intro e
  simp only [recognize, ← h.length_eq]
  cases e.items? with
  | none => exact .of_none
  | some values =>
    dsimp only
    split
    · exact alike_recognizeAll hN h values (.ofResult e)
    · exact .of_none

/-- Modifier sets are recognized alike when their parts are. -/
private theorem alike_unordered (hN : N.Proper) {access access' rest rest' : Option Fragment}
    (haccess : Option.Rel (fun f f' => Variant base N f f' ∧ RecognizesAlike N s f f') access access')
    (hfixed : List.Forall₂ (RecognizesAlike N s) fs fs') (hrest : Option.Rel (Variant base N) rest rest') :
    RecognizesAlike N s (unordered access fs rest) (unordered access' fs' rest') := by
  intro e
  simp only [recognize]
  cases e.items? with
  | none => exact .of_none
  | some items =>
    dsimp only
    split
    · exact .of_none
    · have hspecifier := alike_recognizeAccess hN haccess
        ((items.filter Entity.isAccessSpecifier).head?.getD .empty) (.ofResult (N := N) e)
      exact hspecifier.thenSome fun c c' hc => alike_recognizeSet hN hfixed hrest _ hc

/-- Nodes of one tag are recognized alike when their slots are. -/
private theorem alike_node (hN : N.Proper) (tag : Tag) (hslots : List.Forall₂ (Variant base N) fs fs')
    (h : List.Forall₂ (RecognizesAlike N s) fs fs') :
    RecognizesAlike N s (node tag fs) (node tag fs') := by
  intro e
  -- the receiver of a call is looked for by both or by neither
  have hparts (n : Node) := alike_recognizeAll (b := .ofResult e) hN h (callSlots s n fs) (.ofResult e)
  simp only [recognize, ← hslots.length_eq, callSlots_eq _ hslots]
  split
  · exact .malformed _ _
  · split
    · exact .of_none
    · split
      · exact .of_some (.ofResult e)
      · split
        · exact hparts _
        · exact .of_none

/-- Field accesses are recognized alike when their receivers and fields are. -/
private theorem alike_fieldAccess (hN : N.Proper) {receiver receiver' field field' : Fragment}
    (asTarget : Bool) (hreceiver : RecognizesAlike N s receiver receiver')
    (hfield : RecognizesAlike N s field field') :
    RecognizesAlike N s (fieldAccess receiver field asTarget) (fieldAccess receiver' field' asTarget) := by
  intro e
  simp only [recognize]
  split
  · exact .of_none
  · split
    · exact .of_none
    · split
      · exact .of_none
      · exact (hreceiver _).thenPart hN (.ofResult e) fun c c' hc => (hfield _).joinPart hN hc

/-- Assignments are recognized alike when their sides are. -/
private theorem alike_fieldAssign (hN : N.Proper) {target target' value value' : Fragment}
    (htarget : RecognizesAlike N s target target') (hvalue : RecognizesAlike N s value value') :
    RecognizesAlike N s (fieldAssign target value) (fieldAssign target' value') := by
  intro e
  simp only [recognize]
  split
  · exact (htarget _).thenPart hN (.ofResult e) fun c c' hc => (hvalue _).joinPart hN hc
  · exact .of_none

/-- Variants recognize alike, by induction on the first of them. -/
private theorem Variant.recognizesAlike (hN : N.Proper) (h : Variant base N f f') (s : Surroundings) :
    RecognizesAlike N s f f' := by
  have hall {l l' : List Fragment} (ih : ∀ f ∈ l, ∀ {f'}, Variant base N f f' → RecognizesAlike N s f f')
      (h : List.Forall₂ (Variant base N) l l') : List.Forall₂ (RecognizesAlike N s) l l' :=
    h.imp_of_mem fun f hf f' _ hff' => ih f hf hff'
  induction f using Fragment.induction generalizing f' with
  | wildcard =>
    cases h
    intro e
    simp only [Fragment.recognize]
    exact .of_some (.ofResult e)
  | var name type =>
    cases h with
    | var hname htype =>
      intro e
      simp only [Fragment.recognize]
      exact alike_recognizeVar hN hname htype e
  | resolved known =>
    cases h with
    | @resolved _ known' hnormal =>
      intro e
      -- known entities are compared by their shapes, in which nodes have no numbers
      have hshape : known'.sameShape e = known.sameShape e := by
        rw [Entity.sameShape, ← Entity.shape_normal base, hnormal, Entity.shape_normal,
          Entity.sameShape]
      simp only [Fragment.recognize, hshape]
      split
      · exact .of_some (.ofResult e)
      · exact .of_none
  | empty =>
    cases h
    intro e
    cases e with
    | empty => exact .of_some (.ofResult _)
    | _ => exact .of_none
  | ordered items ih => cases h with | ordered hitems => exact alike_ordered hN (hall ih hitems)
  | unordered access fixed rest iha ihf ihr =>
    cases h with
    | unordered haccess hfixed hrest =>
      refine alike_unordered hN ?_ (hall ihf hfixed) hrest
      cases haccess with
      | none => exact .none
      | some h => exact .some ⟨h, iha _ rfl h⟩
  | node tag slots ih => cases h with | node _ hslots => exact alike_node hN tag hslots (hall ih hslots)
  | fieldAccess receiver field asTarget ihr ihf =>
    cases h with
    | fieldAccess _ hreceiver hfield => exact alike_fieldAccess hN asTarget (ihr hreceiver) (ihf hfield)
  | fieldAssign target value iht ihv =>
    cases h with | fieldAssign htarget hvalue => exact alike_fieldAssign hN (iht htarget) (ihv hvalue)

/-- Variants recognize the same entities, and find the same for variables that are paired. -/
theorem Variant.recognize (hN : N.Proper) (h : Variant base N f f') (s : Surroundings) (e : Entity) :
    Alike N (f.recognize s e) (f'.recognize s e) := h.recognizesAlike hN s e

/-- A fragment binds only its own variables, and never the wildcard. -/
theorem within_occurrences {e : Entity} {n : String} {x : Entity}
    (h : f.recognize s e = .ok (some b)) (hx : b.find? n = some x) :
    n ≠ CodeRules.wildcard ∧ n ∈ f.occurrences := by
  have hself : Variant 0 (Pairing.identity (· ∈ f.occurrences)) f f := .refl fun _ hn => hn
  have halike := hself.recognize (Pairing.proper_identity _) s e
  rw [h] at halike
  cases halike with
  | found ho =>
    cases ho with
    | some hb =>
      have hleft := hb.left n x hx
      rwa [Pairing.domain_identity] at hleft

/-! ### Generating -/

section

variable {types : TypeOracle}

/-- Parts that generate the same make lists that do. -/
private theorem generatedAll_eq
    (h : List.Forall₂ (fun f f' => f'.generated base types b' = f.generated base types b) fs fs') :
    generatedAll base types b' fs' = generatedAll base types b fs := by
  induction h with
  | nil => rfl
  | cons hf _ ih => rw [generatedAll, generatedAll, hf, ih]

/-- An absent part generates nothing in both. -/
private theorem generatedOpt_eq {o o' : Option Fragment}
    (h : Option.Rel (fun f f' => f'.generated base types b' = f.generated base types b) o o') :
    generatedOpt base types b' o' = generatedOpt base types b o := by
  cases h with
  | none => rfl
  | some h => rw [generatedOpt, generatedOpt, h]

/-- Variants generate the same when their variables stand for the same. -/
theorem Variant.generated_eq (h : Variant base N f f') (hb : b.AgreeOn N b') :
    f'.generated base types b' = f.generated base types b := by
  -- lists and options of variants generate alike
  have hall {l l' : List Fragment} (ih : ∀ f ∈ l, ∀ {f'}, Variant base N f f' →
      f'.generated base types b' = f.generated base types b) (h : List.Forall₂ (Variant base N) l l') :
      generatedAll base types b' l' = generatedAll base types b l :=
    generatedAll_eq (h.imp_of_mem fun f hf f' _ hff' => ih f hf hff')
  have hopt {o o' : Option Fragment} (ih : ∀ f ∈ o, ∀ {f'}, Variant base N f f' →
      f'.generated base types b' = f.generated base types b) (h : Option.Rel (Variant base N) o o') :
      generatedOpt base types b' o' = generatedOpt base types b o := by
    refine generatedOpt_eq ?_
    cases h with
    | none => exact .none
    | some h => exact .some (ih _ rfl h)
  induction f using Fragment.induction generalizing f' with
  | wildcard =>
    cases h
    rfl
  | empty =>
    cases h
    rfl
  | resolved e =>
    cases h with
    | @resolved _ e' hnormal =>
      -- the copy of a known entity has new numbers
      have hremade : e'.remade base = e.remade base := by
        rw [← e'.remade_normal, hnormal, e.remade_normal]
      exact congrArg some hremade
  | var name type =>
    cases h with
    -- the variables are paired, so they stand for the same
    | @var _ name' _ type' hname htype =>
      simp only [generated, generatedVar, ← hb.vars name name' hname, htype.accepts_eq]
  | ordered items ih =>
    cases h with
    | ordered hitems => simp only [generated, hall ih hitems]
  | unordered access fixed rest iha ihf ihr =>
    cases h with
    | unordered haccess hfixed hrest =>
      simp only [generated, hopt iha haccess, hall ihf hfixed, hopt ihr hrest]
  | node tag slots ih =>
    cases h with
    | node _ hslots => simp only [generated, hall ih hslots]
  | fieldAccess receiver field asTarget ihr ihf =>
    cases h with
    | fieldAccess _ hreceiver hfield => simp only [generated, ihr hreceiver, ihf hfield]
  | fieldAssign target value iht ihv =>
    cases h with
    | fieldAssign htarget hvalue => simp only [generated, iht htarget, ihv hvalue]

end

end Fragment

end CodeRules
