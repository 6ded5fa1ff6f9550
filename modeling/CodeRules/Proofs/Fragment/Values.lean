import CodeRules.Fragment.Recognize
import CodeRules.Proofs.Binding.Agreement
import CodeRules.Proofs.Effect

/-!
# What variables of fragments stand for

A set of entities is closed under the parts of its entities, receivers that were never written
included, when recognizing cannot lead out of it (`Surroundings.Closes`): the variables of a fragment
that recognizes an entity of such a set stand for entities of the set
(`Fragment.valuesIn_of_recognize`). More is true of them when binding and merging keep it
(`Bindings.Gathers`, `Fragment.gathers_of_recognize`).
-/

namespace CodeRules

variable {D : Entity → Prop}

namespace Bindings

variable {b c d : Bindings} {name : String} {e : Entity}

/-- All variables stand for entities of a set. -/
def ValuesIn (D : Entity → Prop) (b : Bindings) : Prop := ∀ n e, b.find? n = some e → D e

/-- Empty bindings have no variables. -/
theorem valuesIn_empty : empty.ValuesIn D := fun _ _ h => by cases h

/-- The result is no variable. -/
theorem valuesIn_ofResult (e : Entity) : (ofResult e).ValuesIn D := fun _ _ h => by cases h

/-- Binding a variable to an entity of the set keeps all values in the set. -/
theorem ValuesIn.bind? (hb : b.ValuesIn D) (he : D e) (h : b.bind? name e = some c) :
    c.ValuesIn D := by
  intro n x hx
  rw [find?_bind?_eq h] at hx
  -- a variable other than `name` keeps its value
  split at hx
  · cases hfind : b.find? name with
    | none =>
      rw [hfind] at hx
      exact Option.some.inj hx ▸ he
    | some old =>
      rw [hfind] at hx
      exact Option.some.inj hx ▸ hb name old hfind
  · exact hb n x hx

/-- A variable that cannot be bound stays as it is. -/
theorem ValuesIn.bind (hb : b.ValuesIn D) (he : D e) (name : String) :
    (b.bind name e).ValuesIn D := by
  rw [Bindings.bind]
  cases hc : b.bind? name e with
  | none => exact hb
  | some c => exact hb.bind? he hc

/-- Fewer variables have fewer values. -/
theorem ValuesIn.erase (hb : b.ValuesIn D) (names : List String) : (b.erase names).ValuesIn D := by
  intro n e he
  rw [find?_erase] at he
  split at he
  · cases he
  · exact hb n e he

/-- Merged bindings have the values of both. -/
theorem ValuesIn.mergeWith? {agree : Entity → Entity → Bool} (hb : b.ValuesIn D)
    (hc : c.ValuesIn D) (h : b.mergeWith? agree c = some d) : d.ValuesIn D := by
  have hinto {b c : Bindings} (hb : b.ValuesIn D) (hc : c.ValuesIn D)
      (h : mergeInto? agree b c = some d) : d.ValuesIn D := fun n e he => by
    rw [find?_of_mergeInto? h, Option.or_eq_some_iff] at he
    exact he.elim (hb n e) fun he => hc n e he.2
  unfold Bindings.mergeWith? at h
  split at h
  · exact hinto hb hc h
  · exact hinto hc hb h

/-- Bindings that are put together from entities of a set by binding and merging satisfy `P`. -/
structure Gathers (D : Entity → Prop) (P : Bindings → Prop) : Prop where
  empty : P .empty
  ofResult : ∀ e, P (.ofResult e)
  withoutResult : ∀ {b}, P b → P b.withoutResult
  bind? : ∀ {b c name e}, P b → D e → b.bind? name e = some c → P c
  mergeWith? : ∀ {b c d agree}, P b → P c → b.mergeWith? agree c = some d → P d

/-- Putting bindings together from a set keeps their values in the set. -/
theorem gathers_valuesIn (D : Entity → Prop) : Gathers D (ValuesIn D) where
  empty := valuesIn_empty
  ofResult := valuesIn_ofResult
  withoutResult hb := hb
  bind? hb he h := hb.bind? he h
  mergeWith? hb hc h := hb.mergeWith? hc h

variable {P : Bindings → Prop}

/-- What binding that may fail keeps, binding that cannot fail keeps. -/
theorem Gathers.bind (hP : Gathers D P) (hb : P b) (he : D e) (name : String) : P (b.bind name e) := by
  rw [Bindings.bind]
  cases hc : b.bind? name e with
  | none => exact hb
  | some c => exact hP.bind? hb he hc

/-- Joining a part is a merge, so it is kept too. -/
theorem Gathers.joinPart (hP : Gathers D P) {part : Option Bindings} (hb : P b)
    (hpart : ∀ p ∈ part, P p) (h : b.joinPart part = some d) : P d := by
  obtain ⟨p, rfl, h⟩ := Option.bind_eq_some_iff.1 h
  exact hP.mergeWith? hb (hP.withoutResult (hpart p rfl)) h

end Bindings

/-! ### Outcomes -/

/-- What is found satisfies `P`. -/
def Recognition.Finds (P : Bindings → Prop) (x : Recognition) : Prop := ∀ b, x = .ok (some b) → P b

namespace Recognition.Finds

variable {P : Bindings → Prop} {x : Recognition} {b : Bindings}

/-- A success finds what it is. -/
theorem of_some (h : P b) : Finds P (.ok (some b)) := fun _ hc => Option.some.inj (Except.ok.inj hc) ▸ h

/-- A failure finds nothing. -/
theorem of_none : Finds P (.ok none) := fun _ hc => by cases hc

/-- An internal error finds nothing. -/
theorem of_error (d : Defect) : Finds P (.error d) := fun _ hc => by cases hc

/-- What comes after a success finds what it finds. -/
theorem thenSome {Q : Bindings → Prop} (h : Finds Q x) {k : Bindings → Recognition}
    (hk : ∀ c, Q c → Finds P (k c)) :
    Finds P (do match ← x with
      | none => .ok none
      | some c => k c) := by
  intro c hc
  obtain ⟨o, rfl, hc⟩ := Except.bind_eq_ok.1 hc
  cases o with
  | none => cases hc
  | some d => exact hk d (h d rfl) c hc

variable {Q : Bindings → Prop} (hQ : Bindings.Gathers D Q)
include hQ

/-- After a part the next parts are recognized, unless the bindings disagree. -/
theorem thenPart (h : Finds Q x) (hb : Q b)
    {k : Bindings → Recognition} (hk : ∀ c, Q c → Finds P (k c)) :
    Finds P (do match b.joinPart (← x) with
      | none => .ok none
      | some c => k c) := by
  intro c hc
  obtain ⟨part, hpart, hc⟩ := Except.bind_eq_ok.1 hc
  split at hc
  · cases hc
  · rename_i d hjoin
    exact hk d (hQ.joinPart hb (fun p hp => h p (hp ▸ hpart)) hjoin) c hc

/-- A part that was recognized is joined to what was found before. -/
theorem joinPart (h : Finds Q x) (hb : Q b) : Finds Q (do return b.joinPart (← x)) := by
  intro c hc
  obtain ⟨part, rfl, hc⟩ := Except.bind_eq_ok.1 hc
  exact hQ.joinPart hb (fun p hp => h p (hp ▸ rfl)) (Except.ok.inj hc)

omit hQ in
/-- The first success finds what its own attempt finds. -/
theorem firstSuccess {α : Type} {l : List α} {f : α → Recognition} (h : ∀ a ∈ l, Finds P (f a)) :
    Finds P (CodeRules.firstSuccess f l) := by
  induction l with
  | nil => exact of_none
  | cons a l ih =>
    intro c hc
    obtain ⟨o, ho, hc⟩ := Except.bind_eq_ok.1 hc
    cases o with
    | none => exact ih (fun b hb => h b (List.mem_cons_of_mem _ hb)) c hc
    | some d => exact Option.some.inj (Except.ok.inj hc) ▸ h a (List.mem_cons_self ..) d ho

end Recognition.Finds

/-! ### Taking lists and entities apart -/

/-- A selection splits a list into one of its items and the others. -/
theorem mem_of_mem_selections {α : Type} {l : List α} {x : α × List α} (h : x ∈ selections l) :
    x.1 ∈ l ∧ ∀ y ∈ x.2, y ∈ l := by
  induction l generalizing x with
  | nil => cases h
  | cons a l ih =>
    simp only [selections, List.mem_cons, List.mem_map] at h
    rcases h with rfl | ⟨y, hy, rfl⟩
    · exact ⟨List.mem_cons_self .., fun y hy => List.mem_cons_of_mem _ hy⟩
    · obtain ⟨hmem, hrest⟩ := ih hy
      refine ⟨List.mem_cons_of_mem _ hmem, fun z hz => ?_⟩
      rcases List.mem_cons.1 hz with rfl | hz
      · exact List.mem_cons_self ..
      · exact List.mem_cons_of_mem _ (hrest z hz)


/-- Recognizing entities of the set does not lead out of it. -/
structure Surroundings.Closes (s : Surroundings) (D : Entity → Prop) : Prop where
  empty : D .empty
  item : ∀ {items e}, D (.list items) → e ∈ items → D e
  slot : ∀ {n e}, D (.node n) → e ∈ n.kind.slots → D e
  receiver : ∀ {n}, D (.node n) → D (s.implicitReceiver n)

namespace Surroundings.Closes

variable {s : Surroundings} (hs : s.Closes D)
include hs

/-- The items of a list of the set are in the set. -/
theorem items? {e : Entity} (he : D e) {items : List Entity} (h : e.items? = some items) :
    ∀ x ∈ items, D x := by
  cases e with
  | list l => exact fun x hx => hs.item (Option.some.inj h ▸ he) hx
  | empty => exact fun x hx => absurd (Option.some.inj h ▸ hx) List.not_mem_nil
  | _ => cases h

/-- The slots of a call of the set are in the set, with the receiver that was not written. -/
theorem callSlots {n : Node} (hn : D (.node n)) (slots : List Fragment) :
    ∀ e ∈ Fragment.callSlots s n slots, D e := by
  unfold Fragment.callSlots
  split
  · rename_i f _ values hslots
    intro e he
    rcases List.mem_cons.1 he with rfl | he
    · split
      · exact hs.receiver hn
      · exact hs.empty
    · exact hs.slot hn (hslots ▸ List.mem_cons_of_mem _ he)
  · exact fun e he => hs.slot hn he

/-- The receiver and the field of an access of the set are in the set. -/
theorem fieldParts? {n : Node} (hn : D (.node n)) {parts : Entity × Entity}
    (h : Fragment.fieldParts? s n = some parts) : D parts.1 ∧ D parts.2 := by
  unfold Fragment.fieldParts? at h
  split at h
  · rename_i receiver name hkind
    obtain rfl := Option.some.inj h
    have hslots : n.kind.slots = [.node receiver, .name name] := by rw [hkind]; rfl
    exact ⟨hs.slot hn (hslots ▸ List.mem_cons_self ..),
      hs.slot hn (hslots ▸ List.mem_cons_of_mem _ (List.mem_cons_self ..))⟩
  · rename_i name hkind
    split at h
    · obtain rfl := Option.some.inj h
      have hslots : n.kind.slots = [.name name] := by rw [hkind]; rfl
      exact ⟨hs.receiver hn, hs.slot hn (hslots ▸ List.mem_cons_self ..)⟩
    · cases h
  · cases h

end Surroundings.Closes

namespace Fragment

open Recognition (Finds)

variable {s : Surroundings} {b : Bindings} {e : Entity} {fs : List Fragment} {P : Bindings → Prop}
  (hP : Bindings.Gathers D P)
include hP

/-- A variable that is recognized stands for the entity. -/
private theorem finds_recognizeVar {types : TypeOracle} {name : String} {type : ParamType}
    (he : D e) : Finds P (.ok (recognizeVar types name type e)) := by
  intro c hc
  have hc := Except.ok.inj hc
  unfold recognizeVar at hc
  split at hc
  · exact Option.some.inj hc ▸ hP.bind (hP.ofResult e) he name
  · cases hc

/-- The rest of a modifier set stands for a modifier that is left, or for nothing. -/
private theorem finds_recognizeRest {types : TypeOracle} {rest : Option Fragment}
    {left : List Entity} (hempty : D .empty) (hleft : ∀ e ∈ left, D e) (hb : P b) :
    Finds P (recognizeRest types rest left b) := by
  cases rest with
  | none =>
    cases left with
    | nil => exact .of_some hb
    | cons e left => exact .of_none
  | some f =>
    cases f with
    | var name type =>
      match left, hleft with
      | [], _ => exact fun c hc => hP.bind? hb hempty (Except.ok.inj hc)
      | [e], hleft => exact (finds_recognizeVar hP (hleft e (List.mem_singleton_self e))).joinPart hP hb
      | _ :: _ :: _, _ => exact .of_none
    | wildcard => exact .of_some hb
    | _ => exact .of_error _

omit hP in
/-- What the fragment finds in entities of the set satisfies `P`. -/
private def FindsOn (s : Surroundings) (D : Entity → Prop) (P : Bindings → Prop) (f : Fragment) : Prop :=
  ∀ e, D e → Finds P (f.recognize s e)

/-- Parts are recognized one by one, each in the set. -/
private theorem finds_recognizeAll (h : ∀ f ∈ fs, FindsOn s D P f) {es : List Entity}
    (hes : ∀ e ∈ es, D e) (hb : P b) : Finds P (recognizeAll s fs es b) := by
  induction fs generalizing es b with
  | nil => simpa only [recognizeAll] using Finds.of_some hb
  | cons f fs ih =>
    cases es with
    | nil => simpa only [recognizeAll] using Finds.of_some hb
    | cons e es =>
      rw [recognizeAll]
      refine (h f (List.mem_cons_self ..) e (hes e (List.mem_cons_self ..))).thenPart hP hb fun c hc => ?_
      exact ih (fun g hg => h g (List.mem_cons_of_mem _ hg))
        (fun x hx => hes x (List.mem_cons_of_mem _ hx)) hc

/-- The access slot finds an access specifier of the set, or binds its variable to nothing. -/
private theorem finds_recognizeAccess {access : Option Fragment} (h : ∀ f ∈ access, FindsOn s D P f)
    (he : D e) (hb : P b) : Finds P (recognizeAccess s access e b) := by
  cases access with
  | none => exact .of_some hb
  | some f =>
    have hjoin := (h f rfl e he).joinPart hP hb
    cases f with
    | var name type =>
      cases e with
      | empty =>
        -- nothing is bound whatever the type of the variable accepts
        refine fun c hc => hP.joinPart hb (fun p hp => ?_) (Except.ok.inj hc)
        exact Option.some.inj hp ▸ hP.bind hP.empty he name
      | _ => exact hjoin
    | _ => cases e <;> exact hjoin

/-- The search in a modifier set stays among its modifiers. -/
private theorem finds_recognizeSet (hempty : D .empty) (h : ∀ f ∈ fs, FindsOn s D P f)
    {rest : Option Fragment} {items : List Entity} (hitems : ∀ e ∈ items, D e) (hb : P b) :
    Finds P (recognizeSet s fs rest items b) := by
  induction fs generalizing items b with
  | nil =>
    rw [recognizeSet]
    exact finds_recognizeRest hP hempty hitems hb
  | cons f fs ih =>
    rw [recognizeSet]
    refine Finds.firstSuccess fun x hx => ?_
    obtain ⟨hmem, hothers⟩ := mem_of_mem_selections hx
    refine (h f (List.mem_cons_self ..) x.1 (hitems _ hmem)).thenPart hP hb fun c hc => ?_
    exact ih (fun g hg => h g (List.mem_cons_of_mem _ hg)) (fun y hy => hitems y (hothers y hy)) hc

/-- What a modifier set finds satisfies `P` when what its parts find does. -/
private theorem finds_unordered (hs : s.Closes D) {access rest : Option Fragment} {fixed : List Fragment}
    (haccess : ∀ f ∈ access, FindsOn s D P f) (hfixed : ∀ f ∈ fixed, FindsOn s D P f) :
    FindsOn s D P (unordered access fixed rest) := by
  intro e he
  rw [recognize]
  cases hitems : e.items? with
  | none => exact .of_none
  | some items =>
    have hin := hs.items? he hitems
    have hspecifier : D ((items.filter Entity.isAccessSpecifier).head?.getD .empty) := by
      -- a set without an access specifier has an empty one
      cases hhead : (items.filter Entity.isAccessSpecifier).head? with
      | none => exact hs.empty
      | some x => exact hin x (List.mem_of_mem_filter (List.mem_of_mem_head? hhead))
    dsimp only
    split
    · exact .of_none
    · refine (finds_recognizeAccess hP haccess hspecifier (hP.ofResult e)).thenSome fun c hc => ?_
      exact finds_recognizeSet hP hs.empty hfixed (fun x hx => hin x (List.mem_of_mem_filter hx)) hc

/-- What a node finds satisfies `P` when what its slots find does. -/
private theorem finds_node (hs : s.Closes D) (tag : Tag) {slots : List Fragment}
    (hslots : ∀ f ∈ slots, FindsOn s D P f) : FindsOn s D P (node tag slots) := by
  intro e he
  rw [recognize]
  split
  · exact .of_error _
  · cases e with
    | node n =>
      dsimp only [Entity.node?]
      split
      · -- a receiver that was not written binds nothing
        exact .of_some (hP.ofResult _)
      · split
        · exact finds_recognizeAll hP hslots (hs.callSlots he slots) (hP.ofResult _)
        · exact .of_none
    | _ => exact .of_none

/-- What a field access finds satisfies `P` when what its receiver and its field find does. -/
private theorem finds_fieldAccess (hs : s.Closes D) {receiver field : Fragment} (asTarget : Bool)
    (hreceiver : FindsOn s D P receiver) (hfield : FindsOn s D P field) :
    FindsOn s D P (fieldAccess receiver field asTarget) := by
  intro e he
  rw [recognize]
  cases e with
  | node n =>
    dsimp only [Entity.node?]
    split
    · exact .of_none
    · cases hparts : fieldParts? s n with
      | none => exact .of_none
      | some parts =>
        obtain ⟨howner, hname⟩ := hs.fieldParts? he hparts
        exact (hreceiver _ howner).thenPart hP (hP.ofResult _) fun c hc =>
          (hfield _ hname).joinPart hP hc
  | _ => exact .of_none

/-- What an assignment finds satisfies `P` when what its sides find does. -/
private theorem finds_fieldAssign (hs : s.Closes D) {target value : Fragment}
    (htarget : FindsOn s D P target) (hvalue : FindsOn s D P value) :
    FindsOn s D P (fieldAssign target value) := by
  intro e he
  rw [recognize]
  split
  · rename_i left right hkind
    obtain ⟨n, hn, hassign⟩ := Option.map_eq_some_iff.1 hkind
    cases e with
    | node m =>
      obtain rfl := Option.some.inj hn
      have hslots : m.kind.slots = [.node left, .node right] := by rw [hassign]; rfl
      have hleft := hs.slot he (hslots ▸ List.mem_cons_self ..)
      have hright := hs.slot he (hslots ▸ List.mem_cons_of_mem _ (List.mem_cons_self ..))
      exact (htarget _ hleft).thenPart hP (hP.ofResult _) fun c hc => (hvalue _ hright).joinPart hP hc
    | _ => cases hn
  · exact .of_none

/-- What any fragment finds satisfies `P`, by induction on the fragment. -/
private theorem findsOn (hs : s.Closes D) (f : Fragment) : FindsOn s D P f := by
  induction f using Fragment.induction with
  | wildcard =>
    intro e _
    rw [recognize]
    exact .of_some (hP.ofResult e)
  | var name type =>
    intro e he
    rw [recognize]
    exact finds_recognizeVar hP he
  -- what is spelled out is compared, which binds nothing
  | resolved known =>
    intro e _
    rw [recognize]
    split
    · exact .of_some (hP.ofResult e)
    · exact .of_none
  | empty =>
    intro e _
    cases e with
    | empty => exact .of_some (hP.ofResult _)
    | _ => exact .of_none
  | ordered items ih =>
    intro e he
    rw [recognize]
    cases hitems : e.items? with
    | none => exact .of_none
    | some values =>
      dsimp only
      split
      · exact finds_recognizeAll hP ih (hs.items? he hitems) (hP.ofResult e)
      · exact .of_none
  | unordered access fixed rest iha ihf _ => exact finds_unordered hP hs iha ihf
  | node tag slots ih => exact finds_node hP hs tag ih
  | fieldAccess receiver field asTarget ihr ihf => exact finds_fieldAccess hP hs asTarget ihr ihf
  | fieldAssign target value iht ihv => exact finds_fieldAssign hP hs iht ihv

/-- What a fragment finds in an entity of the set is put together from entities of the set. -/
theorem gathers_of_recognize (hs : s.Closes D) {f : Fragment} (he : D e)
    (h : f.recognize s e = .ok (some b)) : P b := findsOn hP hs f e he b h

omit hP in
/-- The variables of a fragment that recognizes an entity of the set stand for entities of the set. -/
theorem valuesIn_of_recognize (hs : s.Closes D) {f : Fragment} (he : D e)
    (h : f.recognize s e = .ok (some b)) : b.ValuesIn D :=
  gathers_of_recognize (Bindings.gathers_valuesIn D) hs he h

end Fragment

end CodeRules
