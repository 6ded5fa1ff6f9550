import CodeRules.Proofs.Binding.Relabel
import CodeRules.Proofs.Fragment.Values

/-!
# Recognizing entities with new numbers

Where surroundings tell of entities what they tell of the same entities with new numbers
(`Surroundings.Ignores`), a fragment recognizes an entity exactly when it recognizes the entity with
new numbers, and finds the same with new numbers (`Fragment.recognize_relabel`).
-/

namespace CodeRules

variable {ρ : Relabeling} {D : Entity → Prop}

/-- What surroundings tell of entities of a set, they tell of these entities with new numbers. -/
structure Surroundings.Ignores (s : Surroundings) (ρ : Relabeling) (D : Entity → Prop) : Prop where
  accepts (type : ParamType) {e : Entity} (he : D e) :
    type.accepts s.types (e.relabel ρ) = type.accepts s.types e
  receiver {n : Node} (hn : D (.node n)) :
    s.implicitReceiver (n.relabel ρ) = (s.implicitReceiver n).relabel ρ
  isAssignmentTarget {n : Node} (hn : D (.node n)) :
    s.isAssignmentTarget (n.relabel ρ).id = s.isAssignmentTarget n.id
  isFieldReference {n : Node} (hn : D (.node n)) :
    s.isFieldReference (n.relabel ρ).id = s.isFieldReference n.id

/-! ### Outcomes -/

/-- The second outcome is what the first is with new numbers. -/
abbrev Recognition.Follows (ρ : Relabeling) (x y : Recognition) : Prop :=
  Except.Follows id (Option.map (Bindings.relabel ρ)) x y

namespace Recognition.Follows

variable {x y : Recognition}

/-- Bindings are followed by the bindings with new numbers. -/
theorem of_some (b : Bindings) : Follows ρ (.ok (some b)) (.ok (some (b.relabel ρ))) := rfl

/-- A failure follows a failure. -/
theorem of_none : Follows ρ (.ok none) (.ok none) := rfl

/-- A defect follows the same defect. -/
theorem of_error (d : Defect) : Follows ρ (.error d) (.error d) := rfl

/-- A part that was recognized is joined to what was found before. -/
theorem joinPart (h : Follows ρ x y) (b : Bindings) :
    Follows ρ (do return b.joinPart (← x)) (do return (b.relabel ρ).joinPart (← y)) :=
  Except.follows_bind h fun part => congrArg Except.ok (b.relabel_joinPart ρ part).symm

/-- After a part the next parts are recognized, unless the bindings disagree. -/
theorem thenPart (h : Follows ρ x y) {b : Bindings} {k k' : Bindings → Recognition}
    (hk : ∀ c, Follows ρ (k c) (k' (c.relabel ρ))) :
    Follows ρ
      (do match b.joinPart (← x) with
        | none => .ok none
        | some c => k c)
      (do match (b.relabel ρ).joinPart (← y) with
        | none => .ok none
        | some c => k' c) := by
  refine Except.follows_bind h fun part => ?_
  rw [← b.relabel_joinPart]
  cases b.joinPart part with
  | none => exact of_none
  | some c => exact hk c

/-- What comes after a success follows, and a failure stays. -/
theorem thenSome (h : Follows ρ x y) {k k' : Bindings → Recognition}
    (hk : ∀ c, Follows ρ (k c) (k' (c.relabel ρ))) :
    Follows ρ
      (do match ← x with
        | none => .ok none
        | some c => k c)
      (do match ← y with
        | none => .ok none
        | some c => k' c) := by
  refine Except.follows_bind h fun found => ?_
  cases found with
  | none => exact of_none
  | some c => exact hk c

/-- The first success among attempts is found at the same place. -/
theorem firstSuccess {α β : Type} {l : List α} {g : α → β} {f : α → Recognition}
    {f' : β → Recognition} (h : ∀ a ∈ l, Follows ρ (f a) (f' (g a))) :
    Follows ρ (firstSuccess f l) (CodeRules.firstSuccess f' (l.map g)) := by
  induction l with
  | nil => exact of_none
  | cons a l ih =>
    simp only [CodeRules.firstSuccess, List.map_cons]
    refine Except.follows_bind (h a (List.mem_cons_self ..)) fun found => ?_
    cases found with
    | none => exact ih fun c hc => h c (List.mem_cons_of_mem _ hc)
    | some b => exact of_some b

end Recognition.Follows

/-- Selecting and renumbering can be exchanged. -/
theorem selections_map {α β : Type} (f : α → β) (l : List α) :
    selections (l.map f) = (selections l).map fun x => (f x.1, x.2.map f) := by
  induction l with
  | nil => rfl
  | cons a l ih =>
    simp only [List.map_cons, selections, ih, List.map_map]
    rfl

/-! ### Recognizing -/

namespace Fragment

open Recognition

variable {s : Surroundings}

/-- What a variable stands for. -/
private theorem follows_recognizeVar (hi : s.Ignores ρ D) (name : String) (type : ParamType)
    {e : Entity} (he : D e) : Recognition.Follows ρ (.ok (recognizeVar s.types name type e))
      (.ok (recognizeVar s.types name type (e.relabel ρ))) := by
  unfold recognizeVar
  rw [hi.accepts type he]
  split
  · rw [← Bindings.relabel_ofResult, ← Bindings.relabel_bind]
    exact Follows.of_some _
  · exact Follows.of_none

/-- What is left is taken with new numbers, or refused alike. -/
private theorem follows_recognizeRest (hi : s.Ignores ρ D) (rest : Option Fragment)
    {left : List Entity} (hleft : ∀ e ∈ left, D e) (b : Bindings) :
    Recognition.Follows ρ (recognizeRest s.types rest left b)
      (recognizeRest s.types rest (left.map (Entity.relabel ρ)) (b.relabel ρ)) := by
  cases rest with
  | none =>
    cases left with
    | nil => exact Follows.of_some _
    | cons e left => exact Follows.of_none
  | some f =>
    cases f with
    | wildcard => exact Follows.of_some _
    | var name type =>
      -- what one variable for the rest stands for depends on how many entities are left
      match left, hleft with
      | [], _ => exact congrArg Except.ok (b.relabel_bind? ρ name .empty).symm
      | [e], hleft =>
        exact (follows_recognizeVar hi name type (hleft e (List.mem_singleton_self e))).joinPart b
      | _ :: _ :: _, _ => exact Follows.of_none
    | _ => exact Follows.of_error _

/-- The slots that a fragment sees. -/
private theorem callSlots_relabel (hi : s.Ignores ρ D) {n : Node} (hn : D (.node n))
    (slots : List Fragment) : callSlots s (n.relabel ρ) slots =
      (callSlots s n slots).map (Entity.relabel ρ) := by
  unfold callSlots
  rw [Node.kind_relabel, NodeKind.slots_relabel]
  cases slots with
  | nil => rfl
  | cons f slots =>
    cases n.kind.slots with
    | nil => rfl
    | cons e values =>
      cases e with
      -- the receiver that a call is given has the same number after relabelling
      | empty =>
        simp only [List.map_cons, Entity.relabel, Node.tag_relabel]
        split
        · rw [hi.receiver hn]
        · rfl
      | _ => rfl

/-- The parts of a field that is read. -/
private theorem fieldParts?_relabel (hi : s.Ignores ρ D) {n : Node} (hn : D (.node n)) :
    fieldParts? s (n.relabel ρ) = (fieldParts? s n).map fun parts =>
      (parts.1.relabel ρ, parts.2.relabel ρ) := by
  unfold fieldParts?
  rw [Node.kind_relabel]
  cases n.kind with
  | fieldAccess receiver name => rfl
  | name name =>
    simp only [NodeKind.map, hi.isFieldReference hn]
    split
    · rw [hi.receiver hn]
      rfl
    · rfl
  | _ => rfl

/-- The fragment recognizes entities of the set as it recognizes them with new numbers. -/
private def FollowsOn (s : Surroundings) (ρ : Relabeling) (D : Entity → Prop) (f : Fragment) : Prop :=
  ∀ e, D e → Recognition.Follows ρ (f.recognize s e) (f.recognize s (e.relabel ρ))

section

variable {fs : List Fragment}

/-- Parts with new numbers are recognized one by one. -/
private theorem follows_recognizeAll (h : ∀ f ∈ fs, FollowsOn s ρ D f)
    {es : List Entity} (hes : ∀ e ∈ es, D e) (b : Bindings) :
    Recognition.Follows ρ (recognizeAll s fs es b)
      (recognizeAll s fs (es.map (Entity.relabel ρ)) (b.relabel ρ)) := by
  induction fs generalizing es b with
  | nil => simpa only [recognizeAll] using Follows.of_some b
  | cons f fs ih =>
    cases es with
    | nil => simpa only [recognizeAll, List.map_nil] using Follows.of_some b
    | cons e es =>
      have he := h f (List.mem_cons_self ..) e (hes e (List.mem_cons_self ..))
      simp only [recognizeAll, List.map_cons]
      exact he.thenPart fun c => ih (fun g hg => h g (List.mem_cons_of_mem _ hg))
        (fun x hx => hes x (List.mem_cons_of_mem _ hx)) c

/-- An access specifier, or its absence, is recognized alike. -/
private theorem follows_recognizeAccess {access : Option Fragment}
    (h : ∀ f ∈ access, FollowsOn s ρ D f) {e : Entity} (he : D e) (b : Bindings) :
    Recognition.Follows ρ (recognizeAccess s access e b)
      (recognizeAccess s access (e.relabel ρ) (b.relabel ρ)) := by
  cases access with
  | none => exact Follows.of_some _
  | some f =>
    have hjoin := (h f rfl e he).joinPart b
    cases f with
    | var name type =>
      cases e with
      | empty =>
        refine congrArg Except.ok ?_
        rw [b.relabel_joinPart, Option.map_some, Bindings.relabel_bind]
        rfl
      | _ => exact hjoin
    | _ => cases e <;> exact hjoin

/-- The search in a modifier set goes the same way with new numbers. -/
private theorem follows_recognizeSet (hi : s.Ignores ρ D) (h : ∀ f ∈ fs, FollowsOn s ρ D f)
    (rest : Option Fragment) {items : List Entity} (hitems : ∀ e ∈ items, D e) (b : Bindings) :
    Recognition.Follows ρ (recognizeSet s fs rest items b)
      (recognizeSet s fs rest (items.map (Entity.relabel ρ)) (b.relabel ρ)) := by
  induction fs generalizing items b with
  | nil =>
    simp only [recognizeSet]
    exact follows_recognizeRest hi rest hitems b
  | cons f fs ih =>
    simp only [recognizeSet, selections_map]
    refine Follows.firstSuccess fun x hx => ?_
    -- every item can be selected, so the selections stay in the set
    obtain ⟨hmem, hothers⟩ := mem_of_mem_selections hx
    refine (h f (List.mem_cons_self ..) x.1 (hitems _ hmem)).thenPart fun c => ?_
    exact ih (fun g hg => h g (List.mem_cons_of_mem _ hg)) (fun e he => hitems e (hothers e he)) c

end

/-- A modifier set is recognized alike when its parts are. -/
private theorem follows_unordered (hs : s.Closes D) (hi : s.Ignores ρ D)
    {access rest : Option Fragment} {fixed : List Fragment} (haccess : ∀ f ∈ access, FollowsOn s ρ D f)
    (hfixed : ∀ f ∈ fixed, FollowsOn s ρ D f) : FollowsOn s ρ D (unordered access fixed rest) := by
  intro e he
  simp only [recognize, Entity.items?_relabel]
  cases hitems : e.items? with
  | none => exact Follows.of_none
  | some items =>
    have hitems := hs.items? he hitems
    -- which items are access specifiers does not depend on numbers
    have hfilter (q : Entity → Bool) (hq : ∀ x, q (x.relabel ρ) = q x) :
        (items.map (Entity.relabel ρ)).filter q = (items.filter q).map (Entity.relabel ρ) := by
      rw [List.filter_map]
      exact congrArg (List.map _) (congrFun (congrArg List.filter (funext hq)) items)
    have hhead (l : List Entity) : (l.map (Entity.relabel ρ)).head?.getD .empty =
        (l.head?.getD .empty).relabel ρ := by
      cases l <;> rfl
    simp only [Option.map_some, hfilter _ (Entity.isAccessSpecifier_relabel ρ),
      hfilter (fun x => !x.isAccessSpecifier) fun x => by rw [Entity.isAccessSpecifier_relabel],
      List.length_map, hhead]
    split
    · exact Follows.of_none
    · -- the access specifier is taken out first, and what is left is matched in any order
      have hspecifier : D ((items.filter Entity.isAccessSpecifier).head?.getD .empty) := by
        cases hl : (items.filter Entity.isAccessSpecifier).head? with
        | none => exact hs.empty
        | some x => exact hitems x (List.mem_of_mem_filter (List.mem_of_mem_head? hl))
      refine (follows_recognizeAccess haccess hspecifier (.ofResult e)).thenSome fun c => ?_
      exact follows_recognizeSet hi hfixed rest (fun x hx => hitems x (List.mem_of_mem_filter hx)) c

/-- A node is recognized alike when its slots are. -/
private theorem follows_node (hs : s.Closes D) (hi : s.Ignores ρ D) (tag : Tag)
    {slots : List Fragment} (hslots : ∀ f ∈ slots, FollowsOn s ρ D f) :
    FollowsOn s ρ D (node tag slots) := by
  intro e he
  simp only [recognize]
  split
  · exact Follows.of_error _
  · cases e with
    | node n =>
      have hplain : Recognition.Follows ρ
          (if n.tag = tag then recognizeAll s slots (callSlots s n slots) (.ofResult (.node n))
          else .ok none)
          (if (n.relabel ρ).tag = tag then
            recognizeAll s slots (callSlots s (n.relabel ρ) slots) (.ofResult (.node (n.relabel ρ)))
          else .ok none) := by
        rw [Node.tag_relabel, callSlots_relabel hi he]
        split
        · exact follows_recognizeAll hslots (hs.callSlots he slots) (.ofResult (.node n))
        · exact Follows.of_none
      simp only [Entity.relabel, Entity.node?, Node.kind_relabel]
      -- `this` also stands for a receiver that was not written
      cases tag with
      | this =>
        cases n.kind with
        | implicitReceiver t isStatic =>
          cases isStatic with
          | true => exact hplain
          | false => exact Follows.of_some _
        | _ => exact hplain
      | _ => exact hplain
    | _ => exact Follows.of_none

/-- An access to a field is recognized alike when its parts are. -/
private theorem follows_fieldAccess (hs : s.Closes D) (hi : s.Ignores ρ D) {receiver field : Fragment}
    (asTarget : Bool) (hreceiver : FollowsOn s ρ D receiver) (hfield : FollowsOn s ρ D field) :
    FollowsOn s ρ D (fieldAccess receiver field asTarget) := by
  intro e he
  simp only [recognize]
  cases e with
  | node n =>
    simp only [Entity.relabel, Entity.node?, hi.isAssignmentTarget he]
    split
    · exact Follows.of_none
    · rw [fieldParts?_relabel hi he]
      cases hparts : fieldParts? s n with
      | none => exact Follows.of_none
      | some parts =>
        obtain ⟨howner, hname⟩ := hs.fieldParts? he hparts
        exact (hreceiver _ howner).thenPart fun c => (hfield _ hname).joinPart c
  | _ => exact Follows.of_none

/-- An assignment to a field is recognized alike when its sides are. -/
private theorem follows_fieldAssign (hs : s.Closes D) {target value : Fragment}
    (htarget : FollowsOn s ρ D target) (hvalue : FollowsOn s ρ D value) :
    FollowsOn s ρ D (fieldAssign target value) := by
  intro e he
  simp only [recognize]
  cases e with
  | node n =>
    simp only [Entity.relabel, Entity.node?, Option.map_some, Node.kind_relabel]
    cases hkind : n.kind with
    | assign left right =>
      have hslots : n.kind.slots = [.node left, .node right] := by rw [hkind]; rfl
      have hleft := hs.slot he (hslots ▸ List.mem_cons_self ..)
      have hright := hs.slot he (hslots ▸ List.mem_cons_of_mem _ (List.mem_cons_self ..))
      exact (htarget _ hleft).thenPart fun c => (hvalue _ hright).joinPart c
    | _ => exact Follows.of_none
  | _ => exact Follows.of_none

/-- All fragments recognize alike, by induction on the fragment. -/
private theorem followsOn (hs : s.Closes D) (hi : s.Ignores ρ D) (f : Fragment) :
    FollowsOn s ρ D f := by
  induction f using Fragment.induction with
  | wildcard =>
    intro e _
    simp only [recognize]
    exact Follows.of_some _
  | var name type =>
    intro e he
    simp only [recognize]
    exact follows_recognizeVar hi name type he
  -- shapes have no numbers, so comparing with what is known is not affected
  | resolved known =>
    intro e _
    have hshape : known.sameShape (e.relabel ρ) = known.sameShape e := by
      rw [Entity.sameShape, Entity.shape_relabel, Entity.sameShape]
    simp only [recognize, hshape]
    split
    · exact Follows.of_some _
    · exact Follows.of_none
  | empty =>
    intro e _
    cases e with
    | empty => exact Follows.of_some _
    | _ => exact Follows.of_none
  | ordered items ih =>
    intro e he
    simp only [recognize, Entity.items?_relabel]
    cases hitems : e.items? with
    | none => exact Follows.of_none
    | some values =>
      simp only [Option.map_some, List.length_map]
      split
      · exact follows_recognizeAll ih (hs.items? he hitems) _
      · exact Follows.of_none
  | unordered access fixed rest iha ihf => exact follows_unordered hs hi iha ihf
  | node tag slots ih => exact follows_node hs hi tag ih
  | fieldAccess receiver field asTarget ihr ihf => exact follows_fieldAccess hs hi asTarget ihr ihf
  | fieldAssign target value iht ihv => exact follows_fieldAssign hs iht ihv

/-- Recognizing an entity with new numbers finds, with new numbers, what recognizing the entity
finds. -/
theorem recognize_relabel (hs : s.Closes D) (hi : s.Ignores ρ D) (f : Fragment) {e : Entity}
    (he : D e) : Recognition.Follows ρ (f.recognize s e) (f.recognize s (e.relabel ρ)) :=
  followsOn hs hi f e he

end Fragment

end CodeRules
