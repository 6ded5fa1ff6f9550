import CodeRules.Fragment.Generate
import CodeRules.Proofs.Binding.Normal
import CodeRules.Proofs.Code.Slots
import CodeRules.Proofs.Program.Normal
import Mathlib.Data.List.Flatten

/-!
# What fragments generate

`Fragment.generated` says what a fragment generates, up to the numbers of made nodes: the normal form
of the new entity. It is defined without an arena, so equal bindings generate equal entities, whatever
was made before. `Fragment.computes_generate` shows that the generator agrees with it.
-/

namespace CodeRules

/-! ### Slots -/

/-- The slots of a kind in normal form are the normal forms of its slots. -/
theorem NodeKind.ofSlots_normal (base : UInt32) (tag : Tag) (slots : List Entity) :
    (ofSlots tag (slots.map (Entity.normal base))).toOption =
      (ofSlots tag slots).toOption.map (map (Node.normal base)) := by
  rw [Entity.normal_eq_relabel]
  exact (ofSlots_relabel (.normal base) tag slots).toOption_eq

namespace Entity

variable {base : UInt32}

/-- Whether an entity was written does not depend on numbers. -/
theorem isUnwritten_normal (e : Entity) : (e.normal base).isUnwritten = e.isUnwritten := by
  rw [normal_eq_relabel, isUnwritten_relabel]

/-- The normal form of a set is put together of those of its parts. -/
theorem ofSetParts_normal (parts : List Entity) :
    ofSetParts (parts.map (normal base)) = (ofSetParts parts).normal base := by
  rw [normal_eq_relabel, ofSetParts_relabel]

/-- The nodes of a set are those of its parts, in their order. -/
theorem nodes_ofSetParts_sublist (parts : List Entity) :
    (ofSetParts parts).nodes.Sublist (parts.flatMap nodes) := by
  rw [ofSetParts_eq]
  split
  · rw [nodes_ofModifiers]
    exact List.nil_sublist _
  · rw [nodes, nodesAll_eq_flatMap, List.flatMap_assoc]
    refine List.Sublist.flatMap_right _ fun e _ => ?_
    cases e with
    | list items => rw [setItems, nodes, nodesAll_eq_flatMap]
    | empty => exact List.nil_sublist _
    | _ => simp [setItems]

/-- A node of a set is a node of one of its parts. -/
theorem nodes_ofSetParts {parts : List Entity} {n : Node} (h : n ∈ (ofSetParts parts).nodes) :
    ∃ e ∈ parts, n ∈ e.nodes := List.mem_flatMap.1 ((nodes_ofSetParts_sublist parts).subset h)

end Entity

/-! ### The result of generating -/

namespace Fragment

section

variable (base : UInt32) (types : TypeOracle) (b : Bindings)

/-- What a variable contributes. -/
def generatedVar (name : String) (type : ParamType) : Option Entity :=
  match b.find? name with
  | none => none
  | some .empty => some .empty
  | some e => if type.accepts types e then some (e.remade base) else none

/-- The new node with the given slots. -/
def builtOf (tag : Tag) (slots : List Entity) : Option Entity :=
  (NodeKind.ofSlots tag slots).toOption.map fun kind => .node (Node.madeOf base kind)

/-- The new access to a field. -/
def generatedAccess (receiver field : Entity) : Option Entity :=
  match field with
  | .value (.name name) =>
    if receiver.isUnwritten then builtOf base .name [.name name]
    else builtOf base .fieldAccess [receiver, .name name]
  | _ => none

mutual

/-- What the fragment generates, when the variables stand for what `b` says. -/
def generated : Fragment → Option Entity
  | wildcard => none
  | empty => some .empty
  | resolved e => some (e.remade base)
  | var name type => generatedVar base types b name type
  | ordered items => do return .list (← generatedAll items)
  | unordered access fixed rest => do
    let first ← generatedOpt access
    let middle ← generatedAll fixed
    let last ← generatedOpt rest
    return .ofSetParts (first ++ middle ++ last)
  | node tag slots => do builtOf base tag (← generatedAll slots)
  | fieldAccess receiver field _ => do
    let owner ← generated receiver
    generatedAccess base owner (← generated field)
  | fieldAssign target value => do
    let left ← generated target
    let right ← generated value
    builtOf base .assign [left, right]

/-- What several fragments generate. -/
def generatedAll : List Fragment → Option (List Entity)
  | [] => some []
  | f :: fs => do return (← generated f) :: (← generatedAll fs)

/-- What a fragment generates, when it is there. -/
def generatedOpt : Option Fragment → Option (List Entity)
  | none => some []
  | some f => do return [← generated f]

end

end

end Fragment

namespace Generating

open Effect

variable {base : UInt32} {H : Prop}

/-- Copying computes the copy. -/
theorem computes_copy (e : Entity) : Computes Workshop.arena base H (copy e) (Entity.IsMade base)
    (Entity.normal base) (some (e.remade base)) := by
  intro w
  obtain ⟨hkept, hmade, hnormal⟩ := e.leaves_copy base w.arena
  exact ⟨hkept, fun _ hw => ⟨hmade hw, congrArg some hnormal.symm⟩⟩

/-- Building computes the new node, or fails where the slots do not fit. -/
theorem computes_build (tag : Tag) (slots : List Entity) (hslots : H → ∀ s ∈ slots, s.IsMade base) :
    Computes Workshop.arena base H (build tag slots) (Entity.IsMade base) (Entity.normal base)
      (Fragment.builtOf base tag (slots.map (Entity.normal base))) := by
  intro w
  rw [Fragment.builtOf, NodeKind.ofSlots_normal, build]
  -- the slots fit the kind for made entities if and only if they fit it for their normal forms
  split
  · rename_i kind hkind
    obtain ⟨hkept, hmade, hnormal⟩ := Node.leaves_make base (p := {}) rfl kind w.arena
    refine ⟨hkept, fun h hw => ⟨fun n hn => hmade hw (fun c hc m hm => ?_) n hn, ?_⟩⟩
    · obtain ⟨s, hs, hms⟩ := NodeKind.nodes_of_ofSlots hkind c hc m hm
      exact hslots h s hs m hms
    · rw [hkind]
      exact congrArg (fun n => some (Entity.node n)) hnormal.symm
  · rename_i hkind
    rw [hkind]
    exact ⟨.refl base w.arena, fun _ _ => rfl⟩
  · rename_i hkind
    rw [hkind]
    exact ⟨.refl base w.arena, fun _ _ => rfl⟩

end Generating

namespace Fragment

open Effect Generating

variable {base : UInt32} {p : Program} {b : Bindings} {H : Prop}

/-- A variable computes what it contributes. -/
private theorem computes_generateVar (hp : p.Below base) (name : String) (type : ParamType) :
    Computes Workshop.arena base (b.Uniform base) (generateVar p.types b name type) (Entity.IsMade base)
      (Entity.normal base) (generatedVar base p.types (b.normal base) name type) := by
  -- an entity is checked against the type, which depends on its normal form only
  have hbound (e : Entity) (he : b.find? name = some e) :
      Computes Workshop.arena base (b.Uniform base)
        (if type.accepts p.types e then copy e else throw (.typeMismatch name e type))
        (Entity.IsMade base) (Entity.normal base) (if type.accepts p.types (e.normal base) then
          some ((e.normal base).remade base) else none) := by
    have haccepts (hb : b.Uniform base) := hp.accepts_normal (hb.vars name e he) type
    rw [Entity.remade_normal]
    split
    · rename_i hyes
      refine (computes_copy e).congr fun hb => ?_
      rw [haccepts hb, if_pos hyes]
    · rename_i hno
      refine computes_throw fun hb => ?_
      rw [haccepts hb, if_neg hno]
  unfold generateVar generatedVar
  rw [Bindings.find?_normal]
  cases he : b.find? name with
  | none => exact computes_throw fun _ => rfl
  | some e =>
    have he := hbound e he
    cases e with
    | empty => exact computes_copy .empty
    | _ => exact he

/-- An access to a field is computed of its parts. -/
private theorem computes_generateAccess (owner field : Entity) (howner : H → owner.IsMade base) :
    Computes Workshop.arena base H (generateAccess owner field) (Entity.IsMade base) (Entity.normal base)
      (generatedAccess base (owner.normal base) (field.normal base)) := by
  have hname (s : String) : (Entity.name s).IsMade base := fun n hn => by cases hn
  unfold generateAccess generatedAccess
  cases field with
  | value v =>
    cases v with
    | name s =>
      simp only [Entity.normal, Entity.isUnwritten_normal]
      split
      · exact computes_build .name [.name s] fun h => by simpa using hname s
      · exact computes_build .fieldAccess [owner, .name s] fun h => by
          simpa using ⟨howner h, hname s⟩
    | _ => exact computes_throw fun _ => rfl
  | _ => exact computes_throw fun _ => rfl

/-- Several fragments compute what they generate, one after the other. -/
private theorem computes_generateAll {types : TypeOracle} {fs : List Fragment}
    (h : ∀ f ∈ fs, Computes Workshop.arena base H (f.generate types b) (Entity.IsMade base)
      (Entity.normal base) (f.generated base types (b.normal base))) :
    Computes Workshop.arena base H (generateAll types b fs) (fun es => ∀ e ∈ es, e.IsMade base)
      (List.map (Entity.normal base)) (generatedAll base types (b.normal base) fs) := by
  induction fs with
  | nil => exact computes_pure fun _ => ⟨fun e he => (by cases he), rfl⟩
  | cons f fs ih =>
    have hrest := ih fun g hg => h g (List.mem_cons_of_mem _ hg)
    rw [generateAll, generatedAll]
    apply computes_bind (h f (List.mem_cons_self ..))
    intro e
    apply computes_bind (hrest.given And.left)
    intro es
    exact computes_pure fun hes => ⟨by simpa using ⟨hes.1.2, hes.2⟩, rfl⟩

/-- A fragment that may be missing computes what it generates, or nothing. -/
private theorem computes_generateOpt {types : TypeOracle} {o : Option Fragment}
    (h : ∀ f ∈ o, Computes Workshop.arena base H (f.generate types b) (Entity.IsMade base)
      (Entity.normal base) (f.generated base types (b.normal base))) :
    Computes Workshop.arena base H (generateOpt types b o) (fun es => ∀ e ∈ es, e.IsMade base)
      (List.map (Entity.normal base)) (generatedOpt base types (b.normal base) o) := by
  cases o with
  | none => exact computes_pure fun _ => ⟨fun e he => (by cases he), rfl⟩
  | some f =>
    rw [generateOpt, generatedOpt]
    apply computes_bind (h f rfl)
    intro e
    exact computes_pure fun he => ⟨by simpa using he.2, rfl⟩

/-- Generating agrees with what the fragment generates up to the numbers of made nodes. -/
theorem computes_generate (hp : p.Below base) (f : Fragment) :
    Computes Workshop.arena base (b.Uniform base) (f.generate p.types b) (Entity.IsMade base)
      (Entity.normal base) (f.generated base p.types (b.normal base)) := by
  induction f using Fragment.induction with
  | wildcard => exact computes_throw fun _ => rfl
  | empty => exact computes_pure fun _ => ⟨fun n hn => (by cases hn), rfl⟩
  | resolved e => exact computes_copy e
  | var name type => exact computes_generateVar hp name type
  | ordered items ih =>
    rw [generate, generated]
    apply computes_bind (computes_generateAll ih)
    intro es
    rw [← Entity.normalAll_eq_map]
    refine computes_pure fun hes => ⟨fun n hn => ?_, rfl⟩
    rw [Entity.nodes, Entity.nodesAll_eq_flatMap] at hn
    obtain ⟨e, he, hn⟩ := List.mem_flatMap.1 hn
    exact hes.2 e he n hn
  -- a set makes its three groups of parts one after the other
  | unordered access fixed rest iha ihf ihr =>
    rw [generate, generated]
    apply computes_bind (computes_generateOpt iha)
    intro first
    apply computes_bind ((computes_generateAll ihf).given And.left)
    intro middle
    apply computes_bind ((computes_generateOpt ihr).given fun h => h.1.1)
    intro last
    rw [← List.map_append, ← List.map_append, Entity.ofSetParts_normal]
    refine computes_pure fun h => ⟨fun n hn => ?_, rfl⟩
    obtain ⟨⟨⟨_, hfirst⟩, hmiddle⟩, hlast⟩ := h
    -- a node of a set comes from one of its three groups of parts
    obtain ⟨e, he, hn⟩ := Entity.nodes_ofSetParts hn
    rcases List.mem_append.1 he with he | he
    · rcases List.mem_append.1 he with he | he
      · exact hfirst e he n hn
      · exact hmiddle e he n hn
    · exact hlast e he n hn
  | node tag slots ih =>
    rw [generate, generated]
    apply computes_bind (computes_generateAll ih)
    intro es
    exact computes_build tag es And.right
  | fieldAccess receiver field asTarget ihr ihf =>
    rw [generate, generated]
    apply computes_bind ihr
    intro owner
    apply computes_bind (ihf.given And.left)
    intro name
    exact computes_generateAccess owner name fun h => h.1.2
  | fieldAssign target value iht ihv =>
    rw [generate, generated]
    apply computes_bind iht
    intro left
    apply computes_bind (ihv.given And.left)
    intro right
    exact computes_build .assign [left, right] fun h => by simpa using ⟨h.1.2, h.2⟩

/-- Generating an entity extends uniform bindings to uniform bindings. -/
theorem computes_instantiate (hp : p.Below base) (f : Fragment) :
    Computes Workshop.arena base (b.Uniform base) (f.instantiate p.types b) (Bindings.Uniform base)
      (Bindings.normal base) ((f.generated base p.types (b.normal base)).map fun e =>
        { b.normal base with result := some e }) := by
  -- recording copies touches neither the variables nor the result
  have hrecord (l : List Replacement) (c : Bindings) :
      (l.foldl Bindings.record c).vars = c.vars ∧ (l.foldl Bindings.record c).result = c.result := by
    induction l generalizing c with
    | nil => exact ⟨rfl, rfl⟩
    | cons r l ih => exact ih (c.record r)
  intro w
  unfold instantiate
  rw [ends_bind, ends_get, ends_bind]
  have hgenerate := computes_generate (b := b) hp f w
  refine hgenerate.imp (fun e w' he => ?_) fun _ w' he =>
    ⟨he.1, fun hb hw => by rw [he.2 hb hw]; rfl⟩
  obtain ⟨hkept, he⟩ := he
  rw [ends_bind, ends_get, ends_pure]
  obtain ⟨hvars, hresult⟩ := hrecord (w'.copies.drop w.copies.length) { b with result := some e }
  refine ⟨hkept, fun hb hw => ?_⟩
  obtain ⟨hmade, hv⟩ := he hb hw
  -- the variables stay uniform, and the new result is made
  refine ⟨⟨fun name x hx => hb.vars name x ?_, fun x hx => ?_⟩, ?_⟩
  · rwa [Bindings.find?, hvars] at hx
  · rw [hresult] at hx
    obtain rfl := Option.some.inj hx
    exact .inr hmade
  · rw [hv, Option.map_some, Option.some.injEq]
    refine Bindings.ext ?_ ?_ rfl
    · exact (congrArg (Dict.mapValues (Entity.normal base)) hvars).symm
    · exact (congrArg (Option.map (Entity.normal base)) hresult).symm

/-! ### What is generated is made -/

/-- The nodes of a node that is built of made slots are made. -/
private theorem isMade_builtOf {tag : Tag} {slots : List Entity} {e : Entity}
    (hslots : ∀ s ∈ slots, s.IsMade base) (h : builtOf base tag slots = some e) : e.IsMade base := by
  obtain ⟨kind, hkind, rfl⟩ := Option.map_eq_some_iff.1 h
  refine Node.isMade_madeOf fun c hc m hm => ?_
  obtain ⟨s, hs, hms⟩ := NodeKind.nodes_of_ofSlots (Except.toOption_eq_some_iff.1 hkind) c hc m hm
  exact hslots s hs m hms

/-- What a variable contributes is made. -/
private theorem isMade_generatedVar {types : TypeOracle} {name : String} {type : ParamType}
    {e : Entity} (h : generatedVar base types b name type = some e) : e.IsMade base := by
  unfold generatedVar at h
  split at h
  · cases h
  · obtain rfl := Option.some.inj h
    exact fun n hn => by cases hn
  · split at h
    · obtain rfl := Option.some.inj h
      exact Entity.isMade_remade _
    · cases h

/-- An access to a field of made parts is made. -/
private theorem isMade_generatedAccess {owner field e : Entity} (howner : owner.IsMade base)
    (h : generatedAccess base owner field = some e) : e.IsMade base := by
  have hname (s : String) : (Entity.name s).IsMade base := fun n hn => by cases hn
  unfold generatedAccess at h
  split at h
  · split at h
    · exact isMade_builtOf (by simpa using hname _) h
    · exact isMade_builtOf (by simpa using ⟨howner, hname _⟩) h
  · cases h

/-- What several fragments generate is made. -/
private theorem isMade_generatedAll {types : TypeOracle} {fs : List Fragment} {es : List Entity}
    (h : ∀ f ∈ fs, ∀ e, f.generated base types b = some e → e.IsMade base)
    (hes : generatedAll base types b fs = some es) : ∀ e ∈ es, e.IsMade base := by
  induction fs generalizing es with
  | nil =>
    obtain rfl := Option.some.inj hes
    exact fun e he => by cases he
  | cons f fs ih =>
    obtain ⟨e, he, hes⟩ := Option.bind_eq_some_iff.1 hes
    obtain ⟨rest, hrest, hes⟩ := Option.bind_eq_some_iff.1 hes
    obtain rfl := Option.some.inj hes
    have htail := ih (fun g hg => h g (List.mem_cons_of_mem _ hg)) hrest
    simpa using ⟨h f (List.mem_cons_self ..) e he, htail⟩

/-- What a fragment that may be missing generates is made. -/
private theorem isMade_generatedOpt {types : TypeOracle} {o : Option Fragment} {es : List Entity}
    (h : ∀ f ∈ o, ∀ e, f.generated base types b = some e → e.IsMade base)
    (hes : generatedOpt base types b o = some es) : ∀ e ∈ es, e.IsMade base := by
  cases o with
  | none =>
    obtain rfl := Option.some.inj hes
    exact fun e he => by cases he
  | some f =>
    obtain ⟨e, he, hes⟩ := Option.bind_eq_some_iff.1 hes
    obtain rfl := Option.some.inj hes
    simpa using h f rfl e he

/-- All nodes of what a fragment generates are made. -/
theorem isMade_of_generated {types : TypeOracle} {f : Fragment} {e : Entity}
    (h : f.generated base types b = some e) : e.IsMade base := by
  induction f using Fragment.induction generalizing e with
  | wildcard => cases h
  | empty =>
    obtain rfl := Option.some.inj h
    exact fun n hn => by cases hn
  | resolved known =>
    obtain rfl := Option.some.inj h
    exact Entity.isMade_remade known
  | var name type => exact isMade_generatedVar h
  | ordered items ih =>
    rw [generated] at h
    obtain ⟨es, hes, h⟩ := Option.bind_eq_some_iff.1 h
    obtain rfl := Option.some.inj h
    have hmade := isMade_generatedAll (fun f hf e he => ih f hf he) hes
    intro n hn
    rw [Entity.nodes, Entity.nodesAll_eq_flatMap] at hn
    obtain ⟨x, hx, hn⟩ := List.mem_flatMap.1 hn
    exact hmade x hx n hn
  | unordered access fixed rest iha ihf ihr =>
    rw [generated] at h
    obtain ⟨first, hfirst, h⟩ := Option.bind_eq_some_iff.1 h
    obtain ⟨middle, hmiddle, h⟩ := Option.bind_eq_some_iff.1 h
    obtain ⟨last, hlast, h⟩ := Option.bind_eq_some_iff.1 h
    obtain rfl := Option.some.inj h
    intro n hn
    obtain ⟨x, hx, hn⟩ := Entity.nodes_ofSetParts hn
    -- an entity of the set comes from one of its three groups of parts
    rcases List.mem_append.1 hx with hx | hx
    · rcases List.mem_append.1 hx with hx | hx
      · exact isMade_generatedOpt (fun f hf e he => iha f hf he) hfirst x hx n hn
      · exact isMade_generatedAll (fun f hf e he => ihf f hf he) hmiddle x hx n hn
    · exact isMade_generatedOpt (fun f hf e he => ihr f hf he) hlast x hx n hn
  | node tag slots ih =>
    rw [generated] at h
    obtain ⟨es, hes, h⟩ := Option.bind_eq_some_iff.1 h
    exact isMade_builtOf (isMade_generatedAll (fun f hf e he => ih f hf he) hes) h
  | fieldAccess receiver field asTarget ihr ihf =>
    rw [generated] at h
    obtain ⟨owner, howner, h⟩ := Option.bind_eq_some_iff.1 h
    obtain ⟨name, hname, h⟩ := Option.bind_eq_some_iff.1 h
    exact isMade_generatedAccess (ihr howner) h
  | fieldAssign target value iht ihv =>
    rw [generated] at h
    obtain ⟨left, hleft, h⟩ := Option.bind_eq_some_iff.1 h
    obtain ⟨right, hright, h⟩ := Option.bind_eq_some_iff.1 h
    exact isMade_builtOf (by simpa using ⟨iht hleft, ihv hright⟩) h

end Fragment

end CodeRules
