import CodeRules.Proofs.Fragment.Found
import CodeRules.Proofs.List
import CodeRules.Proofs.Rule.Induction

/-!
# Generating undoes recognizing

A fragment that recognizes a tree and is then generated from the bindings that were found makes a
tree of the same shape (`Pattern.generates_recognized`). What the bindings say about a part of the
fragment is kept up to shapes when they are merged with those of other parts, so every part makes
something of the shape of what it recognized (`Fragment.remakes_of_recognize`).
-/

namespace CodeRules

open Effect

/-! ### Types see shapes -/

/-- A list is a modifier set when all its items are modifiers. -/
private theorem Category.ofEntity_list (items : List Entity) : ofEntity (.list items) =
    if items.all (·.modifier?.isSome) then modifierSet else list := by
  rw [ofEntity]
  congr 2
  refine congrArg items.all (funext fun e => ?_)
  cases e <;> rfl

/-- Entities of one shape belong to one category. -/
theorem Category.ofEntity_eq {e e' : Entity} (h : e'.shape = e.shape) : ofEntity e' = ofEntity e := by
  -- a node shows its category by its tag, which is part of the shape
  cases e with
  | node n =>
    obtain ⟨n', rfl, hn⟩ := Entity.exists_node_of_shape h
    rw [ofEntity, ofEntity, Node.tag, Node.tag, ← NodeKind.tag_map Node.shape, Node.map_shape_eq hn,
      NodeKind.tag_map]
  -- a list is a modifier set by its items, and whether an item is a modifier shows in its shape
  | list items =>
    obtain ⟨items', rfl, hitems⟩ := Entity.exists_list_of_shape h
    have hitem (a b : Entity) (hab : a.shape = b.shape) :
        a.modifier?.isSome = b.modifier?.isSome := by
      cases a <;> cases b <;> first | rfl | simp [Entity.shape] at hab
    have hmatch := List.forall₂_of_map_eq hitems (fun _ _ => trivial) fun _ _ => trivial
    have hmap := hmatch.map_eq fun a b hab => hitem a b hab.2.2
    have hall := congrArg (List.all · id) hmap
    rw [List.all_map, List.all_map] at hall
    rw [ofEntity_list, ofEntity_list]
    exact congrArg (fun b : Bool => if b then modifierSet else Category.list) hall
  -- all other entities are determined by their shapes
  | _ => rw [Entity.eq_of_shape h rfl fun _ hlist => by cases hlist]

/-- The answers of the oracle depend on shapes only. -/
def TypeOracle.SeesShapes (types : TypeOracle) : Prop :=
  ∀ e e' : Entity, e'.shape = e.shape → types.typeOf? e' = types.typeOf? e

/-- The type that an entity shows on its own depends on its shape only. -/
theorem TypeOracle.seesShapes_intrinsic : intrinsic.SeesShapes := by
  intro e e' h
  show e'.intrinsicType? = e.intrinsicType?
  cases e with
  | node n =>
    obtain ⟨n', rfl, hn⟩ := Entity.exists_node_of_shape h
    have hkind := Node.map_shape_eq hn
    unfold Entity.intrinsicType?
    cases hk : n.kind <;> cases hk' : n'.kind <;> rw [hk, hk'] at hkind <;>
      simp_all [NodeKind.map]
  | list items =>
    obtain ⟨items', rfl, _⟩ := Entity.exists_list_of_shape h
    rfl
  | _ => rw [Entity.eq_of_shape h rfl fun _ hlist => by cases hlist]

/-- A type accepts entities of one shape alike. -/
theorem ParamType.accepts_eq {types : TypeOracle} (htypes : types.SeesShapes) (type : ParamType)
    {e e' : Entity} (h : e'.shape = e.shape) : type.accepts types e' = type.accepts types e := by
  cases type <;> simp only [accepts, Category.accepts, Category.ofEntity_eq h, htypes e e' h]

/-! ### Modifier sets -/

/-- A set of modifiers, some of which are absent, is in canonical order. -/
theorem Entity.ofSetParts_eq_ofModifiers {parts : List Entity}
    (h : ∀ e ∈ parts, e = .empty ∨ ∃ m, e = .modifier m) :
    ofSetParts parts = .ofModifiers (Modifier.canonical (parts.filterMap modifier?)) := by
  -- the items of a part: none when it is absent, and a modifier is its own item
  have hitems (f : Entity → List Entity) (hempty : f .empty = [])
      (hmodifier : ∀ m, f (.modifier m) = [.modifier m]) :
      parts.flatMap f = (parts.filterMap modifier?).map .modifier := by
    induction parts with
    | nil => rfl
    | cons e parts ih =>
      rw [List.flatMap_cons, ih fun x hx => h x (List.mem_cons_of_mem _ hx)]
      rcases h e (List.mem_cons_self ..) with rfl | ⟨m, rfl⟩
      · rw [hempty]
        rfl
      · rw [hmodifier]
        rfl
  have hmapM (ms : List Modifier) : (ms.map Entity.modifier).mapM modifier? = some ms := by
    induction ms with
    | nil => rfl
    | cons m ms ih =>
      rw [List.map_cons, List.mapM_cons, ih]
      rfl
  unfold ofSetParts
  dsimp only
  rw [hitems, hmapM]
  · rfl
  · exact fun _ => rfl

/-- Canonical order forgets the order that was given. -/
theorem Modifier.canonical_eq_of_perm {ms ms' : List Modifier} (h : ms.Perm ms') :
    canonical ms = canonical ms' := by
  unfold canonical
  congr 1
  funext m
  rw [List.filter_beq, List.filter_beq, h.count_eq]

/-- A modifier set is put together again from its access specifier, the modifiers that were chosen,
and what was left or, when that is nothing, something absent. -/
theorem Entity.ofSetParts_of_perm {ms : List Modifier} (hms : Modifier.canonical ms = ms)
    {specifiers others chosen left last : List Entity}
    (hspecifiers : (ms.map modifier).filter isAccessSpecifier = specifiers)
    (hothers : (ms.map modifier).filter (!·.isAccessSpecifier) = others)
    (hlength : specifiers.length ≤ 1) (hperm : others.Perm (chosen ++ left))
    (hlast : last = left ∨ left = [] ∧ last = [.empty]) :
    ofSetParts ([specifiers.head?.getD .empty] ++ chosen ++ last) = .ofModifiers ms := by
  -- all parts together are the modifiers again, in some order
  have hall : (specifiers ++ (chosen ++ left)).Perm (ms.map modifier) :=
    (hperm.symm.append_left specifiers).trans
      (hspecifiers ▸ hothers ▸ List.filter_append_perm isAccessSpecifier _)
  have hmodifier (e : Entity) (he : e ∈ specifiers ++ (chosen ++ left)) : ∃ m, e = .modifier m := by
    obtain ⟨m, _, rfl⟩ := List.mem_map.1 (hall.mem_iff.1 he)
    exact ⟨m, rfl⟩
  -- what stands for the access specifier is the specifier, or is absent
  have hhead : [specifiers.head?.getD .empty].filterMap modifier? = specifiers.filterMap modifier? ∧
      (specifiers.head?.getD .empty = .empty ∨ specifiers.head?.getD .empty ∈ specifiers) := by
    match specifiers, hlength with
    | [], _ => exact ⟨rfl, .inl rfl⟩
    | [e], _ => exact ⟨rfl, .inr (List.mem_singleton_self e)⟩
  have htail : last.filterMap modifier? = left.filterMap modifier? ∧
      ∀ e ∈ last, e = .empty ∨ e ∈ left := by
    rcases hlast with rfl | ⟨rfl, rfl⟩
    · exact ⟨rfl, fun e he => .inr he⟩
    · exact ⟨rfl, fun e he => .inl (List.mem_singleton.1 he)⟩
  rw [ofSetParts_eq_ofModifiers]
  -- canonical order does not depend on the order in which the parts stand
  · have hitems : (ms.map modifier).filterMap modifier? = ms := by
      rw [List.filterMap_map]
      exact List.filterMap_some
    have hparts := hall.filterMap modifier?
    rw [hitems, List.filterMap_append, List.filterMap_append, ← hhead.1, ← htail.1,
      ← List.filterMap_append, ← List.filterMap_append, ← List.append_assoc] at hparts
    rw [Modifier.canonical_eq_of_perm hparts, hms]
  · intro e he
    simp only [List.mem_append, List.mem_singleton] at he hmodifier
    rcases he with (rfl | he) | he
    · exact hhead.2.imp_right fun h => hmodifier _ (.inl h)
    · exact .inr (hmodifier e (.inr (.inl he)))
    · exact (htail.2 e he).imp_right fun h => hmodifier e (.inr (.inr h))

/-! ### What is made -/

namespace Fragment

/-- With any arena the fragment makes something of the shape of `e`. -/
def Remakes (types : TypeOracle) (b : Bindings) (f : Fragment) (e : Entity) : Prop :=
  ∀ w, ∃ g w', Gives (f.generate types b) w g w' ∧ g.shape = e.shape

section

variable {types : TypeOracle} {b : Bindings}

/-- A copy of what has the shape of a tidy entity has this shape. -/
theorem gives_copy {e e' : Entity} (h : e.Tidy) (hshape : e'.shape = e.shape) (w : Workshop) :
    ∃ g w', Gives (Generating.copy e') w g w' ∧ g.shape = e.shape := by
  refine ⟨_, _, rfl, ?_⟩
  exact Entity.leaves_copy_shape h hshape w.arena

/-- A node is built from entities of the shapes of its slots. -/
theorem gives_build {n : Node} (hn : n.Tidy) {k : NodeKind Node} (hk : k.written = n.kind)
    {es : List Entity} (h : es.map Entity.shape = k.slots.map Entity.shape) (w : Workshop) :
    ∃ g w', Gives (Generating.build k.tag es) w g w' ∧ g.shape = (Entity.node n).shape := by
  obtain ⟨k', hk', hshape⟩ := NodeKind.exists_ofSlots h
  rw [hk] at hshape
  -- the modifiers are those of `n`, which stand in canonical order
  have hcanonical : k'.canonical = k' := by
    apply NodeKind.canonical_eq_self
    rw [← NodeKind.modifiers_map Node.shape, hshape, NodeKind.modifiers_map, hn.canonical]
  unfold Generating.build
  rw [hk']
  refine ⟨_, _, rfl, ?_⟩
  show (Entity.node ⟨_, _, k'.canonical⟩).shape = _
  rw [Entity.shape, Node.shape_eq, hcanonical, hshape, ← Node.shape_eq, Entity.shape]

/-- Several fragments make entities of the shapes of what they recognized. -/
theorem remakesAll {fs : List Fragment} {es : List Entity}
    (h : List.Forall₂ (Remakes types b) fs es) (w : Workshop) :
    ∃ gs w', Gives (generateAll types b fs) w gs w' ∧ gs.map Entity.shape = es.map Entity.shape := by
  induction h generalizing w with
  | nil => exact ⟨[], w, by simp [generateAll], rfl⟩
  | cons hf _ ih =>
    obtain ⟨g, w₁, hg, hshape⟩ := hf w
    obtain ⟨gs, w₂, hgs, hshapes⟩ := ih w₁
    refine ⟨g :: gs, w₂, ?_, by rw [List.map_cons, List.map_cons, hshape, hshapes]⟩
    simp only [generateAll, gives_bind, gives_pure]
    exact ⟨g, w₁, hg, gs, w₂, hgs, rfl, rfl⟩

/-- A variable makes a copy of what it stands for. -/
theorem remakes_var (htypes : types.SeesShapes) {name : String} {type : ParamType} {e e' : Entity}
    (he : e.Tidy) (hfind : b.find? name = some e') (hshape : e'.shape = e.shape)
    (haccepts : e = .empty ∨ type.accepts types e = true) : Remakes types b (var name type) e := by
  intro w
  rw [generate, generateVar, hfind]
  -- nothing was there: the variable stands for an absent entity
  rcases haccepts with rfl | haccepts
  · obtain rfl := Entity.shape_eq_empty.1 hshape
    exact gives_copy he rfl w
  · cases e' with
    | empty => exact gives_copy he hshape w
    | _ =>
      simp only [ParamType.accepts_eq htypes type hshape, haccepts, if_true]
      exact gives_copy he hshape w

end

section

variable {s : Surroundings} {b : Bindings}

/-- A variable that recognized an entity makes a copy of something of its shape. -/
theorem FoundIn.remakes_var (htypes : s.types.SeesShapes) {name : String}
    (hname : name ≠ CodeRules.wildcard) {type : ParamType} {e : Entity} (he : e.Tidy)
    (h : FoundIn s b (var name type) e) : Remakes s.types b (var name type) e := by
  obtain ⟨found, hfound, hb⟩ := h
  rw [recognize, Except.ok.injEq] at hfound
  obtain ⟨haccepts, hfind⟩ := find?_of_recognizeVar hname hfound
  obtain ⟨e', hfind', hshape⟩ := hb name e hfind
  exact Fragment.remakes_var htypes he hfind' hshape (.inr haccepts)

/-- The access specifier is made again. Where there is none, a variable stands for its absence. -/
private theorem remakes_of_recognizeAccess (htypes : s.types.SeesShapes) {f : Fragment}
    (hf : f.WellFormed) {e : Entity} (he : e.Tidy) {b₀ c : Bindings}
    (h : recognizeAccess s (some f) e b₀ = .ok (some b)) (hc : c.Covers b)
    (ih : FoundIn s c f e → Remakes s.types c f e) : Remakes s.types c f e := by
  unfold recognizeAccess at h
  split at h
  -- without access slot there is nothing to make
  · rename_i hnone
    cases hnone
  -- a variable was bound to the specifier, or to its absence
  · rename_i name type hvar
    obtain rfl := Option.some.inj hvar
    cases hf with
    | var hname =>
    obtain ⟨_, found, hfound, hb⟩ := covers_of_joinPart (Except.ok.inj h)
    obtain rfl := Option.some.inj hfound
    obtain ⟨e', he', hshape⟩ := hc.trans hb name _ (Bindings.find?_bind_self hname rfl .empty)
    exact remakes_var htypes he he' hshape (.inl rfl)
  -- any other fragment has recognized the specifier
  · rename_i g hg _
    obtain rfl := Option.some.inj hg
    obtain ⟨part, hpart, h⟩ := Except.bind_eq_ok.1 h
    obtain ⟨_, found, rfl, hb⟩ := covers_of_joinPart (Except.pure_eq_ok.1 h)
    exact ih ⟨found, hpart, hc.trans hb⟩

/-- A fragment that is there makes what it makes alone. -/
theorem Remakes.generateOpt {types : TypeOracle} {f : Fragment} {e : Entity}
    (h : Remakes types b f e) (w : Workshop) : ∃ g w',
      Gives (generateOpt types b (some f)) w [g] w' ∧ g.shape = e.shape := by
  obtain ⟨g, w', hg, hshape⟩ := h w
  refine ⟨g, w', ?_, hshape⟩
  simp only [Fragment.generateOpt, gives_bind, gives_pure]
  exact ⟨g, w', hg, rfl, rfl⟩

/-- What takes the rest of a modifier set makes it again, or something absent when nothing was
left. -/
private theorem gives_generateOpt_rest (htypes : s.types.SeesShapes) {rest : Option Fragment}
    (hrest : ∀ f ∈ rest, f.WellFormed) (hwild : ∀ f ∈ rest, f ≠ wildcard) {left : List Entity}
    (hleft : ∀ e ∈ left, e.Tidy) {b₁ : Bindings}
    (h : recognizeRest s.types rest left b₁ = .ok (some b)) {c : Bindings} (hc : c.Covers b)
    (w : Workshop) : ∃ gs w', Gives (generateOpt s.types c rest) w gs w' ∧
      (gs.map Entity.shape = left.map Entity.shape ∨ left = [] ∧ gs = [.empty]) := by
  unfold recognizeRest at h
  split at h
  -- nothing takes the rest, and nothing is left
  · exact ⟨[], w, by simp [generateOpt], .inl rfl⟩
  · cases h
  · exact absurd rfl (hwild _ rfl)
  -- a variable stands for nothing, since nothing is left
  · cases hrest _ rfl with
    | var hname =>
    obtain ⟨_, e, he, hshape⟩ := Bindings.covers_of_bind? hname (Except.ok.inj h)
    obtain ⟨e', he', hshape'⟩ := hc _ e he
    obtain ⟨g, w', hg, hempty⟩ := (remakes_var htypes (Entity.tidy_of_nodes_eq_nil rfl) he'
      (hshape'.trans hshape) (.inl rfl)).generateOpt w
    obtain rfl := Entity.shape_eq_empty.1 hempty
    exact ⟨_, w', hg, .inr ⟨rfl, rfl⟩⟩
  -- a variable took the only item that is left
  · rename_i name type e
    cases hrest _ rfl with
    | var hname =>
    obtain ⟨_, found, hfound, hb⟩ := covers_of_joinPart (Except.ok.inj h)
    have hin : FoundIn s c (var name type) e := ⟨found, congrArg Except.ok hfound, hc.trans hb⟩
    obtain ⟨g, w', hg, hshape⟩ :=
      (hin.remakes_var htypes hname (hleft e (List.mem_singleton_self e))).generateOpt w
    exact ⟨[g], w', hg, .inl (congrArg (fun x => [x]) hshape)⟩
  · cases h
  · cases h

/-! ### Fragments that can be reversed -/

/-- Recognizing with the fragment can be undone where it stands, which is a slot of the given sort or
no slot: there is neither a wildcard nor a pattern `this` in it, and its list patterns stand in slots
for lists, its modifier sets in slots for modifiers, where they say which access specifier there
is. -/
inductive Reversible : Option SlotSort → Fragment → Prop where
  | node {place : Option SlotSort} {tag : Tag} {slots : List Fragment} (htag : tag ≠ .this)
      (hslots : ∀ x ∈ tag.slotSorts.zip slots, Reversible (some x.1) x.2) :
      Reversible place (node tag slots)
  | ordered {place : Option SlotSort} {items : List Fragment}
      (hplace : place = some .nodes ∨ place = some .modifiers)
      (hitems : ∀ f ∈ items, Reversible none f) : Reversible place (ordered items)
  | unordered {place : Option SlotSort} {access : Option Fragment} {fixed : List Fragment}
      {rest : Option Fragment} (hplace : place = some .modifiers) (hsome : access.isSome = true)
      (haccess : ∀ f ∈ access, Reversible none f) (hfixed : ∀ f ∈ fixed, Reversible none f)
      (hrest : ∀ f ∈ rest, Reversible none f) : Reversible place (unordered access fixed rest)
  | resolved {place : Option SlotSort} (e : Entity) : Reversible place (resolved e)
  | var {place : Option SlotSort} (name : String) (type : ParamType) : Reversible place (var name type)
  | empty {place : Option SlotSort} : Reversible place empty
  | fieldAccess {place : Option SlotSort} {receiver field : Fragment} {asTarget : Bool}
      (hreceiver : Reversible none receiver) (hfield : Reversible none field) :
      Reversible place (fieldAccess receiver field asTarget)
  | fieldAssign {place : Option SlotSort} {target value : Fragment}
      (htarget : Reversible none target) (hvalue : Reversible none value) :
      Reversible place (fieldAssign target value)

/-- Fragments that recognize the items of a list make them again. -/
private theorem forall₂_remakes {fs : List Fragment} {es : List Entity}
    (h : List.Forall₂ (FoundIn s b) fs es) (hes : ∀ e ∈ es, e.Tidy)
    (ih : ∀ f ∈ fs, ∀ e : Entity, e.Tidy → FoundIn s b f e → Remakes s.types b f e) :
    List.Forall₂ (Remakes s.types b) fs es :=
  h.imp_of_mem fun f hf e he hfound => ih f hf e (hes e he) hfound

/-- A modifier set makes the modifiers again that it recognized. -/
private theorem remakes_unordered (htypes : s.types.SeesShapes) {f : Fragment} (hf : f.WellFormed)
    {fixed : List Fragment} {rest : Option Fragment} (hrest : ∀ g ∈ rest, g.WellFormed)
    (hwild : ∀ g ∈ rest, g ≠ wildcard) {ms : List Modifier} (hms : Modifier.canonical ms = ms)
    (iha : ∀ e : Entity, e.Tidy → FoundIn s b f e → Remakes s.types b f e)
    (ihf : ∀ g ∈ fixed, ∀ e : Entity, e.Tidy → FoundIn s b g e → Remakes s.types b g e)
    (hb : FoundIn s b (unordered (some f) fixed rest) (.ofModifiers ms)) :
    Remakes s.types b (unordered (some f) fixed rest) (.ofModifiers ms) := by
  obtain ⟨found, hfound, hb⟩ := hb
  have hitems : (Entity.ofModifiers ms).items? = some (ms.map .modifier) := rfl
  simp only [recognize, hitems] at hfound
  generalize hspecifiers : (ms.map Entity.modifier).filter Entity.isAccessSpecifier = specifiers
    at hfound
  generalize hothers : (ms.map Entity.modifier).filter (!·.isAccessSpecifier) = others at hfound
  split at hfound
  · cases hfound
  rename_i hlength
  obtain ⟨r, hr, hfound⟩ := Except.bind_eq_ok.1 hfound
  split at hfound
  · cases hfound
  obtain ⟨chosen, left, b₁, hperm, hchosen, hmid, hleft⟩ :=
    foundIn_of_recognizeSet hfound fun _ _ h => covers_of_recognizeRest hrest h
  -- all that is recognized are modifiers
  have hplain (e : Entity) (he : e ∈ specifiers ∨ e ∈ chosen ++ left) :
      e.Tidy ∧ e.node? = none ∧ ∀ l, e ≠ .list l := by
    have hmem : e ∈ ms.map Entity.modifier := by
      rcases he with he | he
      · exact (List.mem_filter.1 (hspecifiers ▸ he)).1
      · exact (List.mem_filter.1 (hothers ▸ hperm.mem_iff.2 he)).1
    obtain ⟨m, _, rfl⟩ := List.mem_map.1 hmem
    exact ⟨Entity.tidy_of_nodes_eq_nil rfl, rfl, fun _ h => by cases h⟩
  have hspecifier : (specifiers.head?.getD .empty).Tidy ∧
      (specifiers.head?.getD .empty).node? = none ∧ ∀ l, specifiers.head?.getD .empty ≠ .list l := by
    cases specifiers with
    | nil => exact ⟨Entity.tidy_of_nodes_eq_nil rfl, rfl, fun _ h => by cases h⟩
    | cons e _ => exact hplain e (.inl (List.mem_cons_self ..))
  intro w
  -- the three groups of parts are made one after the other, in the same arena
  obtain ⟨g, w₁, hg, hshape⟩ := (remakes_of_recognizeAccess htypes hf hspecifier.1 hr
    (hb.trans hmid) (iha _ hspecifier.1)).generateOpt w
  obtain rfl := Entity.eq_of_shape hshape hspecifier.2.1 hspecifier.2.2
  obtain ⟨gs, w₂, hgs, hshapes⟩ := remakesAll (forall₂_remakes (hchosen.imp fun _ _ h => h.mono hb)
    (fun e he => (hplain e (.inr (List.mem_append_left _ he))).1) ihf) w₁
  obtain rfl := Entity.eq_of_shapes hshapes fun e he =>
    (hplain e (.inr (List.mem_append_left _ he))).2
  obtain ⟨last, w₃, hgs₃, hlast⟩ := gives_generateOpt_rest htypes hrest hwild
    (fun e he => (hplain e (.inr (List.mem_append_right _ he))).1) hleft hb w₂
  replace hlast := hlast.imp_left fun h => Entity.eq_of_shapes h fun e he =>
    (hplain e (.inr (List.mem_append_right _ he))).2
  refine ⟨.ofModifiers ms, w₃, ?_, rfl⟩
  simp only [generate, gives_bind, gives_pure]
  refine ⟨_, w₁, hg, gs, w₂, hgs, last, w₃, hgs₃, ?_, rfl⟩
  exact Entity.ofSetParts_of_perm hms hspecifiers hothers (Nat.le_of_not_gt hlength) hperm hlast

/-- The access to a field is made from what has the shape of its receiver. -/
private theorem gives_generateAccess {n : Node} (hn : n.Tidy) {owner owner' : Entity} {field : String}
    (hparts : (∃ r, owner = .node r ∧ n.kind = .fieldAccess r field) ∨
      owner = s.implicitReceiver n ∧ n.kind = .name field)
    (hshape : owner'.shape = owner.shape) (w : Workshop) :
    ∃ g w', Gives (generateAccess owner' (.name field)) w g w' ∧ g.shape = (Entity.node n).shape := by
  have hbuild (es : List Entity) (h : es.map Entity.shape = n.kind.slots.map Entity.shape) :=
    gives_build hn (NodeKind.written_eq_self hn.written) h w
  -- the receiver is written, and so it is a child of the node
  rcases hparts with ⟨r, rfl, hkind⟩ | ⟨rfl, hkind⟩
  · obtain ⟨r', rfl, hr⟩ := Entity.exists_node_of_shape hshape
    have hwritten : (Entity.node r').isUnwritten = false := by
      rw [Entity.isUnwritten, Node.isImplicitReceiver_eq hr]
      exact hn.written r (by simp [Node.children, hkind, NodeKind.children])
    simp only [generateAccess, Entity.name, hwritten]
    rw [hkind] at hbuild
    exact hbuild [.node r', .name field] (by simp only [NodeKind.slots, List.map, hshape])
  -- the receiver was never written, or there is none
  · have hunwritten : owner'.isUnwritten = true := by
      obtain hempty | ⟨r, hr, himplicit⟩ := s.implicitReceiver_eq n
      · rw [hempty] at hshape
        rw [Entity.shape_eq_empty.1 hshape, Entity.isUnwritten]
      · rw [hr] at hshape
        obtain ⟨r', rfl, hr⟩ := Entity.exists_node_of_shape hshape
        rw [Entity.isUnwritten, Node.isImplicitReceiver_eq hr, himplicit]
    simp only [generateAccess, Entity.name, hunwritten]
    rw [hkind] at hbuild
    exact hbuild [.name field] rfl

/-- A list makes a list again, item by item. -/
private theorem remakes_ordered {items : List Fragment} {values : List Entity}
    (he : (Entity.list values).Tidy)
    (ih : ∀ f ∈ items, ∀ e : Entity, e.Tidy → FoundIn s b f e → Remakes s.types b f e)
    (hb : FoundIn s b (ordered items) (.list values)) :
    Remakes s.types b (ordered items) (.list values) := by
  obtain ⟨found, hfound, hb⟩ := hb
  simp only [recognize, Entity.items?] at hfound
  split at hfound
  · rename_i hlength
    -- the variables of all items are bound in the end, so what each item found is found there too
    have hall := (foundIn_of_recognizeAll hlength.symm hfound).2.imp fun _ _ h => h.mono hb
    intro w
    obtain ⟨gs, w', hgs, hshapes⟩ :=
      remakesAll (forall₂_remakes hall (fun _ hx => he.item hx) ih) w
    refine ⟨.list gs, w', ?_, ?_⟩
    · simp only [generate, gives_bind, gives_pure]
      exact ⟨gs, w', hgs, rfl, rfl⟩
    · rw [Entity.shape, Entity.shapes_eq_map, hshapes, Entity.shape, Entity.shapes_eq_map]
  · cases hfound

/-- A node makes a node again, with a slot for each slot that it recognized. -/
private theorem remakes_node {tag : Tag} (htag : tag ≠ .this) {slots : List Fragment}
    (hcount : slots.length = tag.slotCount) {e : Entity} (he : e.Tidy)
    (ih : ∀ f ∈ slots, ∀ sort, (sort, f) ∈ tag.slotSorts.zip slots → ∀ x : Entity, x.Tidy →
      (∃ ms, Modifier.canonical ms = ms ∧ sort.Fits ms x) → FoundIn s b f x → Remakes s.types b f x)
    (hb : FoundIn s b (node tag slots) e) : Remakes s.types b (node tag slots) e := by
  obtain ⟨found, hfound, hb⟩ := hb
  simp only [recognize, hcount, ne_eq, not_true_eq_false, if_false] at hfound
  cases e with
  | node n =>
    simp only [Entity.node?] at hfound
    split at hfound
    -- `this` is recognized by its type too, so it is left out
    · exact absurd rfl htag
    split at hfound
    · rename_i hntag
      subst hntag
      -- a call without receiver is seen with one that was never written, and loses it again
      obtain ⟨k, hk, hkn, hvalues⟩ := exists_callSlots s he slots
      rw [hk] at hfound
      have hktag : k.tag = n.tag := by rw [← k.tag_written, hkn, Node.tag]
      have hlength : slots.length = k.slots.length := by
        rw [hcount, NodeKind.length_slots, hktag]
      have hn : n.Tidy := he n n.mem_preorder_self
      have hcanonical : Modifier.canonical k.modifiers = k.modifiers := by
        rw [← k.modifiers_written, hkn, hn.canonical]
      have hsorts : List.Forall₂ (SlotSort.Fits k.modifiers) n.tag.slotSorts k.slots :=
        hktag ▸ k.forall₂_slotSorts
      have hall := (foundIn_of_recognizeAll hlength hfound).2.imp fun _ _ h => h.mono hb
      have hslots := (hall.with_zip hsorts).imp_of_mem fun f hf x hx h => by
        obtain ⟨hfound, sort, hmem, hfits⟩ := h
        exact ih f hf sort hmem x (hvalues x hx) ⟨k.modifiers, hcanonical, hfits⟩ hfound
      intro w
      obtain ⟨gs, w₁, hgs, hshapes⟩ := remakesAll hslots w
      obtain ⟨g, w₂, hg, hshape⟩ := gives_build hn hkn hshapes w₁
      refine ⟨g, w₂, ?_, hshape⟩
      simp only [generate, gives_bind]
      exact ⟨gs, w₁, hgs, hktag ▸ hg⟩
    · cases hfound
  | _ => cases hfound

/-- An access to a field makes the access again, with or without its receiver. -/
private theorem remakes_fieldAccess {receiver field : Fragment} {asTarget : Bool} {e : Entity}
    (he : e.Tidy)
    (ihr : ∀ x : Entity, x.Tidy → FoundIn s b receiver x → Remakes s.types b receiver x)
    (ihf : ∀ x : Entity, x.Tidy → FoundIn s b field x → Remakes s.types b field x)
    (hb : FoundIn s b (fieldAccess receiver field asTarget) e) :
    Remakes s.types b (fieldAccess receiver field asTarget) e := by
  obtain ⟨found, hfound, hb⟩ := hb
  cases e with
  | node n =>
    simp only [recognize, Entity.node?] at hfound
    split at hfound
    · cases hfound
    split at hfound
    · cases hfound
    rename_i owner name hparts
    obtain ⟨howner, hname⟩ := foundIn_of_joins hfound
    obtain ⟨fieldName, rfl, hkind⟩ := exists_of_fieldParts? hparts
    -- the owner is a receiver that is written, or the implicit one
    have htidy : owner.Tidy := by
      rcases hkind with ⟨r, rfl, hkind⟩ | ⟨rfl, _⟩
      · exact fun m hm => he m (Node.mem_preorder_of_child (by simp [hkind, NodeKind.children]) hm)
      · exact s.tidy_implicitReceiver n
    -- receiver and field are made one after the other, and then the access
    intro w
    obtain ⟨g₁, w₁, hg₁, hshape⟩ := ihr owner htidy (howner.mono hb) w
    obtain ⟨g₂, w₂, hg₂, hfieldName⟩ :=
      ihf _ (Entity.tidy_of_nodes_eq_nil rfl) (hname.mono hb) w₁
    obtain rfl := Entity.shape_eq_name.1 hfieldName
    obtain ⟨g, w₃, hg, hgshape⟩ := gives_generateAccess (he n n.mem_preorder_self) hkind hshape w₂
    refine ⟨g, w₃, ?_, hgshape⟩
    simp only [generate, gives_bind]
    exact ⟨g₁, w₁, hg₁, _, w₂, hg₂, hg⟩
  | _ => cases hfound

/-- An assignment makes an assignment of what its sides make. -/
private theorem remakes_fieldAssign {target value : Fragment} {e : Entity} (he : e.Tidy)
    (iht : ∀ x : Entity, x.Tidy → FoundIn s b target x → Remakes s.types b target x)
    (ihv : ∀ x : Entity, x.Tidy → FoundIn s b value x → Remakes s.types b value x)
    (hb : FoundIn s b (fieldAssign target value) e) :
    Remakes s.types b (fieldAssign target value) e := by
  obtain ⟨found, hfound, hb⟩ := hb
  cases e with
  | node n =>
    simp only [recognize, Entity.node?, Option.map_some] at hfound
    split at hfound
    · rename_i left right hkind
      replace hkind := Option.some.inj hkind
      obtain ⟨hleft, hright⟩ := foundIn_of_joins hfound
      have htidy (c : Node) (hc : c ∈ [left, right]) : (Entity.node c).Tidy := fun m hm =>
        he m (Node.mem_preorder_of_child (by simpa [hkind, NodeKind.children] using hc) hm)
      -- target and value are made one after the other, and then the assignment
      intro w
      obtain ⟨g₁, w₁, hg₁, hshape₁⟩ := iht _ (htidy left (by simp)) (hleft.mono hb) w
      obtain ⟨g₂, w₂, hg₂, hshape₂⟩ := ihv _ (htidy right (by simp)) (hright.mono hb) w₁
      have hn : n.Tidy := he n n.mem_preorder_self
      have hslots : [g₁, g₂].map Entity.shape = n.kind.slots.map Entity.shape := by
        simp only [hkind, NodeKind.slots, List.map, hshape₁, hshape₂]
      obtain ⟨g, w₃, hg, hgshape⟩ := gives_build hn (NodeKind.written_eq_self hn.written) hslots w₂
      refine ⟨g, w₃, ?_, hgshape⟩
      rw [hkind] at hg
      simp only [generate, gives_bind]
      exact ⟨g₁, w₁, hg₁, g₂, w₂, hg₂, hg⟩
    · cases hfound
  | _ => cases hfound

/-- With bindings that cover what was found, a fragment makes something of the shape of what it
recognized. -/
theorem remakes_of_recognize (htypes : s.types.SeesShapes) {f : Fragment} (hf : f.WellFormed)
    {place : Option SlotSort} (hplace : f.Reversible place) {e : Entity} (he : e.Tidy)
    (hfits : ∀ sort ∈ place, ∃ ms, Modifier.canonical ms = ms ∧ sort.Fits ms e)
    (hb : FoundIn s b f e) : Remakes s.types b f e := by
  have hnone (x : Entity) : ∀ sort ∈ (none : Option SlotSort),
      ∃ ms, Modifier.canonical ms = ms ∧ sort.Fits ms x := fun _ h => by cases h
  induction f using Fragment.induction generalizing place e with
  | wildcard => cases hplace
  | empty =>
    obtain ⟨found, hfound, _⟩ := hb
    intro w
    cases e <;> simp only [recognize, Except.ok.injEq, reduceCtorEq] at hfound
    exact ⟨.empty, w, gives_pure.2 ⟨rfl, rfl⟩, rfl⟩
  | resolved known =>
    obtain ⟨found, hfound, _⟩ := hb
    rw [recognize, Except.ok.injEq, Option.ite_none_right_eq_some] at hfound
    exact gives_copy he (Entity.sameShape_iff.1 hfound.1)
  | var name type =>
    cases hf with
    | var hname => exact hb.remakes_var htypes hname he
  | ordered items ih =>
    cases hf with
    | ordered hitems =>
    cases hplace with
    | ordered hsort hplaces =>
    -- in the place of a list pattern stands a list
    obtain ⟨values, rfl⟩ : ∃ values, e = .list values := by
      rcases hsort with rfl | rfl <;> obtain ⟨ms, _, hfits⟩ := hfits _ rfl
      · obtain ⟨ns, rfl⟩ := hfits
        exact ⟨_, rfl⟩
      · exact ⟨_, hfits⟩
    exact remakes_ordered he
      (fun f hf e he h => ih f hf (hitems f hf) (hplaces f hf) he (hnone e) h) hb
  | unordered access fixed rest iha ihf ihr =>
    cases hf with
    | unordered haccess hfixed hrest hremainder =>
    cases hplace with
    | unordered hsort hsome haccess' hfixed' hrest' =>
    subst hsort
    -- in the place of a modifier set stand modifiers
    obtain ⟨ms, hms, rfl⟩ := hfits _ rfl
    obtain ⟨f, rfl⟩ := Option.isSome_iff_exists.1 hsome
    -- the wildcard cannot be reversed
    have hwild (g : Fragment) (hg : g ∈ rest) : g ≠ wildcard := by
      rintro rfl
      cases hrest' _ hg
    exact remakes_unordered htypes (haccess f rfl) hrest hwild hms
      (fun e he h => iha f rfl (haccess f rfl) (haccess' f rfl) he (hnone e) h)
      (fun g hg e he h => ihf g hg (hfixed g hg) (hfixed' g hg) he (hnone e) h) hb
  | node tag slots ih =>
    cases hf with
    | node hcount hslots =>
    cases hplace with
    | node htag hplaces =>
    refine remakes_node htag hcount he (fun f hf sort hmem x hx hfits h => ?_) hb
    refine ih f hf (hslots f hf) (hplaces _ hmem) hx (fun sort' hsort => ?_) h
    exact Option.some.inj hsort ▸ hfits
  | fieldAccess receiver field asTarget ihr ihf =>
    cases hf with
    | fieldAccess hreceiver hfield =>
    cases hplace with
    | fieldAccess hreceiver' hfield' =>
    exact remakes_fieldAccess he (fun x hx h => ihr hreceiver hreceiver' hx (hnone x) h)
      (fun x hx h => ihf hfield hfield' hx (hnone x) h) hb
  | fieldAssign target value iht ihv =>
    cases hf with
    | fieldAssign htarget hvalue =>
    cases hplace with
    | fieldAssign htarget' hvalue' =>
    exact remakes_fieldAssign he (fun x hx h => iht htarget htarget' hx (hnone x) h)
      (fun x hx h => ihv hvalue hvalue' hx (hnone x) h) hb

end

end Fragment

/-- A compiled fragment that recognizes a tree is generated from what its variables were found to
stand for, and what it makes has the shape of the tree. The tree has modifiers in canonical order and
only receivers that were written. -/
theorem Pattern.generates_recognized {scope : Scope} {p : Pattern} {f : Fragment}
    (hf : p.compile scope = .ok f) (hreversible : f.Reversible none) {s : Surroundings}
    (htypes : s.types.SeesShapes) {n : Node}
    (hwritten : ∀ m ∈ n.preorder, m.kind.isImplicitReceiver = false)
    (hcanonical : ∀ m ∈ n.preorder, Modifier.canonical m.kind.modifiers = m.kind.modifiers)
    {b : Bindings} (hb : f.recognize s (.node n) = .ok (some b)) (w : Workshop) :
    ∃ g w', Gives (f.generate s.types b) w (.node g) w' ∧ g.shape = n.shape := by
  have hn : (Entity.node n).Tidy := fun m hm => ⟨hcanonical m hm, fun c hc =>
    hwritten c (Node.mem_preorder_trans hm (Node.mem_preorder_of_child hc c.mem_preorder_self))⟩
  obtain ⟨g, w', hg, hshape⟩ := Fragment.remakes_of_recognize htypes (compile_wellFormed hf)
    hreversible hn (fun _ h => by cases h) ⟨b, hb, .refl b⟩ w
  obtain ⟨g, rfl, hg'⟩ := Entity.exists_node_of_shape hshape
  exact ⟨g, w', hg, hg'⟩

namespace BareField

/-- `private final int count = limit;`, where `limit` is a field of the same class. -/
def field : Node :=
  .make ⟨1⟩ ⟨0, 0, 20⟩ (.fieldDecl [.privateAccess, .final] [] (.primitive .int) "count"
    (some (.make ⟨2⟩ ⟨0, 15, 20⟩ (.name "limit"))))

def pattern : Pattern :=
  .node .synthetic .fieldDecl
    [.modifierSet .synthetic [.access .synthetic (some "access"), .var .synthetic "more"],
      .list .synthetic [], .var .synthetic "type", .resolved .synthetic (.name "count"),
      .node .synthetic .fieldAccess [.var .synthetic "receiver", .var .synthetic "name"]]

def fragment : Fragment :=
  .node .fieldDecl
    [.unordered (some (.var "access" (.category .accessSpecifier))) [] (some (.var "more" .any)),
      .ordered [], .var "type" .any, .resolved (.name "count"),
      .fieldAccess (.var "receiver" .any) (.var "name" .any) false]

def surroundings : Surroundings := .listed [] [⟨2⟩] [(⟨2⟩, ⟨.ofName "Box", false⟩)]

/-- The receiver that was not written is found, and is not written again. -/
theorem generates_recognized_field : pattern.compile {} = .ok fragment ∧ ∃ b,
    fragment.recognize surroundings (.node field) = .ok (some b) ∧
    ∃ g w', Gives (fragment.generate surroundings.types b) default (.node g) w' ∧
      g.shape = field.shape := by
  have hcompile : pattern.compile {} = .ok fragment := rfl
  -- the slots of the field are patterns of the sorts that slots take back
  have hreversible : fragment.Reversible none := by
    refine .node (by decide) ?_
    simp only [Tag.slotSorts, List.zip_cons_cons, List.zip_nil_left, List.forall_mem_cons]
    refine ⟨.unordered rfl rfl ?_ ?_ ?_, .ordered (.inl rfl) ?_, .var _ _, .resolved _,
      .fieldAccess (.var _ _) (.var _ _), ?_⟩
    · simpa using Fragment.Reversible.var _ _
    · simp
    · simpa using Fragment.Reversible.var _ _
    · simp
    · simp
  have hfound : ((fragment.recognize surroundings (.node field)).toOption.join).isSome = true := by
    decide +kernel
  obtain ⟨b, hb⟩ := Option.isSome_iff_exists.1 hfound
  replace hb := Except.toOption_eq_some_iff.1 (Option.join_eq_some_iff.1 hb)
  exact ⟨hcompile, b, hb, Pattern.generates_recognized hcompile hreversible
    TypeOracle.seesShapes_intrinsic (by decide +kernel) (by decide +kernel) hb default⟩

end BareField

end CodeRules
