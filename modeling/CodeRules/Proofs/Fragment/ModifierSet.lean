import CodeRules.Proofs.Binding.Unify
import CodeRules.Proofs.Code.Shape
import CodeRules.Proofs.Fragment.Found
import CodeRules.Proofs.Fragment.Values

/-!
# Modifier sets

A modifier set is recognized by a search: the items are tried in turn for each fixed fragment, and
what is bound grows along the way. `Division` says without a search which modifier sets are described,
and `Pattern.recognize_modifierSet` that the search finds a division whenever there is one. So the
order of the items does not matter, and among modifiers it does not matter for the variables either.
-/

namespace CodeRules

/-- The entity is a modifier. -/
def Entity.IsModifier (e : Entity) : Prop := ∃ m, e = .modifier m

namespace Fragment

variable {s : Surroundings} {access rest : Option Fragment} {fixed : List Fragment}
  {items chosen left : List Entity} {b c : Bindings} {found : List Bindings}

/-! ### Divisions -/

/-- What the access slot of a modifier set finds in the access specifier, or in its absence. A
variable stands for nothing when there is none. -/
inductive AccessFinds (s : Surroundings) : Option Fragment → Option Entity → Bindings → Prop where
  | unconstrained (specifier : Option Entity) : AccessFinds s none specifier .empty
  | specifier {f : Fragment} {e : Entity} {b : Bindings} (h : f.recognize s e = .ok (some b)) :
    AccessFinds s (some f) (some e) b
  | unbound (name : String) (type : ParamType) :
    AccessFinds s (some (var name type)) none (Bindings.empty.bind name .empty)
  | absence {f : Fragment} {b : Bindings} (hvar : ∀ name type, f ≠ var name type)
    (h : f.recognize s .empty = .ok (some b)) : AccessFinds s (some f) none b

/-- What the remainder of a modifier set finds in the items that are left. -/
inductive RestFinds (s : Surroundings) : Option Fragment → List Entity → Bindings → Prop where
  | nothing : RestFinds s none [] .empty
  | anything (left : List Entity) : RestFinds s (some wildcard) left .empty
  | unbound (name : String) (type : ParamType) :
    RestFinds s (some (var name type)) [] (Bindings.empty.bind name .empty)
  | single {name : String} {type : ParamType} {e : Entity} {b : Bindings}
    (h : (var name type).recognize s e = .ok (some b)) : RestFinds s (some (var name type)) [e] b

/-- Each fragment recognizes the item at its place. -/
inductive PairsFind (s : Surroundings) : List Fragment → List Entity → List Bindings → Prop where
  | nil : PairsFind s [] [] []
  | cons {f : Fragment} {e : Entity} {b : Bindings} {fs : List Fragment} {es : List Entity}
    {bs : List Bindings} (h : f.recognize s e = .ok (some b)) (hrest : PairsFind s fs es bs) :
    PairsFind s (f :: fs) (e :: es) (b :: bs)

/-- A division of the items of a modifier set: the access slot takes the only access specifier or
its absence, the fixed fragments take different items, `rest` takes the others, and all bindings that
are found unify. -/
structure Division (s : Surroundings) (access : Option Fragment) (fixed : List Fragment)
    (rest : Option Fragment) (items : List Entity) where
  /-- The items that the fixed fragments take. -/
  chosen : List Entity
  /-- The items that are left. -/
  left : List Entity
  accessFound : Bindings
  fixedFound : List Bindings
  restFound : Bindings
  atMostOne : (items.filter Entity.isAccessSpecifier).length ≤ 1
  accessFinds : AccessFinds s access (items.filter Entity.isAccessSpecifier).head? accessFound
  perm : (items.filter (!·.isAccessSpecifier)).Perm (chosen ++ left)
  pairsFind : PairsFind s fixed chosen fixedFound
  restFinds : RestFinds s rest left restFound
  unify : (accessFound :: (fixedFound ++ [restFound])).Pairwise Bindings.Unifies

namespace Division

/-- All bindings that are found. -/
def parts (d : Division s access fixed rest items) : List Bindings :=
  d.accessFound :: (d.fixedFound ++ [d.restFound])

end Division

/-! ### The access specifier and the remainder -/

/-- The empty bindings unite with all others. -/
private theorem unites_empty (b : Bindings) : b.Unites [b, .empty] where
  covers p hp := by
    rcases List.mem_cons.1 hp with rfl | hp
    · exact .refl _
    · rw [List.mem_singleton.1 hp]
      exact fun _ _ he => by cases he
  origin _ _ he := ⟨b, List.mem_cons_self .., he⟩

/-- A variable that stands for nothing was joined. -/
private theorem unites_unbound {name : String} (hname : name ≠ CodeRules.wildcard)
    (h : b.bind? name .empty = some c) : c.Unites [b, Bindings.empty.bind name .empty] := by
  obtain ⟨hb, e, he, hshape⟩ := Bindings.covers_of_bind? hname h
  -- bound to nothing, the variable is the only one, and stands for nothing
  have hfind {n : String} {x : Entity} (hx : (Bindings.empty.bind name .empty).find? n = some x) :
      n = name ∧ x = .empty := by
    by_cases hn : n = name
    · rw [hn, Bindings.find?_bind_self hname rfl] at hx
      exact ⟨hn, (Option.some.inj hx).symm⟩
    · rw [Bindings.find?_bind_of_ne hn] at hx
      cases hx
  refine ⟨fun p hp => ?_, fun n x hx => ?_⟩
  · rcases List.mem_cons.1 hp with rfl | hp
    · exact hb
    · rw [List.mem_singleton.1 hp]
      intro n x hx
      obtain ⟨rfl, rfl⟩ := hfind hx
      exact ⟨e, he, hshape⟩
  -- a variable of the result was bound before, or is the new one
  · unfold Bindings.bind? at h
    rw [if_neg hname] at h
    split at h
    · split at h
      · obtain rfl := Option.some.inj h
        exact ⟨b, by simp, hx⟩
      · cases h
    · obtain rfl := Option.some.inj h
      rw [Bindings.find?, Dict.find?_set] at hx
      split at hx
      · rename_i hn
        refine ⟨Bindings.empty.bind name .empty, by simp, ?_⟩
        rw [hn, Bindings.find?_bind_self hname rfl, hx]
      · exact ⟨b, by simp, hx⟩

/-- A variable can be bound to nothing unless it stands for something. -/
private theorem exists_bind?_empty {name : String}
    (h : b.Unifies (Bindings.empty.bind name .empty)) : ∃ c, b.bind? name .empty = some c := by
  unfold Bindings.bind?
  split
  · exact ⟨b, rfl⟩
  · rename_i hname
    split
    · rename_i old hold
      rw [if_pos (Entity.sameShape_iff.2 (h name old .empty hold (Bindings.find?_bind_self hname rfl _)))]
      exact ⟨b, rfl⟩
    · exact ⟨_, rfl⟩

/-- What the remainder recognizes is united with what was bound before. -/
private theorem exists_restFinds (hrest : ∀ f ∈ rest, f.WellFormed)
    (h : recognizeRest s.types rest left b = .ok (some c)) :
    ∃ r, RestFinds s rest left r ∧ c.Unites [b, r] := by
  unfold recognizeRest at h
  split at h
  · exact ⟨.empty, .nothing, Option.some.inj (Except.ok.inj h) ▸ unites_empty b⟩
  · cases h
  · exact ⟨.empty, .anything _, Option.some.inj (Except.ok.inj h) ▸ unites_empty b⟩
  · rename_i name type
    cases hrest _ rfl with
    | var hname => exact ⟨_, .unbound name type, unites_unbound hname (Except.ok.inj h)⟩
  · rename_i name type e
    have h := Except.ok.inj h
    obtain ⟨r, hr, _⟩ := Bindings.exists_joinPart_iff.1 ⟨c, h⟩
    exact ⟨r, .single (by rw [recognize, hr]), Bindings.unites_of_joinPart (hr ▸ h)⟩
  · cases h
  · cases h

/-- What is left may stand in any order. -/
private theorem RestFinds.perm {left' : List Entity} {r : Bindings} (h : RestFinds s rest left r)
    (hperm : left.Perm left') : RestFinds s rest left' r := by
  cases h with
  | nothing => exact hperm.nil_eq ▸ .nothing
  | anything => exact .anything left'
  | unbound name type => exact hperm.nil_eq ▸ .unbound name type
  | single h =>
    obtain rfl := hperm.symm.eq_singleton
    exact .single h

/-- The remainder recognizes what it can take, when this unifies with what was bound before. -/
private theorem RestFinds.exists_recognizeRest {r : Bindings} (h : RestFinds s rest left r)
    (hr : b.Unifies r) : ∃ c, recognizeRest s.types rest left b = .ok (some c) := by
  cases h with
  | nothing => exact ⟨b, rfl⟩
  | anything => exact ⟨b, by cases left <;> rfl⟩
  | unbound name type =>
    obtain ⟨c, hc⟩ := exists_bind?_empty hr
    exact ⟨c, congrArg Except.ok hc⟩
  | single h =>
    rw [recognize, Except.ok.injEq] at h
    obtain ⟨c, hc⟩ := Bindings.exists_joinPart_iff.2 ⟨r, h, hr⟩
    exact ⟨c, congrArg Except.ok hc⟩

/-- Specifiers are modifiers, so the absence of one cannot be mistaken for one. -/
private theorem ne_empty_of_isAccessSpecifier {e : Entity} (h : e.isAccessSpecifier = true) :
    e ≠ .empty := by
  rintro rfl
  cases h

/-- The access slot recognizes the specifier as a part, or its absence unless it is a variable. -/
private theorem recognizeAccess_some {f : Fragment} {e : Entity}
    (h : ∀ name type, f = var name type → e ≠ .empty) :
    recognizeAccess s (some f) e b = do return b.joinPart (← f.recognize s e) := by
  rw [recognizeAccess]
  exact fun name type he hf => h name type hf he

/-- What the access slot recognizes is united with what was bound before. -/
theorem exists_accessFinds {specifier : Option Entity}
    (hspecifier : ∀ e ∈ specifier, e.isAccessSpecifier = true)
    (h : recognizeAccess s access (specifier.getD .empty) b = .ok (some c)) :
    ∃ a, AccessFinds s access specifier a ∧ c.Unites [b, a] := by
  cases access with
  | none =>
    exact ⟨.empty, .unconstrained _, Option.some.inj (Except.ok.inj h) ▸ unites_empty b⟩
  | some f =>
    have hpart (h : (do return b.joinPart (← f.recognize s (specifier.getD .empty)) : Recognition) =
        .ok (some c)) :
        ∃ a, f.recognize s (specifier.getD .empty) = .ok (some a) ∧ c.Unites [b, a] := by
      obtain ⟨part, hpart, h⟩ := Except.bind_eq_ok.1 h
      have h := Except.ok.inj h
      obtain ⟨a, rfl, _⟩ := Bindings.exists_joinPart_iff.1 ⟨c, h⟩
      exact ⟨a, hpart, Bindings.unites_of_joinPart h⟩
    -- there is a specifier, so the slot recognizes it
    cases specifier with
    | some e =>
      rw [Option.getD_some, recognizeAccess_some fun _ _ _ =>
        ne_empty_of_isAccessSpecifier (hspecifier e rfl)] at h
      obtain ⟨a, ha, hc⟩ := hpart h
      exact ⟨a, .specifier ha, hc⟩
    -- there is none: a variable is bound to nothing, any other fragment must recognize its absence
    | none =>
      by_cases hvar : ∃ name type, f = var name type
      · obtain ⟨name, type, rfl⟩ := hvar
        exact ⟨_, .unbound name type, Bindings.unites_of_joinPart (Except.ok.inj h)⟩
      · have hvar (name : String) (type : ParamType) : f ≠ var name type :=
          fun hf => hvar ⟨name, type, hf⟩
        rw [recognizeAccess_some fun name type hf => absurd hf (hvar name type)] at h
        obtain ⟨a, ha, hc⟩ := hpart h
        exact ⟨a, .absence hvar ha, hc⟩

/-- The access slot finds one thing only. -/
theorem AccessFinds.unique {specifier : Option Entity} {a a' : Bindings}
    (h : AccessFinds s access specifier a) (h' : AccessFinds s access specifier a') : a = a' := by
  cases h with
  | unconstrained => cases h'; rfl
  | specifier h =>
    cases h' with
    | specifier h' => exact Option.some.inj (Except.ok.inj (h.symm.trans h'))
  | unbound name type =>
    cases h' with
    | unbound => rfl
    | absence hvar => exact absurd rfl (hvar name type)
  | absence hvar h =>
    cases h' with
    | unbound name type => exact absurd rfl (hvar name type)
    | absence _ h' => exact Option.some.inj (Except.ok.inj (h.symm.trans h'))

/-- The access slot recognizes what it can take, when this unifies with what was bound before. -/
theorem AccessFinds.exists_recognizeAccess {specifier : Option Entity} {a : Bindings}
    (hspecifier : ∀ e ∈ specifier, e.isAccessSpecifier = true)
    (h : AccessFinds s access specifier a) (ha : b.Unifies a) :
    ∃ c, recognizeAccess s access (specifier.getD .empty) b = .ok (some c) := by
  obtain ⟨c, hc⟩ := Bindings.exists_joinPart_iff.2 ⟨a, rfl, ha⟩
  cases h with
  | unconstrained => exact ⟨b, rfl⟩
  | unbound name type => exact ⟨c, congrArg Except.ok hc⟩
  | specifier h =>
    refine ⟨c, ?_⟩
    rw [Option.getD_some, recognizeAccess_some fun _ _ _ =>
      ne_empty_of_isAccessSpecifier (hspecifier _ rfl), h]
    exact congrArg Except.ok hc
  | absence hvar h =>
    refine ⟨c, ?_⟩
    rw [recognizeAccess_some fun name type hf => absurd hf (hvar name type), Option.getD_none, h]
    exact congrArg Except.ok hc

/-! ### The fixed fragments -/

/-- The search ends with a pairing of the fixed fragments with different items. -/
private theorem exists_pairsFind (hrest : ∀ f ∈ rest, f.WellFormed)
    (h : recognizeSet s fixed rest items b = .ok (some c)) :
    ∃ chosen left found r, items.Perm (chosen ++ left) ∧ PairsFind s fixed chosen found ∧
      RestFinds s rest left r ∧ c.Unites (b :: (found ++ [r])) := by
  induction fixed generalizing items b with
  | nil =>
    rw [recognizeSet] at h
    obtain ⟨r, hr, hc⟩ := exists_restFinds hrest h
    exact ⟨[], items, [], r, .refl _, .nil, hr, hc⟩
  | cons f fs ih =>
    rw [recognizeSet] at h
    obtain ⟨⟨e, others⟩, hmem, h⟩ := exists_of_firstSuccess h
    obtain ⟨p, mid, hp, hmid, h⟩ := exists_of_join h
    obtain ⟨chosen, left, found, r, hperm, hpairs, hr, hc⟩ := ih h
    exact ⟨e :: chosen, left, p :: found, r, (perm_of_mem_selections hmem).trans (hperm.cons e),
      .cons hp hpairs, hr, hc.trans (Bindings.unites_of_joinPart hmid)⟩

/-- The search finds a pairing when there is one. It may be another one: an item that can be tried
first leads to a pairing of its own or to none. -/
private theorem PairsFind.exists_recognizeSet {r : Bindings} (h : PairsFind s fixed chosen found)
    (hfixed : ∀ f ∈ fixed, f.WellFormed) (hremainder : ∀ f ∈ rest, f.isRemainder = true)
    (hperm : items.Perm (chosen ++ left)) (hr : RestFinds s rest left r)
    (hunify : (b :: (found ++ [r])).Pairwise Bindings.Unifies) :
    ∃ c, recognizeSet s fixed rest items b = .ok (some c) := by
  induction h generalizing items b with
  | nil =>
    rw [recognizeSet]
    exact (hr.perm hperm.symm).exists_recognizeRest
      (List.rel_of_pairwise_cons hunify (List.mem_singleton_self r))
  | @cons f e p fs es bs hp hpairs ih =>
    have hfs (g : Fragment) (hg : g ∈ fs) := hfixed g (List.mem_cons_of_mem _ hg)
    rw [recognizeSet]
    obtain ⟨others, hmem, hothers⟩ := exists_perm_of_selections hperm
    refine exists_firstSuccess (fun x _ => ?_) hmem ?_
    -- no attempt meets a defect, whether or not it succeeds
    · obtain ⟨part, hpart⟩ := (hfixed f (List.mem_cons_self ..)).recognize_eq_ok s x.1
      simp only [hpart]
      cases hj : b.joinPart part with
      | none => exact ⟨none, by simp [bind, Except.bind, hj]⟩
      | some mid =>
        simp only [bind, Except.bind, hj]
        exact recognizeSet_eq_ok (fun g hg => (hfs g hg).recognize_eq_ok s) hremainder x.2 mid
    -- the attempt with the item of the division succeeds: its part unifies with all others
    · have hbp := List.rel_of_pairwise_cons hunify (List.mem_cons_self ..)
      obtain ⟨mid, hmid⟩ := Bindings.exists_joinPart_iff.2 ⟨p, rfl, hbp⟩
      obtain ⟨c, hc⟩ := ih hfs hothers ((Bindings.unites_of_joinPart hmid).pairwise_cons hunify)
      refine ⟨c, ?_⟩
      simp only [hp, bind, Except.bind, hmid, hc]

/-! ### Modifier sets -/

/-- The access specifier of a set is one. -/
theorem isAccessSpecifier_of_mem_head? {e : Entity}
    (h : e ∈ (items.filter Entity.isAccessSpecifier).head?) : e.isAccessSpecifier = true :=
  (List.mem_filter.1 (List.mem_of_mem_head? h)).2

/-- A modifier set is recognized by dividing its items, and what is found is united. -/
theorem exists_division {e : Entity} (hwf : (unordered access fixed rest).WellFormed)
    (hitems : e.items? = some items)
    (h : (unordered access fixed rest).recognize s e = .ok (some c)) :
    ∃ d : Division s access fixed rest items, c.Unites d.parts := by
  cases hwf with
  | unordered _ _ hrest _ =>
  simp only [recognize, hitems] at h
  split at h
  · cases h
  · rename_i hone
    -- first an access specifier is found, then the fixed parts, and the rest is left
    obtain ⟨o, ho, h⟩ := Except.bind_eq_ok.1 h
    cases o with
    | none => cases h
    | some mid =>
      obtain ⟨a, ha, hmid⟩ := exists_accessFinds (fun _ => isAccessSpecifier_of_mem_head?) ho
      obtain ⟨chosen, left, found, r, hperm, hpairs, hr, hc⟩ := exists_pairsFind hrest h
      have hunites := (hc.trans hmid).of_cons fun _ => rfl
      exact ⟨⟨chosen, left, a, found, r, Nat.not_lt.1 hone, ha, hperm, hpairs, hr,
        hunites.pairwise⟩, hunites⟩

/-- Where the items can be divided the modifier set is recognized. -/
theorem Division.exists_recognize (d : Division s access fixed rest items) {e : Entity}
    (hwf : (unordered access fixed rest).WellFormed) (hitems : e.items? = some items) :
    ∃ c, (unordered access fixed rest).recognize s e = .ok (some c) := by
  cases hwf with
  | unordered _ hfixed _ hremainder =>
  have hspecifier (e : Entity) (h : e ∈ (items.filter Entity.isAccessSpecifier).head?) :
      e.isAccessSpecifier = true := isAccessSpecifier_of_mem_head? h
  obtain ⟨mid, hmid⟩ := d.accessFinds.exists_recognizeAccess (b := .ofResult e) hspecifier
    (Bindings.unifies_of_find?_eq_none fun _ => rfl)
  obtain ⟨a, ha, hunites⟩ := exists_accessFinds hspecifier hmid
  obtain rfl := d.accessFinds.unique ha
  obtain ⟨c, hc⟩ := d.pairsFind.exists_recognizeSet hfixed hremainder d.perm d.restFinds
    ((hunites.of_cons fun _ => rfl).pairwise_cons d.unify)
  refine ⟨c, ?_⟩
  simp only [recognize, hitems, gt_iff_lt, Nat.not_lt.2 d.atMostOne, if_false, hmid]
  exact hc

/-- A list of at most one element has one order. -/
private theorem eq_of_perm_of_length_le_one {α : Type} {l m : List α} (h : l.Perm m)
    (hl : l.length ≤ 1) : l = m := by
  cases l with
  | nil => exact h.nil_eq
  | cons a l =>
    obtain rfl : l = [] := List.length_eq_zero_iff.1 (Nat.le_zero.1 (Nat.le_of_succ_le_succ hl))
    exact h.symm.eq_singleton.symm

/-- A modifier set recognizes the lists whose items can be divided, and meets no defect. -/
theorem exists_recognize_unordered (s : Surroundings) {e : Entity}
    (hwf : (unordered access fixed rest).WellFormed) (hitems : e.items? = some items) :
    ∃ found, (unordered access fixed rest).recognize s e = .ok found ∧
      (found.isSome = true ↔ Nonempty (Division s access fixed rest items)) := by
  obtain ⟨found, hfound⟩ := hwf.recognize_eq_ok s e
  refine ⟨found, hfound, fun h => ?_, fun ⟨d⟩ => ?_⟩
  · obtain ⟨c, rfl⟩ := Option.isSome_iff_exists.1 h
    obtain ⟨d, _⟩ := exists_division hwf hitems hfound
    exact ⟨d⟩
  · obtain ⟨c, hc⟩ := d.exists_recognize hwf hitems
    rw [Except.ok.inj (hfound.symm.trans hc), Option.isSome_some]

/-- The order of the items does not matter for dividing them. -/
theorem Division.nonempty_perm (d : Division s access fixed rest items) {items' : List Entity}
    (h : items.Perm items') : Nonempty (Division s access fixed rest items') := by
  have heq := eq_of_perm_of_length_le_one (h.filter Entity.isAccessSpecifier) d.atMostOne
  exact ⟨{ d with
    atMostOne := heq ▸ d.atMostOne
    accessFinds := heq ▸ d.accessFinds
    perm := (h.filter _).symm.trans d.perm }⟩

/-! ### Sets of modifiers only -/

/-- A fixed fragment that recognizes a modifier is known to be that modifier, and binds nothing. -/
private theorem eq_resolved_of_recognize {f : Fragment} {m : Modifier}
    (hf : f.isRemainder = false) (h : f.recognize s (.modifier m) = .ok (some b)) :
    f = resolved (.modifier m) ∧ ∀ n, b.find? n = none := by
  -- only a part that spells a modifier out recognizes a modifier without binding a name
  cases f with
  | resolved known =>
    simp only [recognize, Except.ok.injEq] at h
    split at h
    · rename_i hshape
      obtain rfl := Option.some.inj h
      exact ⟨congrArg resolved (Entity.shape_eq_modifier.1 (Entity.sameShape_iff.1 hshape)),
        fun _ => rfl⟩
    · cases h
  | var => cases hf
  | wildcard => cases hf
  | node tag slots =>
    simp only [recognize, Entity.node?] at h
    split at h <;> cases h
  | _ => cases h

/-- Fixed fragments that recognize modifiers are these modifiers, and bind nothing. -/
private theorem PairsFind.of_modifiers (hfixed : ∀ f ∈ fixed, f.isRemainder = false)
    (hchosen : ∀ e ∈ chosen, e.IsModifier) (h : PairsFind s fixed chosen found) :
    fixed = chosen.map resolved ∧ ∀ b ∈ found, ∀ n, b.find? n = none := by
  induction h with
  | nil => exact ⟨rfl, by simp⟩
  | @cons f e b fs es bs hf _ ih =>
    obtain ⟨m, rfl⟩ := hchosen e (List.mem_cons_self ..)
    obtain ⟨rfl, hb⟩ := eq_resolved_of_recognize (hfixed f (List.mem_cons_self ..)) hf
    obtain ⟨rfl, hbs⟩ := ih (fun g hg => hfixed g (List.mem_cons_of_mem _ hg))
      fun e he => hchosen e (List.mem_cons_of_mem _ he)
    exact ⟨rfl, List.forall_mem_cons.2 ⟨hb, hbs⟩⟩

/-- The remainder finds one thing only. -/
private theorem RestFinds.unique {r r' : Bindings} (h : RestFinds s rest left r)
    (h' : RestFinds s rest left r') : r = r' := by
  cases h with
  | nothing => cases h'; rfl
  | anything => cases h'; rfl
  | unbound => cases h'; rfl
  | single h =>
    cases h' with
    | single h' => exact Option.some.inj (Except.ok.inj (h.symm.trans h'))

/-- The remainder binds a modifier that was left or nothing. -/
private theorem RestFinds.valuesIn {r : Bindings} (h : RestFinds s rest left r)
    (hleft : ∀ e ∈ left, e.IsModifier) : r.ValuesIn fun e => e.IsModifier ∨ e = .empty := by
  cases h with
  | nothing => exact Bindings.valuesIn_empty
  | anything => exact Bindings.valuesIn_empty
  | unbound name type => exact Bindings.valuesIn_empty.bind (.inr rfl) name
  | @single name type e _ h =>
    rw [recognize, recognizeVar, Except.ok.injEq] at h
    split at h
    · obtain rfl := Option.some.inj h
      exact (Bindings.valuesIn_ofResult e).bind (.inl (hleft e (List.mem_singleton_self e))) name
    · cases h

/-- No other entity has the shape of a modifier or of nothing. -/
private theorem eq_of_shape {e e' : Entity} (he : e.IsModifier ∨ e = .empty)
    (hshape : e'.shape = e.shape) : e' = e := by
  rcases he with ⟨m, rfl⟩ | rfl
  · exact Entity.shape_eq_modifier.1 hshape
  · exact Entity.shape_eq_empty.1 hshape

/-- The division of a set of modifiers is known from the modifiers, up to the order of those that are
left, and so are the variables. -/
private theorem Division.find?_eq (d : Division s access fixed rest items) {items' : List Entity}
    (d' : Division s access fixed rest items') (hperm : items.Perm items')
    (hfixed : ∀ f ∈ fixed, f.isRemainder = false) (hmodifiers : ∀ e ∈ items, e.IsModifier)
    {c' : Bindings} (hc : c.Unites d.parts) (hc' : c'.Unites d'.parts) (n : String) :
    c.find? n = c'.find? n := by
  have hmem {l : List Entity} (d : Division s access fixed rest l) {e : Entity}
      (he : e ∈ d.chosen ++ d.left) : e ∈ l := (List.mem_filter.1 (d.perm.mem_iff.2 he)).1
  have hmodifiers' (e : Entity) (he : e ∈ items') := hmodifiers e (hperm.mem_iff.2 he)
  have hleft (e : Entity) (he : e ∈ d.left) := hmodifiers e (hmem d (List.mem_append_right _ he))
  obtain ⟨hchosen, hnothing⟩ := d.pairsFind.of_modifiers hfixed fun e he =>
    hmodifiers e (hmem d (List.mem_append_left _ he))
  obtain ⟨hchosen', hnothing'⟩ := d'.pairsFind.of_modifiers hfixed fun e he =>
    hmodifiers' e (hmem d' (List.mem_append_left _ he))
  -- the fixed fragments take the same modifiers, so the same are left
  have hsame : d.chosen = d'.chosen :=
    List.map_injective_iff.2 (fun _ _ => Fragment.resolved.inj) (hchosen.symm.trans hchosen')
  have hperm' := (d.perm.symm.trans (hperm.filter _)).trans d'.perm
  rw [hsame, List.perm_append_left_iff] at hperm'
  have hrest : d'.restFound = d.restFound := d'.restFinds.unique (d.restFinds.perm hperm')
  -- at most one item is an access specifier, so it is the same in both orders
  have haccess : d'.accessFound = d.accessFound := by
    refine d'.accessFinds.unique ?_
    rw [← eq_of_perm_of_length_le_one (hperm.filter Entity.isAccessSpecifier) d.atMostOne]
    exact d.accessFinds
  -- without what the fixed fragments find, which binds nothing
  have hunites {l : List Entity} {d : Division s access fixed rest l} {b : Bindings}
      (hb : b.Unites d.parts) (hnothing : ∀ p ∈ d.fixedFound, ∀ n, p.find? n = none) :
      b.Unites [d.accessFound, d.restFound] := by
    refine hb.of_subset (by simp [parts]) fun p hp hne => hnothing p ?_
    simp only [parts, List.mem_cons, List.mem_append, List.not_mem_nil, or_false, not_or] at hp hne
    exact (hp.resolve_left hne.1).resolve_right hne.2
  have hfirst := hunites hc hnothing
  have hsecond := hunites hc' hnothing'
  rw [haccess, hrest] at hsecond
  have hshape (n : String) (e e' : Entity) (he : d.restFound.find? n = some e)
      (h : e'.shape = e.shape) : e' = e := eq_of_shape (d.restFinds.valuesIn hleft n e he) h
  exact Option.ext fun e => ⟨hfirst.find?_eq_some hsecond hshape, hsecond.find?_eq_some hfirst hshape⟩

end Fragment

/-! ### Compiled modifier sets -/

namespace ModifierParts

/-- Adding an item keeps the fixed fragments from taking what is left. -/
private theorem add_fixed {parts parts' : ModifierParts} {set : Span} {item : Pattern} {f : Fragment}
    (h : parts.add set item f = .ok parts') (hparts : ∀ g ∈ parts.fixed, g.isRemainder = false) :
    ∀ g ∈ parts'.fixed, g.isRemainder = false := by
  unfold add at h
  -- what is added is an access specifier, the remainder or a fixed part
  split at h
  · split at h
    · cases h
    · exact Except.ok.inj h ▸ hparts
  · split at h
    · split at h
      · cases h
      · exact Except.ok.inj h ▸ hparts
    · rename_i hf
      obtain rfl := Except.ok.inj h
      intro g hg
      rcases List.mem_append.1 hg with hg | hg
      · exact hparts g hg
      · exact List.mem_singleton.1 hg ▸ Bool.not_eq_true _ ▸ hf

end ModifierParts

namespace Pattern

/-- No item of a set becomes a fixed fragment that can take what is left. -/
private theorem compileSet_fixed {scope : Scope} {set : Span} {ps : List Pattern}
    {parts parts' : ModifierParts} (h : compileSet scope set parts ps = .ok parts')
    (hparts : ∀ g ∈ parts.fixed, g.isRemainder = false) :
    ∀ g ∈ parts'.fixed, g.isRemainder = false := by
  induction ps generalizing parts with
  | nil =>
    simp only [compileSet, Except.ok.injEq] at h
    exact h ▸ hparts
  | cons p ps ih =>
    obtain ⟨f, mid, hmid, h⟩ : ∃ f mid, parts.add set p f = .ok mid ∧
        compileSet scope set mid ps = .ok parts' := by
      -- an access slot is compiled by its name, any other item as a pattern
      by_cases hacc : ∃ span name, p = access span name
      · obtain ⟨span, name, rfl⟩ := hacc
        simp only [compileSet, Except.bind_eq_ok] at h
        obtain ⟨mid, hmid, h⟩ := h
        exact ⟨_, mid, hmid, h⟩
      · rw [compileSet] at h
        · simp only [Except.bind_eq_ok] at h
          obtain ⟨f, _, mid, hmid, h⟩ := h
          exact ⟨f, mid, hmid, h⟩
        · exact fun span name hp => hacc ⟨span, name, hp⟩
    exact ih h (ModifierParts.add_fixed hmid hparts)

/-- The fixed fragments of a compiled modifier set cannot take what is left. -/
theorem isRemainder_of_mem_fixed {scope : Scope} {p : Pattern} {access rest : Option Fragment}
    {fixed : List Fragment} (h : p.compile scope = .ok (.unordered access fixed rest)) :
    ∀ f ∈ fixed, f.isRemainder = false := by
  -- only modifier sets are compiled to fragments of sets
  cases p with
  | modifierSet span items =>
    simp only [compile, Except.bind_eq_ok, Except.pure_eq_ok] at h
    obtain ⟨parts, hparts, h⟩ := h
    obtain ⟨-, rfl, -⟩ := Fragment.unordered.inj h
    exact compileSet_fixed hparts (by simp)
  | var span name =>
    simp only [compile, Scope.fragment, Except.ok.injEq] at h
    split at h
    · cases h
    · split at h <;> cases h
  | node span tag slots =>
    rw [compile.eq_def] at h
    simp only at h
    split at h
    · simp only [Except.bind_eq_ok, reduceCtorEq, false_and, exists_const] at h
    · split at h <;> simp [Except.bind_eq_ok] at h
  | list span items =>
    simp [compile] at h
  | _ => cases h

/-- A compiled modifier set recognizes a list exactly when the items can be divided among its parts.
So the order of the items does not matter, and among modifiers it does not matter for the variables
either. -/
theorem recognize_modifierSet {scope : Scope} {p : Pattern} {access rest : Option Fragment}
    {fixed : List Fragment} (hp : p.compile scope = .ok (.unordered access fixed rest))
    (s : Surroundings) {e : Entity} {items : List Entity} (hitems : e.items? = some items) :
    ∃ found, (Fragment.unordered access fixed rest).recognize s e = .ok found ∧
      (found.isSome ↔ Nonempty (Fragment.Division s access fixed rest items)) ∧
      ∀ (e' : Entity) (items' : List Entity), e'.items? = some items' → items.Perm items' →
        ∃ found', (Fragment.unordered access fixed rest).recognize s e' = .ok found' ∧
          found'.isSome = found.isSome ∧
          ((∀ i ∈ items, i.IsModifier) → found'.map Bindings.vars = found.map Bindings.vars) := by
  have hwf := compile_wellFormed hp
  obtain ⟨found, hfound, hiff⟩ := Fragment.exists_recognize_unordered s hwf hitems
  refine ⟨found, hfound, hiff, fun e' items' hitems' hperm => ?_⟩
  obtain ⟨found', hfound', hiff'⟩ := Fragment.exists_recognize_unordered s hwf hitems'
  -- a division of one order is one of the other
  have hsome : found'.isSome = found.isSome := by
    rw [Bool.eq_iff_iff, hiff, hiff']
    exact ⟨fun ⟨d⟩ => d.nonempty_perm hperm.symm, fun ⟨d⟩ => d.nonempty_perm hperm⟩
  refine ⟨found', hfound', hsome, fun hmodifiers => ?_⟩
  cases found with
  | none => rw [Option.isNone_iff_eq_none.1 (Option.isSome_eq_false_iff.1 hsome)]
  | some c =>
    -- both are recognized: the divisions take the same modifiers, so the variables stand for the same
    obtain ⟨c', rfl⟩ := Option.isSome_iff_exists.1 hsome
    obtain ⟨d, hd⟩ := Fragment.exists_division hwf hitems hfound
    obtain ⟨d', hd'⟩ := Fragment.exists_division hwf hitems' hfound'
    refine congrArg some (Dict.ext_find? fun n => ?_)
    exact (d.find?_eq d' hperm (isRemainder_of_mem_fixed hp) hmodifiers hd hd' n).symm

end Pattern

/-! ### A set of three modifiers -/

namespace StaticMember

/-- The modifiers of a static member: an access specifier, `static` and perhaps one more. -/
def pattern : Pattern :=
  .modifierSet .synthetic
    [.access .synthetic (some "access"), .resolved .synthetic (.modifier .static),
      .var .synthetic "more"]

def access : Option Fragment := some (.var "access" (.category .accessSpecifier))

def fixed : List Fragment := [.resolved (.modifier .static)]

def rest : Option Fragment := some (.var "more" .any)

def modifiers : List Entity := [.modifier .final, .modifier .static, .modifier .publicAccess]

/-- In any order the three modifiers are recognized, and the variables stand for the same. -/
theorem recognize_modifierSet_modifiers :
    pattern.compile {} = .ok (.unordered access fixed rest) ∧ ∃ b,
      (Fragment.unordered access fixed rest).recognize .none (.list modifiers) = .ok (some b) ∧
      Nonempty (Fragment.Division .none access fixed rest modifiers) ∧
      ∀ items, modifiers.Perm items → ∃ b',
        (Fragment.unordered access fixed rest).recognize .none (.list items) = .ok (some b') ∧
        b'.vars = b.vars := by
  have hcompile : pattern.compile {} = .ok (.unordered access fixed rest) := rfl
  -- the search finds a division, whatever the order of the modifiers
  obtain ⟨found, hfound, hiff, hperm⟩ :=
    Pattern.recognize_modifierSet hcompile .none (show (Entity.list modifiers).items? = _ from rfl)
  have hsome : (((Fragment.unordered access fixed rest).recognize .none
      (.list modifiers)).toOption.join).isSome = true := by decide +kernel
  rw [hfound] at hsome
  obtain ⟨b, rfl⟩ := Option.isSome_iff_exists.1 hsome
  refine ⟨hcompile, b, hfound, hiff.1 rfl, fun items hitems => ?_⟩
  obtain ⟨found', hfound', hsome', hvars⟩ := hperm (.list items) items rfl hitems
  obtain ⟨b', rfl⟩ := Option.isSome_iff_exists.1 (hsome'.trans rfl)
  exact ⟨b', hfound', Option.some.inj (hvars (by simp [modifiers, Entity.IsModifier]))⟩

end StaticMember

end CodeRules
