import CodeRules.Fragment.Recognize
import CodeRules.Proofs.Binding.Bindings
import CodeRules.Proofs.Code.Slots
import CodeRules.Proofs.Effect
import CodeRules.Proofs.Fragment.Normal
import CodeRules.Proofs.Fragment.WellFormed

/-!
# What was recognized

When a fragment recognizes an entity its parts recognize parts of the entity, and what they find is
kept, up to shapes, by the bindings that are found in the end (`Fragment.FoundIn`). There is one
lemma for each way in which parts are put together.
-/

namespace CodeRules

namespace Fragment

variable {s : Surroundings} {b b₀ : Bindings}

/-- What a part is joined to covers the part and the bindings before. -/
theorem covers_of_joinPart {part : Option Bindings} (h : b₀.joinPart part = some b) :
    b.Covers b₀ ∧ ∃ found, part = some found ∧ b.Covers found := by
  obtain ⟨found, rfl, h⟩ := Option.bind_eq_some_iff.1 h
  obtain ⟨hfirst, hsecond⟩ := Bindings.covers_of_unifyMerge? h
  exact ⟨hfirst, found, rfl, hsecond⟩

/-- The fragment recognizes the entity, and what it finds is covered. -/
def FoundIn (s : Surroundings) (b : Bindings) (f : Fragment) (e : Entity) : Prop :=
  ∃ found, f.recognize s e = .ok (some found) ∧ b.Covers found

/-- What is found stays found when more is bound. -/
theorem FoundIn.mono {c : Bindings} {f : Fragment} {e : Entity} (h : FoundIn s b f e)
    (hc : c.Covers b) : FoundIn s c f e := by
  obtain ⟨found, hfound, hb⟩ := h
  exact ⟨found, hfound, hc.trans hb⟩

/-- One more part was recognized and joined, and then what `next` says. -/
theorem exists_of_join {x : Recognition} {next : Bindings → Recognition}
    (h : (do
      match b₀.joinPart (← x) with
      | none => .ok none
      | some b => next b : Recognition) = .ok (some b)) :
    ∃ found mid, x = .ok (some found) ∧ b₀.joinPart (some found) = some mid ∧
      next mid = .ok (some b) := by
  obtain ⟨part, hpart, h⟩ := Except.bind_eq_ok.1 h
  split at h
  · cases h
  · rename_i mid hmid
    obtain ⟨_, found, rfl, _⟩ := covers_of_joinPart hmid
    exact ⟨found, mid, hpart, hmid, h⟩

/-- A part that was recognized and joined is found in the bindings that come of it. -/
theorem foundIn_of_join {f : Fragment} {e : Entity} {next : Bindings → Recognition}
    (h : (do
      match b₀.joinPart (← f.recognize s e) with
      | none => .ok none
      | some b => next b : Recognition) = .ok (some b)) :
    ∃ mid : Bindings, mid.Covers b₀ ∧ FoundIn s mid f e ∧ next mid = .ok (some b) := by
  obtain ⟨found, mid, hfound, hmid, h⟩ := exists_of_join h
  obtain ⟨hcovers, _, hpart, hjoined⟩ := covers_of_joinPart hmid
  exact ⟨mid, hcovers, ⟨_, hpart ▸ hfound, hjoined⟩, h⟩

/-- Two parts were recognized, one after the other. -/
theorem foundIn_of_joins {f g : Fragment} {e e' : Entity}
    (h : (do
      match b₀.joinPart (← f.recognize s e) with
      | none => .ok none
      | some b => return b.joinPart (← g.recognize s e') : Recognition) = .ok (some b)) :
    FoundIn s b f e ∧ FoundIn s b g e' := by
  obtain ⟨mid, _, hfirst, h⟩ := foundIn_of_join h
  obtain ⟨part, hpart, h⟩ := Except.bind_eq_ok.1 h
  obtain ⟨hmid, found, rfl, hfound⟩ := covers_of_joinPart (Except.pure_eq_ok.1 h)
  exact ⟨hfirst.mono hmid, found, hpart, hfound⟩

/-- The parts of an entity were recognized one by one. -/
theorem foundIn_of_recognizeAll {fs : List Fragment} {es : List Entity}
    (hlength : fs.length = es.length) (h : recognizeAll s fs es b₀ = .ok (some b)) :
    b.Covers b₀ ∧ List.Forall₂ (FoundIn s b) fs es := by
  induction fs generalizing es b₀ with
  | nil =>
    obtain rfl : es = [] := List.length_eq_zero_iff.1 hlength.symm
    simp only [recognizeAll, Except.ok.injEq, Option.some.injEq] at h
    exact ⟨h ▸ .refl b₀, .nil⟩
  | cons f fs ih =>
    cases es with
    | nil => cases hlength
    | cons e es =>
      rw [recognizeAll] at h
      obtain ⟨mid, hmid, hfound, h⟩ := foundIn_of_join h
      obtain ⟨hb, hrest⟩ := ih (Nat.succ.inj hlength) h
      exact ⟨hb.trans hmid, .cons (hfound.mono hb) hrest⟩

/-- The first success is one of the attempts. -/
theorem exists_of_firstSuccess {α : Type} {attempt : α → Recognition} {l : List α}
    (h : firstSuccess attempt l = .ok (some b)) : ∃ a ∈ l, attempt a = .ok (some b) := by
  induction l with
  | nil => cases h
  | cons a l ih =>
    obtain ⟨r, hr, h⟩ := Except.bind_eq_ok.1 h
    cases r with
    | some found =>
      obtain rfl : found = b := Option.some.inj (Except.ok.inj h)
      exact ⟨a, List.mem_cons_self .., hr⟩
    | none =>
      obtain ⟨x, hx, hfound⟩ := ih h
      exact ⟨x, List.mem_cons_of_mem _ hx, hfound⟩

/-- A selection is an element and all others. -/
theorem perm_of_mem_selections {α : Type} {l : List α} {x : α × List α} (h : x ∈ selections l) :
    l.Perm (x.1 :: x.2) := by
  induction l generalizing x with
  | nil => cases h
  | cons a l ih =>
    rcases List.mem_cons.1 h with rfl | h
    · exact .refl _
    · obtain ⟨y, hy, rfl⟩ := List.mem_map.1 h
      exact ((ih hy).cons a).trans (.swap ..)

/-- Every element can be selected. -/
theorem exists_mem_selections {α : Type} {l : List α} {a : α} (h : a ∈ l) :
    ∃ rest, (a, rest) ∈ selections l := by
  induction l with
  | nil => cases h
  | cons c l ih =>
    rcases List.mem_cons.1 h with rfl | h
    · exact ⟨l, List.mem_cons_self ..⟩
    · obtain ⟨rest, hrest⟩ := ih h
      exact ⟨c :: rest, List.mem_cons_of_mem _ (List.mem_map_of_mem hrest)⟩

/-- Whatever an element can be taken out for is what remains of some selection. -/
theorem exists_perm_of_selections {α : Type} {l m : List α} {a : α} (h : l.Perm (a :: m)) :
    ∃ rest, (a, rest) ∈ selections l ∧ rest.Perm m := by
  obtain ⟨rest, hrest⟩ := exists_mem_selections (h.mem_iff.2 (List.mem_cons_self ..))
  exact ⟨rest, hrest, ((perm_of_mem_selections hrest).symm.trans h).cons_inv⟩

/-- When no attempt meets a defect, one success is enough. -/
theorem exists_firstSuccess {α : Type} {attempt : α → Recognition} {l : List α}
    (hok : ∀ a ∈ l, ∃ r, attempt a = .ok r) {a : α} (ha : a ∈ l)
    (h : ∃ c, attempt a = .ok (some c)) : ∃ c, firstSuccess attempt l = .ok (some c) := by
  induction l with
  | nil => cases ha
  | cons x l ih =>
    obtain ⟨r, hr⟩ := hok x (List.mem_cons_self ..)
    cases r with
    | some found => exact ⟨found, by rw [firstSuccess, hr]; rfl⟩
    | none =>
      have hnext : firstSuccess attempt (x :: l) = firstSuccess attempt l := by
        rw [firstSuccess, hr]
        rfl
      rw [hnext]
      -- the first attempt has failed, so the success is one of the others
      refine ih (fun y hy => hok y (List.mem_cons_of_mem _ hy)) ?_
      rcases List.mem_cons.1 ha with rfl | ha
      · obtain ⟨c, hc⟩ := h
        cases hr.symm.trans hc
      · exact ha

/-- Different items were paired with the fixed fragments, and the rest took the others. -/
theorem foundIn_of_recognizeSet {fs : List Fragment} {rest : Option Fragment} {items : List Entity}
    (h : recognizeSet s fs rest items b₀ = .ok (some b))
    (hrest : ∀ left b₁, recognizeRest s.types rest left b₁ = .ok (some b) → b.Covers b₁) :
    ∃ chosen left b₁, items.Perm (chosen ++ left) ∧ List.Forall₂ (FoundIn s b) fs chosen ∧
      b.Covers b₀ ∧ recognizeRest s.types rest left b₁ = .ok (some b) := by
  induction fs generalizing items b₀ with
  | nil =>
    rw [recognizeSet] at h
    exact ⟨[], items, b₀, .refl _, .nil, hrest items b₀ h, h⟩
  | cons f fs ih =>
    rw [recognizeSet] at h
    obtain ⟨⟨e, others⟩, hmem, h⟩ := exists_of_firstSuccess h
    obtain ⟨mid, hmid, hfound, h⟩ := foundIn_of_join h
    obtain ⟨chosen, left, b₁, hperm, hchosen, hb, hleft⟩ := ih h
    refine ⟨e :: chosen, left, b₁, ?_, .cons (hfound.mono hb) hchosen, hb.trans hmid, hleft⟩
    exact (perm_of_mem_selections hmem).trans (hperm.cons e)

/-! ### Variables and modifier sets -/

/-- A variable that recognizes an entity accepts it and stands for it. -/
theorem find?_of_recognizeVar {types : TypeOracle} {name : String} (hname : name ≠ CodeRules.wildcard)
    {type : ParamType} {e : Entity} (h : recognizeVar types name type e = some b) :
    type.accepts types e = true ∧ b.find? name = some e := by
  unfold recognizeVar at h
  split at h
  · rename_i haccepts
    obtain rfl := Option.some.inj h
    exact ⟨haccepts, Bindings.find?_bind_self hname rfl e⟩
  · cases h

/-- What takes the rest of a modifier set adds to the bindings. -/
theorem covers_of_recognizeRest {types : TypeOracle} {rest : Option Fragment}
    (hrest : ∀ f ∈ rest, f.WellFormed) {left : List Entity} {b₁ : Bindings}
    (h : recognizeRest types rest left b₁ = .ok (some b)) : b.Covers b₁ := by
  unfold recognizeRest at h
  split at h
  · exact Option.some.inj (Except.ok.inj h) ▸ .refl b₁
  · cases h
  · exact Option.some.inj (Except.ok.inj h) ▸ .refl b₁
  · cases hrest _ rfl with
    | var hname => exact (Bindings.covers_of_bind? hname (Except.ok.inj h)).1
  · exact (covers_of_joinPart (Except.ok.inj h)).1
  · cases h
  · cases h

end Fragment

/-! ### Slots and fields as a fragment sees them -/

/-- A receiver that was never written is tidy. -/
theorem Surroundings.tidy_implicitReceiver (s : Surroundings) (n : Node) :
    (s.implicitReceiver n).Tidy := by
  unfold implicitReceiver
  split
  · rename_i m hm
    intro x hx
    rw [Entity.nodes, Node.preorder_eq] at hx
    obtain rfl := List.mem_singleton.1 hx
    exact ⟨rfl, fun c hc => by cases hc⟩
  · exact Entity.tidy_of_nodes_eq_nil rfl

/-- What stands for a missing receiver is such a receiver, or nothing. -/
theorem Surroundings.implicitReceiver_eq (s : Surroundings) (n : Node) :
    s.implicitReceiver n = .empty ∨
      ∃ r, s.implicitReceiver n = .node r ∧ r.kind.isImplicitReceiver = true := by
  unfold implicitReceiver
  split
  · exact .inr ⟨_, rfl, rfl⟩
  · exact .inl rfl

namespace Fragment

/-- The slots that a fragment sees are those of the node, or of the node with a receiver that was
never written. -/
theorem exists_callSlots (s : Surroundings) {n : Node} (hn : ∀ m ∈ n.preorder, m.Tidy)
    (slots : List Fragment) : ∃ k : NodeKind Node, callSlots s n slots = k.slots ∧
      k.written = n.kind ∧ ∀ e ∈ k.slots, e.Tidy := by
  -- the slots have nodes of the tree only
  have hself : ∀ e ∈ n.kind.slots, e.Tidy := by
    intro e he m hm
    obtain ⟨c, hc, hm⟩ := NodeKind.nodes_of_mem_slots he hm
    refine hn m ?_
    rw [Node.preorder_eq]
    exact List.mem_cons_of_mem _ (List.mem_flatMap.2 ⟨c, hc, hm⟩)
  have hwritten : n.kind.written = n.kind :=
    NodeKind.written_eq_self (hn n n.mem_preorder_self).written
  have hplain (h : callSlots s n slots = n.kind.slots) : ∃ k : NodeKind Node,
      callSlots s n slots = k.slots ∧ k.written = n.kind ∧ ∀ e ∈ k.slots, e.Tidy :=
    ⟨n.kind, h, hwritten, hself⟩
  -- only a call without receiver is seen with one
  by_cases hcall : ∃ method args, n.kind = .call none method args
  · obtain ⟨method, args, hkind⟩ := hcall
    have hvalues : n.kind.slots = [.empty, .name method, .ofNodes args] := by rw [hkind]; rfl
    cases slots with
    | nil => exact hplain rfl
    | cons f slots =>
    have hslots : callSlots s n (f :: slots) =
        (if n.tag = .call ∧ !f.isEmpty then s.implicitReceiver n else .empty) ::
          [.name method, .ofNodes args] := by
      unfold callSlots
      rw [hvalues]
    split at hslots
    · obtain hempty | ⟨r, hr, himplicit⟩ := s.implicitReceiver_eq n
      · exact hplain (by rw [hslots, hempty, hvalues])
      -- with a receiver that was never written, which is left out of the kind again
      · refine ⟨.call (some r) method args, by rw [hslots, hr]; rfl, ?_, fun e he => ?_⟩
        · simp [NodeKind.written, himplicit, hkind]
        · rcases List.mem_cons.1 he with rfl | he
          · exact hr.subst (motive := Entity.Tidy) (s.tidy_implicitReceiver n)
          · exact hself e (hvalues ▸ List.mem_cons_of_mem _ he)
    · exact hplain (by rw [hslots, hvalues])
  -- any other node is seen as it is
  · apply hplain
    unfold callSlots
    split
    · rename_i f _ values hslots
      have htag : n.tag ≠ .call := by
        intro htag
        cases hkind : n.kind with
        | call receiver method args =>
          cases receiver with
          | none => exact hcall ⟨method, args, hkind⟩
          | some r => rw [hkind] at hslots; cases hslots
        | _ => rw [Node.tag, hkind] at htag; cases htag
      rw [if_neg fun h => htag h.1, hslots]
    · rfl

/-- The field that a node reads is written with its receiver, or is a bare name. -/
theorem exists_of_fieldParts? {s : Surroundings} {n : Node} {owner name : Entity}
    (h : fieldParts? s n = some (owner, name)) : ∃ field, name = .name field ∧
      ((∃ r, owner = .node r ∧ n.kind = .fieldAccess r field) ∨
        owner = s.implicitReceiver n ∧ n.kind = .name field) := by
  unfold fieldParts? at h
  split at h
  · rename_i r field hkind
    obtain ⟨rfl, rfl⟩ := Prod.mk.inj (Option.some.inj h)
    exact ⟨field, rfl, .inl ⟨r, rfl, hkind⟩⟩
  · rename_i field hkind
    split at h
    · obtain ⟨rfl, rfl⟩ := Prod.mk.inj (Option.some.inj h)
      exact ⟨field, rfl, .inr ⟨rfl, hkind⟩⟩
    · cases h
  · cases h

end Fragment

end CodeRules
