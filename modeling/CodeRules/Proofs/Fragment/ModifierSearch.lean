import CodeRules.Proofs.Fragment.Exact

/-!
# What the search in a modifier set depends on

The search pairs the fixed fragments with items and compares what it finds with what was bound before.
Only the variables of the fixed fragments and of the remainder matter for this
(`Fragment.agree_recognizeSet`): bindings that agree on them lead to the same division of the items.
-/

namespace CodeRules

namespace Bindings

variable {V : String → Prop} {b b' p d d' : Bindings}

/-- The variables stand for the same in both, by shape. -/
def AgreeByShape (V : String → Prop) (b b' : Bindings) : Prop := ∀ n, V n → b.outline n = b'.outline n

/-- Agreement goes both ways. -/
theorem AgreeByShape.symm (h : AgreeByShape V b b') : AgreeByShape V b' b := fun n hn => (h n hn).symm

/-- Bindings that agree on the variables of a part unify with it alike. -/
theorem AgreeByShape.unifies (h : AgreeByShape V b b') (hp : ∀ n, p.binds n = true → V n)
    (hb : b.Unifies p) : b'.Unifies p := by
  refine unifies_iff.2 fun n k k' hk hk' => unifies_iff.1 hb n k k' ?_ hk'
  rw [h n (hp n (binds_iff_outline.2 ⟨k', hk'⟩)), hk]

/-- The same part, united to bindings that agree, gives bindings that agree. -/
theorem AgreeByShape.unites (h : AgreeByShape V b b') (hd : d.Unites [b, p])
    (hd' : d'.Unites [b', p]) : AgreeByShape V d d' := by
  intro n hn
  refine Option.ext fun k => ?_
  rw [hd.outline_eq_some_iff, hd'.outline_eq_some_iff]
  simp [h n hn]

/-- A variable can be bound unless it stands for something of another shape. -/
theorem exists_bind?_iff {name : String} (hname : name ≠ wildcard) {e : Entity} :
    (∃ c, b.bind? name e = some c) ↔ ∀ k, b.outline name = some k → k = e.shape := by
  constructor
  · rintro ⟨c, hc⟩ k hk
    obtain ⟨hcovers, e', he', hshape⟩ := covers_of_bind? hname hc
    rw [← hshape]
    exact Option.some.inj ((hcovers.outline hk).symm.trans (outline_of_find? he'))
  · intro h
    cases hb : b.find? name with
    | none => exact bind?_of_find?_eq_none hb e
    | some old =>
      have hshape : old.sameShape e = true := Entity.sameShape_iff.2 (h _ (outline_of_find? hb))
      exact ⟨b, by rw [bind?, if_neg hname, hb]; exact if_pos hshape⟩

/-- Binding a variable adds the shape of its entity when the variable had none. -/
theorem outline_of_bind? {name : String} (hname : name ≠ wildcard) {e : Entity}
    (h : b.bind? name e = some d) (n : String) :
    d.outline n = if n = name then some ((b.outline name).getD e.shape) else b.outline n := by
  rw [outline, find?_bind?_eq h]
  by_cases hn : n = name
  · rw [if_pos ⟨hn, hname⟩, if_pos hn, outline]
    cases b.find? name <;> rfl
  · rw [if_neg fun h => hn h.1, if_neg hn, outline]

end Bindings

open Bindings (AgreeByShape)

/-- Both outcomes are failures, or both are bindings that agree on the variables. -/
inductive Recognition.Agree (V : String → Prop) : Recognition → Recognition → Prop
  | failed : Agree V (.ok none) (.ok none)
  | found {b b' : Bindings} (h : AgreeByShape V b b') : Agree V (.ok (some b)) (.ok (some b'))

namespace Recognition.Agree

variable {V : String → Prop} {b b' : Bindings} {part : Option Bindings}

/-- A part is joined with the same success to bindings that agree on its variables. -/
theorem joinPart (h : AgreeByShape V b b') (hpart : ∀ p ∈ part, ∀ n, p.binds n = true → V n) :
    Agree V (.ok (b.joinPart part)) (.ok (b'.joinPart part)) := by
  cases part with
  | none => exact failed
  | some p =>
    have hp := hpart p rfl
    by_cases hunify : b.Unifies p
    · obtain ⟨d, hd⟩ := Bindings.exists_joinPart_iff.2 ⟨p, rfl, hunify⟩
      obtain ⟨d', hd'⟩ := Bindings.exists_joinPart_iff.2 ⟨p, rfl, h.unifies hp hunify⟩
      rw [hd, hd']
      exact found (h.unites (Bindings.unites_of_joinPart hd) (Bindings.unites_of_joinPart hd'))
    -- a part that does not unify cannot be joined
    · have hnone {c : Bindings} (hc : ¬ c.Unifies p) : c.joinPart (some p) = none := by
        refine Option.eq_none_iff_forall_ne_some.2 fun d hd => hc ?_
        obtain ⟨q, hq, hunify⟩ := Bindings.exists_joinPart_iff.1 ⟨d, hd⟩
        exact Option.some.inj hq ▸ hunify
      rw [hnone hunify, hnone fun h' => hunify (h.symm.unifies hp h')]
      exact failed

/-- A variable is bound with the same success in bindings that agree on it. -/
theorem bind? {name : String} (h : AgreeByShape V b b') (hname : name ≠ wildcard) (hV : V name)
    (e : Entity) : Agree V (.ok (b.bind? name e)) (.ok (b'.bind? name e)) := by
  have hiff : (∃ c, b'.bind? name e = some c) ↔ ∃ c, b.bind? name e = some c := by
    rw [Bindings.exists_bind?_iff hname, Bindings.exists_bind?_iff hname, h name hV]
  cases hb : b.bind? name e with
  | none =>
    have hb' : b'.bind? name e = none := by
      refine Option.eq_none_iff_forall_ne_some.2 fun c hc => ?_
      obtain ⟨d, hd⟩ := hiff.1 ⟨c, hc⟩
      cases hb.symm.trans hd
    rw [hb']
    exact failed
  | some d =>
    obtain ⟨d', hd'⟩ := hiff.2 ⟨d, hb⟩
    rw [hd']
    refine found fun n hn => ?_
    rw [Bindings.outline_of_bind? hname hb, Bindings.outline_of_bind? hname hd', h name hV, h n hn]

/-- After a part that is joined the next ones follow. -/
theorem thenPart (h : AgreeByShape V b b') (hpart : ∀ p ∈ part, ∀ n, p.binds n = true → V n)
    {next : Bindings → Recognition}
    (hnext : ∀ d d', AgreeByShape V d d' → Agree V (next d) (next d')) :
    Agree V (match b.joinPart part with
        | none => .ok none
        | some d => next d)
      (match b'.joinPart part with
        | none => .ok none
        | some d => next d) := by
  have hjoin := joinPart h hpart
  generalize b.joinPart part = o at hjoin ⊢
  generalize b'.joinPart part = o' at hjoin ⊢
  cases hjoin with
  | failed => exact failed
  | found hd => exact hnext _ _ hd

/-- The first success is found at the same place. -/
theorem firstSuccess {α : Type} {l : List α} {f f' : α → Recognition}
    (h : ∀ a ∈ l, Agree V (f a) (f' a)) :
    Agree V (CodeRules.firstSuccess f l) (CodeRules.firstSuccess f' l) := by
  induction l with
  | nil => exact failed
  | cons a l ih =>
    have ih := ih fun c hc => h c (List.mem_cons_of_mem _ hc)
    have ha := h a (List.mem_cons_self ..)
    simp only [CodeRules.firstSuccess]
    generalize f a = x at ha ⊢
    generalize f' a = y at ha ⊢
    cases ha with
    | failed => exact ih
    | found hd => exact found hd

end Recognition.Agree

namespace Fragment

open Recognition (Agree)

variable {V : String → Prop} {s : Surroundings} {fs : List Fragment} {rest : Option Fragment}
  {b b' : Bindings}

/-- What a fragment finds is bound to its variables. -/
private theorem bound_of_recognize {f : Fragment} (hwf : f.WellFormed) (hf : ∀ n ∈ f.occurrences, V n)
    {e : Entity} {part : Option Bindings} (h : f.recognize s e = .ok part) :
    ∀ p ∈ part, ∀ n, p.binds n = true → V n := by
  rintro p rfl n hn
  exact hf n ((bindsExactly_of_recognize hwf h n).1 hn)

/-- The remainder takes what is left with the same success. -/
private theorem agree_recognizeRest (hwf : ∀ f ∈ rest, f.WellFormed)
    (hremainder : ∀ f ∈ rest, f.isRemainder = true) (hrest : ∀ n ∈ occurrencesOpt rest, V n)
    (left : List Entity) (h : AgreeByShape V b b') :
    Agree V (recognizeRest s.types rest left b) (recognizeRest s.types rest left b') := by
  unfold recognizeRest
  split
  · exact .found h
  · exact .failed
  · exact .found h
  · rename_i name type
    have hname : name ≠ CodeRules.wildcard := by
      cases hwf _ rfl with
      | var hname => exact hname
    exact .bind? h hname (hrest name (List.mem_singleton_self name)) .empty
  · rename_i name type e
    refine .joinPart h (bound_of_recognize (f := var name type) (hwf _ rfl) hrest (e := e) (s := s) ?_)
    rw [recognize]
  · exact .failed
  -- a fragment of any other kind is no remainder
  · rename_i f hwild hvar _ _
    cases f with
    | wildcard => exact absurd rfl hwild
    | var name type => exact absurd rfl (hvar name type)
    | _ => cases hremainder _ rfl

/-- The search comes to the same division from bindings that agree on the variables of the fixed
fragments and of the remainder. -/
theorem agree_recognizeSet (hfs : ∀ f ∈ fs, f.WellFormed) (hwf : ∀ f ∈ rest, f.WellFormed)
    (hremainder : ∀ f ∈ rest, f.isRemainder = true) (hfixed : ∀ f ∈ fs, ∀ n ∈ f.occurrences, V n)
    (hrest : ∀ n ∈ occurrencesOpt rest, V n) (items : List Entity) (h : AgreeByShape V b b') :
    Agree V (recognizeSet s fs rest items b) (recognizeSet s fs rest items b') := by
  induction fs generalizing items b b' with
  | nil =>
    simp only [recognizeSet]
    exact agree_recognizeRest hwf hremainder hrest items h
  | cons f fs ih =>
    have hf := hfs f (List.mem_cons_self ..)
    simp only [recognizeSet]
    -- the items are tried in the same order, and each attempt agrees
    refine .firstSuccess fun x _ => ?_
    obtain ⟨part, hpart⟩ := hf.recognize_eq_ok s x.1
    simp only [hpart, bind, Except.bind]
    refine .thenPart h (bound_of_recognize hf (hfixed f (List.mem_cons_self ..)) hpart) fun d d' hd => ?_
    exact ih (fun g hg => hfs g (List.mem_cons_of_mem _ hg))
      (fun g hg => hfixed g (List.mem_cons_of_mem _ hg)) x.2 hd

end Fragment

end CodeRules
