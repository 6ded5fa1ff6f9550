import CodeRules.Binding.Bindings
import CodeRules.Proofs.Order.Catalog

/-!
# Look-ups in bindings

What `Bindings.bind?` and the operations built on it do to the entities of variables.
-/

namespace CodeRules

namespace Bindings

variable {b b' : Bindings} {name : String} {e : Entity}

/-- The empty bindings have an entity for no variable. -/
@[simp] theorem find?_empty (n : String) : Bindings.empty.find? n = none := rfl

/-- A binding leaves all other variables alone. -/
theorem find?_of_bind? (h : b.bind? name e = some b') {n : String} (hn : n ≠ name) :
    b'.find? n = b.find? n := by
  unfold bind? at h
  split at h
  · rw [Option.some.inj h]
  · split at h
    · split at h
      · rw [Option.some.inj h]
      · cases h
    -- only a new name is written, and a name other than it is looked up as before
    · obtain rfl := Option.some.inj h
      rw [find?, find?, Dict.find?_set, if_neg hn]

/-- Binding a variable leaves the result as it is. -/
theorem result_of_bind? (h : b.bind? name e = some b') : b'.result = b.result := by
  unfold bind? at h
  split at h
  · rw [Option.some.inj h]
  · split at h
    · split at h
      · rw [Option.some.inj h]
      · cases h
    · rw [← Option.some.inj h]

/-- A variable without an entity can be bound, and the wildcard always. -/
theorem bind?_of_find?_eq_none (h : b.find? name = none) (e : Entity) :
    ∃ b', b.bind? name e = some b' := by
  unfold bind?
  split
  · exact ⟨b, rfl⟩
  · rw [h]
    exact ⟨_, rfl⟩

/-- A binding that is kept or set aside leaves all other variables alone. -/
theorem find?_bind_of_ne {n : String} (hn : n ≠ name) (b : Bindings) (e : Entity) :
    (b.bind name e).find? n = b.find? n := by
  unfold bind
  cases h : b.bind? name e with
  | none => rfl
  | some b' => exact find?_of_bind? h hn

/-- A variable without an entity stands for the one that is bound to it. -/
theorem find?_bind_self (hname : name ≠ wildcard) (h : b.find? name = none) (e : Entity) :
    (b.bind name e).find? name = some e := by
  rw [bind, bind?, if_neg hname, h]
  show (b.vars.set name e).find? name = some e
  rw [Dict.find?_set, if_pos rfl]

/-! ### Bindings that cover others -/

/-- Every variable of `b` stands in `c` for something of the same shape. -/
def Covers (c b : Bindings) : Prop :=
  ∀ name e, b.find? name = some e → ∃ e', c.find? name = some e' ∧ e'.shape = e.shape

@[refl] theorem Covers.refl (b : Bindings) : b.Covers b := fun _ e h => ⟨e, h, rfl⟩

/-- What covers bindings covers what they cover. -/
theorem Covers.trans {b c d : Bindings} (hdc : d.Covers c) (hcb : c.Covers b) : d.Covers b := by
  intro name e h
  obtain ⟨e₁, h₁, hshape₁⟩ := hcb name e h
  obtain ⟨e₂, h₂, hshape₂⟩ := hdc name e₁ h₁
  exact ⟨e₂, h₂, hshape₂.trans hshape₁⟩

/-- After a binding the variable stands for something of the shape of the entity. -/
theorem covers_of_bind? (hname : name ≠ wildcard) (h : b.bind? name e = some b') :
    b'.Covers b ∧ ∃ e', b'.find? name = some e' ∧ e'.shape = e.shape := by
  unfold bind? at h
  rw [if_neg hname] at h
  split at h
  -- the variable has an entity: it stays, and has the shape of the one that is bound
  · rename_i old hold
    split at h
    · rename_i hshape
      obtain rfl := Option.some.inj h
      exact ⟨.refl b, old, hold, Entity.sameShape_iff.1 hshape⟩
    · cases h
  -- the variable is new, so no entity of `b` is lost
  · rename_i hnone
    obtain rfl := Option.some.inj h
    refine ⟨fun n old hold => ⟨old, ?_, rfl⟩, e, ?_, rfl⟩
    · have hne : n ≠ name := fun hn => by
        rw [hn, hnone] at hold
        cases hold
      rw [find?, Dict.find?_set, if_neg hne]
      exact hold
    · rw [find?, Dict.find?_set, if_pos rfl]

/-! ### Merges -/

section

variable {agree : Entity → Entity → Bool} {c d : Bindings} {l : List (String × Entity)}
  {vars vars' : NameMap Entity}

/-- Entries are added in turn to variables that they agree with, and those that were there stay. -/
private theorem mem_of_mergeVars (h : l.foldlM (mergeVar? agree) vars = some vars') :
    (∀ n e, vars.find? n = some e → vars'.find? n = some e) ∧
      (∀ n e, vars'.find? n = some e → vars.find? n = some e ∨ (n, e) ∈ l) ∧
      ∀ x ∈ l, ∃ e, vars'.find? x.1 = some e ∧
        (vars.find? x.1 = some e → agree e x.2 = true) := by
  induction l generalizing vars with
  | nil =>
    obtain rfl := Option.some.inj h
    exact ⟨fun _ _ h => h, fun _ _ h => .inl h, fun x hx => by cases hx⟩
  | cons x l ih =>
    obtain ⟨mid, hmid, h⟩ := Option.bind_eq_some_iff.1 h
    obtain ⟨hkept, honly, hall⟩ := ih h
    -- what adding the first entry does; the rest is the induction hypothesis
    have hfirst : (∀ n e, vars.find? n = some e → mid.find? n = some e) ∧
        (∀ n e, mid.find? n = some e → vars.find? n = some e ∨ (n, e) = x) ∧
        ∃ e, mid.find? x.1 = some e ∧ (vars.find? x.1 = some e → agree e x.2 = true) := by
      unfold mergeVar? at hmid
      split at hmid
      · rename_i old hold
        split at hmid
        · rename_i hagree
          obtain rfl := Option.some.inj hmid
          exact ⟨fun _ _ h => h, fun _ _ h => .inl h, old, hold, fun _ => hagree⟩
        · cases hmid
      -- the name is new: it and no other is looked up in another way
      · rename_i hnone
        obtain rfl := Option.some.inj hmid
        refine ⟨fun n e he => ?_, fun n e he => ?_, x.2, by rw [Dict.find?_set, if_pos rfl],
          fun h => ?_⟩
        · have hne : n ≠ x.1 := fun hn => by
            rw [hn, hnone] at he
            cases he
          rw [Dict.find?_set, if_neg hne]
          exact he
        · rw [Dict.find?_set] at he
          split at he
          · rename_i hn
            exact .inr (Prod.ext hn (Option.some.inj he).symm)
          · exact .inl he
        · rw [hnone] at h
          cases h
    refine ⟨fun n e he => hkept n e (hfirst.1 n e he), fun n e he => ?_, fun y hy => ?_⟩
    -- an entry that is there comes from before the fold, is the first one, or comes later
    · rcases honly n e he with he | he
      · rcases hfirst.2.1 n e he with he | rfl
        · exact .inl he
        · exact .inr (List.mem_cons_self ..)
      · exact .inr (List.mem_cons_of_mem _ he)
    · rcases List.mem_cons.1 hy with rfl | hy
      · obtain ⟨e, he, hagree⟩ := hfirst.2.2
        exact ⟨e, hkept _ _ he, hagree⟩
      · obtain ⟨e, he, hagree⟩ := hall y hy
        exact ⟨e, he, fun h => hagree (hfirst.1 _ _ h)⟩

/-- Entries with different names can be added when they agree with what is there. -/
private theorem exists_mergeVars (hnodup : (l.map Prod.fst).Nodup)
    (h : ∀ x ∈ l, ∀ e, vars.find? x.1 = some e → agree e x.2 = true) :
    ∃ vars', l.foldlM (mergeVar? agree) vars = some vars' := by
  induction l generalizing vars with
  | nil => exact ⟨vars, rfl⟩
  | cons x l ih =>
    obtain ⟨hnew, hnodup⟩ := List.nodup_cons.1 hnodup
    -- the names of the later entries differ from the first, so adding it changes none of their tests
    have hfirst : ∃ mid, mergeVar? agree vars x = some mid ∧
        ∀ n, n ≠ x.1 → mid.find? n = vars.find? n := by
      unfold mergeVar?
      split
      · rename_i old hold
        rw [if_pos (h x (List.mem_cons_self ..) old hold)]
        exact ⟨vars, rfl, fun _ _ => rfl⟩
      · exact ⟨_, rfl, fun n hn => by rw [Dict.find?_set, if_neg hn]⟩
    obtain ⟨mid, hmid, hothers⟩ := hfirst
    rw [List.foldlM_cons, hmid]
    refine ih hnodup fun y hy e he => h y (List.mem_cons_of_mem _ hy) e ?_
    rwa [hothers y.1 fun hyx => hnew (hyx ▸ List.mem_map_of_mem hy)] at he

/-- A merge into others is a merge of the variables and one of the results. -/
private theorem mergeInto?_eq_some (h : mergeInto? agree b c = some d) :
    c.vars.toList.foldlM (mergeVar? agree) b.vars = some d.vars ∧
      mergeResult? agree b.result c.result = some d.result := by
  obtain ⟨vars, hvars, h⟩ := Option.bind_eq_some_iff.1 h
  obtain ⟨result, hresult, h⟩ := Option.bind_eq_some_iff.1 h
  obtain rfl := Option.some.inj h
  exact ⟨hvars, hresult⟩

/-- What bindings are merged to has the entities of both, those of the first if there are two. -/
theorem find?_of_mergeInto? (h : mergeInto? agree b c = some d) (n : String) :
    d.find? n = (b.find? n).or (c.find? n) := by
  obtain ⟨hkept, honly, hall⟩ := mem_of_mergeVars (mergeInto?_eq_some h).1
  cases hb : b.find? n with
  | some e => exact hkept n e hb
  | none =>
    rw [Option.none_or]
    cases hc : c.find? n with
    -- an entry of `c` alone is added, and its name has no other entry to be taken from
    | some e =>
      obtain ⟨e', he', -⟩ := hall _ (Dict.find?_eq_some_iff.1 hc)
      rcases honly n e' he' with hold | hnew
      · rw [show b.vars.find? n = none from hb] at hold
        cases hold
      · rw [show d.find? n = some e' from he', ← hc]
        exact (Dict.find?_eq_some_iff.2 hnew).symm
    | none =>
      refine Option.eq_none_iff_forall_ne_some.2 fun e he => ?_
      rcases honly n e he with hold | hnew
      · rw [show b.vars.find? n = none from hb] at hold
        cases hold
      · rw [show c.find? n = some e from Dict.find?_eq_some_iff.2 hnew] at hc
        cases hc

/-- Where both sides have an entity, the merge has tested that the two agree. -/
theorem agree_of_mergeInto? (h : mergeInto? agree b c = some d) {n : String} {e e' : Entity}
    (he : b.find? n = some e) (he' : c.find? n = some e') : agree e e' = true := by
  obtain ⟨hkept, _, hall⟩ := mem_of_mergeVars (mergeInto?_eq_some h).1
  obtain ⟨e₁, he₁, hagree⟩ := hall _ (Dict.find?_eq_some_iff.1 he')
  obtain rfl := Option.some.inj ((hkept n e he).symm.trans he₁)
  exact hagree he

/-- The result of the first is kept; if there is another one, both agree. -/
theorem result_of_mergeInto? (h : mergeInto? agree b c = some d) :
    d.result = b.result.or c.result ∧
      ∀ e e', b.result = some e → c.result = some e' → agree e e' = true := by
  have hresult := (mergeInto?_eq_some h).2
  -- only where both have a result does it matter whether these agree
  cases hb : b.result with
  | none =>
    rw [hb] at hresult
    cases hc : c.result <;> rw [hc] at hresult <;>
      exact ⟨(Option.some.inj hresult).symm, fun _ _ he => by cases he⟩
  | some old =>
    cases hc : c.result with
    | none =>
      rw [hb, hc] at hresult
      exact ⟨(Option.some.inj hresult).symm, fun _ _ _ he => by cases he⟩
    | some new =>
      rw [hb, hc, mergeResult?] at hresult
      split at hresult
      · rename_i hagree
        refine ⟨(Option.some.inj hresult).symm, fun e e' he he' => ?_⟩
        obtain rfl := Option.some.inj he
        obtain rfl := Option.some.inj he'
        exact hagree
      · cases hresult

/-- Bindings that agree on what both bind can be merged. -/
theorem exists_mergeInto?
    (hvars : ∀ n e e', b.find? n = some e → c.find? n = some e' → agree e e' = true)
    (hresult : ∀ e e', b.result = some e → c.result = some e' → agree e e' = true) :
    ∃ d, mergeInto? agree b c = some d := by
  obtain ⟨vars, hfold⟩ := exists_mergeVars (Dict.nodup_keys c.vars)
    fun x hx e he => hvars x.1 e x.2 he (Dict.find?_eq_some_iff.2 hx)
  have hmerged : ∃ result, mergeResult? agree b.result c.result = some result := by
    cases hb : b.result with
    | none => exact ⟨_, rfl⟩
    | some old =>
      cases hc : c.result with
      | none => exact ⟨_, rfl⟩
      | some new => exact ⟨_, if_pos (hresult old new hb hc)⟩
  obtain ⟨result, hmerged⟩ := hmerged
  rw [mergeInto?, hfold, Option.bind_eq_bind, Option.bind_some, hmerged]
  exact ⟨_, rfl⟩

/-- A merge that compares shapes covers both sides. -/
private theorem covers_of_mergeInto? (h : mergeInto? Entity.sameShape b c = some d) :
    d.Covers b ∧ d.Covers c := by
  have hfind := find?_of_mergeInto? h
  refine ⟨fun n e he => ⟨e, by rw [hfind, he, Option.some_or], rfl⟩, fun n e he => ?_⟩
  rw [hfind, he]
  -- a variable of both sides keeps the entity of `b`, which has the shape of that of `c`
  cases hb : b.find? n with
  | none => exact ⟨e, rfl, rfl⟩
  | some e' => exact ⟨e', rfl, Entity.sameShape_iff.1 (agree_of_mergeInto? h hb he)⟩

end

/-- What two bindings are merged to covers both. -/
theorem covers_of_unifyMerge? {c d : Bindings} (h : b.unifyMerge? c = some d) :
    d.Covers b ∧ d.Covers c := by
  unfold unifyMerge? mergeWith? at h
  -- which side is merged into the other depends on their sizes
  split at h
  · exact covers_of_mergeInto? h
  · exact (covers_of_mergeInto? h).symm

end Bindings

end CodeRules
