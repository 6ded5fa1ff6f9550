import CodeRules.Proofs.Goal.Frame

/-!
# Goals that are solved whatever the order of solutions

A universal test stops at the first solution that refutes it. When there is one, and another one for
which the test cannot be solved, it matters which of the two comes first. A goal is order-free when no
test that comes up is of this kind (`Goal.OrderFree`). Variants of an order-free goal are solved with
the same success (`Goal.Variant.rel_answers`).
-/

namespace CodeRules

/-! ### Order-free goals -/

/-- There is no error for any of the bindings, or there are solutions wherever there is no error. -/
def Solutions.OrderFree (f : Bindings → Option Solutions) (l : List Bindings) : Prop :=
  (∀ b ∈ l, (f b).isSome) ∨ ∀ b ∈ l, ∀ s, f b = some s → s.isEmpty = false

namespace Goal

section

variable (base : UInt32) (w : World)

mutual

/-- No universal test that comes up has both a solution that refutes it and one for which it cannot be
solved. -/
def OrderFree : Goal → Bindings → Prop
  | and items, b => OrderFreeAll items b
  | or items, b => OrderFreeAny items b
  | not body, b => OrderFree body b
  | implies premise conclusion, b => OrderFree premise b ∧ ∀ s, premise.answers base w b = some s →
    (∀ d ∈ s.toList, OrderFree conclusion d) ∧
      Solutions.OrderFree (conclusion.answers base w) s.toList
  | iff left right, b => OrderFree left b ∧ ((left.answers base w b).isSome → OrderFree right b)
  | .exists binders body, b => OrderFree body (b.erase binders)
  | .forall binders range body, b =>
    OrderFree range (b.erase binders) ∧ ∀ s, range.answers base w (b.erase binders) = some s →
      (∀ d ∈ s.toList, OrderFree body d) ∧ Solutions.OrderFree (body.answers base w) s.toList
  | true, _ | false, _ | trait .., _ | .matches .., _ | eq .., _ | ne .., _ => True

/-- The goals are order-free in turn, each for what solves those before it. -/
def OrderFreeAll : List Goal → Bindings → Prop
  | [], _ => True
  | g :: gs, b => OrderFree g b ∧ ∀ s, g.answers base w b = some s → ∀ d ∈ s.toList, OrderFreeAll gs d

/-- The goals are order-free up to the first that cannot be solved. -/
def OrderFreeAny : List Goal → Bindings → Prop
  | [], _ => True
  | g :: gs, b => OrderFree g b ∧ ((g.answers base w b).isSome → OrderFreeAny gs b)

end

end

end Goal

/-! ### Success -/

namespace Solutions

variable {f : Bindings → Option Solutions} {s s' : Solutions} {l : List Bindings} {N : Pairing}

/-- Solutions are taken together unless there is an error for one of the bindings. -/
theorem isSome_joined : (joined f s).isSome ↔ ∀ b ∈ s.toList, (f b).isSome := by
  have hfold (l : List Bindings) (acc : Solutions) :
      (l.foldlM (fun (out : Solutions) b => do return out.union (← f b)) acc).isSome ↔
        ∀ b ∈ l, (f b).isSome := by
    induction l generalizing acc with
    | nil => simp
    | cons b l ih =>
      rw [List.foldlM_cons, List.forall_mem_cons]
      cases f b with
      | none => simp
      | some r => simpa using ih _
  exact hfold s.toList ∅

/-- Among normal forms the solutions that are taken together are found. -/
theorem mem_joined_iff {base : UInt32} {t : Solutions} (h : joined f s = some t)
    (hf : ∀ b ∈ s.toList, ∀ r, f b = some r → r.IsNormal base) {c : Bindings} :
    c ∈ t.toList ↔ ∃ b ∈ s.toList, ∃ r, f b = some r ∧ c ∈ r.toList := by
  have hare : t.Are fun c => ∃ b ∈ s.toList, ∃ r, f b = some r ∧ c ∈ r.toList :=
    are_joined (fun b _ r hr => (are_mem r).congr fun c => by simp [hr]) h
  exact hare.mem_iff fun c hc => by
    obtain ⟨b, hb, r, hr, hc⟩ := hc
    exact hf b hb r hr c hc

/-- A universal test that is order-free can be solved when there is no error for any of the bindings. -/
theorem isSome_everywhere (h : OrderFree f l) :
    (everywhere f l).isSome ↔ ∀ b ∈ l, (f b).isSome := by
  induction l with
  | nil => simp [everywhere]
  | cons b l ih =>
    rw [List.forall_mem_cons, everywhere]
    cases hs : f b with
    | none => simp
    | some s =>
      have hrest := ih (h.imp (fun h c hc => h c (List.mem_cons_of_mem _ hc))
        fun h c hc => h c (List.mem_cons_of_mem _ hc))
      cases hempty : s.isEmpty with
      | false => simpa [hempty] using hrest
      | true =>
        -- the test stops here, and then there is no error later on
        rcases h with h | h
        · simpa [hempty] using fun c hc => h c (List.mem_cons_of_mem _ hc)
        · cases hempty.symm.trans (h b (List.mem_cons_self ..) s hs)

/-- Solutions that match are empty at the same time. -/
theorem Matching.isEmpty_eq (h : Matching N s s') : s'.isEmpty = s.isEmpty := by
  have hexists (s : Solutions) : s.isEmpty = false ↔ ∃ c, c ∈ s.toList := s.are_mem.isEmpty_eq_false_iff
  have hiff : s'.isEmpty = false ↔ s.isEmpty = false := by
    rw [hexists, hexists]
    exact h.exists_iff.symm
  cases hs : s.isEmpty with
  | false => exact hiff.2 hs
  | true => simpa [hs] using hiff

/-- What is taken together for solutions that match matches. -/
theorem rel_joined {base : UInt32} {f' : Bindings → Option Solutions} (h : Matching N s s')
    (hrel : ∀ b ∈ s.toList, ∀ b' ∈ s'.toList, b.AgreeOn N b' → Option.Rel (Matching N) (f b) (f' b'))
    (hf : ∀ b ∈ s.toList, ∀ r, f b = some r → r.IsNormal base)
    (hf' : ∀ b ∈ s'.toList, ∀ r, f' b = some r → r.IsNormal base) :
    Option.Rel (Matching N) (joined f s) (joined f' s') := by
  refine Option.rel_of_isSome_iff ?_ fun t t' ht ht' => ⟨fun c hc => ?_, fun c' hc' => ?_⟩
  -- both are answered if all answers are defined, which the matching sets agree about
  · rw [isSome_joined, isSome_joined]
    exact h.forall_iff fun b b' hb hb' hagree =>
      Bool.eq_iff_iff.1 (Option.isSome_eq_of_rel (hrel b hb b' hb' hagree))
  -- an answer comes from an answer to a solution, whose partner has a partner of it
  · obtain ⟨b, hb, r, hr, hc⟩ := (mem_joined_iff ht hf).1 hc
    obtain ⟨b', hb', hagree⟩ := h.forth b hb
    have hresult := hrel b hb b' hb' hagree
    rw [hr] at hresult
    obtain ⟨r', hr', hmatch⟩ := Option.exists_right_of_rel hresult
    obtain ⟨c', hc', hagree⟩ := hmatch.forth c hc
    exact ⟨c', (mem_joined_iff ht' hf').2 ⟨b', hb', r', hr', hc'⟩, hagree⟩
  · obtain ⟨b', hb', r', hr', hc'⟩ := (mem_joined_iff ht' hf').1 hc'
    obtain ⟨b, hb, hagree⟩ := h.back b' hb'
    have hresult := hrel b hb b' hb' hagree
    rw [hr'] at hresult
    obtain ⟨r, hr, hmatch⟩ := Option.exists_left_of_rel hresult
    obtain ⟨c, hc, hagree⟩ := hmatch.back c' hc'
    exact ⟨c, (mem_joined_iff ht hf).2 ⟨b, hb, r, hr, hc⟩, hagree⟩

/-- An order-free universal test over solutions that match has the same success. -/
theorem isSome_everywhere_iff {f' : Bindings → Option Solutions} (h : Matching N s s')
    (hrel : ∀ b ∈ s.toList, ∀ b' ∈ s'.toList, b.AgreeOn N b' → Option.Rel (Matching N) (f b) (f' b'))
    (horder : OrderFree f s.toList) :
    (everywhere f s.toList).isSome ↔ (everywhere f' s'.toList).isSome := by
  have hsome {b b' : Bindings} (hb : b ∈ s.toList) (hb' : b' ∈ s'.toList) (hagree : b.AgreeOn N b') :
      (f b).isSome ↔ (f' b').isSome :=
    Bool.eq_iff_iff.1 (Option.isSome_eq_of_rel (hrel b hb b' hb' hagree))
  -- so the order of the solutions does not matter on the other side either
  have horder' : OrderFree f' s'.toList := by
    refine horder.imp (fun hall b' hb' => ?_) fun hall b' hb' r' hr' => ?_
    · obtain ⟨b, hb, hagree⟩ := h.back b' hb'
      exact (hsome hb hb' hagree).1 (hall b hb)
    · obtain ⟨b, hb, hagree⟩ := h.back b' hb'
      have hresult := hrel b hb b' hb' hagree
      rw [hr'] at hresult
      obtain ⟨r, hr, hmatch⟩ := Option.exists_left_of_rel hresult
      exact hmatch.isEmpty_eq.trans (hall b hb r hr)
  rw [isSome_everywhere horder, isSome_everywhere horder']
  exact h.forall_iff fun b b' => hsome

end Solutions

/-! ### Variants -/

namespace Goal

open Bindings (AgreeOn)

variable {base : UInt32} {w : World} {N : Pairing} {g g' range range' body body' : Goal}
  {gs gs' : List Goal} {b b' : Bindings} {s s' : Solutions}

/-- The answers of variants match. -/
theorem Variant.answers_matching (hw : w.Uniform base) (hstore : w.store.Uniform base)
    (hN : N.Proper) (h : g.Variant base N g') (hg : g.Uniform base) (hg' : g'.Uniform base)
    (hb : b.IsNormal base) (hb' : b'.IsNormal base) (hagree : b.AgreeOn N b')
    (hs : g.answers base w b = some s) (hs' : g'.answers base w b' = some s') :
    Solutions.Matching N s s' :=
  (h.matching hw hstore hN hg hg' hb hb' hagree).congr
    (fun _ => (mem_answers_iff hw hstore hg hb hs).symm)
    fun _ => (mem_answers_iff hw hstore hg' hb' hs').symm

/-- For bindings that agree either both goals have answers, which match, or none. -/
private structure AnsweredAlike (base : UInt32) (w : World) (N : Pairing) (g g' : Goal) : Prop where
  rel : ∀ b b', b.IsNormal base → b'.IsNormal base → b.AgreeOn N b' → g.OrderFree base w b →
    Option.Rel (Solutions.Matching N) (g.answers base w b) (g'.answers base w b')
  isNormal : ∀ b s, b.IsNormal base → g.answers base w b = some s → s.IsNormal base
  isNormal' : ∀ b s, b.IsNormal base → g'.answers base w b = some s → s.IsNormal base

/-- The answers of variants are known to match, so only their success is to be compared. -/
private theorem AnsweredAlike.of_isSome_iff (hw : w.Uniform base) (hstore : w.store.Uniform base)
    (hN : N.Proper) (h : g.Variant base N g') (hg : g.Uniform base) (hg' : g'.Uniform base)
    (hsome : ∀ b b', b.IsNormal base → b'.IsNormal base → b.AgreeOn N b' → g.OrderFree base w b →
      ((g.answers base w b).isSome ↔ (g'.answers base w b').isSome)) : AnsweredAlike base w N g g' where
  rel b b' hb hb' hagree hfree := Option.rel_of_isSome_iff (hsome b b' hb hb' hagree hfree)
    fun _ _ => h.answers_matching hw hstore hN hg hg' hb hb' hagree
  isNormal _ _ hb := answers_isNormal hw hstore hg hb
  isNormal' _ _ hb := answers_isNormal hw hstore hg' hb

/-- An equivalence asks its right side when the left side is answered. -/
private theorem isSome_iff_iff {left left' right right' : Goal} (hl : AnsweredAlike base w N left left')
    (hr : AnsweredAlike base w N right right') (hb : b.IsNormal base) (hb' : b'.IsNormal base)
    (hagree : b.AgreeOn N b') (hfree : (Goal.iff left right).OrderFree base w b) :
    ((Goal.iff left right).answers base w b).isSome ↔
      ((Goal.iff left' right').answers base w b').isSome := by
  have hleft := hl.rel b b' hb hb' hagree hfree.1
  have hright := hr.rel b b' hb hb' hagree
  -- the right side is order-free only where there is no error on the left
  have hrest := hfree.2
  rw [answers, answers]
  generalize left.answers base w b = x at hleft hrest
  generalize left'.answers base w b' = y at hleft
  cases hleft with
  | none => rfl
  | some => exact Bool.eq_iff_iff.1 (Option.isSome_bind_eq_of_rel (hright (hrest rfl)) _ _)

/-- A test asks a goal, and then whether another one has solutions for all of its answers. -/
private theorem isSome_test_iff (hrange : AnsweredAlike base w N range range')
    (hbody : AnsweredAlike base w N body body') (hb : b.IsNormal base) (hb' : b'.IsNormal base)
    (hagree : b.AgreeOn N b') (hfree : range.OrderFree base w b)
    (htest : ∀ s, range.answers base w b = some s → (∀ d ∈ s.toList, body.OrderFree base w d) ∧
      Solutions.OrderFree (body.answers base w) s.toList) (c c' : Bindings) :
    (do
      let s ← range.answers base w b
      return Solutions.test (← Solutions.everywhere (body.answers base w) s.toList) c).isSome ↔
    (do
      let s ← range'.answers base w b'
      return Solutions.test (← Solutions.everywhere (body'.answers base w) s.toList) c').isSome := by
  have hrel := hrange.rel b b' hb hb' hagree hfree
  have hnormal := fun s => hrange.isNormal b s hb
  have hnormal' := fun s => hrange.isNormal' b' s hb'
  -- both ranges are answered, or neither is
  generalize range.answers base w b = x at hrel hnormal htest
  generalize range'.answers base w b' = y at hrel hnormal'
  cases hrel with
  | none => rfl
  | @some s s' hmatch =>
    have heverywhere := Solutions.isSome_everywhere_iff hmatch
      (fun d hd d' hd' hagree => hbody.rel d d' (hnormal s rfl d hd) (hnormal' s' rfl d' hd') hagree
        ((htest s rfl).1 d hd)) (htest s rfl).2
    simp only [Option.bind_eq_bind, Option.bind_some, Option.pure_def, Option.isSome_bind]
    simpa using heverywhere

/-- Conjunctions of variants have the same success. -/
private theorem isSome_answersAnd_iff (h : List.Forall₂ (AnsweredAlike base w N) gs gs')
    (hmatch : Solutions.Matching N s s') (hs : s.IsNormal base) (hs' : s'.IsNormal base)
    (hfree : ∀ b ∈ s.toList, OrderFreeAll base w gs b) :
    (answersAnd base w gs s).isSome ↔ (answersAnd base w gs' s').isSome := by
  induction h generalizing s s' with
  | nil => simp [answersAnd]
  | @cons g g' gs gs' h _ ih =>
    have hnormal := fun b hb r hr => h.isNormal b r (hs b hb) hr
    have hnormal' := fun b hb r hr => h.isNormal' b r (hs' b hb) hr
    have hrel := Solutions.rel_joined hmatch (fun b hb b' hb' hagree =>
      h.rel b b' (hs b hb) (hs' b' hb') hagree (hfree b hb).1) hnormal hnormal'
    -- the other goals are asked about what this one found for one of the bindings
    have hmem := fun t ht c => (Solutions.mem_joined_iff (s := s) (t := t) ht hnormal (c := c)).1
    have hmem' := fun t ht c => (Solutions.mem_joined_iff (s := s') (t := t) ht hnormal' (c := c)).1
    rw [answersAnd, answersAnd]
    generalize Solutions.joined (g.answers base w) s = x at hrel hmem
    generalize Solutions.joined (g'.answers base w) s' = y at hrel hmem'
    cases hrel with
    | none => rfl
    | @some next next' hnext =>
      simp only [Option.bind_eq_bind, Option.bind_some, hnext.isEmpty_eq]
      split
      · rfl
      · refine ih hnext (fun c hc => ?_) (fun c hc => ?_) fun c hc => ?_
        · obtain ⟨b, hb, r, hr, hc⟩ := hmem next rfl c hc
          exact hnormal b hb r hr c hc
        · obtain ⟨b, hb, r, hr, hc⟩ := hmem' next' rfl c hc
          exact hnormal' b hb r hr c hc
        · obtain ⟨b, hb, r, hr, hc⟩ := hmem next rfl c hc
          exact (hfree b hb).2 r hr c hc

/-- Disjunctions of variants have the same success. -/
private theorem isSome_answersOr_iff (h : List.Forall₂ (AnsweredAlike base w N) gs gs')
    (hb : b.IsNormal base) (hb' : b'.IsNormal base) (hagree : b.AgreeOn N b')
    (hfree : OrderFreeAny base w gs b) :
    (answersOr base w gs b).isSome ↔ (answersOr base w gs' b').isSome := by
  induction h with
  | nil => simp [answersOr]
  | @cons g g' gs gs' h _ ih =>
    have hrel := h.rel b b' hb hb' hagree hfree.1
    have hrest := hfree.2
    rw [answersOr, answersOr]
    generalize g.answers base w b = x at hrel hrest
    generalize g'.answers base w b' = y at hrel
    cases hrel with
    | none => rfl
    | some =>
      simp only [Option.bind_eq_bind, Option.bind_some, Option.pure_def, Option.isSome_bind]
      simpa using ih (hrest rfl)

/-- Variants of an order-free goal have matching answers, or neither has any. -/
theorem Variant.rel_answers (hw : w.Uniform base) (hstore : w.store.Uniform base)
    (hN : N.Proper) (h : g.Variant base N g') (hg : g.Uniform base) (hg' : g'.Uniform base)
    (hb : b.IsNormal base) (hb' : b'.IsNormal base) (hagree : b.AgreeOn N b')
    (hfree : g.OrderFree base w b) :
    Option.Rel (Solutions.Matching N) (g.answers base w b) (g'.answers base w b') := by
  -- a quantifier changes the pairs and the bindings, so the induction is for all of them
  suffices halike : AnsweredAlike base w N g g' from halike.rel b b' hb hb' hagree hfree
  clear hb hb' hagree hfree
  have hitems {N : Pairing} {gs gs' : List Goal} (ih : ∀ g ∈ gs, ∀ {N : Pairing} {g'}, N.Proper →
      g.Variant base N g' → g.Uniform base → g'.Uniform base → AnsweredAlike base w N g g')
      (hN : N.Proper) (h : VariantAll base N gs gs') (hgs : ∀ t ∈ termsAll gs, t.Uniform base)
      (hgs' : ∀ t ∈ termsAll gs', t.Uniform base) : List.Forall₂ (AnsweredAlike base w N) gs gs' :=
    (variantAll_iff.1 h).imp_of_mem fun g hmem g' hmem' hgg' =>
      ih g hmem hN hgg' (Uniform.item hgs hmem) (Uniform.item hgs' hmem')
  induction g using Goal.induction generalizing N g' with
  | true =>
    cases h with
    | true => exact .of_isSome_iff hw hstore hN .true hg hg' fun _ _ _ _ _ _ => Iff.rfl
  | false =>
    cases h with
    | false => exact .of_isSome_iff hw hstore hN .false hg hg' fun _ _ _ _ _ _ => Iff.rfl
  | and items ih =>
    cases h with
    | and h =>
      -- the parts are answered for all answers to the parts before them
      refine .of_isSome_iff hw hstore hN (.and h) hg hg' fun b b' hb hb' hagree hfree => ?_
      refine isSome_answersAnd_iff (hitems ih hN h hg hg') (.singleton hagree)
        (Solutions.isNormal_singleton hb) (Solutions.isNormal_singleton hb') fun c hc => ?_
      obtain rfl := List.mem_singleton.1 hc
      exact hfree
  | or items ih =>
    cases h with
    | or h =>
      exact .of_isSome_iff hw hstore hN (.or h) hg hg' fun b b' hb hb' hagree hfree =>
        isSome_answersOr_iff (hitems ih hN h hg hg') hb hb' hagree hfree
  | not body ih =>
    cases h with
    | not h =>
      refine .of_isSome_iff hw hstore hN (.not h) hg hg' fun b b' hb hb' hagree hfree => ?_
      have hrel := (ih hN h hg hg').rel b b' hb hb' hagree hfree
      exact Bool.eq_iff_iff.1 (Option.isSome_bind_eq_of_rel hrel _ _)
  | implies premise conclusion ihp ihc =>
    cases h with
    | implies hp hc =>
      exact .of_isSome_iff hw hstore hN (.implies hp hc) hg hg' fun b b' hb hb' hagree hfree =>
        isSome_test_iff (ihp hN hp (Uniform.left hg) (Uniform.left hg'))
          (ihc hN hc (Uniform.right hg) (Uniform.right hg')) hb hb' hagree hfree.1 hfree.2 b b'
  | iff left right ihl ihr =>
    cases h with
    | iff hl hr =>
      exact .of_isSome_iff hw hstore hN (.iff hl hr) hg hg' fun b b' hb hb' =>
        isSome_iff_iff (ihl hN hl (Uniform.left hg) (Uniform.left hg'))
          (ihr hN hr (Uniform.right hg) (Uniform.right hg')) hb hb'
  | exists_ binders body ih =>
    cases h with
    | exists_ hproper hbody =>
      refine .of_isSome_iff hw hstore hN (.exists_ hproper hbody) hg hg' fun b b' hb hb' hagree hfree => ?_
      have hrel := (ih hproper hbody hg hg').rel _ _ (hb.erase binders) (hb'.erase _) hagree.erase hfree
      exact Bool.eq_iff_iff.1 (Option.isSome_bind_eq_of_rel hrel _ _)
  | forall_ binders range body ihr ihb =>
    cases h with
    | forall_ hproper hrange hbody =>
      exact .of_isSome_iff hw hstore hN (.forall_ hproper hrange hbody) hg hg' fun b b' hb hb' hagree hfree =>
        isSome_test_iff (ihr hproper hrange (Uniform.left hg) (Uniform.left hg'))
          (ihb hproper hbody (Uniform.right hg) (Uniform.right hg')) (hb.erase binders) (hb'.erase _)
          hagree.erase hfree.1 hfree.2 b b'
  | trait span name args =>
    cases h with
    | trait _ _ h =>
      exact .of_isSome_iff hw hstore hN (.trait span name h) hg hg' fun b b' hb hb' hagree _ =>
        World.isSome_traitAnswers_iff hw hstore hN h hg hg' hb hb' hagree
  | matches_ span subject f =>
    cases h with
    | matches_ _ hs hf =>
      exact .of_isSome_iff hw hstore hN (.matches_ span hs hf) hg hg' fun b b' hb hb' hagree _ =>
        World.isSome_matchAnswers_iff hw hN hs hf (hg _ (List.mem_singleton_self _))
          (hg' _ (List.mem_singleton_self _)) hb hb' hagree
  | eq span left right =>
    cases h with
    | eq _ hl hr =>
      exact .of_isSome_iff hw hstore hN (.eq span hl hr) hg hg' fun b b' hb hb' hagree _ =>
        Bool.eq_iff_iff.1 <| Option.isSome_eq_of_rel <|
          Program.rel_eqAnswers hw.program hN hl hr (hg _ (by simp [terms])) (hg' _ (by simp [terms]))
            (hg _ (by simp [terms])) (hg' _ (by simp [terms])) hb hb' hagree
  | ne span left right =>
    cases h with
    | ne _ hl hr =>
      exact .of_isSome_iff hw hstore hN (.ne span hl hr) hg hg' fun b b' hb hb' hagree _ =>
        Bool.eq_iff_iff.1 <| Option.isSome_eq_of_rel <|
          Program.rel_neAnswers hw.program hl hr (hg _ (by simp [terms])) (hg' _ (by simp [terms]))
            (hg _ (by simp [terms])) (hg' _ (by simp [terms])) hb hb' hagree

end Goal

end CodeRules
