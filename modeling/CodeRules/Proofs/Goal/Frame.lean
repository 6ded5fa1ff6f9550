import CodeRules.Proofs.Goal.Variant

/-!
# Solutions and the variables of goals

A solution binds only free variables of the goal (`Goal.Solution.extendedBy`), and depends neither on
the names of variables nor on anything else that is bound: for bindings that agree along the pairs of
variables, variants of a goal have matching solutions (`Goal.Variant.matching`).
-/

namespace CodeRules

variable {base : UInt32} {N : Pairing} {V : String → Prop} {b b' c : Bindings}

open Bindings (AgreeOn Matching)

/-! ### Terms -/

namespace Program

variable {p : Program} {e : Entity} {f : Fragment} {t : GoalTerm} {ts : List GoalTerm}

/-- A match binds variables of its fragment only. -/
theorem matched_extendedBy (hp : p.Below base) (hV : ∀ n ∈ f.occurrences, V n) (he : e.IsNormal base)
    (hb : b.IsNormal base) (h : p.matched f b e = some (some c)) : b.ExtendedBy V c := by
  rw [matched_eq] at h
  obtain ⟨o, ho, hc⟩ := Option.map_eq_some_iff.1 h
  obtain ⟨m, rfl, hc⟩ := Option.bind_eq_some_iff.1 hc
  have hfound := Except.toOption_eq_some_iff.1 ho
  exact Bindings.extendedBy_of_merge (recognize_isNormal hp he hfound) hb
    (fun n x hx => hV n (Fragment.within_occurrences hfound hx).2) rfl hc

/-- A term stands for an entity after its own variables were bound. -/
theorem unify_extendedBy (hp : p.Below base) (hV : ∀ n ∈ t.occurrences, V n) (he : e.IsNormal base)
    (hb : b.IsNormal base) (h : (p.bare.unify (.unused base) t e b).toOption = some (some c)) :
    b.ExtendedBy V c := by
  have hsame {q : Bool} (h : (if q then some b else none) = some c) : b.ExtendedBy V c := by
    cases q with
    | false => cases h
    | true => exact .of_eq (Option.some.inj h).symm
  cases t with
  | wildcard => exact .of_eq (Option.some.inj (Option.some.inj h)).symm
  | var name type =>
    simp only [World.unify] at h
    split at h
    -- the variable stands for an entity, or takes it
    · exact hsame (Option.some.inj h)
    · have h := Option.some.inj h
      split at h
      · exact Option.some.inj h ▸
          Bindings.extendedBy_bind (fun _ => hV name (List.mem_singleton_self name)) b e
      · cases h
  | const known => exact hsame (Option.some.inj h)
  | pattern f => exact matched_extendedBy hp hV he hb h
  | apply func args =>
    simp only [World.unify, Except.toOption_bind, Except.toOption_pure, Option.bind_eq_some_iff] at h
    obtain ⟨_, _, h⟩ := h
    obtain ⟨_, _, h⟩ := Option.bind_eq_some_iff.1 (Option.some.inj h)
    exact hsame h

/-- Terms stand for entities after their own variables were bound. -/
theorem unifyAll_extendedBy (hp : p.Below base) (hV : ∀ n ∈ GoalTerm.occurrencesAll ts, V n)
    (hts : ∀ t ∈ ts, t.Uniform base) {es : List Entity} (hes : ∀ e ∈ es, e.IsNormal base)
    (hb : b.IsNormal base) (h : (p.bare.unifyAll (.unused base) ts es b).toOption = some (some c)) :
    b.ExtendedBy V c := by
  induction ts generalizing es b with
  | nil => exact .of_eq (Option.some.inj (Option.some.inj h)).symm
  | cons t ts ih =>
    cases es with
    | nil => exact .of_eq (Option.some.inj (Option.some.inj h)).symm
    | cons e es =>
      rw [GoalTerm.occurrencesAll] at hV
      have he := hes e (List.mem_cons_self ..)
      simp only [World.unifyAll, Except.toOption_bind, Option.bind_eq_some_iff] at h
      obtain ⟨o, ho, h⟩ := h
      -- what the first entity bound is extended by the others
      cases o with
      | none => cases h
      | some d =>
        have hd := unify_isNormal hp hb (hts t (List.mem_cons_self ..)) he ho d rfl
        exact (unify_extendedBy hp (fun n hn => hV n (List.mem_append_left _ hn)) he hb ho).trans
          (ih (fun n hn => hV n (List.mem_append_right _ hn))
            (fun u hu => hts u (List.mem_cons_of_mem _ hu))
            (fun x hx => hes x (List.mem_cons_of_mem _ hx)) hd h)

/-! ### Equations -/

variable {left right : GoalTerm} {s : Solutions}

/-- A new entity is bound to its variable only. -/
theorem generatedInto_extendedBy {name : String} {type : ParamType} (hname : V name)
    (h : p.generatedInto base name type f b = some c) : b.ExtendedBy V c := by
  obtain ⟨e, _, h⟩ := Option.bind_eq_some_iff.1 h
  split at h
  · exact Option.some.inj h ▸
      (Bindings.extendedBy_withoutResult b).trans (Bindings.extendedBy_bind (fun _ => hname) _ e)
  · cases h

/-- A test binds nothing. -/
private theorem test_extendedBy {q : Bool} (h : c ∈ (Solutions.test q b).toList) :
    b.ExtendedBy V c := by
  cases q with
  | false => cases h
  | true => exact .of_eq (List.mem_singleton.1 h)

/-- An equality binds variables of its sides only. -/
theorem eqAnswers_extendedBy (hp : p.Below base) (hleft : left.Uniform base)
    (hright : right.Uniform base) (hV : ∀ n ∈ left.occurrences ++ right.occurrences, V n)
    (hb : b.IsNormal base) (h : p.eqAnswers base left right b = some s) (hc : c ∈ s.toList) :
    b.ExtendedBy V c := by
  have hVl (n : String) (hn : n ∈ left.occurrences) : V n := hV n (List.mem_append_left _ hn)
  have hVr (n : String) (hn : n ∈ right.occurrences) : V n := hV n (List.mem_append_right _ hn)
  obtain ⟨l, hl, h⟩ := Option.bind_eq_some_iff.1 h
  obtain ⟨r, hr, h⟩ := Option.bind_eq_some_iff.1 h
  have hunify {t : GoalTerm} (ht : ∀ n ∈ t.occurrences, V n) {e : Entity} (he : e.IsNormal base)
      (h : (do return Solutions.ofOption (← (p.bare.unify (.unused base) t e b).toOption)) = some s) :
      b.ExtendedBy V c := by
    obtain ⟨o, ho, h⟩ := Option.bind_eq_some_iff.1 h
    obtain rfl := Option.some.inj h
    exact unify_extendedBy hp ht he hb (by rw [ho, (Solutions.are_ofOption o).sound c hc])
  have hmade {name : String} {type : ParamType} {f : Fragment} (hname : V name)
      (h : (do return Catalog.singleton (← p.generatedInto base name type f b)) = some s) :
      b.ExtendedBy V c := by
    obtain ⟨d, hd, h⟩ := Option.bind_eq_some_iff.1 h
    obtain rfl := Option.some.inj h
    obtain rfl := List.mem_singleton.1 hc
    exact generatedInto_extendedBy hname hd
  cases l with
  | some l =>
    cases r with
    | some r => exact test_extendedBy (Option.some.inj h ▸ hc)
    -- one side has a value, and the other one is unified with it
    | none => exact hunify hVr (value_isNormal hp hb hleft hl l rfl) h
  | none =>
    cases r with
    | some r => exact hunify hVl (value_isNormal hp hb hright hr r rfl) h
    | none =>
      -- one side is an unbound variable, the other one makes its value
      cases left with
      | var name type =>
        cases right with
        | pattern f => exact hmade (hVl name (List.mem_singleton_self name)) h
        | _ => cases h
      | pattern f =>
        cases right with
        | var name type => exact hmade (hVr name (List.mem_singleton_self name)) h
        | _ => cases h
      | _ => cases h

/-- An inequality binds nothing. -/
theorem neAnswers_extendedBy (h : p.neAnswers base left right b = some s) (hc : c ∈ s.toList) :
    b.ExtendedBy V c := by
  obtain ⟨l, _, h⟩ := Option.bind_eq_some_iff.1 h
  obtain ⟨r, _, h⟩ := Option.bind_eq_some_iff.1 h
  cases l with
  | none => cases h
  | some l =>
    cases r with
    | none => cases h
    | some r => exact test_extendedBy (Option.some.inj h ▸ hc)

end Program

/-! ### Relations and fragments -/

namespace World

variable {w : World} {subject : GoalTerm} {f : Fragment}

/-- A trait binds variables of its arguments only. -/
theorem TraitSolution.extendedBy (hw : w.Uniform base) (hstore : w.store.Uniform base) {name : String}
    {args : List GoalTerm} (hargs : ∀ t ∈ args, t.Uniform base)
    (hV : ∀ n ∈ GoalTerm.occurrencesAll args, V n) (hb : b.IsNormal base)
    (h : w.TraitSolution base name args b c) : b.ExtendedBy V c := by
  obtain ⟨facts, hview, es, hes, hc⟩ := h
  exact Program.unifyAll_extendedBy hw.program hV hargs (isNormal_of_view hstore hview es hes) hb hc

/-- A match binds its subject and variables of its fragment only. -/
theorem MatchSolution.extendedBy (hw : w.Uniform base) (hsubject : subject.Uniform base)
    (hV : ∀ n ∈ subject.occurrences ++ f.occurrences, V n) (hb : b.IsNormal base)
    (h : w.MatchSolution base subject f b c) : b.ExtendedBy V c := by
  have hmatched {e : Entity} (he : e.IsNormal base) {d : Bindings}
      (hd : w.program.matched f b e = some (some d)) : b.ExtendedBy V d :=
    Program.matched_extendedBy hw.program (fun n hn => hV n (List.mem_append_right _ hn)) he hb hd
  unfold MatchSolution at h
  split at h
  -- the subject is known, or it takes a candidate or is left out
  · exact h.elim
  · rename_i e he
    exact hmatched (Program.value_isNormal hw.program hb hsubject he e rfl) h
  · split at h
    · rename_i name type _
      obtain ⟨e, he, d, hd, hbind⟩ := h
      have hname : V name := hV name (List.mem_append_left _ (List.mem_singleton_self name))
      exact (hmatched (hw.candidates he).isNormal hd).trans
        (Bindings.extendedBy_of_bind? (fun _ => hname) hbind)
    · obtain ⟨e, he, hd⟩ := h
      exact hmatched (hw.candidates he).isNormal hd
    · exact h.elim

end World

/-! ### Goals -/

namespace Goal

variable {w : World} {g g' : Goal} {gs gs' : List Goal}

/-- The goals of a conjunction bind one after the other. -/
private theorem SolutionAll.extendedBy
    (hnormal : ∀ g ∈ gs, ∀ b c, b.IsNormal base → g.Solution base w b c → c.IsNormal base)
    (h : ∀ g ∈ gs, ∀ b c, b.IsNormal base → g.Solution base w b c → b.ExtendedBy V c)
    (hb : b.IsNormal base) (hc : SolutionAll base w gs b c) : b.ExtendedBy V c := by
  induction gs generalizing b with
  | nil => exact .of_eq hc
  | cons g gs ih =>
    obtain ⟨d, hd, hc⟩ := hc
    have hrest := ih (fun k hk => hnormal k (List.mem_cons_of_mem _ hk))
      (fun k hk => h k (List.mem_cons_of_mem _ hk)) (hnormal g (List.mem_cons_self ..) b d hb hd) hc
    exact (h g (List.mem_cons_self ..) b d hb hd).trans hrest

/-- A solution binds only free variables of the goal beyond what was bound. -/
theorem Solution.extendedBy (hw : w.Uniform base) (hstore : w.store.Uniform base)
    (hg : g.Uniform base) (hV : ∀ n ∈ g.free, V n) (hb : b.IsNormal base)
    (h : g.Solution base w b c) : b.ExtendedBy V c := by
  induction g using Goal.induction generalizing V b c with
  | true => exact .of_eq h
  | false => exact h.elim
  | and items ih =>
    exact SolutionAll.extendedBy
      (fun g hmem b c hb => Solution.isNormal hw hstore (Uniform.item hg hmem) hb)
      (fun g hmem b c hb => ih g hmem (Uniform.item hg hmem)
        (fun n hn => hV n (mem_free_of_mem hmem hn)) hb) hb h
  | or items ih =>
    obtain ⟨g, hmem, hc⟩ := solutionAny_iff.1 h
    exact ih g hmem (Uniform.item hg hmem) (fun n hn => hV n (mem_free_of_mem hmem hn)) hb hc
  | not body => exact .of_eq h.1
  | implies premise conclusion => exact .of_eq h.1
  | iff left right => exact .of_eq h.1
  | exists_ binders body ih =>
    obtain ⟨d, hd, hmerge⟩ := h
    -- a variable of the body is free outside or bound by the quantifier
    have hW (n : String) (hn : n ∈ body.free) : V n ∨ n ∈ binders := by
      by_cases hbound : n ∈ binders
      · exact .inr hbound
      · exact .inl (hV n (List.mem_filter.2 ⟨hn, by simpa using hbound⟩))
    exact (ih hg hW (hb.erase binders) hd).merge_erase (fun n hn hnot => hn.resolve_right hnot)
      (Solution.isNormal hw hstore (g := body) hg (hb.erase binders) hd) hb hmerge
  | forall_ binders range body => exact .of_eq h.1
  | trait span name args => exact World.TraitSolution.extendedBy hw hstore hg hV hb h
  | matches_ span subject f =>
    exact World.MatchSolution.extendedBy hw (hg subject (List.mem_singleton_self _)) hV hb h
  | eq span left right =>
    obtain ⟨s, hs, hc⟩ := h
    exact Program.eqAnswers_extendedBy hw.program (hg left (by simp [terms]))
      (hg right (by simp [terms])) hV hb hs hc
  | ne span left right =>
    obtain ⟨s, hs, hc⟩ := h
    exact Program.neAnswers_extendedBy hs hc

/-! ### Variants -/

/-- Variants have matching solutions for bindings that agree. -/
private def MatchesOn (base : UInt32) (w : World) (N : Pairing) (g g' : Goal) : Prop :=
  ∀ b b', b.IsNormal base → b'.IsNormal base → b.AgreeOn N b' →
    Matching N (g.Solution base w b) (g'.Solution base w b')

/-- Conjunctions have matching solutions when their goals have. -/
private theorem matching_all (hw : w.Uniform base) (hstore : w.store.Uniform base)
    (h : List.Forall₂ (MatchesOn base w N) gs gs') (hgs : ∀ g ∈ gs, g.Uniform base)
    (hgs' : ∀ g ∈ gs', g.Uniform base) (hb : b.IsNormal base) (hb' : b'.IsNormal base)
    (hagree : b.AgreeOn N b') :
    Matching N (SolutionAll base w gs b) (SolutionAll base w gs' b') := by
  induction h generalizing b b' with
  | nil => exact .same hagree
  | cons h _ ih =>
    -- the next goals start from what the first one found
    refine .comp (h b b' hb hb' hagree) fun d d' hd hd' hagree => ?_
    exact ih (fun k hk => hgs k (List.mem_cons_of_mem _ hk))
      (fun k hk => hgs' k (List.mem_cons_of_mem _ hk))
      (Solution.isNormal hw hstore (hgs _ (List.mem_cons_self ..)) hb hd)
      (Solution.isNormal hw hstore (hgs' _ (List.mem_cons_self ..)) hb' hd') hagree

/-- Disjunctions have matching solutions when their goals have. -/
private theorem matching_any (h : List.Forall₂ (MatchesOn base w N) gs gs') (hb : b.IsNormal base)
    (hb' : b'.IsNormal base) (hagree : b.AgreeOn N b') :
    Matching N (SolutionAny base w gs b) (SolutionAny base w gs' b') := by
  induction h with
  | nil => exact .of_not (fun _ => id) fun _ => id
  | cons h _ ih => exact (h b b' hb hb' hagree).or ih

/-- Solutions that match under quantifiers match outside of them. -/
private theorem matching_exists {P P' : Bindings → Prop} {binders binders' : List String}
    (hN : N.Proper) (h : Matching (N.under binders binders') P P')
    (hP : ∀ d, P d → d.IsNormal base ∧ (b.erase binders).ExtendedBy (N.under binders binders').domain d)
    (hP' : ∀ d, P' d →
      d.IsNormal base ∧ (b'.erase binders').ExtendedBy (N.under binders binders').range d)
    (hb : b.IsNormal base) (hb' : b'.IsNormal base) (hagree : b.AgreeOn N b') :
    Matching N (fun c => ∃ d, P d ∧ (d.erase binders).consistentMerge? b = some c)
      fun c => ∃ d, P' d ∧ (d.erase binders').consistentMerge? b' = some c := by
  have hmerge {d d' c c' : Bindings} (hd : P d) (hd' : P' d')
      (hdd' : d.AgreeOn (N.under binders binders') d')
      (hc : (d.erase binders).consistentMerge? b = some c)
      (hc' : (d'.erase binders').consistentMerge? b' = some c') : c.AgreeOn N c' := by
    obtain ⟨hnormal, hext⟩ := hP d hd
    -- what is found inside agrees, and so do the merges with the same outer bindings
    obtain ⟨hnormal', hext'⟩ := hP' d' hd'
    exact hagree.merge_erase hN hdd' hext hext' ((hnormal.erase binders).joins hb hc).2
      ((hnormal'.erase binders').joins hb' hc').2
  refine ⟨fun c hc => ?_, fun c' hc' => ?_⟩
  · obtain ⟨d, hd, hc⟩ := hc
    obtain ⟨d', hd', hdd'⟩ := h.forth d hd
    -- the binders were erased, so the merge with the outer bindings exists
    obtain ⟨c', hc'⟩ := (hP' d' hd').2.exists_merge
    exact ⟨c', ⟨d', hd', hc'⟩, hmerge hd hd' hdd' hc hc'⟩
  · obtain ⟨d', hd', hc'⟩ := hc'
    obtain ⟨d, hd, hdd'⟩ := h.back d' hd'
    obtain ⟨c, hc⟩ := (hP d hd).2.exists_merge
    exact ⟨c, ⟨d, hd, hc⟩, hmerge hd hd' hdd' hc hc'⟩

/-- Quantified variants have matching solutions when their bodies have. -/
private theorem matchesOn_exists {body body' : Goal} {binders binders' : List String}
    (hw : w.Uniform base) (hstore : w.store.Uniform base) (hN : N.Proper)
    (hbody : body.Variant base (N.under binders binders') body') (hg : body.Uniform base)
    (hg' : body'.Uniform base) (h : MatchesOn base w (N.under binders binders') body body') :
    MatchesOn base w N (.exists binders body) (.exists binders' body') := by
  intro b b' hb hb' hagree
  -- the body binds paired variables only, so each of its solutions can be merged back
  have hfree := hbody.forall₂_free
  refine matching_exists hN (h _ _ (hb.erase binders) (hb'.erase binders') hagree.erase)
    (fun d hd => ⟨?_, ?_⟩) (fun d hd => ⟨?_, ?_⟩) hb hb' hagree
  · exact Solution.isNormal hw hstore hg (hb.erase binders) hd
  · exact Solution.extendedBy hw hstore hg
      (fun n hn => (hfree.exists_right hn).imp fun _ hm => hm.2) (hb.erase binders) hd
  · exact Solution.isNormal hw hstore hg' (hb'.erase binders') hd
  · exact Solution.extendedBy hw hstore hg'
      (fun n hn => (hfree.exists_left hn).imp fun _ hm => hm.2) (hb'.erase binders') hd

/-- A universal test comes out the same for variants. -/
private theorem forall_solution_iff {range range' body body' : Goal} (hw : w.Uniform base)
    (hstore : w.store.Uniform base) (hg : range.Uniform base) (hg' : range'.Uniform base)
    (hrange : MatchesOn base w N range range') (hbody : MatchesOn base w N body body')
    (hb : b.IsNormal base) (hb' : b'.IsNormal base) (hagree : b.AgreeOn N b') :
    (∀ d, range.Solution base w b d → ∃ e, body.Solution base w d e) ↔
      ∀ d, range'.Solution base w b' d → ∃ e, body'.Solution base w d e :=
  (hrange b b' hb hb' hagree).forall_iff fun d d' hd hd' hagree =>
    (hbody d d' (Solution.isNormal hw hstore hg hb hd) (Solution.isNormal hw hstore hg' hb' hd')
      hagree).exists_iff

/-- Variants of a goal have matching solutions for bindings that agree along the pairs of variables. -/
theorem Variant.matching (hw : w.Uniform base) (hstore : w.store.Uniform base) (hN : N.Proper)
    (h : g.Variant base N g') (hg : g.Uniform base) (hg' : g'.Uniform base) (hb : b.IsNormal base)
    (hb' : b'.IsNormal base) (hagree : b.AgreeOn N b') :
    Matching N (g.Solution base w b) (g'.Solution base w b') := by
  -- a quantifier changes the pairs and the bindings, so the induction is for all of them
  suffices hmatches : MatchesOn base w N g g' from hmatches b b' hb hb' hagree
  clear hb hb' hagree
  have hitems {N : Pairing} {gs gs' : List Goal} (ih : ∀ g ∈ gs, ∀ {N : Pairing} {g'}, N.Proper →
      g.Variant base N g' → g.Uniform base → g'.Uniform base → MatchesOn base w N g g')
      (hN : N.Proper) (h : VariantAll base N gs gs') (hgs : ∀ g ∈ gs, g.Uniform base)
      (hgs' : ∀ g ∈ gs', g.Uniform base) : List.Forall₂ (MatchesOn base w N) gs gs' :=
    (variantAll_iff.1 h).imp_of_mem fun g hmem g' hmem' hgg' =>
      ih g hmem hN hgg' (hgs g hmem) (hgs' g' hmem')
  induction g using Goal.induction generalizing N g' with
  | true => cases h with | true => exact fun b b' _ _ hagree => .same hagree
  | false => cases h with | false => exact fun b b' _ _ _ => .of_not (fun _ => id) fun _ => id
  | and items ih =>
    cases h with
    | and h =>
      intro b b' hb hb' hagree
      -- a conjunction solves its parts one after the other
      have hgs := fun g hmem => Uniform.item hg (g := g) hmem
      have hgs' := fun g hmem => Uniform.item hg' (g := g) hmem
      exact matching_all hw hstore (hitems ih hN h hgs hgs') hgs hgs' hb hb' hagree
  | or items ih =>
    cases h with
    | or h =>
      intro b b' hb hb' hagree
      exact matching_any (hitems ih hN h (fun g hmem => Uniform.item hg (g := g) hmem)
        fun g hmem => Uniform.item hg' (g := g) hmem) hb hb' hagree
  | not body ih =>
    cases h with
    | not h =>
      intro b b' hb hb' hagree
      -- a negation only tests whether there are solutions
      exact .test hagree (not_congr (ih hN h hg hg' b b' hb hb' hagree).exists_iff)
  | implies premise conclusion ihp ihc =>
    cases h with
    | implies hp hc =>
      intro b b' hb hb' hagree
      have hpremise := ihp hN hp (Uniform.left hg) (Uniform.left hg')
      have hconclusion := ihc hN hc (Uniform.right hg) (Uniform.right hg')
      exact .test hagree (forall_solution_iff hw hstore (Uniform.left hg) (Uniform.left hg') hpremise
        hconclusion hb hb' hagree)
  | iff left right ihl ihr =>
    cases h with
    | iff hl hr =>
      intro b b' hb hb' hagree
      have hleft := ihl hN hl (Uniform.left hg) (Uniform.left hg') b b' hb hb' hagree
      have hright := ihr hN hr (Uniform.right hg) (Uniform.right hg') b b' hb hb' hagree
      exact .test hagree (iff_congr hleft.exists_iff hright.exists_iff)
  | exists_ binders body ih =>
    cases h with
    | exists_ hproper hbody =>
      exact matchesOn_exists hw hstore hN hbody hg hg' (ih hproper hbody hg hg')
  | forall_ binders range body ihr ihb =>
    cases h with
    | @forall_ _ _ binders' _ _ _ _ hproper hrange hbody =>
      intro b b' hb hb' hagree
      have hrange := ihr hproper hrange (Uniform.left hg) (Uniform.left hg')
      have hbody := ihb hproper hbody (Uniform.right hg) (Uniform.right hg')
      -- the binders are new in both, so the bindings without them agree
      exact .test hagree (forall_solution_iff hw hstore (Uniform.left hg) (Uniform.left hg') hrange hbody
        (hb.erase binders) (hb'.erase binders') hagree.erase)
  | trait span name args =>
    cases h with
    | trait _ _ h =>
      exact fun b b' hb hb' hagree => World.TraitSolution.matching hw hstore hN h hg hg' hb hb' hagree
  | matches_ span subject f =>
    cases h with
    | matches_ _ hsubject hf =>
      exact fun b b' hb hb' hagree => World.MatchSolution.matching hw hN hsubject hf
        (hg _ (List.mem_singleton_self _)) (hg' _ (List.mem_singleton_self _)) hb hb' hagree
  | eq span left right =>
    cases h with
    | eq _ hl hr =>
      exact fun b b' hb hb' hagree => Solutions.Matching.of_outcome <|
        Program.rel_eqAnswers hw.program hN hl hr (hg _ (by simp [terms])) (hg' _ (by simp [terms]))
          (hg _ (by simp [terms])) (hg' _ (by simp [terms])) hb hb' hagree
  | ne span left right =>
    cases h with
    | ne _ hl hr =>
      exact fun b b' hb hb' hagree => Solutions.Matching.of_outcome <|
        Program.rel_neAnswers hw.program hl hr (hg _ (by simp [terms])) (hg' _ (by simp [terms]))
          (hg _ (by simp [terms])) (hg' _ (by simp [terms])) hb hb' hagree

end Goal

end CodeRules
