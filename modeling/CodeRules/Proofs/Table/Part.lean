import CodeRules.Proofs.Goal.Values
import CodeRules.Proofs.Statement.Ranks
import CodeRules.Proofs.Table.Fixpoint
import CodeRules.Proofs.Table.Level

/-!
# What a part of the schedule adds

A part of the schedule holds plain statements, or one statement for singletons. When it was run all its
statements are closed, and whatever holds of their conclusions holds of all that is new (`Table.Ran`).
Statements that equate no patterns make no nodes on the way.
-/

namespace CodeRules

open Effect

variable {base : UInt32}

/-! ### No node is made -/

/-- Every set of entities is closed if it holds all of them. -/
theorem World.closes_true (w : World) (a : Arena) : w.Closes a fun _ => True where
  empty := trivial
  item _ _ := trivial
  slot _ _ := trivial
  receiver _ := trivial
  call _ _ := trivial
  known _ _ := trivial
  made _ _ := trivial

namespace Running

variable {t t' : Table} {r : Realization} {g : Goal} {found : Solutions}

/-- Solving a goal that equates no patterns makes no node. -/
theorem arena_of_gives_solve {w : World} {b : Bindings} {a a' : Arena} (hg : g.equatesPattern = false)
    (h : Gives (g.solve w b) a found a') : a' = a := by
  have hyields := Goal.yields_valuesIn (World.closes_true w a) (fun _ _ _ _ _ _ _ => trivial)
    (fun _ _ _ _ => trivial) hg (b := b) (fun _ _ _ => trivial) a rfl
  exact (hyields.gives h).2

/-- Solving a goal that equates no patterns changes nothing. -/
theorem eq_of_gives_solutions (hg : g.equatesPattern = false) (h : Gives (solutions g) t found t') :
    t' = t := by
  obtain ⟨a, hsolve, rfl⟩ := gives_solutions h
  rw [arena_of_gives_solve hg hsolve]

/-- Running a statement whose goal equates no patterns makes no node. -/
theorem arena_of_runPlain {k : Nat} (hg : g.equatesPattern = false)
    (h : Gives (runPlain r g) t k t') : t'.arena = t.arena := by
  obtain ⟨_, hsolve, _⟩ := gives_runPlain h
  exact arena_of_gives_solve hg hsolve

/-- Passes of such statements make no node. -/
theorem arena_of_runPasses {members : List (Realization × Goal)} {isRecursive : Bool} {label : String}
    {pass left : Nat} (hm : ∀ m ∈ members, m.2.equatesPattern = false)
    (h : Gives (runPasses members isRecursive label pass left) t () t') : t'.arena = t.arena := by
  induction left generalizing t pass with
  | zero => exact (gives_throw.1 h).elim
  | succ left ih =>
    obtain ⟨_, ks, t₁, t₂, hleft, hks, ht₂, hrest⟩ := gives_runPasses h
    obtain rfl := Nat.succ.inj hleft
    have hpass : t₁.arena = t.arena := hks.mapM_eq (v := Table.arena) (Q := fun _ => True)
      (fun m hmem _ _ _ hk _ => arena_of_runPlain (hm m hmem) hk) fun _ _ => trivial
    have hrecord : t₂.arena = t.arena := by rw [ht₂, ← hpass]
    rcases hrest with ⟨rfl, _⟩ | hrest
    · exact hrecord
    · exact (ih hrest).trans hrecord

/-! ### Singletons -/

/-- What is new after singletons were resolved: their variables and relations hold values that were
concluded. -/
structure Resolves (names vars : List String) (C : Tuple → Prop) (t t' : Table) : Prop
    extends t.Follows names vars t' where
  arena_eq : t'.arena = t.arena
  overlay_eq : t'.overlay = t.overlay
  result_eq : t'.globals.result = t.globals.result
  only : ∀ n rel', t'.store.find? n = some rel' → ∀ u ∈ rel'.tuples.toList,
    (∃ rel, t.store.find? n = some rel ∧ u ∈ rel.tuples.toList) ∨ C u ∧ u.signature.name = n
  bound : ∀ v e, t'.globals.find? v = some e →
    t.globals.find? v = some e ∨ ∃ u, C u ∧ e ∈ u.values

variable {names names' vars vars' : List String} {C : Tuple → Prop} {t'' : Table}

namespace Resolves

/-- No singleton was resolved. -/
theorem refl (t : Table) : Resolves names vars C t t :=
  ⟨.refl t, rfl, rfl, rfl, fun _ rel' hrel' _ hu => .inl ⟨rel', hrel', hu⟩, fun _ _ he => .inl he⟩

/-- Singletons are resolved one after the other. -/
theorem trans (h : Resolves names vars C t t') (h' : Resolves names vars C t' t'') :
    Resolves names vars C t t'' where
  toFollows := h.toFollows.trans h'.toFollows
  arena_eq := h'.arena_eq.trans h.arena_eq
  overlay_eq := h'.overlay_eq.trans h.overlay_eq
  result_eq := h'.result_eq.trans h.result_eq
  only n rel' hrel' u hu := by
    rcases h'.only n rel' hrel' u hu with ⟨rel, hrel, hu⟩ | hC
    · exact h.only n rel hrel u hu
    · exact .inr hC
  bound v e he := (h'.bound v e he).elim (h.bound v e) .inr

/-- More relations and variables may be named. -/
theorem mono (h : Resolves names vars C t t') (hnames : ∀ n ∈ names, n ∈ names')
    (hvars : ∀ v ∈ vars, v ∈ vars') : Resolves names' vars' C t t' :=
  { h with toFollows := h.toFollows.mono hnames hvars }

end Resolves

/-- A singleton takes the tuple that all solutions give. -/
theorem resolves_of_resolveSingleton {s : Signature} (hs : s ∈ r.signatures)
    (h : Gives (resolveSingleton r found s) t () t') :
    Resolves [s.name] s.paramNames (Concluded t.program.types r found) t t' ∧
      ∀ b ∈ found.toList, ∃ u, Tuple.ofSolution t.program.types s b = .ok u ∧
        t'.store.holds u = true := by
  obtain ⟨u, rel, globals, trace, hu, hrel, _, htakes, _, rfl⟩ :=
    (ends_resolveSingleton r found s t).gives h
  obtain ⟨b, hb, hub⟩ := hu.given
  have hconcluded : Concluded t.program.types r found u := ⟨b, hb, s, hs, hub⟩
  obtain rfl := hu.signature
  -- The tuple is stored, and its values are bound to the parameters.
  have hset := t.follows_set hrel u
  refine ⟨⟨⟨hset.grows, hset.relations, fun v hv => htakes.find?_of_not_mem_paramNames hv, rfl⟩,
    rfl, rfl, htakes.result_eq, fun n rel' hrel' v hv => ?_, fun v e he => ?_⟩, fun c hc => ?_⟩
  · have hrel' : (Dict.set t.store u.signature.name (rel.insert u)).find? n = some rel' := hrel'
    rw [Dict.find?_set] at hrel'
    split at hrel'
    · rename_i hn
      obtain rfl := Option.some.inj hrel'
      rcases Catalog.mem_of_mem_insert hv with rfl | hv
      · exact .inr ⟨hconcluded, hn.symm⟩
      · exact .inl ⟨rel, hn ▸ hrel, hv⟩
    · exact .inl ⟨rel', hrel', hv⟩
  · refine (htakes.find?_eq_some he).imp_right fun hmem => ⟨u, hconcluded, ?_⟩
    exact (List.of_mem_zip (Catalog.mem_of_mem_ofListLast hmem)).2
  · -- all solutions give tuples that are equal to the one
    obtain ⟨w, hcw, hshape⟩ := hu.only c hc
    refine ⟨w, hcw, ?_⟩
    rw [Tuple.holds_congr hshape, Store.holds]
    show ((Dict.set t.store u.signature.name (rel.insert u)).find? u.signature.name).any _ = true
    rw [Dict.find?_set, if_pos rfl]
    exact Catalog.contains_insert.2 (.inl rfl)

/-- The singletons of a statement take the tuples that its solutions give. -/
theorem gives_runSingleton (h : Gives (runSingleton r) t () t') (hr : r.body.equatesPattern = false) :
    ∃ g found, t.goal r = .ok g ∧ Gives (solutions g) t found t ∧
      Resolves r.names (r.signatures.flatMap Signature.paramNames)
        (Concluded t.program.types r found) t t' ∧
      ∀ b ∈ found.toList, ∀ s ∈ r.signatures, ∃ u, Tuple.ofSolution t.program.types s b = .ok u ∧
        t'.store.holds u = true := by
  simp only [runSingleton, gives_bind] at h
  -- solving makes no nodes, so the table is the same when its singletons are resolved
  obtain ⟨g, t₀, hgoal, found, t₁, hfound, h⟩ := h
  obtain ⟨rfl, hg⟩ := goal_of_gives hgoal
  obtain rfl := eq_of_gives_solutions ((Expr.equatesPattern_of_compile hg).trans hr) hfound
  refine ⟨g, found, hg, hfound, ?_⟩
  -- what is resolved stays while the others are
  have hrest (sigs : List Signature) (hsigs : ∀ s ∈ sigs, s ∈ r.signatures) (t : Table)
      (h : Gives (sigs.forM (resolveSingleton r found)) t () t') :
      Resolves r.names (r.signatures.flatMap Signature.paramNames)
          (Concluded t.program.types r found) t t' ∧
        ∀ s ∈ sigs, ∀ b ∈ found.toList, ∃ u, Tuple.ofSolution t.program.types s b = .ok u ∧
          t'.store.holds u = true := by
    induction sigs generalizing t with
    | nil =>
      obtain rfl := gives_forM_nil.1 h
      exact ⟨.refl t, fun s hs => by cases hs⟩
    | cons s sigs ih =>
      obtain ⟨t₁, hs, hrest⟩ := gives_forM_cons.1 h
      have hmem := hsigs s (List.mem_cons_self ..)
      obtain ⟨hstep, hheld⟩ := resolves_of_resolveSingleton hmem hs
      obtain ⟨hresolves, hall⟩ := ih (fun s hs => hsigs s (List.mem_cons_of_mem _ hs)) t₁ hrest
      rw [hstep.program] at hresolves hall
      refine ⟨(hstep.mono (fun n hn => ?_) fun v hv => ?_).trans hresolves, ?_⟩
      · rw [List.mem_singleton.1 hn]
        exact List.mem_map_of_mem hmem
      · exact List.mem_flatMap.2 ⟨s, hmem, hv⟩
      · refine List.forall_mem_cons.2 ⟨fun b hb => ?_, hall⟩
        exact (hheld b hb).imp fun u hu => ⟨hu.1, hresolves.toFollows.holds hu.2⟩
  obtain ⟨hresolves, hall⟩ := hrest r.signatures (fun _ hs => hs) _ h
  exact ⟨hresolves, fun b hb s hs => hall s hs b hb⟩

end Running

/-! ### Parts -/

/-- The variables that a statement binds. -/
def Realization.binds (r : Realization) : List String :=
  if r.isSingleton then r.signatures.flatMap Signature.paramNames else []

/-- Only singletons bind variables. -/
theorem Realization.mem_binds_iff {r : Realization} {v : String} : v ∈ r.binds ↔
    r.isSingleton = true ∧ ∃ s ∈ r.signatures, v ∈ s.paramNames := by
  rw [binds]
  cases r.isSingleton with
  | true =>
    rw [if_pos rfl, List.mem_flatMap]
    exact ⟨fun h => ⟨rfl, h⟩, fun h => h.2⟩
  | false => exact ⟨fun h => (by cases h), fun h => (by cases h.1)⟩

namespace Table

/-- A moment at which a statement is run, while its part leads from `t` to `t'`. -/
structure Moment (base : UInt32) (part : List Realization) (r : Realization) (t₁ t t' : Table) :
    Prop where
  uniform : t₁.Uniform base
  since : t.Follows (part.flatMap Realization.names) [] t₁
  ahead : t₁.Follows (part.flatMap Realization.names) (part.flatMap Realization.binds) t'
  globals_eq : t₁.globals = t.globals
  overlay_eq : t₁.overlay = t.overlay
  store_eq : r.isSingleton = true → t₁.store = t.store

/-- The store holds what the solutions of a goal in the table give for the traits of a statement. -/
def Concludes (base : UInt32) (t : Table) (r : Realization) (g : Goal) (s : Store) : Prop :=
  ∀ c, g.Solution base t.world (t.globals.normal base) c → ∀ sig ∈ r.signatures, ∃ u,
    Tuple.ofSolution t.program.types sig c = .ok u ∧ s.holds u = true

/-- A part of the schedule leads from `t` to `t'`. All its statements are closed in the end, and what
holds of their conclusions holds of all that is new. -/
structure Ran (base : UInt32) (part : List Realization) (t t' : Table) : Prop
    extends t.Follows (part.flatMap Realization.names) (part.flatMap Realization.binds) t' where
  uniform : t'.Uniform base
  arena_eq : t'.arena = t.arena
  overlay_eq : t'.overlay = t.overlay
  result_eq : t'.globals.result = t.globals.result
  closed : ∀ r ∈ part, ∃ (t₁ : Table) (g : Goal), t₁.Moment base part r t t' ∧ t₁.goal r = .ok g ∧
    t₁.Concludes base r g t'.store ∧ (r.isSingleton = false → t₁.store = t'.store)
  least : ∀ H, Tuple.Respects H → t.store.All H →
    (∀ r ∈ part, ∀ (t₁ : Table) (g : Goal), t₁.Moment base part r t t' → t₁.goal r = .ok g → t₁.store.All H →
      Running.ConcludesOnly base t₁ r g H) → t'.store.All H

end Table

namespace Running

variable {t t' : Table} {r : Realization}

/-- A statement for singletons is a part of its own. -/
theorem ran_of_runSingleton (ht : t.Uniform base) (hfits : t.Fits base)
    (hbody : ∀ x ∈ r.body.entities, x.Uniform base) (hequates : r.body.equatesPattern = false)
    (hsingle : r.isSingleton = true) (h : Gives (runSingleton r) t () t') : t.Ran base [r] t' := by
  obtain ⟨g, found, hg, hfound, hresolves, hheld⟩ := gives_runSingleton h hequates
  have huniform := ht.goal hbody hg
  obtain ⟨a, hsolve, ht'⟩ := gives_solutions hfound
  -- No node is made, so numbers have not run out.
  have hfits' : base.toNat + a.size ≤ UInt32.size := by
    rw [show a = t.arena from (congrArg Table.arena ht').symm]
    exact hfits
  obtain ⟨hfoundUniform, hanswers⟩ :=
    Goal.answers_of_gives ht.world ht.store huniform ht.globals ht.arena hsolve hfits'
  have hsolution (c : Bindings) : g.Solution base t.world (t.globals.normal base) c ↔
      ∃ b ∈ found.toList, b.normal base = c := by
    rw [← Goal.mem_answers_iff ht.world ht.store huniform ht.globals.isNormal hanswers]
    exact List.mem_map
  have hconcluded (u : Tuple) (hu : Concluded t.program.types r found u) :
      ∀ e ∈ u.values, e.Uniform base := by
    obtain ⟨b, hb, s, _, hu⟩ := hu
    exact Tuple.uniform_of_ofSolution (hfoundUniform b hb) hu
  have hnames : ([r].flatMap Realization.names) = r.names := List.append_nil _
  have hbinds : ([r].flatMap Realization.binds) = r.signatures.flatMap Signature.paramNames := by
    rw [List.flatMap_cons, List.flatMap_nil, List.append_nil, Realization.binds, if_pos hsingle]
  have hfollows : t.Follows ([r].flatMap Realization.names) ([r].flatMap Realization.binds) t' := by
    rw [hnames, hbinds]
    exact hresolves.toFollows
  -- The statement is run at once, so its moment is the start of the part.
  have hmoment : t.Moment base [r] r t t' :=
    ⟨ht, .refl t, hfollows, rfl, rfl, fun _ => rfl⟩
  exact {
    toFollows := hfollows
    uniform := {
      world := by
        refine ⟨?_, ?_⟩
        · show t'.program.Below base
          rw [hresolves.program]
          exact ht.world.program
        · show ∀ e ∈ t'.overlay, e.Uniform base
          rw [hresolves.overlay_eq]
          exact ht.world.overlay
      -- a tuple was there before, or is concluded from a solution
      store := fun n rel' hrel' u hu => by
        rcases hresolves.only n rel' hrel' u hu with ⟨rel, hrel, hu⟩ | ⟨hu, _⟩
        · exact ht.store n rel hrel u hu
        · exact hconcluded u hu
      globals := by
        refine ⟨fun v e he => ?_, fun e he => ht.globals.result e (hresolves.result_eq ▸ he)⟩
        rcases hresolves.bound v e he with he | ⟨u, hu, he⟩
        · exact ht.globals.vars v e he
        · exact hconcluded u hu e he
      arena := by
        rw [hresolves.arena_eq]
        exact ht.arena }
    arena_eq := hresolves.arena_eq
    overlay_eq := hresolves.overlay_eq
    result_eq := hresolves.result_eq
    closed := fun q hq => by
      obtain rfl := List.mem_singleton.1 hq
      refine ⟨t, g, hmoment, hg, fun c hc s hs => ?_, fun hnot => ?_⟩
      · obtain ⟨b, hb, rfl⟩ := (hsolution c).1 hc
        obtain ⟨u, hu, hholds⟩ := hheld b hb s hs
        refine ⟨u.normal base, Tuple.ofSolution_normal ht.world.program (hfoundUniform b hb) hu, ?_⟩
        rw [Tuple.holds_congr u.shape_normal]
        exact hholds
      · rw [hsingle] at hnot
        cases hnot
    -- so a closed set that holds what the table held holds what was concluded
    least := fun H hH hall hstep n rel' hrel' u hu => by
      rcases hresolves.only n rel' hrel' u hu with ⟨rel, hrel, hu⟩ | ⟨⟨b, hb, s, hs, hu⟩, rfl⟩
      · exact hall n rel hrel u hu
      · have hnormal := hstep r (List.mem_singleton_self r) t g hmoment hg hall _
          ((hsolution _).2 ⟨b, hb, rfl⟩) s hs _
          (Tuple.ofSolution_normal ht.world.program (hfoundUniform b hb) hu)
        exact hH _ _ u u.shape_normal hnormal }

/-- The statements of a fixpoint are a part. -/
theorem ran_of_runFixpoint {c : RelationContext} {statements : List Realization} {schedule : Schedule}
    {steps part : List Planned} {label : String} (ht : t.Uniform base) (hfits : t.Fits base)
    (hbodies : ∀ r ∈ statements, ∀ x ∈ r.body.entities, x.Uniform base)
    (hequates : ∀ r ∈ statements, r.body.equatesPattern = false)
    (harr : schedule.Arranges c statements steps) (hpart : part ∈ Schedule.partition steps)
    (hchecked : ∀ r ∈ statements, r.Checked) (hopen : ∀ r ∈ statements, r.OpenIn c)
    (hplain : ∀ s ∈ part, s.statement.isPlain = true)
    (h : Gives (runFixpoint (part.map Planned.statement) (Planned.group part).isRecursive label) t ()
      t') : t.Ran base (part.map Planned.statement) t' := by
  -- all passes run the same goals
  obtain ⟨members, hgoals, hrun⟩ := gives_runFixpoint h
  have hnames : (part.map Planned.statement).flatMap Realization.names = partNames part := by
    rw [List.flatMap_map]
    rfl
  have hmembers := hgoals.isMembers ht fun s hs => hbodies _ (harr.statement_mem hpart hs)
  have harena : t'.arena = t.arena := arena_of_runPasses (fun m hm => by
    obtain ⟨s, hs, _, hgoal⟩ := hgoals.exists_planned hm
    exact (Expr.equatesPattern_of_compile hgoal).trans (hequates _ (harr.statement_mem hpart hs))) hrun
  have hfits' : t'.Fits base := by
    rw [Table.Fits, harena]
    exact hfits
  obtain ⟨ht', hsettled⟩ := settled_of_runPasses ht hmembers
    (not_mem_partNames_of_relations harr hpart hchecked hopen hplain hgoals) hrun hfits'
  have hadds := adds_of_runPasses hgoals.realizes hrun
  -- each pass sees a table between the start and the end
  have hmoment {t₁ : Table} {s : Planned} (hs : s ∈ part) (ht₁ : t₁.Uniform base)
      (h : t.Adds (partNames part) t₁) (h' : t₁.Adds (partNames part) t') :
      t₁.Moment base (part.map Planned.statement) s.statement t t' := by
    refine ⟨ht₁, hnames ▸ h.toFollows, ?_, h.globals_eq, h.overlay_eq, fun hsingle => ?_⟩
    · rw [hnames]
      exact h'.toFollows.mono (fun _ hn => hn) fun _ hv => by cases hv
    · have hkind := hplain s hs
      rw [Realization.isPlain, hsingle] at hkind
      cases hkind
  exact {
    toFollows := by
      rw [hnames]
      exact hadds.toFollows.mono (fun _ hn => hn) fun _ hv => by cases hv
    uniform := ht'
    arena_eq := harena
    overlay_eq := hadds.overlay_eq
    result_eq := by rw [hadds.globals_eq]
    closed := fun r hr => by
      obtain ⟨m, hm, hmr, hgoal⟩ := hgoals.exists_right hr
      obtain ⟨s, hs, rfl⟩ := List.mem_map.1 hr
      refine ⟨t', m.2, hmoment hs ht' hadds (.refl t'), (hadds.goal_eq _).trans hgoal, ?_, fun _ => rfl⟩
      intro c hc sig hsig
      obtain ⟨found, hfound, hheld⟩ := hsettled m hm
      rw [hmr] at hheld
      exact hheld c ((Goal.mem_answers_iff ht'.world ht'.store (hmembers.uniform m hm)
        ht'.globals.isNormal hfound).2 hc) sig hsig
    least := fun H hH hall hstep => by
      refine all_of_runPasses ht hmembers hH hrun hfits' hall fun m hm t₁ h₁ h₁' ht₁ hall₁ => ?_
      obtain ⟨s, hs, hms, hgoal⟩ := hgoals.exists_planned hm
      rw [hms]
      exact hstep _ (List.mem_map_of_mem hs) t₁ m.2 (hmoment hs ht₁ h₁ h₁')
        ((h₁.goal_eq _).trans hgoal) hall₁ }

end Running

namespace Table

variable {t₀ t t' t₁ : Table} {part : List Realization} {r : Realization}

/-- What the trace holds at the start does not matter. -/
theorem Moment.of_trace (h : t₁.Moment base part r t₀ t') (ht₀ : t₀ = { t with trace := t₀.trace }) :
    t₁.Moment base part r t t' where
  uniform := h.uniform
  since := (Follows.of_eq (by rw [ht₀]) (by rw [ht₀]) (by rw [ht₀])).trans h.since
  ahead := h.ahead
  globals_eq := h.globals_eq.trans (by rw [ht₀])
  overlay_eq := h.overlay_eq.trans (by rw [ht₀])
  store_eq hsingle := (h.store_eq hsingle).trans (by rw [ht₀])

/-- What the trace holds at the start does not matter for a part either. -/
theorem Ran.of_trace (h : t₀.Ran base part t') (ht₀ : t₀ = { t with trace := t₀.trace }) :
    t.Ran base part t' where
  toFollows := (Follows.of_eq (by rw [ht₀]) (by rw [ht₀]) (by rw [ht₀])).trans h.toFollows
  uniform := h.uniform
  arena_eq := h.arena_eq.trans (by rw [ht₀])
  overlay_eq := h.overlay_eq.trans (by rw [ht₀])
  result_eq := h.result_eq.trans (by rw [ht₀])
  closed r hr := by
    obtain ⟨t₁, g, hmoment, hrest⟩ := h.closed r hr
    exact ⟨t₁, g, hmoment.of_trace ht₀, hrest⟩
  least H hH hall hstep := by
    have hall₀ : t₀.store.All H := by
      rw [ht₀]
      exact hall
    exact h.least H hH hall₀ fun r hr t₁ g hmoment => hstep r hr t₁ g (hmoment.of_trace ht₀)

end Table

namespace Running

/-- A part without local statements that was run. -/
theorem ran_of_runPart {t t' : Table} {c : RelationContext} {statements : List Realization}
    {schedule : Schedule} {steps : List Planned} {level : Level} {part : List Planned × Nat}
    (ht : t.Uniform base) (hfits : t.Fits base)
    (hbodies : ∀ r ∈ statements, ∀ x ∈ r.body.entities, x.Uniform base)
    (hequates : ∀ r ∈ statements, r.body.equatesPattern = false)
    (harr : schedule.Arranges c statements steps) (hpart : part.1 ∈ Schedule.partition steps)
    (hstatements : Schedule.Orderly c statements) (h : Gives (runPart level statements part) t () t') :
    t.Ran base (part.1.map Planned.statement) t' := by
  obtain ⟨part, depth⟩ := part
  simp only [runPart, runPlaced, gives_bind] at h
  obtain ⟨_, t₀, hrecord, h⟩ := h
  have ht₀ : t₀ = { t with trace := t₀.trace } := by
    have hends : Ends (record .layer (",".intercalate (Planned.group part).relations.toList)
        s!"{level.name} layer {depth}") t (fun _ t₀ => t₀ = { t with trace := t₀.trace })
        (fun _ _ => True) := rfl
    exact hends.gives hrecord
  have htrace : t₀.Uniform base := ht.of_trace ht₀
  have hfits₀ : t₀.Fits base := by
    rw [ht₀]
    exact hfits
  refine Table.Ran.of_trace ?_ ht₀
  -- a part is a fixpoint, or one statement, which is no local one
  rcases Schedule.isPlain_or_eq_singleton harr.numbered hpart with hplain | ⟨s, rfl, hkind⟩
  · rw [runGroup_fixpoint harr hpart hplain] at h
    exact ran_of_runFixpoint htrace hfits₀ hbodies hequates harr hpart hstatements.checked
      hstatements.openIn hplain h
  · have hmem := harr.statement_mem hpart (List.mem_singleton_self s)
    rcases Realization.isPlain_or_isSingleton (hstatements.notLocal _ hmem) with hplain | ⟨_, hsingle⟩
    · rw [hkind] at hplain
      cases hplain
    · rw [runGroup_singleton harr hpart hsingle] at h
      exact ran_of_runSingleton htrace hfits₀ (hbodies _ hmem) (hequates _ hmem) hsingle h

end Running

end CodeRules
