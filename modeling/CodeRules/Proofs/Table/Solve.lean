import CodeRules.Proofs.Goal.Growth
import CodeRules.Proofs.Table.Construct
import CodeRules.Proofs.Table.Guards
import CodeRules.Proofs.Table.Walk

/-!
# Failures of solving

`Table.Stays` is what no run changes, however it ends. `Table.Awaits` says that some statements have not
run yet and that nothing stands in their way: their relations are registered, and their singletons have
neither tuples nor entities. Running a part of the schedule keeps this of the statements that are left. So
a constructed table is solved without a defect, unless a fixpoint is not reached in time.
-/

namespace CodeRules

open Effect

namespace Table

/-! ### What stays -/

namespace Follows

variable {names vars : List String} {t t' : Table}

/-- The relations of a table keep their signatures. -/
theorem signature?_eq (h : t.Follows names vars t') (n : String) :
    t'.store.signature? n = t.store.signature? n := by
  have hn := h.grows n
  rw [Store.signature?, Store.signature?]
  -- a relation is registered in both tables, or in neither
  cases hr : t.store.find? n with
  | none =>
    cases hr' : t'.store.find? n with
    | none => rfl
    | some r' =>
      rw [hr, hr'] at hn
      exact hn.elim
  | some r =>
    cases hr' : t'.store.find? n with
    | none =>
      rw [hr, hr'] at hn
      exact hn.elim
    | some r' =>
      rw [hr, hr'] at hn
      exact congrArg some hn.1.symm

end Follows

/-- No run changes the statements of a table, its settings and the signatures of its relations. -/
structure Stays (t t' : Table) : Prop where
  statements : t'.statements = t.statements
  settings : t'.settings = t.settings
  signatures : ∀ n, t'.store.signature? n = t.store.signature? n

namespace Stays

variable {t t' t'' : Table}

/-- A table that does not change stays. -/
theorem refl (t : Table) : t.Stays t := ⟨rfl, rfl, fun _ => rfl⟩

/-- What stays in each of two runs stays in both. -/
theorem trans (h : t.Stays t') (h' : t'.Stays t'') : t.Stays t'' where
  statements := h'.statements.trans h.statements
  settings := h'.settings.trans h.settings
  signatures n := (h'.signatures n).trans (h.signatures n)

end Stays

/-- What follows a table in a run has stayed. -/
theorem Follows.stays {names vars : List String} {t t' : Table} (h : t.Follows names vars t') :
    t.Stays t' := ⟨h.statements, h.settings, h.signature?_eq⟩

/-- Checks leave relations and variables alone. -/
theorem Checked.follows {t t' : Table} (h : t.Checked t') : t.Follows [] [] t' := by
  rw [h.others]
  exact .of_eq rfl rfl rfl

end Table

namespace Running

variable {t : Table} {names vars : List String}

/-- A singleton stays pending in a run that does not touch its relation and variables. -/
theorem Pending.follows {s : Signature} (h : Pending t s) {t' : Table}
    (hf : t.Follows names vars t') (hname : s.name ∉ names) (hvars : ∀ p ∈ s.paramNames, p ∉ vars) :
    Pending t' s where
  empty := by
    rw [hf.relations _ hname]
    exact h.empty
  unbound p hp := by rw [hf.globals p (hvars p hp), h.unbound p hp]

/-- Different singletons bind different variables. -/
def Apart (s s' : Signature) : Prop := s.name ≠ s'.name ∧ ∀ p ∈ s'.paramNames, p ∉ s.paramNames

end Running

namespace Table

/-! ### Statements that can run -/

/-- Some statements can run. -/
structure Awaits (todo : List Realization) (t : Table) : Prop where
  checked : ∀ r ∈ todo, r.Checked
  registered : ∀ r ∈ todo, ∀ s ∈ r.signatures, ∃ rel,
    t.store.find? s.name = some rel ∧ rel.signature = s
  notCopiedTo : ∀ r ∈ todo, ∀ s ∈ r.signatures, s.name ≠ BuiltinRelation.copiedTo
  copies : Running.HasCopies t
  /-- No singleton is realized twice. -/
  singletons : ((todo.filter (·.isSingleton)).flatMap Realization.names).Nodup
  owner : ∀ r ∈ todo, r.isSingleton = true → ∀ s ∈ r.signatures, ∀ p ∈ s.paramNames,
    t.singletonOf.find? p = some s.name
  pending : ∀ r ∈ todo, r.isSingleton = true → ∀ s ∈ r.signatures, Running.Pending t s

namespace Awaits

variable {todo rest : List Realization} {t t' : Table} {names vars : List String}

/-- All that a singleton statement realizes are singletons. -/
theorem isSingleton_of_mem {r : Realization} (hr : r.isSingleton = true) {s : Signature}
    (hs : s ∈ r.signatures) : s.flags.isSingleton = true := List.all_eq_true.1 hr s hs

/-- The order of the statements does not matter. -/
theorem perm (h : Awaits todo t) (hperm : todo.Perm rest) : Awaits rest t where
  checked r hr := h.checked r (hperm.mem_iff.2 hr)
  registered r hr := h.registered r (hperm.mem_iff.2 hr)
  notCopiedTo r hr := h.notCopiedTo r (hperm.mem_iff.2 hr)
  copies := h.copies
  singletons := (((hperm.filter _).flatMap_right _).nodup_iff).1 h.singletons
  owner r hr := h.owner r (hperm.mem_iff.2 hr)
  pending r hr := h.pending r (hperm.mem_iff.2 hr)

/-- Some of the statements run, and change nothing that the others need. -/
theorem follows (h : Awaits (todo ++ rest) t) (hf : t.Follows names vars t')
    (hnames : ∀ r ∈ rest, r.isSingleton = true → ∀ s ∈ r.signatures, s.name ∉ names ∧
      ∀ p ∈ s.paramNames, p ∉ vars) : Awaits rest t' where
  checked r hr := h.checked r (List.mem_append_right _ hr)
  registered r hr s hs := by
    obtain ⟨rel, hrel, hsig⟩ := h.registered r (List.mem_append_right _ hr) s hs
    obtain ⟨rel', hrel', hsig'⟩ := hf.find? hrel
    exact ⟨rel', hrel', hsig'.trans hsig⟩
  notCopiedTo r hr := h.notCopiedTo r (List.mem_append_right _ hr)
  copies := h.copies.follows hf
  singletons := by
    have hall := h.singletons
    rw [List.filter_append, List.flatMap_append] at hall
    exact (List.nodup_append.1 hall).2.1
  owner r hr := by
    rw [hf.singletonOf]
    exact h.owner r (List.mem_append_right _ hr)
  -- what ran touched neither the relations nor the variables of the others
  pending r hr hsingle s hs := by
    have hname := hnames r hr hsingle s hs
    exact (h.pending r (List.mem_append_right _ hr) hsingle s hs).follows hf hname.1 hname.2

/-- What a statement realizes besides singletons is no singleton of another. -/
theorem name_ne (h : Awaits todo t) {r r' : Realization} (hr : r ∈ todo) (hr' : r' ∈ todo)
    (hkind : r.isSingleton = false) (hkind' : r'.isSingleton = true) {s s' : Signature}
    (hs : s ∈ r.signatures) (hs' : s' ∈ r'.signatures) : s'.name ≠ s.name := by
  intro e
  obtain ⟨rel, hrel, hsig⟩ := h.registered r hr s hs
  obtain ⟨rel', hrel', hsig'⟩ := h.registered r' hr' s' hs'
  rw [e, hrel] at hrel'
  obtain rfl := Option.some.inj hrel'
  have hsingle : s.flags.isSingleton = true := by
    rw [← hsig, hsig']
    exact isSingleton_of_mem hkind' hs'
  -- a statement that realizes more than singletons realizes one trait only
  rcases (h.checked r hr).kinds with hall | ⟨u, hu, hnot⟩
  · rw [hkind] at hall
    cases hall
  · rw [hu, List.mem_singleton] at hs
    rw [hs, hnot] at hsingle
    cases hsingle

/-- The singletons of one statement are apart from each other. -/
theorem apart (h : Awaits todo t) {r : Realization} (hr : r ∈ todo) (hkind : r.isSingleton = true) :
    r.signatures.Pairwise Running.Apart := by
  have hnodup : r.signatures.Pairwise fun s s' => s.name ≠ s'.name :=
    List.pairwise_map.1 (h.checked r hr).nodup
  refine hnodup.imp_of_mem fun {s s'} hs hs' hne => ⟨hne, fun p hp' hp => hne ?_⟩
  -- a variable belongs to one singleton only
  have := h.owner r hr hkind s hs p hp
  rw [h.owner r hr hkind s' hs' p hp'] at this
  exact (Option.some.inj this).symm

/-- The singletons of one statement are apart from those of the others. -/
theorem apart_rest {r r' : Realization} (h : Awaits (r :: rest) t) (hr' : r' ∈ rest)
    (hkind : r.isSingleton = true) (hkind' : r'.isSingleton = true) {s s' : Signature}
    (hs : s ∈ r.signatures) (hs' : s' ∈ r'.signatures) : Running.Apart s s' := by
  have hmem' : r' ∈ r :: rest := List.mem_cons_of_mem _ hr'
  have hnodup := h.singletons
  rw [List.filter_cons, if_pos hkind, List.flatMap_cons, List.nodup_append] at hnodup
  have hne : s.name ≠ s'.name := by
    refine hnodup.2.2 _ (List.mem_map_of_mem hs) _ (List.mem_flatMap.2 ⟨r', ?_, ?_⟩)
    · exact List.mem_filter.2 ⟨hr', hkind'⟩
    · exact List.mem_map_of_mem hs'
  refine ⟨hne, fun p hp' hp => hne ?_⟩
  have := h.owner r (List.mem_cons_self ..) hkind s hs p hp
  rw [h.owner r' hmem' hkind' s' hs' p hp'] at this
  exact (Option.some.inj this).symm

end Awaits

/-- The statements of a constructed table can run. -/
theorem Constructed.awaits {t : Table} (h : t.Constructed) : Awaits t.statements t where
  checked := h.checked
  registered r hr s hs := by
    obtain ⟨rel, hrel, hsig, _⟩ := h.registered r hr s hs
    exact ⟨rel, hrel, hsig⟩
  notCopiedTo := h.notCopiedTo
  copies := h.copiedTo
  singletons := h.singletons
  owner r hr hkind s hs p hp :=
    (h.ownVariables r hr s hs (Awaits.isSingleton_of_mem hkind hs) p hp).1
  pending r hr hkind s hs := by
    obtain ⟨rel, hrel, _, hempty⟩ := h.registered r hr s hs
    have hsingle := Awaits.isSingleton_of_mem hkind hs
    exact ⟨⟨rel, hrel, hempty⟩, fun p hp => (h.ownVariables r hr s hs hsingle p hp).2⟩

end Table

namespace Running

variable {t t' : Table} {names vars : List String} {x : Realization}

/-! ### Frames of statements -/

/-- Why solving may fail: the user is told, or a fixpoint was not reached in time. -/
def Expected (passes : Nat) (f : Failure) : Prop :=
  f.IsUser ∨ ∃ label, f = .defect (.unsettled label passes)

/-- Relations are registered for all that a statement realizes, and for copies. -/
structure CanRun (t : Table) (x : Realization) : Prop where
  registered : ∀ s ∈ x.signatures, ∃ rel, t.store.find? s.name = some rel
  copies : HasCopies t

/-- A run takes away no relation, so a statement still can run. -/
theorem CanRun.follows (h : CanRun t x) (hf : t.Follows names vars t') : CanRun t' x where
  registered s hs := by
    obtain ⟨rel, hrel⟩ := h.registered s hs
    obtain ⟨rel', hrel', _⟩ := hf.find? hrel
    exact ⟨rel', hrel'⟩
  copies := h.copies.follows hf

/-- Realizing adds to the relation of the trait only, and a relation that is registered takes the tuple. -/
private theorem leads_realize_follows (r : Realization) (b : Bindings) (s : Signature) (t : Table) :
    LeadsOr (Table.Follows [s.name] [])
      (fun f => (∃ rel, t.store.find? s.name = some rel) → f.IsUser) (realize r b s) t
      fun _ _ => True := by
  refine (ends_realize r b s t).imp (fun o t' h => ⟨?_, trivial⟩) fun f t' h => ?_
  · obtain ⟨u, rel, trace, _, hrel, _, rfl⟩ := h
    exact (t.follows_set hrel u).trans (.of_eq rfl rfl rfl)
  · obtain ⟨rfl, huser | ⟨hnone, _⟩⟩ := h
    · exact ⟨.refl t', fun _ => huser⟩
    · refine ⟨.refl t', fun hsome => ?_⟩
      obtain ⟨rel, hrel⟩ := hsome
      rw [hnone] at hrel
      cases hrel

/-- Keeping a made node adds to the relation of copies only, which takes the pairs if it is there. -/
private theorem leads_keepMade_follows (s : Signature) (b : Bindings) (host : Option CodeType)
    (param : String) (root : Node) (t : Table) :
    LeadsOr (Table.Follows [BuiltinRelation.copiedTo] []) (fun _ => ¬ HasCopies t)
      (keepMade s b host param root) t fun _ _ => True := by
  refine (ends_keepMade s b host param root t).imp (fun _ t' h => ⟨?_, trivial⟩) fun _ t' h => ?_
  · obtain ⟨_, store, trace, _, hnotes, rfl⟩ := h
    exact hnotes.follows.trans (.of_eq rfl rfl rfl)
  · obtain ⟨⟨_, store, _, hnotes, rfl⟩, hnot⟩ := h
    exact ⟨hnotes.follows.trans (.of_eq rfl rfl rfl), hnot⟩

/-- Resolving a singleton changes its relation and its variables only, and a pending one is resolved
unless the user is told why not. -/
private theorem leads_resolveSingleton_follows (r : Realization) (found : Solutions) (s : Signature)
    (t : Table) :
    LeadsOr (Table.Follows [s.name] s.paramNames) (fun f => Pending t s → f.IsUser)
      (resolveSingleton r found s) t fun _ _ => True := by
  have hvars {u : Tuple} (hu : IsAnswer t.program.types found s u) {globals : Bindings}
      (htakes : t.globals.Takes u.byName.toList globals) (v : String) (hv : v ∉ s.paramNames) :
      globals.find? v = t.globals.find? v :=
    htakes.find?_of_not_mem_paramNames (hu.signature.symm ▸ hv)
  refine (ends_resolveSingleton r found s t).imp (fun _ t' h => ⟨?_, trivial⟩) fun f t' h => ?_
  · obtain ⟨u, rel, globals, trace, hu, hrel, _, htakes, _, rfl⟩ := h
    have hset := t.follows_set hrel u
    exact ⟨hset.grows, hset.relations, hvars hu htakes, rfl⟩
  · rcases h with ⟨rfl, huser⟩ | ⟨hnot, u, globals, trace, hu, htakes, rfl⟩
    · exact ⟨.refl t', fun _ => huser⟩
    · exact ⟨⟨fun _ => .refl _, fun _ _ => rfl, hvars hu htakes, rfl⟩, fun hpending =>
        absurd hpending hnot⟩

/-- The steps of statements for some relations change these relations only. Where the statements can run,
as `P` says, they fail as expected. -/
private def frameWalk (names : List String) (P : Prop) (passes : Nat) :
    StatementWalk (Table.Follows names []) fun f => P → Expected passes f where
  Ready x t := (∀ n ∈ x.names, n ∈ names) ∧ (P → CanRun t x)
  Fits _ g t := g.WellFormed t.store.arity?
  Found _ _ := True
  Made _ _ := True
  ready_later hf h := ⟨h.1, fun hP => (h.2 hP).follows hf⟩
  fits_later hf h := hf.arity? ▸ h
  found_later _ h := h
  made_later _ h := h
  record _ _ _ _ := .of_eq rfl rfl rfl
  report _ _ := .inl rfl
  goal _ hg := Expr.compile_wellFormed hg
  solutions {_ t g} _ hg := by
    refine ends_solutions.2 ?_
    exact (Goal.WellFormed.failsOnly_solve hg t.globals t.arena).imp
      (fun _ _ _ => ⟨.of_eq rfl rfl rfl, fun _ _ => trivial⟩)
      fun _ _ h => ⟨.of_eq rfl rfl rfl, fun _ => .inl h.isUser⟩
  realize {x t b s} hx _ hs _ := by
    refine ((leads_realize_follows x b s t).weaken (fun t' hf => hf.mono ?_ (by simp))
      fun f hf hP => .inl (hf ((hx.2 hP).registered s hs))).mono fun _ _ _ _ _ _ => trivial
    intro n hn
    rw [List.mem_singleton.1 hn]
    exact hx.1 _ (List.mem_map_of_mem hs)

/-- A local statement changes its relations and that of copies only. -/
private theorem leads_runLocal_follows {P : Prop} (passes : Nat) (hP : P → CanRun t x)
    (hkind : x.isSingleton = false) :
    LeadsOr (Table.Follows (BuiltinRelation.copiedTo :: x.names) [])
      (fun f => P → Expected passes f) (runLocal x) t fun _ _ => True := by
  refine (frameWalk (BuiltinRelation.copiedTo :: x.names) P passes).leads_runLocal
    ⟨fun n hn => List.mem_cons_of_mem _ hn, hP⟩ hkind ?_
  intro t₁ s u b host param root _ hx _ _ _ _ _
  refine (leads_keepMade_follows s b host param root t₁).weaken
    (fun _ hf => hf.mono (fun n hn => ?_) (by simp)) fun f hnot hP => absurd (hx.2 hP).copies hnot
  rw [List.mem_singleton.1 hn]
  exact List.mem_cons_self ..

/-- The singletons of a statement change their relations and variables only, and are resolved one after the
other if they are pending and apart. -/
private theorem leads_runSingleton_follows {P : Prop}
    (hP : P → (∀ s ∈ x.signatures, Pending t s) ∧ x.signatures.Pairwise Apart) :
    LeadsOr (Table.Follows x.names (x.signatures.flatMap Signature.paramNames))
      (fun f => P → f.IsUser) (runSingleton x) t fun _ _ => True := by
  rw [runSingleton, LeadsOr, ends_bind, ends_goal]
  split
  · rename_i g hg
    rw [ends_bind, ends_solutions]
    have hwellFormed : g.WellFormed t.store.arity? := Expr.compile_wellFormed hg
    refine (Goal.WellFormed.failsOnly_solve (w := t.world) hwellFormed t.globals t.arena).imp
      (fun found arena _ => ?_) fun _ _ h => ⟨.of_eq rfl rfl rfl, fun _ => h.isUser⟩
    have hsolved : t.Follows [] [] { t with arena } := .of_eq rfl rfl rfl
    -- what is left is still pending, because it is apart from what was resolved
    have hall := ends_forM (f := resolveSingleton x found) (s := { t with arena })
      (E := fun f t' => t.Follows x.names (x.signatures.flatMap Signature.paramNames) t' ∧
        (P → f.IsUser))
      (fun rest t' => t.Follows x.names (x.signatures.flatMap Signature.paramNames) t' ∧
        (∀ s ∈ rest, s ∈ x.signatures) ∧ (P → (∀ s ∈ rest, Pending t' s) ∧ rest.Pairwise Apart))
      (fun s rest t' hI => ?_)
      ⟨hsolved.mono (by simp) (by simp), fun _ hs => hs, fun h => ⟨fun s hs =>
        ((hP h).1 s hs).follows hsolved (by simp) (by simp), (hP h).2⟩⟩
    · exact hall.mono fun _ _ h => ⟨h.1, trivial⟩
    · obtain ⟨hf, hmem, hP⟩ := hI
      have hs := hmem s (List.mem_cons_self ..)
      refine Ends.imp (leads_resolveSingleton_follows x found s t')
        (fun _ t'' h => ⟨hf.trans (h.1.mono ?_ ?_), fun s' hs' => hmem s' (List.mem_cons_of_mem _ hs'),
          fun h' => ?_⟩) fun f t'' h => ⟨hf.trans (h.1.mono ?_ ?_), fun h' => ?_⟩
      · exact fun n hn => List.mem_singleton.1 hn ▸ List.mem_map_of_mem hs
      · exact fun v hv => List.mem_flatMap.2 ⟨s, hs, hv⟩
      · obtain ⟨hpending, hapart⟩ := hP h'
        obtain ⟨hhead, hrest⟩ := List.pairwise_cons.1 hapart
        refine ⟨fun s' hs' => ?_, hrest⟩
        refine (hpending s' (List.mem_cons_of_mem _ hs')).follows h.1 ?_ (hhead s' hs').2
        rw [List.mem_singleton]
        exact fun e => (hhead s' hs').1 e.symm
      · exact fun n hn => List.mem_singleton.1 hn ▸ List.mem_map_of_mem hs
      · exact fun v hv => List.mem_flatMap.2 ⟨s, hs, hv⟩
      · exact h.2 ((hP h').1 s (List.mem_cons_self ..))
  · exact ⟨.refl t, fun _ => rfl⟩

/-! ### Groups -/

section

variable {g rest : List Realization}

/-- What a group realizes besides singletons is none of the singletons that are left. -/
private theorem not_mem_names_of_awaits (h : t.Awaits (g ++ rest)) {r r' : Realization} (hr : r ∈ g)
    (hr' : r' ∈ rest) (hkind : r.isSingleton = false) (hkind' : r'.isSingleton = true) {s : Signature}
    (hs : s ∈ r'.signatures) : s.name ∉ r.names := by
  intro hmem
  obtain ⟨u, hu, e⟩ := List.mem_map.1 hmem
  exact h.name_ne (List.mem_append_left _ hr) (List.mem_append_right _ hr') hkind hkind' hu hs e.symm

/-- A statement of a group that is next can run. -/
private theorem canRun_of_awaits (h : t.Awaits (g ++ rest)) {r : Realization} (hr : r ∈ g) :
    CanRun t r where
  registered s hs := by
    obtain ⟨rel, hrel, _⟩ := h.registered r (List.mem_append_left _ hr) s hs
    exact ⟨rel, hrel⟩
  copies := h.copies

end

/-- Running the groups of a table changes nothing that stays. Where its statements can run, as `P` says, the
statements that are left still can, and failures are expected. -/
theorem tableWalk_awaits (t : Table) (P : Prop) :
    TableWalk (fun todo t' => t.Stays t' ∧ (P → t'.Awaits todo))
      (fun f t' => t.Stays t' ∧ (P → Expected t.settings.maxPasses f)) where
  perm h hperm := ⟨h.1, fun hP => (h.2 hP).perm hperm⟩
  record {todo t'} action relation detail h := by
    have hrecord : t'.Follows [] [] (t'.record action relation detail) := .of_eq rfl rfl rfl
    refine ⟨h.1.trans hrecord.stays, fun hP => ?_⟩
    have hall : t'.Awaits ([] ++ todo) := h.2 hP
    exact hall.follows hrecord (by simp)
  report _ h := ⟨h.1, fun _ => .inl rfl⟩
  group {_ _ _ _ g rest t'} label harr hg h := by
    obtain ⟨hstays, hawaits⟩ := h
    -- what remains to be shown is that the names and variables of the group are not those that are left
    have hends {y : Running Unit} {names vars : List String} {E : Failure → Prop}
        (hy : LeadsOr (Table.Follows names vars) (fun f => P → E f) y t' fun _ _ => True)
        (hE : ∀ f, E f → Expected t'.settings.maxPasses f)
        (hleft : P → ∀ r ∈ rest, r.isSingleton = true → ∀ s ∈ r.signatures, s.name ∉ names ∧
          ∀ p ∈ s.paramNames, p ∉ vars) :
        Ends y t' (fun _ t'' => t.Stays t'' ∧ (P → t''.Awaits rest))
          (fun f t'' => t.Stays t'' ∧ (P → Expected t.settings.maxPasses f)) := by
      refine Ends.imp hy (fun _ t'' h => ?_) fun f t'' h => ?_
      · exact ⟨hstays.trans h.1.stays, fun hP => (hawaits hP).follows h.1 (hleft hP)⟩
      · refine ⟨hstays.trans h.1.stays, fun hP => ?_⟩
        rw [← hstays.settings]
        exact hE f (h.2 hP)
    have hcan {r : Realization} (hr : r ∈ g.map Planned.statement) (hP : P) : CanRun t' r :=
      canRun_of_awaits (hawaits hP) hr
    refine ends_runGroup_of_kinds harr hg (fun hplain => ?_) (fun s hs hkind => ?_)
      fun s hs hkind => ?_
    -- a fixpoint changes the relations of its statements, none of which is a singleton
    · refine hends ((frameWalk ((g.map Planned.statement).flatMap Realization.names) P
        t'.settings.maxPasses).leads_runFixpoint
          (fun r hr => ⟨⟨fun n hn => List.mem_flatMap.2 ⟨r, hr, hn⟩, hcan hr⟩, hplain r hr⟩) _
          fun t₁ hf _ => .inr ⟨label, by rw [hf.settings]⟩) (fun _ hf => hf) fun hP r' hr' hkind' s hs =>
            ⟨fun hmem => ?_, by simp⟩
      obtain ⟨r, hr, hmem⟩ := List.mem_flatMap.1 hmem
      exact not_mem_names_of_awaits (hawaits hP) hr hr' (hplain r hr) hkind' hs hmem
    -- a singleton statement changes its relations and binds its variables
    · subst hs
      have hmem : s.statement ∈ [s].map Planned.statement := List.mem_singleton_self _
      refine hends (leads_runSingleton_follows fun hP => ⟨(hawaits hP).pending _
        (List.mem_append_left _ hmem) hkind, (hawaits hP).apart (List.mem_append_left _ hmem) hkind⟩)
        (fun _ hf => .inl hf) fun hP r' hr' hkind' u hu => ⟨fun hname => ?_, fun p hp hvar => ?_⟩
      · obtain ⟨v, hv, e⟩ := List.mem_map.1 hname
        exact (Table.Awaits.apart_rest (hawaits hP) hr' hkind hkind' hv hu).1 e
      · obtain ⟨v, hv, hvar⟩ := List.mem_flatMap.1 hvar
        exact (Table.Awaits.apart_rest (hawaits hP) hr' hkind hkind' hv hu).2 p hp hvar
    -- a local statement also adds to the relation of copies
    · subst hs
      have hmem : s.statement ∈ [s].map Planned.statement := List.mem_singleton_self _
      refine hends (leads_runLocal_follows t'.settings.maxPasses (hcan hmem) hkind) (fun _ hf => hf)
        fun hP r' hr' hkind' u hu => ⟨fun hname => ?_, by simp⟩
      rcases List.mem_cons.1 hname with e | hname
      · exact (hawaits hP).notCopiedTo r' (List.mem_append_right _ hr') u hu e
      · exact not_mem_names_of_awaits (hawaits hP) hmem hr' hkind hkind' hu hname

end Running

namespace Table

/-! ### Tables and sessions -/

/-- Running a table changes nothing that stays. Where its statements can run, as `P` says, it fails as
expected. -/
theorem ends_run_stays (t : Table) {P : Prop} (h : P → t.Awaits t.statements) :
    Ends run t (fun _ t' => t.Stays t')
      (fun f t' => t.Stays t' ∧ (P → Running.Expected t.settings.maxPasses f)) := by
  refine (Running.tableWalk_awaits t P).ends_run (fun _ _ h => h.1.statements) (fun t' ht' => ?_)
    (fun t' ht' => ht'.1.trans ⟨rfl, rfl, fun _ => rfl⟩) (fun _ => .refl t) fun _ => ⟨.refl t, h⟩
  refine (Running.ends_checkGuards t').imp (fun _ t'' hchecked => ?_) fun f t'' hchecked => ?_
  · have hf := hchecked.1.follows
    refine ⟨ht'.1.trans hf.stays, fun hP => ?_⟩
    have hall : t'.Awaits ([] ++ []) := ht'.2 hP
    exact hall.follows hf (by simp)
  · exact ⟨ht'.1.trans hchecked.1.follows.stays, fun _ => .inl hchecked.2.1.isUser⟩

/-- Attempts to solve a table change nothing that stays, whether they succeed or not. -/
theorem stays_iterate_solve (t : Table) (n : Nat) : t.Stays ((fun t => t.solve.2)^[n] t) :=
  iterate_solve_of_ends (J := t.Stays) (fun t' h =>
    (ends_run_stays t' (P := False) False.elim).imp (fun _ _ h' => h.trans h')
      fun _ _ h' => h.trans h'.1) (.refl t) n

/-- A table whose statements all can run is solved without a defect. -/
theorem Awaits.ends_run {t : Table} (h : t.Awaits t.statements) :
    Ends run t (fun _ _ => True) (fun f _ => Running.Expected t.settings.maxPasses f) :=
  (ends_run_stays t fun _ : True => h).imp (fun _ _ _ => trivial) fun _ _ h' => h'.2 trivial

/-- A constructed table is solved without a defect, unless a fixpoint is not reached in time. -/
theorem Constructed.ends_run {t : Table} (h : t.Constructed) :
    Ends run t (fun _ _ => True) (fun f _ => Running.Expected t.settings.maxPasses f) :=
  h.awaits.ends_run

end Table

namespace Session

/-- A table that is constructed in a session, and solved for the first time, fails through the fault
of the rules or the arguments only, unless a fixpoint is not reached in as many passes as the
settings allow. -/
theorem construct_solve_isUser (s : Session) (option : String) (args : List Argument) :
    match s.construct option args with
    | .error f => f.isDefect = false
    | .ok t => ∀ f, t.solve.1 = .error f →
      f.isDefect = false ∨ ∃ label, f = .defect (.unsettled label s.settings.maxPasses) := by
  cases hconstruct : s.construct option args with
  | error f =>
    unfold construct at hconstruct
    split at hconstruct
    · exact Except.error.inj hconstruct ▸ rfl
    · rename_i d _
      split at hconstruct
      · exact Except.error.inj hconstruct ▸ rfl
      · rename_i i hi
        -- the interface was looked up under the name that the option gives
        have hname : i.name.value = d.interface.value := by
          simpa using List.find?_some hi
        exact Table.isDefect_of_construct hname.symm hconstruct
  | ok t =>
    intro f hf
    have ht : t.Constructed ∧ t.settings = s.settings := by
      unfold construct at hconstruct
      split at hconstruct
      · cases hconstruct
      · split at hconstruct
        · cases hconstruct
        · exact Table.constructed_of_construct hconstruct
    have hrun := ht.1.ends_run
    unfold Table.solve at hf
    unfold Ends at hrun
    rw [← ht.2]
    -- the run either succeeds or fails as expected
    split at hrun
    · rename_i hok
      rw [hok] at hf
      cases hf
    · rename_i f' t' herror
      rw [herror] at hf
      exact Except.error.inj hf ▸ hrun

end Session

end CodeRules
