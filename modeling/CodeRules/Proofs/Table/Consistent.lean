import CodeRules.Proofs.Goal.Extension
import CodeRules.Proofs.Table.Construct
import CodeRules.Proofs.Table.Guards
import CodeRules.Proofs.Table.Walk

/-!
# What stays true of a table

`Table.Sound` holds of a constructed table, and every step of solving keeps it, whether the step
succeeds or fails. So it holds after any number of attempts to solve the table, and with it what the
relations and the variables promise to those who look at them (`Table.consistent_iterate_solve`).
-/

namespace CodeRules

open Effect

/-- A singleton waits for its tuple while its variables are unbound, or it has the tuple and its
variables stand for the values. -/
inductive Relation.IsSettled (globals : Bindings) (r : Relation) : Prop where
  | pending (hempty : r.tuples = ∅)
      (hunbound : ∀ p ∈ r.signature.paramNames, globals.find? p = none)
  | resolved (u : Tuple) (htuple : r.tuples.toList = [u])
      (hbound : ∀ p ∈ r.signature.paramNames, ∃ e, globals.find? p = some e ∧ u.get? p = some e)

namespace Table

/-- What the relations and variables of a table promise, also before the table is solved and after
solving failed. -/
structure Consistent (program : Program) (t : Table) : Prop where
  /-- A singleton has at most one tuple. -/
  single : ∀ n r, t.store.find? n = some r → r.signature.flags.isSingleton = true →
    r.tuples.size ≤ 1
  /-- The variables of singletons are the parameters of singletons. -/
  owner : ∀ p n, t.singletonOf.find? p = some n ↔ ∃ r, t.store.find? n = some r ∧
    r.signature.flags.isSingleton = true ∧ p ∈ r.signature.paramNames
  /-- A variable is bound when its singleton has a tuple, to the value in the tuple. -/
  bound : ∀ p n r, t.singletonOf.find? p = some n → t.store.find? n = some r →
    (t.globals.binds p = true ↔ r.tuples.toList ≠ []) ∧
    ∀ u ∈ r.tuples.toList, ∃ e e', t.globals.find? p = some e ∧ u.get? p = some e' ∧
      e.aliases e' = true
  /-- The tuples of a relation that is not built in have values for exactly the parameters, of the
  right kinds. -/
  tuples : ∀ n r, t.store.find? n = some r → (∀ b ∈ program.builtins, b.signature.name ≠ n) →
    ∀ u ∈ r.tuples.toList, (∀ p, (u.get? p).isSome = true ↔ p ∈ r.signature.paramNames) ∧
      ∀ p ∈ r.signature.params, ∀ e, u.get? p.name = some e →
        p.type.accepts program.types e = true

/-- What solving keeps. The statements and the variables of singletons are those that were declared. -/
structure Sound (program : Program) (statements : List Realization) (t : Table) : Prop where
  program_eq : t.program = program
  statements_eq : t.statements = statements
  checked : ∀ r ∈ statements, r.Checked
  realized : ∀ r ∈ statements, ∀ s ∈ r.signatures, ∃ rel,
    t.store.find? s.name = some rel ∧ rel.signature = s
  copies : ∀ r, t.store.find? BuiltinRelation.copiedTo = some r →
    r.signature.flags.isSingleton = false
  owner : ∀ p n, t.singletonOf.find? p = some n ↔ ∃ r, t.store.find? n = some r ∧
    r.signature.flags.isSingleton = true ∧ p ∈ r.signature.paramNames
  settled : ∀ n r, t.store.find? n = some r → r.signature.flags.isSingleton = true →
    r.IsSettled t.globals
  proper : ∀ n r, t.store.find? n = some r → (∀ b ∈ program.builtins, b.signature.name ≠ n) →
    r.Proper program.types
  signed : ∀ n r, t.store.find? n = some r → r.Signed
  wildcard : t.globals.find? wildcard = none

namespace Sound

variable {program : Program} {statements : List Realization} {t t' : Table}

/-- What solving keeps includes what is promised. -/
theorem consistent (h : t.Sound program statements) : t.Consistent program where
  -- a singleton is pending and empty, or resolved with one tuple
  single n r hr hsingle := by
    rw [Catalog.size]
    cases h.settled n r hr hsingle with
    | pending hempty _ =>
      rw [hempty]
      exact Nat.zero_le 1
    | resolved u htuple _ =>
      rw [htuple]
      exact Nat.le_refl 1
  owner := h.owner
  bound p n r hp hr := by
    obtain ⟨q, hq, hsingle, hmem⟩ := (h.owner p n).1 hp
    obtain rfl := Option.some.inj (hr.symm.trans hq)
    cases h.settled n r hr hsingle with
    | pending hempty hunbound =>
      rw [hempty, Bindings.binds, hunbound p hmem]
      exact ⟨by simp, fun u hu => by cases hu⟩
    | resolved u htuple hbound =>
      obtain ⟨e, he, hvalue⟩ := hbound p hmem
      rw [htuple, Bindings.binds, he]
      refine ⟨by simp, fun v hv => ?_⟩
      rw [List.mem_singleton.1 hv]
      exact ⟨e, e, rfl, hvalue, decide_eq_true rfl⟩
  tuples n r hr hn u hu := by
    have hproper := h.proper n r hr hn
    have hu := hproper.tuples u hu
    exact ⟨hu.isSome_get?, fun p hp e he => hu.accepts_get? hproper.nodup hp he⟩

/-- Only the relations and the variables matter. -/
theorem of_eq (h : t.Sound program statements) (hprogram : t'.program = t.program)
    (hstatements : t'.statements = t.statements) (hstore : t'.store = t.store)
    (hglobals : t'.globals = t.globals) (hsingletonOf : t'.singletonOf = t.singletonOf) :
    t'.Sound program statements where
  program_eq := hprogram.trans h.program_eq
  statements_eq := hstatements.trans h.statements_eq
  checked := h.checked
  realized := hstore ▸ h.realized
  copies := hstore ▸ h.copies
  owner := hstore ▸ hsingletonOf ▸ h.owner
  settled := hstore ▸ hglobals ▸ h.settled
  proper := hstore ▸ h.proper
  signed := hstore ▸ h.signed
  wildcard := hglobals ▸ h.wildcard

/-- Notes in the arena and the trace do not count. -/
theorem withNotes (t : Table) (arena : Arena) (trace : Trace) (h : t.Sound program statements) :
    { t with arena, trace }.Sound program statements :=
  h.of_eq rfl rfl rfl rfl rfl

/-- A relation changes its tuples, and perhaps its variables change. -/
private theorem set (h : t.Sound program statements) {n : String} {r r' : Relation}
    {globals : Bindings} (hr : t.store.find? n = some r) (hsignature : r'.signature = r.signature)
    (hproper : (∀ b ∈ program.builtins, b.signature.name ≠ n) → r'.Proper program.types)
    (hsigned : r'.Signed)
    (hsettled : r.signature.flags.isSingleton = true → r'.IsSettled globals)
    (hothers : ∀ m q, m ≠ n → t.store.find? m = some q → q.signature.flags.isSingleton = true →
      ∀ p ∈ q.signature.paramNames, globals.find? p = t.globals.find? p)
    (hwildcard : globals.find? CodeRules.wildcard = none) :
    { t with store := Dict.set t.store n r', globals }.Sound program statements := by
  -- a look-up finds the new relation, or what was there
  have hcases {m : String} {q : Relation} (hq : (Dict.set t.store n r').find? m = some q) :
      (m = n ∧ q = r') ∨ (m ≠ n ∧ t.store.find? m = some q) := by
    rw [Dict.find?_set] at hq
    split at hq
    · exact .inl ⟨‹_›, (Option.some.inj hq).symm⟩
    · exact .inr ⟨‹_›, hq⟩
  have hfind {m : String} {q : Relation} (hq : t.store.find? m = some q) :
      ∃ q', (Dict.set t.store n r').find? m = some q' ∧ q'.signature = q.signature := by
    rw [Dict.find?_set]
    split
    · rename_i heq
      obtain rfl := Option.some.inj ((heq ▸ hq).symm.trans hr)
      exact ⟨r', rfl, hsignature⟩
    · exact ⟨q, hq, rfl⟩
  have hback {m : String} {q : Relation} (hq : (Dict.set t.store n r').find? m = some q) :
      ∃ q', t.store.find? m = some q' ∧ q'.signature = q.signature := by
    rcases hcases hq with ⟨rfl, rfl⟩ | ⟨_, hq⟩
    · exact ⟨r, hr, hsignature.symm⟩
    · exact ⟨q, hq, rfl⟩
  exact {
    program_eq := h.program_eq
    statements_eq := h.statements_eq
    checked := h.checked
    realized := fun x hx s hs => by
      obtain ⟨q, hq, hsig⟩ := h.realized x hx s hs
      obtain ⟨q', hq', hsig'⟩ := hfind hq
      exact ⟨q', hq', hsig'.trans hsig⟩
    copies := fun q hq => by
      obtain ⟨q', hq', hsig⟩ := hback hq
      exact hsig ▸ h.copies q' hq'
    owner := fun p m => by
      -- All signatures are as before, so the owners are.
      refine (h.owner p m).trans ⟨?_, ?_⟩
      · rintro ⟨q, hq, hrest⟩
        obtain ⟨q', hq', hsig⟩ := hfind hq
        exact ⟨q', hq', hsig ▸ hrest⟩
      · rintro ⟨q, hq, hrest⟩
        obtain ⟨q', hq', hsig⟩ := hback hq
        exact ⟨q', hq', hsig ▸ hrest⟩
    settled := fun m q hq hsingle => by
      rcases hcases hq with ⟨rfl, rfl⟩ | ⟨hne, hq⟩
      · exact hsettled (hsignature ▸ hsingle)
      · have hsame := hothers m q hne hq hsingle
        cases h.settled m q hq hsingle with
        | pending hempty hunbound =>
          exact .pending hempty fun p hp => (hsame p hp).trans (hunbound p hp)
        | resolved u htuple hbound =>
          refine .resolved u htuple fun p hp => ?_
          rw [hsame p hp]
          exact hbound p hp
    -- only the relation that was set is new
    proper := fun m q hq hm => by
      rcases hcases hq with ⟨rfl, rfl⟩ | ⟨_, hq⟩
      · exact hproper hm
      · exact h.proper m q hq hm
    signed := fun m q hq => by
      rcases hcases hq with ⟨rfl, rfl⟩ | ⟨_, hq⟩
      · exact hsigned
      · exact h.signed m q hq
    wildcard := hwildcard }

/-- A tuple is added to a relation that is no singleton. -/
theorem insert (h : t.Sound program statements) {n : String} {r : Relation} {u : Tuple}
    (hr : t.store.find? n = some r) (hsingle : r.signature.flags.isSingleton = false)
    (hsignature : u.signature = r.signature)
    (hu : (∀ b ∈ program.builtins, b.signature.name ≠ n) → u.IsOf program.types r.signature) :
    { t with store := Dict.set t.store n (r.insert u) }.Sound program statements := by
  refine h.set hr rfl (fun hn => (h.proper n r hr hn).insert (hu hn))
    ((h.signed n r hr).insert hsignature) (fun hflag => ?_) (fun _ _ _ _ _ _ _ => rfl) h.wildcard
  rw [hsingle] at hflag
  cases hflag

/-- A singleton that waits for its tuple gets it, and its variables are bound. -/
theorem resolve (h : t.Sound program statements) {n : String} {r : Relation} {u : Tuple}
    {globals : Bindings} (hr : t.store.find? n = some r)
    (hsingle : r.signature.flags.isSingleton = true) (hempty : r.tuples = ∅)
    (hu : u.IsOf program.types r.signature)
    (hbound : ∀ p ∈ r.signature.paramNames, ∃ e, globals.find? p = some e ∧ u.get? p = some e)
    (hothers : ∀ p, p ∉ r.signature.paramNames → globals.find? p = t.globals.find? p)
    (hwildcard : CodeRules.wildcard ∉ r.signature.paramNames) :
    { t with store := Dict.set t.store n (r.insert u), globals }.Sound program statements := by
  have htuple : (r.insert u).tuples.toList = [u] := by
    rw [Relation.insert, hempty]
    rfl
  refine h.set hr rfl (fun hn => (h.proper n r hr hn).insert hu)
    ((h.signed n r hr).insert hu.signature) (fun _ => .resolved u htuple hbound)
    (fun m q hne hq hflag p hp => hothers p fun hmem => hne ?_)
    ((hothers _ hwildcard).trans h.wildcard)
  -- a variable belongs to one singleton
  have hown := (h.owner p n).2 ⟨r, hr, hsingle, hmem⟩
  exact Option.some.inj (((h.owner p m).2 ⟨q, hq, hflag, hp⟩).symm.trans hown)

end Sound

end Table

/-- The relation of copies is built in. -/
private theorem exists_copiedTo (program : Program) :
    ∃ b ∈ program.builtins, b.signature.name = BuiltinRelation.copiedTo :=
  ⟨.ofRows BuiltinRelation.copiedTo [("original", .any), ("copy", .any)] [],
    by simp [Program.builtins], rfl⟩

/-- Noting copies keeps what is promised: the relation of copies is built in, and no singleton. -/
private theorem Table.Sound.notesCopies {program : Program} {statements : List Realization} {t : Table}
    {p : Program} {root : Node} {l : List Replacement} {store : Store}
    (h : t.store.NotesCopies p root l store) (ht : t.Sound program statements) :
    { t with store }.Sound program statements := by
  induction h with
  | refl => exact ht
  | @tail store _ _ hnote ih =>
    obtain ⟨_, _, _, _, rel, pair, _, _, hrel, hpair, rfl⟩ := hnote
    refine ih.insert hrel (ih.copies rel hrel) (Tuple.ofValues_eq_ok.1 hpair).1 fun hn => ?_
    obtain ⟨b, hb, hname⟩ := exists_copiedTo program
    exact absurd hname (hn b hb)

namespace Running

variable {program : Program} {statements : List Realization} {t : Table} {r : Realization}

/-! ### Single steps -/

/-- A solution binds no wildcard, so what it is realized as is a tuple of its signature, and the signature
has no parameter of this name. -/
private theorem isOf_of_ofSolution (ht : t.Sound program statements) {s : Signature} {b : Bindings}
    {u : Tuple} (hb : b.find? wildcard = none) (hu : Tuple.ofSolution t.program.types s b = .ok u) :
    u.IsOf program.types s ∧ wildcard ∉ s.paramNames := by
  obtain ⟨⟨hsignature, hvalues, _⟩, haccepts⟩ := Tuple.ofSolution_eq_ok.1 hu
  rw [ht.program_eq] at haccepts
  refine ⟨⟨hsignature, haccepts⟩, fun hmem => ?_⟩
  -- every parameter has a value, which the wildcard has not
  have hfound : b.find? wildcard ∈ u.values.map some := by
    rw [← hvalues]
    exact List.mem_map_of_mem hmem
  rw [hb, List.mem_map] at hfound
  obtain ⟨_, _, heq⟩ := hfound
  cases heq

/-- What a statement realizes that is not for singletons is no singleton. -/
private theorem isSingleton_eq_false (h : r.Checked) (hsingle : r.isSingleton = false) {s : Signature}
    (hs : s ∈ r.signatures) : s.flags.isSingleton = false := by
  rcases h.kinds with hall | ⟨u, hu, hnot⟩
  · rw [hsingle] at hall
    cases hall
  · rw [hu, List.mem_singleton] at hs
    exact hs ▸ hnot

/-- What is realized besides singletons has the signature that it is realized under. -/
private theorem leads_realize_sound (ht : t.Sound program statements) (hr : r ∈ statements)
    (hsingle : r.isSingleton = false) {s : Signature} (hs : s ∈ r.signatures) {b : Bindings}
    (hb : b.find? wildcard = none) :
    Leads (Table.Keeps (Table.Sound program statements)) (realize r b s) t fun _ _ => True := by
  refine (ends_realize r b s t).imp (fun o t' h => ⟨fun _ => ?_, trivial⟩) fun f t' h => ?_
  · obtain ⟨u, rel, trace, hu, hrel, _, rfl⟩ := h
    obtain ⟨rel', hrel', hsignature⟩ := ht.realized r hr s hs
    obtain rfl := Option.some.inj (hrel.symm.trans hrel')
    have huOf := (isOf_of_ofSolution ht hb hu).1
    have hkind := isSingleton_eq_false (ht.checked r hr) hsingle hs
    exact (ht.insert hrel (hsignature ▸ hkind) (hsignature ▸ huOf.signature)
      fun _ => hsignature ▸ huOf).of_eq rfl rfl rfl rfl rfl
  · obtain ⟨rfl, _⟩ := h
    exact ⟨fun ht => ht, trivial⟩

/-! ### Singletons -/

/-- A singleton gets its tuple together with its variables, or nothing changes. -/
private theorem leads_resolveSingleton_sound (ht : t.Sound program statements) (hr : r ∈ statements)
    {s : Signature} (hs : s ∈ r.signatures) (hsingle : s.flags.isSingleton = true) {found : Solutions}
    (hfound : found.All fun b => b.find? wildcard = none) :
    Leads (Table.Keeps (Table.Sound program statements)) (resolveSingleton r found s) t
      fun _ _ => True := by
  obtain ⟨rel, hrel, hsignature⟩ := ht.realized r hr s hs
  have hanswer {u : Tuple} (hu : IsAnswer t.program.types found s u) :
      u.IsOf program.types s ∧ wildcard ∉ s.paramNames := by
    obtain ⟨b, hb, hu⟩ := hu.given
    exact isOf_of_ofSolution ht (hfound b hb) hu
  -- The variables that are bound are the parameters of the singleton.
  have hkey {u : Tuple} (hu : IsAnswer t.program.types found s u) (p : String) :
      p ∈ u.byName.toList.map Prod.fst ↔ p ∈ s.paramNames := by
    rw [← (hanswer hu).1.isSome_get? p, Tuple.get?, Dict.isSome_find?_iff]
    rfl
  have hsettled := ht.settled _ rel hrel (hsignature ▸ hsingle)
  refine (ends_resolveSingleton r found s t).imp (fun _ t' h => ⟨fun _ => ?_, trivial⟩)
    fun f t' h => ⟨fun _ => ?_, trivial⟩
  · obtain ⟨u, rel', globals, trace, hu, hrel', hempty, htakes, hall, rfl⟩ := h
    obtain rfl := Option.some.inj (hrel.symm.trans hrel')
    obtain ⟨huOf, hwildcard⟩ := hanswer hu
    cases hsettled with
    | pending hnone hunbound =>
      rw [hsignature] at hunbound
      obtain rfl := hu.signature
      have hbound := hall (Pending.lacks ⟨⟨rel, hrel, hnone⟩, hunbound⟩) hwildcard
      refine (ht.resolve hrel (hsignature ▸ hsingle) hnone (hsignature ▸ huOf) (fun p hp => ?_)
        (fun p hp => htakes.find?_of_not_mem fun hmem => hp (hsignature ▸ (hkey hu p).1 hmem))
        (hsignature ▸ hwildcard)).of_eq rfl rfl rfl rfl rfl
      rw [hsignature, ← hkey hu] at hp
      obtain ⟨x, hx, rfl⟩ := List.mem_map.1 hp
      exact ⟨x.2, hbound x hx, Dict.find?_eq_some_iff.2 hx⟩
    | resolved v htuple _ =>
      -- a tuple is stored only where there is none
      rw [htuple] at hempty
      cases hempty
  · rcases h with ⟨rfl, _⟩ | ⟨hnot, u, globals, trace, hu, htakes, rfl⟩
    · exact ht
    · cases hsettled with
      | pending hnone hunbound =>
        exact absurd ⟨⟨rel, hrel, hnone⟩, hsignature ▸ hunbound⟩ hnot
      | resolved v _ hbound =>
        -- the variables were bound before, and stay as they are
        have hsame : globals = t.globals := htakes.eq_of_bound fun x hx => by
          have hmem := (hkey hu x.1).1 (List.mem_map_of_mem hx)
          obtain ⟨e, he, _⟩ := hbound x.1 (hsignature ▸ hmem)
          rw [he]
          exact Option.some_ne_none e
        exact ht.of_eq rfl rfl rfl hsame rfl

/-! ### Statements and groups -/

/-- The steps of the statements of a table keep what is promised. -/
private def soundWalk (program : Program) (statements : List Realization) :
    StatementWalk (Table.Keeps (Table.Sound program statements)) fun _ => True where
  Ready x t := t.Sound program statements ∧ x ∈ statements
  Fits _ _ _ := True
  Found b _ := b.find? wildcard = none
  Made _ _ := True
  ready_later h hx := ⟨h hx.1, hx.2⟩
  fits_later _ h := h
  found_later _ hb := hb
  made_later _ h := h
  record t _ _ _ ht := ht.withNotes t t.arena _
  report _ := trivial
  goal _ _ := trivial
  solutions {_ t g} hx _ := by
    refine ends_solutions.2 ?_
    exact (g.yields_find?_wildcard hx.1.wildcard t.arena trivial).imp
      (fun _ _ h => ⟨fun ht => ht.of_eq rfl rfl rfl rfl rfl, h.1⟩)
      fun _ _ _ => ⟨fun ht => ht.of_eq rfl rfl rfl rfl rfl, trivial⟩
  realize hx hkind hs hb :=
    (leads_realize_sound hx.1 hx.2 hkind hs hb).mono fun _ _ _ _ _ _ => trivial

/-- Running the statements of a table keeps what is promised. -/
theorem tableWalk_sound (program : Program) (statements : List Realization) :
    TableWalk (fun todo t => t.Sound program statements ∧ ∀ x ∈ todo, x ∈ statements)
      (fun _ t => t.Sound program statements) := by
  refine (soundWalk program statements).tableWalk (fun h hJ => h hJ) (fun hJ hx => ⟨hJ, hx⟩)
    (fun hJ hx hs hkind hfound => ?_) fun {t _ _ _ _ _ _} hJ _ _ _ _ _ => ?_
  · exact leads_resolveSingleton_sound hJ hx hs (List.all_eq_true.1 hkind _ hs) hfound
  · -- keeping a made node adds to the relation of copies only
    refine (ends_keepMade _ _ _ _ _ t).imp (fun _ t' h => ⟨fun _ => ?_, trivial⟩)
      fun _ t' h => ⟨fun _ => ?_, trivial⟩
    · obtain ⟨_, store, _, _, hnotes, rfl⟩ := h
      exact (Table.Sound.notesCopies hnotes hJ).of_eq rfl rfl rfl rfl rfl
    · obtain ⟨⟨_, store, _, hnotes, rfl⟩, _⟩ := h
      exact (Table.Sound.notesCopies hnotes hJ).of_eq rfl rfl rfl rfl rfl

end Running

namespace Table

variable {program : Program} {statements : List Realization} {t : Table}

/-! ### Tables -/

/-- Running a table keeps what is promised, whether it succeeds or fails. -/
theorem Sound.ends_run (h : t.Sound program statements) :
    Ends run t (fun _ t' => t'.Sound program statements)
      (fun _ t' => t'.Sound program statements) := by
  refine (Running.tableWalk_sound program statements).ends_run
    (fun _ _ h => h.1.statements_eq) (fun t' ht' => ?_) (fun _ ht' => ht'.1.of_eq rfl rfl rfl rfl rfl)
    (fun _ => h) fun _ => ⟨h, fun _ hx => h.statements_eq ▸ hx⟩
  -- Guards only write the trace and ask goals.
  have hsound {t'' : Table} (hchecked : t'.Checked t'') : t''.Sound program statements := by
    rw [hchecked.others]
    exact ht'.1.withNotes t' _ _
  exact (Running.ends_checkGuards t').imp (fun _ _ h => ⟨hsound h.1, ht'.2⟩) fun _ _ h => hsound h.1

/-- Attempts to solve a table keep what is promised, whether they succeed or not. -/
theorem Sound.iterate_solve (h : t.Sound program statements) (n : Nat) :
    ((fun t => t.solve.2)^[n] t).Sound program statements :=
  iterate_solve_of_ends (fun _ h => h.ends_run) h n

/-- A constructed table starts with what solving keeps. -/
theorem sound_of_construct {settings : Settings} {solved? : String → String → Option Relation}
    {interface : Interface} {option : OptionDecl} {args : List Argument}
    (h : construct program settings solved? interface option args = .ok t) :
    t.Sound program t.statements := by
  obtain ⟨hconstructed, _⟩ := constructed_of_construct h
  obtain ⟨hprogram, hwildcard, horigin⟩ := origin_of_construct h
  -- a relation is built in, declared and empty, or an argument
  exact {
    program_eq := hprogram
    statements_eq := rfl
    checked := hconstructed.checked
    realized := fun r hr s hs => by
      obtain ⟨rel, hrel, hsignature, _⟩ := hconstructed.registered r hr s hs
      exact ⟨rel, hrel, hsignature⟩
    copies := fun r hr => by
      cases horigin _ r hr with
      | builtin _ hsingle _ | argument hsingle _ => exact hsingle
      | declared hfresh _ _ _ =>
        obtain ⟨b, hb, hname⟩ := exists_copiedTo program
        exact absurd hname (hfresh b hb)
    owner := fun p n => by
      refine ⟨hconstructed.singletonOf p n, ?_⟩
      rintro ⟨r, hr, hsingle, hp⟩
      cases horigin n r hr with
      | builtin _ hnot _ | argument hnot _ =>
        rw [hnot] at hsingle
        cases hsingle
      | declared _ _ _ hvars => exact (hvars hsingle p hp).1
    settled := fun n r hr hsingle => by
      cases horigin n r hr with
      | builtin _ hnot _ | argument hnot _ =>
        rw [hnot] at hsingle
        cases hsingle
      | declared _ _ hempty hvars => exact .pending hempty fun p hp => (hvars hsingle p hp).2
    proper := fun n r hr hn => by
      cases horigin n r hr with
      | builtin hbuiltin _ _ =>
        obtain ⟨b, hb, hname⟩ := hbuiltin
        exact absurd hname (hn b hb)
      | declared _ hnodup hempty _ => exact .of_empty hnodup hempty
      | argument _ hproper => exact hproper
    signed := fun n r hr => by
      cases horigin n r hr with
      | builtin _ _ hsigned => exact hsigned
      | declared _ _ hempty _ => exact .of_empty hempty
      | argument _ hproper => exact hproper.signed
    wildcard := hwildcard }

/-- After construction and any number of attempts to solve the table, successful or not, each singleton
has at most one tuple, a variable of a singleton is bound exactly when its singleton has a tuple, and
then to the value in the tuple, and the tuples of declared traits and of relations that were given as
arguments have values of the right kinds for exactly the parameters. -/
theorem consistent_iterate_solve {settings : Settings}
    {solved? : String → String → Option Relation} {interface : Interface} {option : OptionDecl}
    {args : List Argument} (h : construct program settings solved? interface option args = .ok t)
    (n : Nat) : ((fun t => t.solve.2)^[n] t).Consistent program :=
  ((sound_of_construct h).iterate_solve n).consistent

end Table

/-! ### A table whose second singleton is missing -/

namespace Interrupted

/-- A singleton with one parameter. -/
def trait (name param : String) : TraitDecl :=
  { name := .synthetic name, params := [⟨.synthetic param, .category "any"⟩],
    flags := { isSingleton := true } }

/-- One singleton is a number, the other is nothing. -/
def option : OptionDecl :=
  { name := .synthetic "numbers", interface := .synthetic "empty",
    traits := [trait "found" "x", trait "missing" "y"],
    statements := [
      { realizes := [.synthetic "found"],
        body := .eq .synthetic (.var "x") (.entity (.value (.int 1))) },
      { realizes := [.synthetic "missing"], body := .false }] }

/-- The table of the option, without a program. -/
def construction : Except Failure Table :=
  Table.construct (Program.ofClasses []) {} (fun _ _ => none) { name := .synthetic "empty" } option []

/-- The first singleton has got its tuple when solving fails, and solving again changes nothing. -/
theorem consistent_iterate_solve_interrupted : ∃ t, construction = .ok t ∧
    t.solve.1.isOk = false ∧ t.solve.2.globals.binds "x" = true ∧
      t.solve.2.globals.binds "y" = false ∧ t.solve.2.solve.2.store.size = t.solve.2.store.size ∧
        ∀ n, ((fun t => t.solve.2)^[n] t).Consistent (Program.ofClasses []) := by
  have hrun : (match construction with
      | .ok t => !t.solve.1.isOk && t.solve.2.globals.binds "x" && !t.solve.2.globals.binds "y" &&
          t.solve.2.solve.2.store.size == t.solve.2.store.size
      | .error _ => false) = true := by decide +kernel
  cases h : construction with
  | error f =>
    rw [h] at hrun
    cases hrun
  | ok t =>
    rw [h] at hrun
    simp only [Bool.and_eq_true, Bool.not_eq_true', beq_iff_eq] at hrun
    obtain ⟨⟨⟨hfails, hx⟩, hy⟩, hsize⟩ := hrun
    exact ⟨t, rfl, hfails, hx, hy, hsize, fun n => Table.consistent_iterate_solve h n⟩

end Interrupted

end CodeRules
