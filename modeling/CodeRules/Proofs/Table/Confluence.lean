import CodeRules.Proofs.Table.Account
import CodeRules.Proofs.Table.Consistent
import CodeRules.Proofs.Table.Transfer

/-!
# Levels in any order

Two runs of the same statements from the same relations and variables end with the same: by induction on
the ranks in one of the runs, each relation holds in both what it holds in the other, since a conclusion
of one run is drawn again in the other (`Table.Completes.includes`). Singletons bind their variables to
the same entities (`Table.Completes.globals_eq`).
-/

namespace CodeRules

open Effect Schedule

variable {base : UInt32}

/-! ### Inclusion -/

namespace Store

variable {S T U : Store} {n : String}

/-- A relation that is the same in both stores. -/
theorem includes_of_eq (h : S.find? n = T.find? n) : S.Includes T n := by
  intro r r' hr hr' u hu
  obtain rfl := Option.some.inj ((h ▸ hr).symm.trans hr')
  exact Catalog.contains_iff.2 ⟨u, hu, rfl⟩

/-- Only the two relations matter. -/
theorem Includes.congr {S' T' : Store} (h : S.Includes T n) (hS : S'.find? n = S.find? n)
    (hT : T'.find? n = T.find? n) : S'.Includes T' n :=
  fun r r' hr hr' => h r r' (hS ▸ hr) (hT ▸ hr')

/-- Inclusion goes over a store that has the relation as well. -/
theorem Includes.trans (h : S.Includes T n) (h' : T.Includes U n)
    (hsignature : T.signature? n = S.signature? n) : S.Includes U n := by
  intro r r'' hr hr'' u hu
  obtain ⟨r', hr', _⟩ : ∃ r', T.find? n = some r' ∧ r'.signature = r.signature := by
    rw [signature?, signature?, hr, Option.map_some] at hsignature
    exact Option.map_eq_some_iff.1 hsignature
  obtain ⟨v, hv, hshape⟩ := Catalog.contains_iff.1 (h r r' hr hr' u hu)
  have hcontains := h' r' r'' hr' hr'' v hv
  rwa [Relation.contains, hshape] at hcontains

end Store

namespace Table

namespace Follows

variable {names vars : List String} {t t' : Table}

/-- Relations include what they grow from. -/
theorem includes (h : t.Follows names vars t') (n : String) : t.store.Includes t'.store n := by
  intro r r' hr hr' u hu
  have hn := h.grows n
  rw [hr, hr'] at hn
  exact Catalog.contains_iff.2 ⟨u, hn.2 u hu, rfl⟩

end Follows

/-- A variable that is bound on the way stands for the same in the end. -/
theorem Sees.find?_of_bound {statements : List Realization} {rank : String → Nat} {k : Nat}
    {r : Realization} {t t' : Table} (h : t.Sees base statements rank k r t') {v : String} {e : Entity}
    (hv : t.globals.find? v = some e) : t'.globals.find? v = some e := by
  rw [← h.bound v, hv]
  intro q hq hvq n hn
  by_contra hnot
  rw [h.unbound q hq v hvq n hn (Nat.not_lt.1 hnot)] at hv
  cases hv

/-- A variable that is unbound in the end is unbound on the way. -/
theorem Sees.find?_eq_none {statements : List Realization} {rank : String → Nat} {k : Nat}
    {r : Realization} {t t' : Table} (h : t.Sees base statements rank k r t') {v : String}
    (hv : t'.globals.find? v = none) : t.globals.find? v = none := by
  cases he : t.globals.find? v with
  | none => rfl
  | some e =>
    rw [h.find?_of_bound he] at hv
    cases hv

/-! ### Runs -/

/-- The variables that statements bind are those of their singletons, which are registered. -/
structure Starts (base : UInt32) (c : RelationContext) (all : List Realization) (t : Table) : Prop where
  orderly : Orderly c all
  registered : ∀ r ∈ all, ∀ s ∈ r.signatures, t.store.signature? s.name = some s
  owner : ∀ r ∈ all, ∀ v ∈ r.binds, ∃ s ∈ r.signatures,
    c.singletonOf.find? v = some s.name ∧ s.flags.isSingleton = true ∧ v ∈ s.paramNames
  result : t.globals.result = none
  bodies : ∀ r ∈ all, ∀ x ∈ r.body.entities, x.Uniform base

/-- A run of all statements from `t` to `t'`. -/
structure Completes (base : UInt32) (c : RelationContext) (all : List Realization)
    (rank : String → Nat) (t t' : Table) : Prop extends t.Account base all rank all t' where
  ranks : Ranks c all rank
  singletons : ∀ n r, t'.store.find? n = some r → r.signature.flags.isSingleton = true →
    r.IsSettled t'.globals ∧ r.Proper t'.program.types
  wildcard : t'.globals.find? wildcard = none

variable {c : RelationContext} {all : List Realization} {rank rank' : String → Nat}
  {t t' s s' : Table}

/-- A variable has one singleton. -/
theorem Starts.rank_lt_of_binds (h : t.Starts base c all) (hranks : Ranks c all rank) {q q' : Realization}
    (hq : q ∈ all) (hq' : q' ∈ all) {v : String} (hv : v ∈ q.binds) (hv' : v ∈ q'.binds) {k : Nat}
    (hk : ∀ n ∈ q.names, rank n < k) : ∀ n ∈ q'.names, rank n < k := by
  obtain ⟨sig, hsig, howner, _⟩ := h.owner q hq v hv
  obtain ⟨sig', hsig', howner', _⟩ := h.owner q' hq' v hv'
  have hname : sig.name = sig'.name := Option.some.inj (howner.symm.trans howner')
  intro n hn
  rw [hranks.same q' hq' sig'.name (List.mem_map_of_mem hsig') n hn, ← hname]
  exact hk _ (List.mem_map_of_mem hsig)

/-- A variable whose singleton has a lower rank stands for the same as in the end. -/
theorem Sees.find?_eq (h : t.Starts base c all) (hranks : Ranks c all rank) {k : Nat} {m : Table}
    {r : Realization} (hm : m.Sees base all rank k r s) {q : Realization} (hq : q ∈ all) {v : String}
    (hv : v ∈ q.binds) (hk : ∀ n ∈ q.names, rank n < k) : m.globals.find? v = s.globals.find? v :=
  hm.bound v fun _ hq' hv' => h.rank_lt_of_binds hranks hq hq' hv hv' hk

/-- The values of a singleton's tuple in two runs that agree on it. -/
private theorem normal_eq_of_entries {u u' : Tuple} (hsignature : u.signature = u'.signature)
    (hnodup : u.signature.paramNames.Nodup)
    (hvalues : u.values.map (Entity.normal base) = u'.values.map (Entity.normal base)) {v : String}
    {e e' : Entity} (he : u.get? v = some e) (he' : u'.get? v = some e') :
    e.normal base = e'.normal base := by
  rw [Tuple.get?_eq_some_iff hnodup] at he
  rw [Tuple.get?_eq_some_iff (hsignature ▸ hnodup)] at he'
  have hmem {w : Tuple} {x : Entity} (hx : (v, x) ∈ w.entries) :
      (v, x.normal base) ∈ w.signature.paramNames.zip (w.values.map (Entity.normal base)) := by
    rw [List.zip_map_right]
    exact List.mem_map_of_mem (f := Prod.map id (Entity.normal base)) hx
  -- Each parameter stands in the list once, so it has one value there.
  have hkeys : ((u.signature.paramNames.zip (u.values.map (Entity.normal base))).map Prod.fst).Nodup := by
    rw [List.map_fst_zip]
    · exact hnodup
    · rw [List.length_map, u.complete, Signature.paramNames, List.length_map, Signature.arity]
  have h := hmem he
  have h' := hmem he'
  rw [← hsignature, ← hvalues] at h'
  exact (Prod.mk.inj (List.inj_on_of_nodup_map hkeys h h' rfl)).2

/-- Singletons that hold the same bind their variables to the same. -/
private theorem globals_eq_of_includes (hs : s.Uniform base) (hs' : s'.Uniform base) {n v : String}
    {sig : Signature} (hsig : s.store.signature? n = some sig) (hsig' : s'.store.signature? n = some sig)
    (hsingle : sig.flags.isSingleton = true) (hv : v ∈ sig.paramNames)
    (hsettled : ∀ n r, s.store.find? n = some r → r.signature.flags.isSingleton = true →
      r.IsSettled s.globals ∧ r.Proper s.program.types)
    (hsettled' : ∀ n r, s'.store.find? n = some r → r.signature.flags.isSingleton = true →
      r.IsSettled s'.globals ∧ r.Proper s'.program.types)
    (h : s.store.Includes s'.store n) (h' : s'.store.Includes s.store n) :
    (s'.globals.find? v).map (Entity.normal base) = (s.globals.find? v).map (Entity.normal base) := by
  obtain ⟨r, hr, rfl⟩ := Option.map_eq_some_iff.1 hsig
  obtain ⟨r', hr', hsame⟩ := Option.map_eq_some_iff.1 hsig'
  obtain ⟨hr₁, hproper⟩ := hsettled n r hr hsingle
  obtain ⟨hr₁', hproper'⟩ := hsettled' n r' hr' (hsame ▸ hsingle)
  cases hr₁ with
  | pending hempty hunbound =>
    cases hr₁' with
    | pending _ hunbound' => rw [hunbound v hv, hunbound' v (hsame ▸ hv)]
    | resolved u' htuple' _ =>
      -- A singleton that has its tuple in one run only would not include the other one.
      have hmem := h' r' r hr' hr u' (by rw [htuple']; exact List.mem_singleton_self u')
      rw [Relation.contains, hempty] at hmem
      cases hmem
  -- both runs have the tuple, and the variable takes the same value from it
  | resolved u htuple hbound =>
    have hu : u ∈ r.tuples.toList := by rw [htuple]; exact List.mem_singleton_self u
    obtain ⟨u', hu', hshape⟩ := Catalog.contains_iff.1 (h r r' hr hr' u hu)
    cases hr₁' with
    | pending hempty' _ =>
      rw [hempty'] at hu'
      cases hu'
    | resolved w htuple' hbound' =>
      rw [htuple', List.mem_singleton] at hu'
      subst hu'
      have hmem' : u' ∈ r'.tuples.toList := by rw [htuple']; exact List.mem_singleton_self u'
      obtain ⟨e, he, hvalue⟩ := hbound v hv
      obtain ⟨e', he', hvalue'⟩ := hbound' v (hsame ▸ hv)
      have hsignature := (hproper.tuples u hu).signature
      have hsignature' := (hproper'.tuples u' hmem').signature
      have hvalues := Tuple.map_normal_eq (hs.store n r hr u hu) (hs'.store n r' hr' u' hmem') hshape.symm
      rw [he, he', Option.map_some, Option.map_some]
      exact congrArg some (normal_eq_of_entries ((hsignature.trans hsame.symm).trans hsignature'.symm)
        (hsignature ▸ hproper.nodup) hvalues hvalue hvalue').symm

/-! ### One statement in two runs -/

section

variable {rankX rankY : String → Nat} {k kX kY : Nat} {m m' : Table} {r : Realization} {g g' : Goal}
  (hstart : t.Starts base c all) (hX : t.Completes base c all rankX s)
  (hY : t'.Completes base c all rankY s') (hsame : t' = { t with statements := t'.statements })
  (hr : r ∈ all) (hm : m.Sees base all rankX kX r s) (hkX : ∀ n ∈ r.names, rankX n = kX)
  (hm' : m'.Sees base all rankY kY r s') (hkY : ∀ n ∈ r.names, rankY n = kY)
  (hranks : Ranks c all rank) (hk : ∀ n ∈ r.names, rank n = k)
  (hlower : ∀ n, (∀ q ∈ all, n ∈ q.names → rank n < k) →
    s.store.Includes s'.store n ∧ s'.store.Includes s.store n)

include hX hY hsame in
/-- Both runs end with the same signatures, as they start with the same. -/
private theorem signature?_eq (n : String) : s'.store.signature? n = s.store.signature? n := by
  have hstore : t'.store = t.store := by rw [hsame]
  rw [hX.toFollows.signature?_eq, hY.toFollows.signature?_eq, hstore]

include hstart hX hY hsame hlower in
/-- Singletons of lower ranks bind their variables to the same in both runs. -/
private theorem globals_eq_of_lower {q : Realization} (hq : q ∈ all) {v : String} (hv : v ∈ q.binds)
    (hlt : ∀ n ∈ q.names, rank n < k) :
    (s'.globals.find? v).map (Entity.normal base) = (s.globals.find? v).map (Entity.normal base) := by
  obtain ⟨sig, hsig, _, hsingle, hvs⟩ := hstart.owner q hq v hv
  have hsignature : s.store.signature? sig.name = some sig :=
    (hX.toFollows.signature?_eq _).trans (hstart.registered q hq sig hsig)
  obtain ⟨h, h'⟩ := hlower sig.name fun _ _ _ => hlt _ (List.mem_map_of_mem hsig)
  exact globals_eq_of_includes hX.uniform hY.uniform hsignature
    ((signature?_eq hX hY hsame _).trans hsignature) hsingle hvs hX.singletons hY.singletons h h'

include hstart hX hY hsame hr hm hkX hm' hkY hranks hk hlower

/-- What a statement reads in one run is there when it is run in the other. -/
private theorem readsWithin
    (hend : r.isSingleton = false → ∀ n, (∀ q ∈ all, n ∈ q.names → rankY n ≤ kY) →
      m'.store.find? n = s'.store.find? n)
    (hheld : m.store.All fun n u => (∃ q ∈ all, n ∈ q.names ∧ rank n = k) →
      ∀ rel, s'.store.find? n = some rel → rel.contains u = true) : ReadsWithin r m m' := by
  have hchecked := hstart.orderly.checked r hr
  -- what is tested is the same in both runs
  have htested (n : String) (hmention : Mention.trait n true ∈ r.body.references) :
      m.store.Includes m'.store n ∧ m'.store.Includes m.store n := by
    have hn := Realization.mem_relations_of_trait (c := c) hmention
    have heq := hm.lower n (hX.ranks.lt_of_tested hr hchecked hkX hn)
    have heq' := hm'.lower n (hY.ranks.lt_of_tested hr hchecked hkY hn)
    obtain ⟨h, h'⟩ := hlower n (hranks.lt_of_tested hr hchecked hk hn)
    exact ⟨h.congr heq heq', h'.congr heq' heq⟩
  refine ⟨fun n => ?_, fun n tested hmention => ?_, fun n hmention => (htested n hmention).2⟩
  · rw [← hm'.toFollows.signature?_eq, ← hm.toFollows.signature?_eq, signature?_eq hX hY hsame]
  · cases tested with
    | true => exact (htested n hmention).1
    | false =>
      have hn := Realization.mem_relations_of_trait (c := c) hmention
      -- the other run ends with what the statement reads
      have hincludes : m.store.Includes s'.store n := by
        -- Relations of this rank are included by assumption, and those of lower ranks because these are the
        -- same.
        by_cases hat : ∃ q ∈ all, n ∈ q.names ∧ rank n = k
        · exact fun rel rel' hrel hrel' u hu => hheld n rel hrel u hu hat rel' hrel'
        · refine (hm.toFollows.includes n).trans (hlower n fun q hq hnq => ?_).1
            (hm.toFollows.signature?_eq n)
          exact Nat.lt_of_le_of_ne (hranks.le_of_untested hr hchecked hk hn q hq hnq)
            fun e => hat ⟨q, hq, hnq, e⟩
      cases hsingle : r.isSingleton with
      | false =>
        exact hincludes.congr rfl (hend hsingle n (hY.ranks.le_of_untested hr hchecked hkY hn))
      | true =>
        by_cases hown : n ∈ r.names
        · intro rel rel' hrel hrel' u hu
          rw [hm.pending hsingle n hown rel hrel] at hu
          cases hu
        · refine hincludes.congr rfl (hm'.lower n fun q hq hnq => ?_)
          refine hY.ranks.lt_of_apart hr hchecked hkY hn hown q hq hnq fun hplain => ?_
          rw [Realization.isPlain, hsingle] at hplain
          cases hplain.1

/-- What a statement mentions stands for the same when it is run in the other run. -/
private theorem globalsAgreeOn : GlobalsAgreeOn base
    (fun v => ∃ tested asValue, Mention.var v tested asValue ∈ r.body.references) m m' := by
  have hchecked := hstart.orderly.checked r hr
  have hglobals : t'.globals = t.globals := by rw [hsame]
  refine ⟨?_, ?_, ?_⟩
  · rintro v ⟨tested, asValue, hmention⟩
    by_cases hbinds : ∃ q ∈ all, v ∈ q.binds
    · obtain ⟨q, hq, hvq⟩ := hbinds
      -- the variable belongs to a singleton of its own statement or of another one
      obtain ⟨sig, hsig, howner, _, _⟩ := hstart.owner q hq v hvq
      have hn : sig.name ∈ q.names := List.mem_map_of_mem hsig
      by_cases hwildcard : v = wildcard
      · -- nothing binds the wildcard
        rw [hm.find?_eq_none (hwildcard ▸ hX.wildcard), hm'.find?_eq_none (hwildcard ▸ hY.wildcard)]
      by_cases hown : sig.name ∈ r.names
      · -- a statement runs before its own variables are bound
        rw [hm.unbound q hq v hvq _ hn (Nat.le_of_eq (hkX _ hown).symm),
          hm'.unbound q hq v hvq _ hn (Nat.le_of_eq (hkY _ hown).symm)]
      · have hlt {rank : String → Nat} {k : Nat} (hranks : Ranks c all rank)
            (hk : ∀ n ∈ r.names, rank n = k) : ∀ n ∈ q.names, rank n < k := by
          intro n hnq
          rw [hranks.same q hq _ hn n hnq]
          have hmem : sig.name ∈ (r.relations c tested).toList := by
            rw [Realization.relations, NameSet.mem_ofListFirst, List.mem_filterMap]
            refine ⟨_, hmention, ?_⟩
            rw [RelationContext.relation?, if_pos ⟨rfl, hwildcard⟩, howner]
          cases tested with
          | true => exact hranks.lt_of_tested hr hchecked hk hmem q hq hn
          | false =>
            refine hranks.lt_of_apart hr hchecked hk hmem hown q hq hn fun hplain => ?_
            rw [Realization.isPlain, Realization.isPlain, (Realization.mem_binds_iff.1 hvq).1] at hplain
            cases hplain.2
        rw [hm.find?_eq hstart hX.ranks hq hvq (hlt hX.ranks hkX),
          hm'.find?_eq hstart hY.ranks hq hvq (hlt hY.ranks hkY)]
        exact globals_eq_of_lower hstart hX hY hsame hlower hq hvq (hlt hranks hk)
    -- a variable that no statement binds is as it was at the start
    · rw [hm.bound v fun q hq hv => absurd ⟨q, hq, hv⟩ hbinds,
        hm'.bound v fun q hq hv => absurd ⟨q, hq, hv⟩ hbinds]
      have hfree : v ∉ all.flatMap Realization.binds := fun hmem => hbinds (List.mem_flatMap.1 hmem)
      rw [hX.globals v hfree, hY.globals v hfree, hglobals]
  · rw [← hm.result_eq, hX.result_eq, hstart.result]
  · rw [← hm'.result_eq, hY.result_eq, hglobals, hstart.result]

/-- What a statement concludes in one run is held in the end of the other. -/
private theorem concludesOnly
    (hend : r.isSingleton = false → ∀ n, (∀ q ∈ all, n ∈ q.names → rankY n ≤ kY) →
      m'.store.find? n = s'.store.find? n)
    (hheld : m.store.All fun n u => (∃ q ∈ all, n ∈ q.names ∧ rank n = k) →
      ∀ rel, s'.store.find? n = some rel → rel.contains u = true)
    (hbound : ∀ q ∈ all, ∀ v ∈ q.binds, ∀ e e', m.globals.find? v = some e →
      m'.globals.find? v = some e' → ∀ n ∈ q.names, rank n < k)
    (hg : m.goal r = .ok g) (hg' : m'.goal r = .ok g') (hconcludes : m'.Concludes base r g' s'.store) :
    Running.ConcludesOnly base m r g fun n u =>
      ∀ rel, s'.store.find? n = some rel → rel.contains u = true := by
  -- the tuple comes from a solution, which has a counterpart in the other run
  intro b hb sig hsig u hu rel hrel
  have hprogram : m'.program = m.program := by
    rw [← hm'.program, hY.program, ← hm.program, hX.program, hsame]
  have hoverlay : m'.overlay = m.overlay := by
    rw [← hm'.overlay_eq, hY.overlay_eq, ← hm.overlay_eq, hX.overlay_eq, hsame]
  have hglobals := globalsAgreeOn hstart hX hY hsame hr hm hkX hm' hkY hranks hk hlower
  have hreads := readsWithin hstart hX hY hsame hr hm hkX hm' hkY hranks hk hlower hend hheld
  obtain ⟨b', hb', hagree, hextended, hextended'⟩ := exists_solution hm.uniform hm'.uniform
    (hstart.bodies r hr) hg hg' hprogram hoverlay hglobals
    (fun _ tested asValue hmention => ⟨tested, asValue, hmention⟩) hreads hb
  obtain ⟨u', hu', hholds⟩ := hconcludes b' hb' sig hsig
  have hshape : u.shape = u'.shape := by
    refine Tuple.shape_eq_of_agreeOn hu hu' hagree hextended hextended' fun p _ e e' he he' => ?_
    -- a parameter that is not in the body is bound before, in both runs to the same
    rw [Bindings.find?_normal, Option.map_eq_some_iff] at he he'
    obtain ⟨x, hx, rfl⟩ := he
    obtain ⟨x', hx', rfl⟩ := he'
    have hsx := hm.find?_of_bound hx
    have hsx' := hm'.find?_of_bound hx'
    by_cases hbinds : ∃ q ∈ all, p ∈ q.binds
    · obtain ⟨q, hq, hpq⟩ := hbinds
      have heq := globals_eq_of_lower hstart hX hY hsame hlower hq hpq (hbound q hq p hpq x x' hx hx')
      rw [hsx, hsx', Option.map_some, Option.map_some] at heq
      exact (Option.some.inj heq).symm
    · have hfree : p ∉ all.flatMap Realization.binds := fun hmem => hbinds (List.mem_flatMap.1 hmem)
      have hglobals : t'.globals = t.globals := by rw [hsame]
      rw [hX.globals p hfree] at hsx
      rw [hY.globals p hfree, hglobals, hsx] at hsx'
      rw [Option.some.inj hsx']
  rw [← Tuple.holds_congr hshape, Store.holds, hrel] at hholds
  exact hholds

end

/-! ### Two runs -/

section

variable {rankX rankY : String → Nat} {k : Nat}

/-- What is concluded at a rank in one run is held in the other, when lower ranks are the same. -/
private theorem all_of_lower (hstart : t.Starts base c all) (hX : t.Completes base c all rankX s)
    (hY : t'.Completes base c all rankY s') (hsame : t' = { t with statements := t'.statements })
    (hranks : Ranks c all rank) (hside : rankX = rank ∨ rankY = rank)
    (hlower : ∀ n, (∀ q ∈ all, n ∈ q.names → rank n < k) →
      s.store.Includes s'.store n ∧ s'.store.Includes s.store n) :
    s.store.All fun n u => (∃ q ∈ all, n ∈ q.names ∧ rank n = k) →
      ∀ rel, s'.store.find? n = some rel → rel.contains u = true := by
  refine hX.least _ (fun n u v huv hu hat rel hrel => ?_) (fun n rel hrel u hu _ rel' hrel' => ?_)
    fun r hr kX m g hkX hm hg hheld => ?_
  · rw [Relation.contains, ← huv]
    exact hu hat rel hrel
  · have hstored : t'.store.find? n = some rel := by
      rw [hsame]
      exact hrel
    exact hY.toFollows.includes n rel rel' hstored hrel' u hu
  · rintro b hb sig hsig u hu ⟨q, hq, hnq, hrank⟩
    obtain ⟨kY, m', g', hkY, hm', hg', hconcludes, hend⟩ := hY.closed r hr
    have hk : ∀ n ∈ r.names, rank n = k := by
      intro n hn
      have hname : u.signature.name = sig.name := by rw [(Tuple.ofSolution_eq_ok.1 hu).1.1]
      rw [hranks.same r hr sig.name (List.mem_map_of_mem hsig) n hn, ← hname, hrank]
    refine concludesOnly hstart hX hY hsame hr hm hkX hm' hkY hranks hk hlower hend hheld
      (fun q hq v hv e e' he he' n hn => ?_) hg hg' hconcludes b hb sig hsig u hu
    -- what is bound when the statement runs was bound at a lower rank
    obtain ⟨n₀, hn₀⟩ := (hstart.orderly.checked r hr).exists_name
    by_contra hnot
    rcases hside with rfl | rfl
    · obtain rfl := (hkX n₀ hn₀).symm.trans (hk n₀ hn₀)
      rw [hm.unbound q hq v hv n hn (Nat.not_lt.1 hnot)] at he
      cases he
    · obtain rfl := (hkY n₀ hn₀).symm.trans (hk n₀ hn₀)
      rw [hm'.unbound q hq v hv n hn (Nat.not_lt.1 hnot)] at he'
      cases he'

/-- The order of the statements does not matter for how a run starts. -/
theorem Starts.withStatements (h : t.Starts base c all) (hsame : t' = { t with statements := t'.statements }) :
    t'.Starts base c all where
  orderly := h.orderly
  registered := by
    rw [hsame]
    exact h.registered
  owner := h.owner
  result := by
    rw [hsame]
    exact h.result
  bodies := h.bodies

variable (hstart : t.Starts base c all) (hX : t.Completes base c all rankX s)
  (hY : t'.Completes base c all rankY s') (hsame : t' = { t with statements := t'.statements })
include hstart hX hY hsame

/-- Two runs agree on the relations of all ranks, by induction on the ranks in the first run. -/
private theorem includes_of_lt (k : Nat) (n : String) (hn : ∀ q ∈ all, n ∈ q.names → rankX n < k) :
    s.store.Includes s'.store n ∧ s'.store.Includes s.store n := by
  induction k generalizing n with
  | zero =>
    -- no statement realizes the relation
    have hfree : n ∉ all.flatMap Realization.names := fun hmem => by
      obtain ⟨q, hq, hnq⟩ := List.mem_flatMap.1 hmem
      exact Nat.not_lt_zero _ (hn q hq hnq)
    have heq : s'.store.find? n = s.store.find? n := by
      rw [hY.relations n hfree, hX.relations n hfree, hsame]
    exact ⟨Store.includes_of_eq heq.symm, Store.includes_of_eq heq⟩
  | succ k ih =>
    -- The relation is of the rank in question, or of a lower one.
    by_cases hat : ∃ q ∈ all, n ∈ q.names ∧ rankX n = k
    · have hsame' : t = { t' with statements := t.statements } := by rw [hsame]
      have hforth := all_of_lower hstart hX hY hsame hX.ranks (.inl rfl) ih
      have hback := all_of_lower (hstart.withStatements hsame) hY hX hsame' hX.ranks (.inr rfl)
        fun n hn => (ih n hn).symm
      exact ⟨fun r r' hr hr' u hu => hforth n r hr u hu hat r' hr',
        fun r' r hr' hr u hu => hback n r' hr' u hu hat r hr⟩
    · refine ih n fun q hq hnq => ?_
      exact Nat.lt_of_le_of_ne (Nat.le_of_lt_succ (hn q hq hnq)) fun e => hat ⟨q, hq, hnq, e⟩

/-- Two runs of the same statements end with relations that include each other. -/
theorem Completes.includes (n : String) :
    s.store.Includes s'.store n ∧ s'.store.Includes s.store n :=
  includes_of_lt hstart hX hY hsame (rankX n + 1) n fun _ _ _ => Nat.lt_succ_self _

/-- Two runs of the same statements bind all variables to the same, up to the numbers of made nodes. -/
theorem Completes.globals_eq (v : String) :
    (s'.globals.find? v).map (Entity.normal base) = (s.globals.find? v).map (Entity.normal base) := by
  by_cases hbinds : ∃ q ∈ all, v ∈ q.binds
  · obtain ⟨q, hq, hv⟩ := hbinds
    obtain ⟨n, hn⟩ := (hstart.orderly.checked q hq).exists_name
    have hlt : ∀ m ∈ q.names, rankX m < rankX n + 1 := fun m hm => by
      rw [hX.ranks.same q hq n hn m hm]
      exact Nat.lt_succ_self _
    exact globals_eq_of_lower hstart hX hY hsame (fun n _ => Completes.includes hstart hX hY hsame n)
      hq hv hlt
  · have hfree : v ∉ all.flatMap Realization.binds := fun hmem => hbinds (List.mem_flatMap.1 hmem)
    rw [hY.globals v hfree, hX.globals v hfree, hsame]

end

end Table

end CodeRules
