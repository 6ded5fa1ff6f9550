import CodeRules.Proofs.Table.Part
import CodeRules.Proofs.Table.Solve

/-!
# What a level computes

`Table.Account` says of the table after a level what does not depend on the order of its groups: every
statement was run in a table that held all relations of lower ranks, all its conclusions from there are
held, and whatever holds of these conclusions holds of all that is new. Every level that runs to its end
has such an account (`Running.exists_account`).
-/

namespace CodeRules

open Effect Schedule

variable {base : UInt32}

namespace Table

/-- In `t` a statement of rank `k` is run on the way to `t'`: what has a lower rank is as it is in the end,
and what is bound later is unbound. -/
structure Sees (base : UInt32) (statements : List Realization) (rank : String → Nat) (k : Nat)
    (r : Realization) (t t' : Table) : Prop
    extends t.Follows (statements.flatMap Realization.names) (statements.flatMap Realization.binds) t' where
  uniform : t.Uniform base
  overlay_eq : t'.overlay = t.overlay
  result_eq : t'.globals.result = t.globals.result
  lower : ∀ n, (∀ q ∈ statements, n ∈ q.names → rank n < k) → t.store.find? n = t'.store.find? n
  bound : ∀ v, (∀ q ∈ statements, v ∈ q.binds → ∀ n ∈ q.names, rank n < k) →
    t.globals.find? v = t'.globals.find? v
  unbound : ∀ q ∈ statements, ∀ v ∈ q.binds, ∀ n ∈ q.names, k ≤ rank n → t.globals.find? v = none
  pending : r.isSingleton = true → ∀ n ∈ r.names, ∀ rel, t.store.find? n = some rel → rel.tuples = ∅

/-- The statements `todo` were run from `t` to `t'`. They are closed, each from a table in which it was
run, and what holds of their conclusions holds of all that is new. -/
structure Account (base : UInt32) (statements : List Realization) (rank : String → Nat)
    (todo : List Realization) (t t' : Table) : Prop
    extends t.Follows (todo.flatMap Realization.names) (todo.flatMap Realization.binds) t' where
  uniform : t'.Uniform base
  overlay_eq : t'.overlay = t.overlay
  result_eq : t'.globals.result = t.globals.result
  closed : ∀ r ∈ todo, ∃ (k : Nat) (t₁ : Table) (g : Goal), (∀ n ∈ r.names, rank n = k) ∧
    t₁.Sees base statements rank k r t' ∧ t₁.goal r = .ok g ∧ t₁.Concludes base r g t'.store ∧
    (r.isSingleton = false → ∀ n, (∀ q ∈ statements, n ∈ q.names → rank n ≤ k) →
      t₁.store.find? n = t'.store.find? n)
  least : ∀ H, Tuple.Respects H → t.store.All H →
    (∀ r ∈ todo, ∀ (k : Nat) (t₁ : Table) (g : Goal), (∀ n ∈ r.names, rank n = k) →
      t₁.Sees base statements rank k r t' → t₁.goal r = .ok g → t₁.store.All H →
        Running.ConcludesOnly base t₁ r g H) → t'.store.All H

variable {statements part : List Realization} {parts : List (List Realization)} {rank : String → Nat}
  {k : Nat} {t t' t'' t₁ : Table} {r : Realization}

/-- A variable that a statement is to bind is one of a singleton that waits for its tuple. -/
theorem Awaits.exists_pending {todo : List Realization} (h : t.Awaits todo) (hr : r ∈ todo) {v : String}
    (hv : v ∈ r.binds) : r.isSingleton = true ∧ ∃ s ∈ r.signatures, v ∈ s.paramNames ∧
      Running.Pending t s := by
  obtain ⟨hsingle, s, hs, hv⟩ := Realization.mem_binds_iff.1 hv
  exact ⟨hsingle, s, hs, hv, h.pending r hr hsingle s hs⟩

/-- No statement was run. -/
theorem Account.refl (ht : t.Uniform base) : t.Account base statements rank [] t where
  toFollows := .refl t
  uniform := ht
  overlay_eq := rfl
  result_eq := rfl
  closed r hr := by cases hr
  least _ _ hall _ := hall

section

variable (hranked : RankedFrom statements rank k (part :: parts))
  (hawaits : t.Awaits (part ++ parts.flatten)) (hran : t.Ran base part t')
  (haccount : t'.Account base statements rank parts.flatten t'')
include hranked hawaits hran haccount

/-- The moments of the first part are seen from the end. -/
private theorem sees_of_moment (hr : r ∈ part) (h : t₁.Moment base part r t t') :
    t₁.Sees base statements rank k r t'' := by
  -- What a part realizes and binds is realized and bound by the statements of the level.
  have hmono {f : Realization → List String} {l : List Realization} (hl : ∀ q ∈ l, q ∈ statements) :
      ∀ x ∈ l.flatMap f, x ∈ statements.flatMap f := by
    intro x hx
    obtain ⟨q, hq, hx⟩ := List.mem_flatMap.1 hx
    exact List.mem_flatMap.2 ⟨q, hl q hq, hx⟩
  have hpart : ∀ q ∈ part, q ∈ statements := fun q hq => (hranked.head hq).1
  have hlater : ∀ q ∈ parts.flatten, q ∈ statements := fun q hq => (hranked.later hq).1
  exact {
    toFollows := (h.ahead.mono (hmono hpart) (hmono hpart)).trans
      (haccount.toFollows.mono (hmono hlater) (hmono hlater))
    uniform := h.uniform
    overlay_eq := (haccount.overlay_eq.trans hran.overlay_eq).trans h.overlay_eq.symm
    result_eq := by rw [haccount.result_eq, hran.result_eq, h.globals_eq]
    -- What has a lower rank is realized neither in this part nor later.
    lower := fun n hn => by
      have hfree := hranked.not_mem_names hn
      rw [List.flatten_cons, List.flatMap_append, List.mem_append, not_or] at hfree
      rw [h.since.relations n hfree.1, haccount.relations n hfree.2, hran.relations n hfree.1]
    -- The same holds of variables whose singletons have lower ranks.
    bound := fun v hv => by
      have hfree : v ∉ (part ++ parts.flatten).flatMap Realization.binds := by
        intro hmem
        obtain ⟨q, hq, hvq⟩ := List.mem_flatMap.1 hmem
        obtain ⟨n, hn⟩ := (hawaits.checked q hq).exists_name
        obtain ⟨hq, hrank⟩ := hranked.of_mem hq
        exact Nat.not_lt.2 (hrank n hn) (hv q hq hvq n hn)
      rw [List.flatMap_append, List.mem_append, not_or] at hfree
      rw [h.globals_eq, haccount.globals v hfree.2, hran.globals v hfree.1]
    -- Statements of this rank and of higher ones have yet to run, so their variables are unbound.
    unbound := fun q hq v hv n hn hk => by
      have hmem := hranked.complete q hq n hn hk
      rw [List.flatten_cons] at hmem
      obtain ⟨_, s, _, hvs, hpending⟩ := hawaits.exists_pending hmem hv
      rw [h.globals_eq]
      exact hpending.unbound v hvs
    pending := fun hsingle n hn rel hrel => by
      obtain ⟨s, hs, rfl⟩ := Realization.mem_names_iff.1 hn
      obtain ⟨rel', hrel', hempty⟩ :=
        (hawaits.pending r (List.mem_append_left _ hr) hsingle s hs).empty
      rw [h.store_eq hsingle, hrel'] at hrel
      obtain rfl := Option.some.inj hrel
      exact hempty }

/-- A part and the parts after it. -/
theorem Account.cons : t.Account base statements rank (part ++ parts.flatten) t'' where
  toFollows := by
    rw [List.flatMap_append, List.flatMap_append]
    exact (hran.toFollows.mono (fun _ => List.mem_append_left _) fun _ => List.mem_append_left _).trans
      (haccount.toFollows.mono (fun _ => List.mem_append_right _) fun _ => List.mem_append_right _)
  uniform := haccount.uniform
  overlay_eq := haccount.overlay_eq.trans hran.overlay_eq
  result_eq := haccount.result_eq.trans hran.result_eq
  closed r hr := by
    -- A statement of the first part is closed at its moment, and what it concludes is held to the end.
    rcases List.mem_append.1 hr with hr | hr
    · obtain ⟨t₁, g, hmoment, hg, hconcludes, hend⟩ := hran.closed r hr
      refine ⟨k, t₁, g, (hranked.head hr).2, sees_of_moment hranked hawaits hran haccount hr hmoment, hg,
        fun c hc s hs => ?_, fun hkind n hn => ?_⟩
      · exact (hconcludes c hc s hs).imp fun u hu => ⟨hu.1, haccount.toFollows.holds hu.2⟩
      · have hnotLater : n ∉ parts.flatten.flatMap Realization.names := fun hmem => by
          obtain ⟨q, hq, hnq⟩ := List.mem_flatMap.1 hmem
          have hlater := hranked.later hq
          exact absurd (hlater.2 n hnq) (Nat.not_lt.2 (hn q hlater.1 hnq))
        rw [hend hkind, haccount.relations n hnotLater]
    · exact haccount.closed r hr
  least H hH hall hstep := by
    refine haccount.least H hH (hran.least H hH hall fun r hr t₁ g hmoment hg hall₁ => ?_) fun r hr =>
      hstep r (List.mem_append_right _ hr)
    exact hstep r (List.mem_append_left _ hr) k t₁ g (hranked.head hr).2
      (sees_of_moment hranked hawaits hran haccount hr hmoment) hg hall₁

end

end Table

namespace Running

variable {t t' : Table} {c : RelationContext} {statements all : List Realization}

/-- Parts that are run in the order of their ranks. -/
private theorem account_of_forM {schedule : Schedule} {steps : List Planned} {level : Level}
    {rank : String → Nat} (harr : schedule.Arranges c statements steps)
    (hstatements : Orderly c statements)
    (hbodies : ∀ r ∈ statements, ∀ x ∈ r.body.entities, x.Uniform base)
    (hequates : ∀ r ∈ statements, r.body.equatesPattern = false) {order : List (List Planned × Nat)}
    {k : Nat} (ht : t.Uniform base) (hfits : t.Fits base)
    (horder : ∀ p ∈ order, p.1 ∈ partition steps)
    (hranked : RankedFrom all rank k (order.map fun p => p.1.map Planned.statement))
    (hawaits : t.Awaits (order.map fun p => p.1.map Planned.statement).flatten)
    (h : Gives (order.forM (runPart level statements)) t () t') :
    t.Account base all rank (order.map fun p => p.1.map Planned.statement).flatten t' := by
  induction order generalizing t k with
  | nil =>
    obtain rfl := gives_forM_nil.1 h
    exact .refl ht
  | cons part order ih =>
    obtain ⟨t₁, hpart, hrest⟩ := gives_forM_cons.1 h
    have hmem := horder part (List.mem_cons_self ..)
    rw [List.map_cons, List.flatten_cons] at hawaits ⊢
    -- The part is run first, and leaves a table in which the other parts can run.
    have hran := ran_of_runPart ht hfits hbodies hequates harr hmem hstatements hpart
    have hleaves := ((tableWalk_awaits t True).ends_runPart harr level hmem
      ⟨.refl t, fun _ => hawaits⟩).gives hpart
    have hfits₁ : t₁.Fits base := by
      rw [Table.Fits, hran.arena_eq]
      exact hfits
    exact Table.Account.cons hranked hawaits hran (ih hran.uniform hfits₁
      (fun p hp => horder p (List.mem_cons_of_mem _ hp)) hranked.tail (hleaves.2 trivial) hrest)

/-- A level that is run to its end has an account, in which the order of the statements does not
matter. -/
theorem exists_account {level : Level} {complete : NameSet} (ht : t.Uniform base) (hfits : t.Fits base)
    (hawaits : t.Awaits statements) (hstatements : Orderly (t.context complete) statements)
    (hbodies : ∀ r ∈ statements, ∀ x ∈ r.body.entities, x.Uniform base)
    (hequates : ∀ r ∈ statements, r.body.equatesPattern = false) (hperm : statements.Perm all)
    (h : Gives (runLevel level statements complete) t () t') :
    ∃ rank, Ranks (t.context complete) all rank ∧ t.Account base all rank all t' := by
  -- the schedule is made, since the level ran to the end
  cases hschedule : Schedule.ofStatements (t.context complete) statements with
  | error e =>
    rw [Gives, runLevel_error level hschedule] at h
    cases h
  | ok schedule =>
    obtain ⟨steps, order, harr, hpartition, horder, hrun⟩ := runLevel_eq level hschedule
    rw [Gives, hrun] at h
    refine ⟨_, (ranks_rankIn harr hstatements hpartition horder).of_perm hperm, ?_⟩
    have hparts : (order.map fun p => p.1.map Planned.statement) =
        (order.map Prod.fst).map (List.map Planned.statement) := by
      rw [List.map_map]
      rfl
    -- the parts hold the statements of the level
    have hflat : (order.map fun p => p.1.map Planned.statement).flatten.Perm statements := by
      rw [hparts, ← List.map_flatten, ← harr.statements]
      exact (hpartition.flatten.trans (flatten_partition_perm harr.numbered)).map _
    -- earlier parts rank lower, in whatever order the statements are listed
    have hranked := (rankedFrom_rankIn harr hstatements hpartition).of_perm hperm
    rw [← hparts] at hranked
    have haccount := account_of_forM harr hstatements hbodies hequates ht hfits
      (fun p hp => hpartition.mem_iff.1 (List.mem_map_of_mem hp)) hranked (hawaits.perm hflat.symm) h
    have hall := hflat.trans hperm
    exact {
      toFollows := haccount.toFollows.mono (fun n => (hall.flatMap_right _).mem_iff.1)
        fun v => (hall.flatMap_right _).mem_iff.1
      uniform := haccount.uniform
      overlay_eq := haccount.overlay_eq
      result_eq := haccount.result_eq
      closed := fun r hr => haccount.closed r (hall.mem_iff.2 hr)
      least := fun H hH hstart hstep => haccount.least H hH hstart fun r hr => hstep r (hall.mem_iff.1 hr) }

end Running

end CodeRules
