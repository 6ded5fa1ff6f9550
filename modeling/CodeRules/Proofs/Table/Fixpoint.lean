import CodeRules.Proofs.Program.Below
import CodeRules.Proofs.Table.Passes

/-!
# What fixpoints compute

A group of plain statements is run until its relations hold all conclusions of its statements, whatever
they hold (`Running.fixpoint_closed`), and they then hold no more than they must
(`Running.fixpoint_closed_and_least`). For this no entity may hold nodes of the program beside made ones;
with such entities a larger store may do without some conclusions
(`Pairs.closed_extension_without_pair`).
-/

namespace CodeRules

open Effect

variable {base : UInt32}

namespace Running

variable {t t' : Table}

/-- A scheduled group of plain statements that was run to its end holds all conclusions of its
statements, also when it is not recursive and was run once; and what it holds is contained in every
store that extends the relations of the group and holds all conclusions as well. -/
theorem fixpoint_closed_and_least {classes : List Node} {free : UInt32} {c : RelationContext}
    {statements : List Realization} {schedule : Schedule} {g : Group} {label : String}
    (hclasses : ∀ k ∈ classes, ∀ n ∈ k.preorder, n.IsRead ∧ n.id.word < base)
    (hprogram : t.program = (Program.ofClasses classes).withIdBase free)
    (hoverlay : ∀ e ∈ t.overlay, e.Uniform base) (hstore : t.store.Uniform base)
    (hglobals : t.globals.Uniform base) (harena : t.arena.Undeclared base)
    (hchecked : ∀ r ∈ statements, r.Checked) (hopen : ∀ r ∈ statements, r.OpenIn c)
    (hbodies : ∀ r ∈ statements, ∀ x ∈ r.body.entities, x.Uniform base)
    (hschedule : Schedule.ofStatements c statements = .ok schedule) (hg : g ∈ schedule.groups)
    (hkind : g.kind = .fixpoint)
    (hrun : Gives (runFixpoint (g.statements.filterMap (statements[·]?)) g.isRecursive label) t () t')
    (hfits : t'.Fits base) :
    (∀ r ∈ g.statements.filterMap (statements[·]?),
      Ends (derive r) t' (fun us t'' => t''.Fits base → ∀ u ∈ us, t'.store.holds u = true)
        (fun _ t'' => ¬ t''.Fits base)) ∧
    ∀ T : Store, T.Uniform base → (∀ n, T.signature? n = t.store.signature? n) →
      (∀ n, t.store.Includes T n) →
      (∀ n, Catalog.contains g.relations n = false → T.Includes t.store n) →
      (∀ r ∈ g.statements.filterMap (statements[·]?), ∃ us t'',
        Gives (derive r) { t with store := T } us t'' ∧ t''.Fits base ∧
          ∀ u ∈ us, T.holds u = true) →
      ∀ n, t'.store.Includes T n := by
  have ht : t.Uniform base := by
    refine ⟨⟨?_, hoverlay⟩, hstore, hglobals, harena⟩
    show t.program.Below base
    rw [hprogram]
    exact (Program.below_ofClasses hclasses).withIdBase free
  constructor
  · -- the program lies below the numbers for made nodes, so what holds of any program holds of it
    have hprogram' : t.program.UnknownFrom (t.arena.base.toNat + t.arena.size) := by
      refine ht.world.program.unknownFrom ?_
      rw [harena.base_eq]
      exact Nat.le_add_right _ _
    rw [← harena.base_eq]
    exact fixpoint_closed hprogram' hchecked hopen hschedule hg hkind hrun
  obtain ⟨steps, harr⟩ := Schedule.exists_arranges hschedule
  rw [harr.groups] at hg
  obtain ⟨part, hpart, rfl⟩ := List.mem_map.1 hg
  rw [harr.filterMap_group hpart] at hrun ⊢
  obtain ⟨members, hgoals, hrun⟩ := gives_runFixpoint hrun
  have hplain := Planned.isPlain_of_kind hkind
  -- Leastness is about the passes: they stay within each store that the hypotheses describe.
  have hmembers := hgoals.isMembers ht fun s hs => hbodies _ (harr.statement_mem hpart hs)
  intro T hT hsignature hincludes houtside hclosed n
  refine includes_of_runPasses ht hT hmembers
    (not_mem_partNames_of_tested harr hpart hchecked hopen hplain hgoals)
    ⟨hsignature, hincludes, fun n hn => ?_, fun m hm => ?_⟩ hrun hfits n
  · refine (hincludes n).view_eq hstore hT (hsignature n) (houtside n ?_)
    -- A relation that no statement of the part realizes is not one of the group.
    rw [Bool.eq_false_iff, Ne, NameSet.contains_iff, Planned.group, NameSet.mem_ofListFirst]
    exact hn
  · obtain ⟨s, hs, hms, hgoal⟩ := hgoals.exists_planned hm
    -- In the larger store the statement derives only what is held, so it is settled there.
    have htable : Table.Uniform base { t with store := T } :=
      ⟨⟨ht.world.program, ht.world.overlay⟩, hT, ht.globals, ht.arena⟩
    obtain ⟨us, t'', hderive, hfits', hheld⟩ := hclosed _ (List.mem_map_of_mem hs)
    obtain ⟨g, hg, hsettled⟩ := settled_of_derive htable
      (hbodies _ (harr.statement_mem hpart hs)) hderive hfits' hheld
    rw [Table.goal_congr (funext fun n => Store.arity?_eq (hsignature n)), hgoal] at hg
    obtain rfl := Except.ok.inj hg
    rw [hms]
    exact hsettled

end Running

/-! ### Pairs of equal numbers -/

namespace Pairs

open Ones Running

/-- Pairs of nodes. -/
def relation (rows : List (Node × Node)) : Relation :=
  let signature : Signature := ⟨"out", [⟨"a", .any⟩, ⟨"b", .any⟩], {}⟩
  let tuple? (row : Node × Node) := (Tuple.ofValues signature [.node row.1, .node row.2]).toOption
  { signature, tuples := Catalog.ofListFirst (rows.filterMap tuple?) }

/-- Two relations of lists, and one of pairs. -/
def store (first second : List (List Node)) (out : List (Node × Node)) : Store :=
  ((Dict.set ∅ "first" (Ones.relation "first" first)).set "second"
    (Ones.relation "second" second)).set "out" (relation out)

/-- The first relation reads itself, and the third one takes the lists of the other two apart. -/
def statements : List Realization :=
  let lists (name : String) : Expr := .trait .synthetic name [.var "x"]
  let parts : Expr := .matches .synthetic (.var "x")
    (.list .synthetic [.var .synthetic "a", .var .synthetic "b"])
  [⟨"Owner", .option, .realize, [(Ones.relation "first" []).signature], lists "first", [], none,
      .synthetic⟩,
    ⟨"Owner", .option, .realize, [(relation []).signature],
      .and [.or [lists "first", lists "second"], parts], [], none, .synthetic⟩]

/-- The three relations, none of which is complete. -/
def context : RelationContext where
  signatures := Catalog.ofListFirst
    ((store [] [] []).values.map fun r => (r.name, r.signature))

/-- The statements in their order. -/
def schedule : Schedule :=
  (Schedule.ofStatements context statements).toOption.getD ⟨[], ⟨0, []⟩⟩

/-- The only group. -/
def group : Group := schedule.groups.headD default

/-- The statements of the group. -/
def members : List Realization := group.statements.filterMap (statements[·]?)

/-- A table that has lists only. -/
def table (first second : List (List Node)) (out : List (Node × Node)) : Table where
  option := "Owner"
  interface := "Pairs"
  span := .synthetic
  program := (Program.ofClasses classes).withIdBase 4
  settings := { maxPasses := 3 }
  arena := .unused 4
  trace := {}
  store := store first second out

/-- The table after the group was run. -/
def final (second : List (List Node)) : Table :=
  ((runFixpoint members group.isRecursive "out").run.run (table [] second [])).2

variable {first second first' second' : List (List Node)} {out out' : List (Node × Node)} {n : String}

/-- The three relations, and nothing else, are in the store. -/
private theorem find?_pairs {r : Relation} (h : (store first second out).find? n = some r) :
    (n = "first" ∧ r = Ones.relation "first" first) ∨
      (n = "second" ∧ r = Ones.relation "second" second) ∨ (n = "out" ∧ r = relation out) := by
  simp only [store, Dict.find?_set, Dict.find?_empty] at h
  split at h
  · exact .inr (.inr ⟨‹_›, (Option.some.inj h).symm⟩)
  · split at h
    · exact .inr (.inl ⟨‹_›, (Option.some.inj h).symm⟩)
    · split at h
      · exact .inl ⟨‹_›, (Option.some.inj h).symm⟩
      · cases h

/-- The signatures do not depend on the tuples. -/
private theorem signature?_pairs (n : String) :
    (store first second out).signature? n = (store first' second' out').signature? n := by
  simp only [store, Store.signature?, Dict.find?_set, Dict.find?_empty]
  split
  · rfl
  · split
    · rfl
    · split <;> rfl

/-- The relation of pairs is included in one with more pairs. -/
private theorem includes_out (h : out ⊆ out') :
    ∀ t ∈ (relation out).tuples.toList, (relation out').contains t = true := by
  intro t ht
  refine Catalog.contains_ofListFirst.2 ⟨t, ?_, rfl⟩
  obtain ⟨row, hrow, ht⟩ := List.mem_filterMap.1 (Catalog.mem_of_mem_ofListFirst ht)
  exact List.mem_filterMap.2 ⟨row, h hrow, ht⟩

/-- A store includes another one in relations that are larger. -/
private theorem includes_pairs (hfirst : n = "first" → first ⊆ first')
    (hsecond : n = "second" → second ⊆ second') (hout : n = "out" → out ⊆ out') :
    (store first second out).Includes (store first' second' out') n := by
  intro r r' hr hr'
  rcases find?_pairs hr with ⟨rfl, rfl⟩ | ⟨rfl, rfl⟩ | ⟨rfl, rfl⟩ <;>
    rcases find?_pairs hr' with ⟨hname, rfl⟩ | ⟨hname, rfl⟩ | ⟨hname, rfl⟩ <;>
    first
    | exact Ones.includes_relation (hfirst rfl)
    | exact Ones.includes_relation (hsecond rfl)
    | exact includes_out (hout rfl)
    | exact absurd hname (by decide)

/-- A store of uniform lists and pairs is uniform. -/
private theorem uniform_pairs
    (hlists : ∀ row ∈ first ++ second, (Entity.list (row.map .node)).Uniform 4)
    (hout : ∀ row ∈ out, (Entity.node row.1).Uniform 4 ∧ (Entity.node row.2).Uniform 4) :
    (store first second out).Uniform 4 := by
  intro name r hr
  rcases find?_pairs hr with ⟨_, rfl⟩ | ⟨_, rfl⟩ | ⟨_, rfl⟩
  · exact Ones.uniform_relation fun row hrow => hlists row (List.mem_append_left _ hrow)
  · exact Ones.uniform_relation fun row hrow => hlists row (List.mem_append_right _ hrow)
  · intro t ht e he
    obtain ⟨row, hrow, ht⟩ := List.mem_filterMap.1 (Catalog.mem_of_mem_ofListFirst ht)
    obtain ⟨_, hvalues, _⟩ := Tuple.ofValues_eq_ok.1 (Except.toOption_eq_some_iff.1 ht)
    rw [hvalues, List.mem_cons, List.mem_singleton] at he
    rcases he with rfl | rfl
    · exact (hout row hrow).1
    · exact (hout row hrow).2

/-- Each statement realizes one of the two relations. -/
private theorem mem_statements {r : Realization} (hr : r ∈ statements) :
    r.signatures = [(Ones.relation "first" []).signature] ∨
      r.signatures = [(relation []).signature] := by
  simp only [statements, List.mem_cons, List.not_mem_nil, or_false] at hr
  rcases hr with rfl | rfl
  · exact .inl rfl
  · exact .inr rfl

/-- Both statements are checked. -/
private theorem checked_statements : ∀ r ∈ statements, r.Checked := by
  intro r hr
  rcases mem_statements hr with h | h
  · refine ⟨by simp [h], by simp [h, Ones.relation], by simp [Realization.names, h], .inr ⟨_, h, rfl⟩⟩
  · refine ⟨by simp [h], by simp [h, relation], by simp [Realization.names, h], .inr ⟨_, h, rfl⟩⟩

/-- What they realize is open. -/
private theorem open_statements : ∀ r ∈ statements, r.OpenIn context := by
  intro r hr
  refine ⟨fun s hs => ?_, fun s _ => rfl⟩
  rcases mem_statements hr with h | h <;> rw [h, List.mem_singleton] at hs <;> subst hs <;> rfl

/-- No entity stands in them. -/
private theorem entities_statements : ∀ r ∈ statements, r.body.entities = [] := by
  intro r hr
  simp only [statements, List.mem_cons, List.not_mem_nil, or_false] at hr
  rcases hr with rfl | rfl <;> rfl

/-- They can be scheduled. -/
private theorem ofStatements_eq : Schedule.ofStatements context statements = .ok schedule := by
  have hok : (Schedule.ofStatements context statements).isOk = true := by decide +kernel
  unfold schedule
  cases h : Schedule.ofStatements context statements with
  | error e =>
    rw [h] at hok
    cases hok
  | ok s => rfl

/-- There is one group, which is in the schedule. -/
private theorem group_mem : group ∈ schedule.groups := by
  have hne : schedule.groups ≠ [] := by
    intro h
    have hlength : schedule.groups.length = 1 := by decide +kernel
    rw [h] at hlength
    cases hlength
  obtain ⟨g, gs, h⟩ := List.exists_cons_of_ne_nil hne
  rw [group, h]
  exact List.mem_cons_self ..

/-- The relations that the group realizes are not outside of it. -/
private theorem outside_group (h : Catalog.contains group.relations n = false) :
    n ≠ "first" ∧ n ≠ "out" := by
  constructor
  · rintro rfl
    revert h
    decide +kernel
  · rintro rfl
    revert h
    decide +kernel

/-- A statement derives what a check finds in a store. -/
private theorem derives {t : Table} {r : Realization} {T : Store}
    (h : (((derive r).run.run t).1.toOption.any fun us => us.all T.holds) = true) :
    ∃ us, Gives (derive r) t us ((derive r).run.run t).2 ∧ ∀ u ∈ us, T.holds u = true := by
  obtain ⟨us, hus, hall⟩ := (Option.any_eq_true ..).1 h
  refine ⟨us, ?_, List.all_eq_true.1 hall⟩
  unfold Gives
  rw [← Except.toOption_eq_some_iff.1 hus]
  rfl

/-- If the run ends well, it gives the final table. -/
private theorem gives_final {second : List (List Node)}
    (h : ((runFixpoint members group.isRecursive "out").run.run (table [] second [])).1.isOk = true) :
    Gives (runFixpoint members group.isRecursive "out") (table [] second []) () (final second) := by
  obtain ⟨⟨⟩, hrun⟩ := exists_gives h
  exact hrun

/-- The list of the number that was read beside the one that was made is taken apart into a pair. The
pair is missing in a larger store, which has the same list the other way round, and all conclusions
of the statements. -/
theorem closed_extension_without_pair :
    let t := table [] [[read, made]] []
    let t' := final [[read, made]]
    let T := store [[made, read]] [[read, made]] [(made, read)]
    (∀ k ∈ classes, ∀ n ∈ k.preorder, n.IsRead ∧ n.id.word < 4) ∧ read.IsRead ∧ made.IsMade 4 ∧
      t.arena.Undeclared 4 ∧ (∀ r ∈ statements, r.Checked) ∧
      (∀ r ∈ statements, r.OpenIn context) ∧
      Schedule.ofStatements context statements = .ok schedule ∧ group ∈ schedule.groups ∧
      group.kind = .fixpoint ∧
      Gives (runFixpoint (group.statements.filterMap (statements[·]?)) group.isRecursive "out")
        t () t' ∧
      (∀ n, T.signature? n = t.store.signature? n) ∧ (∀ n, t.store.Includes T n) ∧
      (∀ n, Catalog.contains group.relations n = false → T.Includes t.store n) ∧
      (∀ r ∈ group.statements.filterMap (statements[·]?), ∃ us t'',
        Gives (derive r) { t with store := T } us t'' ∧ ∀ u ∈ us, T.holds u = true) ∧
      ¬ ∀ n, t'.store.Includes T n := by
  refine ⟨read_of_classes, rfl, ⟨rfl, by decide⟩, Arena.intact_unused.toUndeclared,
    checked_statements, open_statements, ofStatements_eq, group_mem, by decide +kernel,
    gives_final (by decide +kernel), signature?_pairs, fun n => ?_, fun n hn => ?_, fun r hr => ?_,
    fun hincludes => ?_⟩
  · exact includes_pairs (fun _ => List.nil_subset _) (fun _ => List.Subset.refl _)
      fun _ => List.nil_subset _
  · obtain ⟨hfirst, hout⟩ := outside_group hn
    exact includes_pairs (fun h => absurd h hfirst) (fun _ => List.Subset.refl _)
      fun h => absurd h hout
  -- the larger store holds what the group derives from it
  · have hall : ∀ r ∈ members, (((derive r).run.run
        (table [[made, read]] [[read, made]] [(made, read)])).1.toOption.any fun us =>
          us.all (store [[made, read]] [[read, made]] [(made, read)]).holds) = true := by
      decide +kernel
    obtain ⟨us, hus, hheld⟩ := derives (hall r hr)
    exact ⟨us, _, hus, hheld⟩
  -- The pair that the group made is not among those of the larger store.
  · have hlost : ((final [[read, made]]).store.find? "out").any (fun r =>
        r.tuples.toList.any fun u => !(relation [(made, read)]).contains u) = true := by decide +kernel
    obtain ⟨r, hr, hany⟩ := (Option.any_eq_true ..).1 hlost
    obtain ⟨u, hu, hnot⟩ := List.any_eq_true.1 hany
    rw [hincludes "out" r (relation [(made, read)]) hr rfl u hu] at hnot
    cases hnot

/-- A node that was read is uniform. -/
private theorem uniform_read : (Entity.node read).Uniform 4 := by
  left
  unfold Entity.IsRead Node.IsRead
  decide +kernel

/-- A made node is uniform. -/
private theorem uniform_made : (Entity.node made).Uniform 4 := by
  right
  unfold Entity.IsMade Node.IsMade
  decide +kernel

/-- A list that was read is taken apart into a pair, which is in a larger store beside another pair. -/
theorem closed_extension_with_pair :
    let t' := final [[read, read]]
    let T := store [[made, made]] [[read, read]] [(made, made), (read, read)]
    group.isRecursive = true ∧ t'.store.size = 2 ∧ T.size = 4 ∧
      (∀ r ∈ members, Ends (derive r) t'
        (fun us t'' => t''.Fits 4 → ∀ u ∈ us, t'.store.holds u = true) (fun _ t'' => ¬ t''.Fits 4)) ∧
      ∀ n, t'.store.Includes T n := by
  have huniform (first : List (List Node)) (out : List (Node × Node))
      (hfirst : ∀ row ∈ first, (Entity.list (row.map .node)).Uniform 4)
      (hout : ∀ row ∈ out, (Entity.node row.1).Uniform 4 ∧ (Entity.node row.2).Uniform 4) :
      (store first [[read, read]] out).Uniform 4 := by
    refine uniform_pairs (fun row hrow => ?_) hout
    rcases List.mem_append.1 hrow with hrow | hrow
    · exact hfirst row hrow
    · rw [List.mem_singleton.1 hrow]
      exact .inl isRead_list_read
  -- the fixpoint is least among the closed stores, of which this is one
  have hgroup := Running.fixpoint_closed_and_least
    (t := table [] [[read, read]] []) read_of_classes rfl
    (fun e he => by cases he) (huniform [] [] (fun _ h => by cases h) fun _ h => by cases h)
    Bindings.uniform_empty Arena.intact_unused.toUndeclared checked_statements open_statements
    (fun r hr x hx => by
      rw [entities_statements r hr] at hx
      cases hx)
    ofStatements_eq group_mem (by decide +kernel) (gives_final (by decide +kernel))
    (by unfold Table.Fits; decide +kernel)
  refine ⟨by decide +kernel, by decide +kernel, by decide +kernel, hgroup.1, ?_⟩
  refine hgroup.2 _ (huniform _ _ ?_ ?_) signature?_pairs (fun n => ?_) (fun n hn => ?_)
    fun r hr => ?_
  · intro row hrow
    rw [List.mem_singleton.1 hrow]
    exact .inr isMade_list_made
  · intro row hrow
    rcases List.mem_cons.1 hrow with rfl | hrow
    · exact ⟨uniform_made, uniform_made⟩
    · rw [List.mem_singleton.1 hrow]
      exact ⟨uniform_read, uniform_read⟩
  · exact includes_pairs (fun _ => List.nil_subset _) (fun _ => List.Subset.refl _)
      fun _ => List.nil_subset _
  · obtain ⟨hfirst, hout⟩ := outside_group hn
    exact includes_pairs (fun h => absurd h hfirst) (fun _ => List.Subset.refl _)
      fun h => absurd h hout
  · have hall : ∀ r ∈ members, (((derive r).run.run
        (table [[made, made]] [[read, read]] [(made, made), (read, read)])).1.toOption.any fun us =>
          us.all (store [[made, made]] [[read, read]] [(made, made), (read, read)]).holds) = true ∧
        4 + ((derive r).run.run
          (table [[made, made]] [[read, read]] [(made, made), (read, read)])).2.arena.size ≤
            UInt32.size := by
      decide +kernel
    -- the run is computed to see that nothing new is derived
    obtain ⟨us, hus, hheld⟩ := derives (hall r hr).1
    exact ⟨us, _, hus, (hall r hr).2, hheld⟩

end Pairs

end CodeRules
