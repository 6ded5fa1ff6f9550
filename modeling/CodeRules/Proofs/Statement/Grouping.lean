import CodeRules.Proofs.Order.Depth
import CodeRules.Proofs.Statement.Schedule

/-!
# Which statements are run together, and when

What a schedule is can be said without steps and graphs. Statements are joined when a chain of
neighbours links them (`Schedule.Joined`), and the groups of a schedule are the classes of joined
statements (`Schedule.Groups`). A class precedes another when it realizes what a statement of the
other depends on, and statements can be scheduled exactly when this relation has no cycle
(`Schedule.scheduled_iff_acyclic`). The layers then follow the longest paths (`Schedule.Layered`).
-/

namespace CodeRules

namespace Schedule

/-! ### Statements that belong together -/

section

variable (c : RelationContext) (statements : List Realization)

/-- Two plain statements realize a common relation, or one of them reads without a test what the
other realizes. -/
def Neighbours (i j : Nat) : Prop :=
  ∃ r s, statements[i]? = some r ∧ statements[j]? = some s ∧ r.isPlain = true ∧ s.isPlain = true ∧
    ∃ n, (r.realizes n = true ∧ s.realizes n = true) ∨
      (Catalog.contains (r.peers c) n = true ∧ s.realizes n = true) ∨
      (r.realizes n = true ∧ Catalog.contains (s.peers c) n = true)

/-- A chain of neighbours links two statements. -/
def Joined : Nat → Nat → Prop := Relation.ReflTransGen (Neighbours c statements)

/-- The second statement depends on a relation that the first realizes. -/
def Feeds (i j : Nat) : Prop :=
  ∃ r s deps, statements[i]? = some r ∧ statements[j]? = some s ∧ s.dependencies c = .ok deps ∧
    ∃ n, Catalog.contains deps n = true ∧ r.realizes n = true

/-- A statement that is joined to the second depends on what one that is joined to the first
realizes. -/
def Precedes (i j : Nat) : Prop :=
  ∃ i' j', Joined c statements i i' ∧ Joined c statements j j' ∧ Feeds c statements i' j'

/-- A group realizes what a statement of another group depends on. -/
def GroupFeeds (groups : List Group) (a b : Nat) : Prop :=
  ∃ g g', groups[a]? = some g ∧ groups[b]? = some g' ∧
    ∃ i ∈ g.statements, ∃ j ∈ g'.statements, Feeds c statements i j

/-- The groups are the classes of joined statements. -/
structure Groups (groups : List Group) : Prop where
  /-- Every statement lies in one group, once. -/
  partition : (groups.flatMap Group.statements).Perm (List.range statements.length)
  /-- A singleton or local statement is alone in its group. -/
  alone : ∀ g ∈ groups, ∀ i ∈ g.statements, ∀ r, statements[i]? = some r →
    r.isSingleton = true ∨ r.isLocal = true → g.statements = [i]
  /-- Plain statements share a group when they are joined, and only then. -/
  joined : ∀ i j r s, statements[i]? = some r → statements[j]? = some s → r.isPlain = true →
    s.isPlain = true →
      ((∃ g ∈ groups, i ∈ g.statements ∧ j ∈ g.statements) ↔ Joined c statements i j)

/-- The layers put every group as deep as the longest path of groups into it. -/
structure Layered (groups : List Group) (layers : List (List Nat)) : Prop where
  perm : layers.flatten.Perm (List.range groups.length)
  depth : ∀ (d : Nat) (layer : List Nat) (a : Nat), layers[d]? = some layer → a ∈ layer →
    IsGreatest {n | ∃ b, Steps (GroupFeeds c statements groups) n b a} d
  /-- A group comes strictly after every group that it depends on. -/
  after : ∀ a b, GroupFeeds c statements groups a b → ∀ (d e : Nat) (layer layer' : List Nat),
    layers[d]? = some layer → layers[e]? = some layer' → a ∈ layer → b ∈ layer' → d < e

end

variable {c : RelationContext} {statements : List Realization} {steps : List Planned}

/-! ### Steps of statements -/

/-- The steps stand for the statements in their order. -/
private structure Plans (c : RelationContext) (statements : List Realization)
    (steps : List Planned) : Prop where
  numbered : Planned.Numbered steps
  statements : steps.map Planned.statement = statements
  describes : ∀ s ∈ steps, s.Describes c

namespace Plans

/-- There is a step for each statement. -/
private theorem length_eq (h : Plans c statements steps) : steps.length = statements.length := by
  rw [← h.statements, List.length_map]

/-- The statement of a step is the one with its number. -/
private theorem statement_at (h : Plans c statements steps) {s : Planned} (hs : s ∈ steps) :
    statements[s.index]? = some s.statement := by
  obtain ⟨i, hi⟩ := List.mem_iff_getElem?.1 hs
  have hindex : (steps.map Planned.index)[i]? = some s.index := by rw [List.getElem?_map, hi]; rfl
  rw [h.numbered, List.getElem?_range (List.getElem?_eq_some_iff.1 hi).1] at hindex
  rw [← Option.some.inj hindex, ← h.statements, List.getElem?_map, hi]
  rfl

/-- Each statement has a step. -/
private theorem exists_step (h : Plans c statements steps) {i : Nat} {r : Realization}
    (hr : statements[i]? = some r) : ∃ s ∈ steps, s.index = i ∧ s.statement = r := by
  have hlt : i < steps.length := by
    rw [h.length_eq]
    exact (List.getElem?_eq_some_iff.1 hr).1
  have hmem : i ∈ steps.map Planned.index := by
    rw [h.numbered]
    exact List.mem_range.2 hlt
  obtain ⟨s, hs, rfl⟩ := List.mem_map.1 hmem
  exact ⟨s, hs, rfl, Option.some.inj ((h.statement_at hs).symm.trans hr)⟩

/-- Links join neighbours. -/
private theorem edge_links_iff (h : Plans c statements steps) {i j : Nat} :
    (Planned.links steps).Edge i j ↔ Neighbours c statements i j := by
  -- A plain step has the peers that its statement has.
  have htouches {s t : Planned} (hs : s ∈ steps) :
      s.touches t = true ↔ s.statement.isPlain = true ∧ t.statement.isPlain = true ∧
        ∃ n, (s.statement.realizes n = true ∨ Catalog.contains (s.statement.peers c) n = true) ∧
          t.statement.realizes n = true := by
    simp only [Planned.touches, Bool.and_eq_true, List.any_eq_true, Bool.or_eq_true, and_assoc]
    refine and_congr_right fun hplain => and_congr_right fun _ => exists_congr fun n => ?_
    rw [(h.describes s hs).peers, if_pos hplain, Realization.realizes, Realization.realizes,
      List.contains_iff_mem, List.contains_iff_mem, and_comm]
  rw [Planned.edge_links]
  constructor
  · rintro ⟨s, hs, t, ht, hlinked, rfl, rfl⟩
    obtain ⟨hsplain, htplain⟩ := hlinked.isPlain
    refine ⟨_, _, h.statement_at hs, h.statement_at ht, hsplain, htplain, ?_⟩
    rcases hlinked with htouch | htouch
    · obtain ⟨_, _, n, hn, hreal⟩ := (htouches hs).1 htouch
      exact ⟨n, hn.elim (fun hn => .inl ⟨hn, hreal⟩) fun hn => .inr (.inl ⟨hn, hreal⟩)⟩
    · obtain ⟨_, _, n, hn, hreal⟩ := (htouches ht).1 htouch
      exact ⟨n, hn.elim (fun hn => .inl ⟨hreal, hn⟩) fun hn => .inr (.inr ⟨hreal, hn⟩)⟩
  · rintro ⟨r, r', hr, hr', hplain, hplain', n, hn⟩
    obtain ⟨s, hs, rfl, rfl⟩ := h.exists_step hr
    obtain ⟨t, ht, rfl, rfl⟩ := h.exists_step hr'
    refine ⟨s, hs, t, ht, ?_, rfl, rfl⟩
    rcases hn with ⟨hn, hreal⟩ | ⟨hn, hreal⟩ | ⟨hreal, hn⟩
    · exact .inl ((htouches hs).2 ⟨hplain, hplain', n, .inl hn, hreal⟩)
    · exact .inl ((htouches hs).2 ⟨hplain, hplain', n, .inr hn, hreal⟩)
    · exact .inr ((htouches ht).2 ⟨hplain', hplain, n, .inr hn, hreal⟩)

/-- Paths of links are chains of neighbours. -/
private theorem path_links_iff (h : Plans c statements steps) {i j : Nat} :
    (Planned.links steps).Path i j ↔ Joined c statements i j := by
  have hedge : (Planned.links steps).Edge = Neighbours c statements := by
    funext i j
    exact propext h.edge_links_iff
  rw [Digraph.Path, hedge, Joined]

/-- One statement feeds another when its step realizes what the other step depends on. -/
private theorem feeds_iff (h : Plans c statements steps) {i j : Nat} :
    Feeds c statements i j ↔ ∃ t ∈ steps, ∃ s ∈ steps, t.index = i ∧ s.index = j ∧
      ∃ n ∈ s.dependencies.toList, t.statement.realizes n = true := by
  constructor
  · rintro ⟨r, r', deps, hr, hr', hdeps, n, hn, hreal⟩
    obtain ⟨t, ht, rfl, rfl⟩ := h.exists_step hr
    obtain ⟨s, hs, rfl, rfl⟩ := h.exists_step hr'
    obtain rfl := Except.ok.inj (hdeps.symm.trans (h.describes s hs).dependencies)
    exact ⟨t, ht, s, hs, rfl, rfl, n, NameSet.contains_iff.1 hn, hreal⟩
  · rintro ⟨t, ht, s, hs, rfl, rfl, n, hn, hreal⟩
    exact ⟨_, _, _, h.statement_at ht, h.statement_at hs, (h.describes s hs).dependencies, n,
      NameSet.contains_iff.2 hn, hreal⟩

/-! ### Parts and groups -/

/-- The groups of the parts of the steps. -/
private abbrev groups (steps : List Planned) : List Group := (partition steps).map Planned.group

/-- Edges lead from groups to those that they feed. -/
private theorem mem_edges_iff (h : Plans c statements steps) {a b : Nat} :
    (a, b) ∈ edges (partition steps) steps ↔ GroupFeeds c statements (groups steps) a b := by
  rw [Schedule.mem_edges_iff h.numbered]
  constructor
  · rintro ⟨g, g', hg, hg', s, hs, t, ht, n, hn, hreal⟩
    refine ⟨Planned.group g, Planned.group g', ?_, ?_, t.index, List.mem_map_of_mem ht, s.index,
      List.mem_map_of_mem hs, h.feeds_iff.2 ⟨t, ?_, s, ?_, rfl, rfl, n, hn, hreal⟩⟩
    · rw [List.getElem?_map, hg]; rfl
    · rw [List.getElem?_map, hg']; rfl
    · exact mem_steps_of_mem_partition (List.mem_of_getElem? hg) ht
    · exact mem_steps_of_mem_partition (List.mem_of_getElem? hg') hs
  · rintro ⟨_, _, hgroup, hgroup', i, hi, j, hj, hfeeds⟩
    obtain ⟨g, hg, rfl⟩ := Option.map_eq_some_iff.1 (List.getElem?_map ▸ hgroup)
    obtain ⟨g', hg', rfl⟩ := Option.map_eq_some_iff.1 (List.getElem?_map ▸ hgroup')
    obtain ⟨t', ht', rfl⟩ := List.mem_map.1 hi
    obtain ⟨s', hs', rfl⟩ := List.mem_map.1 hj
    obtain ⟨t, ht, s, hs, htindex, hsindex, n, hn, hreal⟩ := h.feeds_iff.1 hfeeds
    have hmem := mem_steps_of_mem_partition (List.mem_of_getElem? hg) ht'
    have hmem' := mem_steps_of_mem_partition (List.mem_of_getElem? hg') hs'
    -- The numbers are those of the steps in the groups, so the steps are the same.
    obtain rfl := h.numbered.eq_of_index ht hmem htindex
    obtain rfl := h.numbered.eq_of_index hs hmem' hsindex
    exact ⟨g, g', hg, hg', s, hs', t, ht', n, hn, hreal⟩

/-- Steps share a part when they are joined. -/
private theorem joined_iff (h : Plans c statements steps) {s t : Planned} (hs : s ∈ steps)
    (ht : t ∈ steps) :
    (∃ g ∈ partition steps, s ∈ g ∧ t ∈ g) ↔ Joined c statements s.index t.index := by
  rw [← h.path_links_iff]
  constructor
  · rintro ⟨g, hg, hsg, htg⟩
    rw [← classOf_of_mem_partition h.numbered hg hsg] at htg
    exact ((mem_classOf h.numbered hs).1 htg).2
  · intro hpath
    exact ⟨_, classOf_mem_partition h.numbered hs, self_mem_classOf h.numbered hs,
      (mem_classOf h.numbered hs).2 ⟨ht, hpath⟩⟩

/-- Joined statements belong to one list of steps. -/
private theorem exists_step_of_joined (h : Plans c statements steps) {i j : Nat} {s : Planned}
    (hs : s ∈ steps) (hindex : s.index = j) (hjoined : Joined c statements i j) :
    ∃ t ∈ steps, t.index = i := by
  rcases Relation.ReflTransGen.cases_head hjoined with rfl | ⟨k, hik, _⟩
  · exact ⟨s, hs, hindex⟩
  · obtain ⟨r, _, hr, _⟩ := hik
    obtain ⟨t, ht, hti, _⟩ := h.exists_step hr
    exact ⟨t, ht, hti⟩

/-- The first statement of a group, which stands for the group. -/
private def firstOf (groups : List Group) (a : Nat) : Nat :=
  ((groups[a]?).bind fun g => g.statements.head?).getD 0

/-- The first statement of a group is joined to all of them. -/
private theorem joined_firstOf (h : Plans c statements steps) {a : Nat} {g : Group}
    (hg : (groups steps)[a]? = some g) {i : Nat} (hi : i ∈ g.statements) :
    Joined c statements (firstOf (groups steps) a) i := by
  obtain ⟨p, hp, rfl⟩ := Option.map_eq_some_iff.1 (List.getElem?_map ▸ hg)
  obtain ⟨s, hs, rfl⟩ := List.mem_map.1 hi
  have hmem := List.mem_of_getElem? hp
  obtain ⟨f, rest, rfl⟩ := List.exists_cons_of_ne_nil (List.ne_nil_of_mem hs)
  have hf : firstOf (groups steps) a = f.index := by
    rw [firstOf, hg]
    rfl
  rw [hf, ← h.joined_iff (mem_steps_of_mem_partition hmem (List.mem_cons_self ..))
    (mem_steps_of_mem_partition hmem hs)]
  exact ⟨_, hmem, List.mem_cons_self .., hs⟩

/-- A group that feeds another stands for a class that precedes the other one. -/
private theorem precedes_of_groupFeeds (h : Plans c statements steps) {a b : Nat}
    (hab : GroupFeeds c statements (groups steps) a b) :
    Precedes c statements (firstOf (groups steps) a) (firstOf (groups steps) b) := by
  obtain ⟨g, g', hg, hg', i, hi, j, hj, hfeeds⟩ := hab
  exact ⟨i, j, h.joined_firstOf hg hi, h.joined_firstOf hg' hj, hfeeds⟩

/-- The place of the group that a statement belongs to. -/
private def placeOf (steps : List Planned) (i : Nat) : Nat :=
  (partition steps).findIdx fun g => g.any (·.index == i)

/-- The group of a class that precedes another feeds the group of the other one. -/
private theorem groupFeeds_of_precedes (h : Plans c statements steps) {i j : Nat}
    (hij : Precedes c statements i j) :
    GroupFeeds c statements (groups steps) (placeOf steps i) (placeOf steps j) := by
  obtain ⟨i', j', hi', hj', hfeeds⟩ := hij
  -- statements that feed each other belong to steps of the groups, whose places these are
  obtain ⟨t', ht', s', hs', hti', hsj', n, hn, hreal⟩ := h.feeds_iff.1 hfeeds
  obtain ⟨t, ht, rfl⟩ := h.exists_step_of_joined ht' hti' hi'
  obtain ⟨s, hs, rfl⟩ := h.exists_step_of_joined hs' hsj' hj'
  obtain rfl := hti'
  obtain rfl := hsj'
  obtain ⟨g, hg, htg, htg'⟩ := (h.joined_iff ht ht').2 hi'
  obtain ⟨p, hp, hsp, hsp'⟩ := (h.joined_iff hs hs').2 hj'
  obtain ⟨a, ha⟩ := List.mem_iff_getElem?.1 hg
  obtain ⟨b, hb⟩ := List.mem_iff_getElem?.1 hp
  have hplace : placeOf steps t.index = a := findIdx_partition h.numbered ha htg
  have hplace' : placeOf steps s.index = b := findIdx_partition h.numbered hb hsp
  rw [hplace, hplace']
  refine h.mem_edges_iff.1 ((Schedule.mem_edges_iff h.numbered).2 ?_)
  exact ⟨g, p, ha, hb, s', hsp', t', htg', n, hn, hreal⟩

/-- One class precedes another exactly when its group feeds that of the other. -/
private theorem exists_cycle_iff (h : Plans c statements steps) :
    (∃ a, Relation.TransGen (GroupFeeds c statements (groups steps)) a a) ↔
      ∃ i, Relation.TransGen (Precedes c statements) i i := by
  constructor
  · rintro ⟨a, ha⟩
    exact ⟨_, Relation.TransGen.lift (firstOf (groups steps)) (fun _ _ => h.precedes_of_groupFeeds) a a ha⟩
  · rintro ⟨i, hi⟩
    exact ⟨_, Relation.TransGen.lift (placeOf steps) (fun _ _ => h.groupFeeds_of_precedes) i i hi⟩

end Plans

/-! ### Scheduling -/

/-- Statements that can tell what they depend on have steps. -/
private theorem exists_plans (h : ∀ r ∈ statements, ∃ deps, r.dependencies c = .ok deps) :
    ∃ steps, Planned.ofStatements c statements = .ok steps ∧ Plans c statements steps := by
  have hsteps : ∃ steps, Planned.ofStatements c statements = .ok steps := by
    refine (List.exists_forall₂ fun p hp => ?_).imp fun _ hall => Except.mapM_eq_ok.2 hall
    obtain ⟨deps, hdeps⟩ := h p.1 (List.fst_mem_of_mem_zipIdx hp)
    exact ⟨⟨p.2, p.1, deps, if p.1.isPlain then p.1.peers c else ∅⟩, by simp [hdeps]⟩
  obtain ⟨steps, hsteps⟩ := hsteps
  obtain ⟨hnumbered, hstatements, hdescribes⟩ := Planned.ofStatements_eq_ok hsteps
  exact ⟨steps, hsteps, hnumbered, hstatements, hdescribes⟩

/-- The groups of some steps, with an edge from each group to those that wait for it. -/
private def orderOf (steps : List Planned) : Digraph :=
  (edges (partition steps) steps).foldl (fun g e => g.addEdge e.1 e.2) ⟨(partition steps).length, []⟩

/-- The edges of the order say which groups feed which. -/
private theorem edge_orderOf (h : Plans c statements steps) {a b : Nat} :
    (orderOf steps).Edge a b ↔ GroupFeeds c statements (Plans.groups steps) a b := by
  rw [orderOf, Digraph.edge_foldl_addEdge, ← h.mem_edges_iff]
  simp [Digraph.Edge]

/-- The edges of the order join groups. -/
private theorem bounded_orderOf (h : Plans c statements steps) : (orderOf steps).Bounded := by
  intro a b hab
  obtain ⟨g, g', hg, hg', _⟩ := (edge_orderOf h).1 hab
  rw [orderOf, Digraph.size_foldl_addEdge]
  have ha := (List.getElem?_eq_some_iff.1 hg).1
  have hb := (List.getElem?_eq_some_iff.1 hg').1
  rw [List.length_map] at ha hb
  exact ⟨ha, hb⟩

/-- Steps make a schedule unless groups wait for each other. -/
private theorem ofStatements_cases (hsteps : Planned.ofStatements c statements = .ok steps)
    (h : Plans c statements steps) :
    (∃ relations place, ofStatements c statements = .error (.cycle relations place) ∧
        ∃ a, Relation.TransGen (GroupFeeds c statements (Plans.groups steps)) a a) ∨
      ofStatements c statements = .ok ⟨Plans.groups steps, orderOf steps⟩ ∧
        (orderOf steps).Acyclic := by
  have hcycle (a : Nat) (ha : Relation.TransGen (orderOf steps).Edge a a) :
      Relation.TransGen (GroupFeeds c statements (Plans.groups steps)) a a :=
    Relation.TransGen.mono (fun a b hab => (edge_orderOf h).1 hab) a a ha
  -- A group that waits for itself is looked for first, and then a knot of several groups.
  cases hloop : (edges (partition steps) steps).find? fun e => e.1 == e.2 with
  | some e =>
    have hfailed : ofStatements c statements = .error (cycle (partition steps) [e.1]) := by
      simp only [ofStatements, hsteps, Except.mapError, bind, Except.bind, hloop]
      rfl
    have hedge : (e.1, e.1) ∈ edges (partition steps) steps := by
      have hmem := List.mem_of_find?_eq_some hloop
      have hsame : e.1 = e.2 := by simpa using List.find?_some hloop
      rwa [show (e.1, e.1) = e from Prod.ext rfl hsame]
    exact .inl ⟨_, _, hfailed, e.1, .single (h.mem_edges_iff.1 hedge)⟩
  | none =>
    cases hknot : (orderOf steps).knot? with
    | some knot =>
      have hfailed : ofStatements c statements = .error (cycle (partition steps) knot) := by
        -- the rest of the schedule is made from the same graph
        simp only [ofStatements, hsteps, Except.mapError, bind, Except.bind, hloop]
        rw [← orderOf, hknot]
        rfl
      obtain ⟨a, ha⟩ := Digraph.exists_cycle_of_knot? (bounded_orderOf h) hknot
      exact .inl ⟨_, _, hfailed, a, hcycle a ha⟩
    | none =>
      have hmade : ofStatements c statements = .ok ⟨Plans.groups steps, orderOf steps⟩ := by
        simp only [ofStatements, hsteps, Except.mapError, bind, Except.bind, hloop]
        rw [← orderOf, hknot]
        rfl
      refine .inr ⟨hmade, Digraph.acyclic_of_knot?_eq_none (bounded_orderOf h) hknot fun a ha => ?_⟩
      have hnone := List.find?_eq_none.1 hloop (a, a)
        (h.mem_edges_iff.2 ((edge_orderOf h).1 ha))
      simp at hnone

/-- The parts of the steps are the classes of joined statements. -/
private theorem groups_of_plans (h : Plans c statements steps) :
    Groups c statements (Plans.groups steps) where
  partition := by
    -- The parts hold each step once, and the steps are numbered by the statements.
    have hflat : (Plans.groups steps).flatMap Group.statements =
        (partition steps).flatten.map Planned.index := by
      rw [List.flatMap_map, List.map_flatten, List.flatMap_def]
      rfl
    rw [hflat, ← h.length_eq, ← h.numbered]
    exact (flatten_partition_perm h.numbered).map _
  alone g hg i hi r hr hspecial := by
    obtain ⟨p, hp, rfl⟩ := List.mem_map.1 hg
    obtain ⟨s, hs, rfl⟩ := List.mem_map.1 hi
    have hmem := mem_steps_of_mem_partition hp hs
    obtain rfl := Option.some.inj (hr.symm.trans (h.statement_at hmem))
    -- A part with a step that is not plain has no other step.
    have hplain : s.statement.isPlain ≠ true := by
      rw [Realization.isPlain]
      rcases hspecial with hspecial | hspecial <;> simp [hspecial]
    rcases isPlain_or_eq_singleton h.numbered hp with hall | ⟨t, rfl, _⟩
    · exact absurd (hall s hs) hplain
    · obtain rfl := List.mem_singleton.1 hs
      rfl
  joined i j r r' hr hr' _ _ := by
    obtain ⟨s, hs, rfl, rfl⟩ := h.exists_step hr
    obtain ⟨t, ht, rfl, rfl⟩ := h.exists_step hr'
    rw [← h.joined_iff hs ht]
    constructor
    · rintro ⟨g, hg, hsg, htg⟩
      obtain ⟨p, hp, rfl⟩ := List.mem_map.1 hg
      obtain ⟨s', hs', hsindex⟩ := List.mem_map.1 hsg
      obtain ⟨t', ht', htindex⟩ := List.mem_map.1 htg
      obtain rfl := h.numbered.eq_of_index (mem_steps_of_mem_partition hp hs') hs hsindex
      obtain rfl := h.numbered.eq_of_index (mem_steps_of_mem_partition hp ht') ht htindex
      exact ⟨p, hp, hs', ht'⟩
    · rintro ⟨p, hp, hsp, htp⟩
      exact ⟨_, List.mem_map_of_mem hp, List.mem_map_of_mem hsp, List.mem_map_of_mem htp⟩

/-- The layers of the groups follow the longest paths. -/
private theorem exists_layered (h : Plans c statements steps) (hacyclic : (orderOf steps).Acyclic) :
    ∃ layers, (orderOf steps).layers = .ok layers ∧
      Layered c statements (Plans.groups steps) layers := by
  obtain ⟨layers, hlayers⟩ := Digraph.exists_layersOf_eq_ok hacyclic (List.range (orderOf steps).size)
  have hedge : (orderOf steps).Edge = GroupFeeds c statements (Plans.groups steps) := by
    funext a b
    exact propext (edge_orderOf h)
  have hsize : (orderOf steps).size = (Plans.groups steps).length := by
    rw [orderOf, Digraph.size_foldl_addEdge, List.length_map]
  have hdepth (d : Nat) (layer : List Nat) (a : Nat) (hlayer : layers[d]? = some layer)
      (ha : a ∈ layer) :
      IsGreatest {n | ∃ b, Steps (GroupFeeds c statements (Plans.groups steps)) n b a} d := by
    rw [← hedge]
    exact Digraph.isGreatest_layers (bounded_orderOf h) hlayers hlayer ha
  refine ⟨layers, hlayers, hsize ▸ Digraph.layers_perm hlayers, hdepth, ?_⟩
  intro a b hab d e layer layer' hlayer hlayer' ha hb
  -- The longest path to the first group goes on to the second one.
  obtain ⟨⟨u, hwalk⟩, _⟩ := hdepth d layer a hlayer ha
  exact (hdepth e layer' b hlayer' hb).2 ⟨u, hwalk.tail hab⟩

/-- Statements that can tell what they depend on are scheduled exactly when no class of joined
statements precedes itself. Then the groups are these classes, and the layers put each of them as deep
as the longest path into it. -/
theorem scheduled_iff_acyclic (h : ∀ r ∈ statements, ∃ deps, r.dependencies c = .ok deps) :
    ((∃ e, ofStatements c statements = .error e ∧ e.diagnostic.fault = .dependencyCycle) ↔
        ∃ i, Relation.TransGen (Precedes c statements) i i) ∧
      ((¬ ∃ i, Relation.TransGen (Precedes c statements) i i) →
        ∃ schedule layers, ofStatements c statements = .ok schedule ∧
          schedule.layers = .ok layers ∧ Groups c statements schedule.groups ∧
          Layered c statements schedule.groups layers) := by
  -- every statement has dependencies, so all of them become steps
  obtain ⟨steps, hsteps, hplans⟩ := exists_plans h
  rw [← hplans.exists_cycle_iff]
  rcases ofStatements_cases hsteps hplans with ⟨relations, place, hfailed, hcycle⟩ | ⟨hmade, hacyclic⟩
  · exact ⟨⟨fun _ => hcycle, fun _ => ⟨_, hfailed, rfl⟩⟩, fun hno => absurd hcycle hno⟩
  · obtain ⟨layers, hlayers, hlayered⟩ := exists_layered hplans hacyclic
    -- without a knot no group waits for itself
    have hno : ¬ ∃ a, Relation.TransGen (GroupFeeds c statements (Plans.groups steps)) a a := by
      rintro ⟨a, ha⟩
      exact hacyclic a (Relation.TransGen.mono (fun a b hab => (edge_orderOf hplans).2 hab) a a ha)
    refine ⟨⟨?_, fun hcycle => absurd hcycle hno⟩, fun _ => ?_⟩
    · rintro ⟨e, he, _⟩
      rw [hmade] at he
      cases he
    · refine ⟨_, layers, hmade, ?_, groups_of_plans hplans, hlayered⟩
      rw [Schedule.layers, hlayers]
      rfl

/-- A statement for one trait without parameters. -/
private def rule (name : String) (body : Expr) : Realization :=
  ⟨"Owner", .option, .realize, [⟨name, [], {}⟩], body, [], none, .synthetic⟩

/-- The first statement asks for the absence of what the second realizes, which reads the third. -/
def negatedChain : List Realization :=
  let asks (name : String) : Expr := .trait .synthetic name []
  [rule "P" (.not (asks "Q")), rule "Q" (asks "R"), rule "R" .true]

/-- The traits of `negatedChain`, none of which is complete. -/
def negatedChainContext : RelationContext where
  signatures := Catalog.ofListFirst (["P", "Q", "R"].map fun name => (name, ⟨name, [], {}⟩))

theorem scheduled_iff_acyclic_negatedChain :
    (∀ r ∈ negatedChain, ∃ deps, r.dependencies negatedChainContext = .ok deps) ∧
      (¬ ∃ i, Relation.TransGen (Precedes negatedChainContext negatedChain) i i) ∧
      ∃ schedule layers, ofStatements negatedChainContext negatedChain = .ok schedule ∧
        schedule.layers = .ok layers ∧ Groups negatedChainContext negatedChain schedule.groups ∧
        Layered negatedChainContext negatedChain schedule.groups layers := by
  have hdeps : ∀ r ∈ negatedChain, ∃ deps, r.dependencies negatedChainContext = .ok deps := by
    intro r hr
    simp only [negatedChain, List.mem_cons, List.not_mem_nil, or_false] at hr
    rcases hr with rfl | rfl | rfl <;> exact ⟨_, rfl⟩
  have hmade : (ofStatements negatedChainContext negatedChain).isOk = true := by decide +kernel
  have hno : ¬ ∃ i, Relation.TransGen (Precedes negatedChainContext negatedChain) i i := by
    intro hcycle
    obtain ⟨e, he, _⟩ := (scheduled_iff_acyclic hdeps).1.2 hcycle
    rw [he] at hmade
    cases hmade
  exact ⟨hdeps, hno, (scheduled_iff_acyclic hdeps).2 hno⟩

end Schedule

end CodeRules
