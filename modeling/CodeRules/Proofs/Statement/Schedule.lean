import CodeRules.Proofs.Effect
import CodeRules.Proofs.List
import CodeRules.Proofs.Order.Catalog
import CodeRules.Proofs.Order.Digraph
import CodeRules.Statement.Schedule

/-!
# What a schedule promises

`Schedule.Arranges` says how a schedule comes about: the steps are parted into classes, two steps
share a class exactly when links lead from one to the other, and no class waits for itself. Every
schedule is arranged in this way (`Schedule.exists_arranges`), and its groups can be put into layers
that respect what the steps wait for (`Schedule.Arranges.exists_layers`).
-/

namespace CodeRules

namespace Planned

/-! ### Steps -/

/-- Steps are numbered by their places. -/
def Numbered (steps : List Planned) : Prop := steps.map index = List.range steps.length

/-- No number comes twice. -/
theorem Numbered.nodup {steps : List Planned} (h : Numbered steps) : (steps.map index).Nodup := by
  rw [h]
  exact List.nodup_range

/-- The numbers are below the number of steps. -/
theorem Numbered.index_lt {steps : List Planned} (h : Numbered steps) {s : Planned}
    (hs : s ∈ steps) : s.index < steps.length := by
  have : s.index ∈ steps.map index := List.mem_map_of_mem hs
  rw [h] at this
  exact List.mem_range.1 this

/-- Steps with one number are one step. -/
theorem Numbered.eq_of_index {steps : List Planned} (h : Numbered steps) {s t : Planned}
    (hs : s ∈ steps) (ht : t ∈ steps) (e : s.index = t.index) : s = t :=
  List.inj_on_of_nodup_map h.nodup hs ht e

/-- The step stands for a statement, and waits and has peers as the statement says. -/
structure Describes (c : RelationContext) (s : Planned) : Prop where
  dependencies : s.statement.dependencies c = .ok s.dependencies
  peers : s.peers = if s.statement.isPlain then s.statement.peers c else ∅

/-- The steps of some statements. -/
theorem ofStatements_eq_ok {c : RelationContext} {statements : List Realization}
    {steps : List Planned} (h : ofStatements c statements = .ok steps) :
    Numbered steps ∧ steps.map statement = statements ∧ ∀ s ∈ steps, s.Describes c := by
  -- Each statement with its number gives a step, or there are no steps at all.
  have hall := Except.mapM_eq_ok.1 h
  have hstep : List.Forall₂ (fun (p : Realization × Nat) s =>
      s.index = p.2 ∧ s.statement = p.1 ∧ s.Describes c) statements.zipIdx steps := by
    refine hall.imp fun p s hs => ?_
    simp only [Except.bind_eq_ok, Except.pure_eq_ok] at hs
    obtain ⟨deps, hdeps, rfl⟩ := hs
    exact ⟨rfl, rfl, hdeps, rfl⟩
  have hlen := hstep.length_eq
  rw [List.length_zipIdx] at hlen
  have hidx : statements.zipIdx.map Prod.snd = steps.map index :=
    hstep.map_eq fun _ _ h => h.1.symm
  have hst : statements.zipIdx.map Prod.fst = steps.map statement :=
    hstep.map_eq fun _ _ h => h.2.1.symm
  refine ⟨?_, by rw [← hst, List.zipIdx_map_fst], fun s hs => ?_⟩
  · rw [Numbered, ← hidx, List.zipIdx_map_snd, ← hlen, List.range_eq_range']
  · obtain ⟨p, _, hp⟩ := hstep.exists_left hs
    exact hp.2.2

/-! ### Links -/

/-- Two steps are linked when one touches the other. -/
def Linked (s t : Planned) : Prop := s.touches t = true ∨ t.touches s = true

/-- Links go both ways. -/
theorem Linked.symm {s t : Planned} (h : s.Linked t) : t.Linked s := Or.symm h

/-- The edges of the links join linked steps. -/
theorem edge_links {steps : List Planned} {i j : Nat} :
    (links steps).Edge i j ↔ ∃ s ∈ steps, ∃ t ∈ steps, s.Linked t ∧ s.index = i ∧ t.index = j := by
  simp only [links, Digraph.Edge, List.mem_flatMap, List.mem_map, List.mem_filter, Bool.or_eq_true,
    Prod.mk.injEq, Linked]
  constructor
  · rintro ⟨s, hs, t, ⟨ht, h⟩, hi, hj⟩
    exact ⟨s, hs, t, ht, h, hi, hj⟩
  · rintro ⟨s, hs, t, ht, h, hi, hj⟩
    exact ⟨s, hs, t, ⟨ht, h⟩, hi, hj⟩

/-- Links join numbers of steps. -/
theorem links_bounded {steps : List Planned} (h : Numbered steps) : (links steps).Bounded := by
  intro i j he
  obtain ⟨s, hs, t, ht, _, rfl, rfl⟩ := edge_links.1 he
  exact ⟨h.index_lt hs, h.index_lt ht⟩

/-- Links go both ways, and so do paths of links. -/
theorem path_links_symm {steps : List Planned} {i j : Nat} (h : (links steps).Path i j) :
    (links steps).Path j i := by
  induction h with
  | refl => exact .refl
  | tail _ he ih =>
    obtain ⟨s, hs, t, ht, hst, rfl, rfl⟩ := edge_links.1 he
    exact .head (edge_links.2 ⟨t, ht, s, hs, hst.symm, rfl, rfl⟩) ih

/-- Only plain steps are linked. -/
theorem Linked.isPlain {s t : Planned} (h : s.Linked t) :
    s.statement.isPlain = true ∧ t.statement.isPlain = true := by
  simp only [Linked, touches, Bool.and_eq_true] at h
  rcases h with ⟨⟨hs, ht⟩, _⟩ | ⟨⟨ht, hs⟩, _⟩ <;> exact ⟨hs, ht⟩

/-- A path of links joins plain steps, or a step with itself. -/
theorem isPlain_of_path {steps : List Planned} (h : Numbered steps) {s t : Planned}
    (hs : s ∈ steps) (ht : t ∈ steps) (hp : (links steps).Path s.index t.index) :
    s = t ∨ s.statement.isPlain = true ∧ t.statement.isPlain = true := by
  -- The ends of a link are plain; a path of several links starts and ends with one.
  have hends (i j : Nat) (he : (links steps).Edge i j) : ∀ r ∈ steps,
      (r.index = i ∨ r.index = j) → r.statement.isPlain = true := by
    obtain ⟨u, hu, v, hv, huv, rfl, rfl⟩ := edge_links.1 he
    rintro r hr (e | e)
    · exact h.eq_of_index hr hu e ▸ huv.isPlain.1
    · exact h.eq_of_index hr hv e ▸ huv.isPlain.2
  rcases Relation.ReflTransGen.cases_head hp with e | ⟨i, he, _⟩
  · exact .inl (h.eq_of_index hs ht e)
  · rcases Relation.ReflTransGen.cases_tail hp with e | ⟨j, _, he'⟩
    · exact .inl (h.eq_of_index hs ht e.symm)
    · exact .inr ⟨hends _ _ he s hs (.inl rfl), hends _ _ he' t ht (.inr rfl)⟩

end Planned

/-! ### Classes of linked steps -/

namespace Schedule

variable {steps : List Planned}

/-- The steps that links lead to from a step. -/
def classOf (steps : List Planned) (s : Planned) : List Planned :=
  steps.filter fun t => (Planned.links steps).reaches s.index t.index

/-- The class of a step has the steps that a path of links leads to. -/
theorem mem_classOf (h : Planned.Numbered steps) {s t : Planned} (hs : s ∈ steps) :
    t ∈ classOf steps s ↔ t ∈ steps ∧ (Planned.links steps).Path s.index t.index := by
  rw [classOf, List.mem_filter,
    Digraph.reaches_iff (Planned.links_bounded h) (h.index_lt hs)]

/-- A step belongs to its class. -/
theorem self_mem_classOf (h : Planned.Numbered steps) {s : Planned} (hs : s ∈ steps) :
    s ∈ classOf steps s := (mem_classOf h hs).2 ⟨hs, .refl⟩

/-- Steps of one class have one class. -/
theorem classOf_congr (h : Planned.Numbered steps) {s t : Planned} (hs : s ∈ steps)
    (ht : t ∈ classOf steps s) : classOf steps t = classOf steps s := by
  obtain ⟨ht, hp⟩ := (mem_classOf h hs).1 ht
  refine List.filter_congr fun u _ => ?_
  have hb := Planned.links_bounded h
  rw [Bool.eq_iff_iff, Digraph.reaches_iff hb (h.index_lt ht), Digraph.reaches_iff hb (h.index_lt hs)]
  exact ⟨hp.trans, (Planned.path_links_symm hp).trans⟩

/-- The class of a step, when the step is the first of it. -/
private def partOf? (steps : List Planned) (s : Planned) : Option (List Planned) :=
  match classOf steps s with
  | [] => none
  | first :: rest => if first.index = s.index then some (first :: rest) else none

/-- The class counts as the part of its first step only. -/
private theorem partOf?_eq_some_iff {s : Planned} {g : List Planned} :
    partOf? steps s = some g ↔
      classOf steps s = g ∧ ∃ first, g.head? = some first ∧ first.index = s.index := by
  unfold partOf?
  -- the group of a step is kept by its first step only
  cases hc : classOf steps s with
  | nil =>
    constructor
    · intro h
      cases h
    · rintro ⟨rfl, first, hfirst, _⟩
      cases hfirst
  | cons first rest =>
    dsimp only
    split
    · rename_i hidx
      constructor
      · intro h
        obtain rfl := Option.some.inj h
        exact ⟨rfl, first, rfl, hidx⟩
      · rintro ⟨rfl, _⟩
        rfl
    · rename_i hidx
      constructor
      · intro h
        cases h
      · rintro ⟨rfl, f, hf, hfi⟩
        obtain rfl := Option.some.inj hf
        exact absurd hfi hidx

/-- The parts are the classes, each listed for its first step. -/
private theorem partition_eq (steps : List Planned) :
    partition steps = steps.filterMap (partOf? steps) := rfl

/-- A part is the class of its first step. -/
theorem mem_partition {g : List Planned} :
    g ∈ partition steps ↔ ∃ s ∈ steps, classOf steps s = g ∧
      ∃ first, g.head? = some first ∧ first.index = s.index := by
  rw [partition_eq, List.mem_filterMap]
  exact exists_congr fun s => and_congr_right fun _ => partOf?_eq_some_iff

/-- A part is the class of each of its steps. -/
theorem classOf_of_mem_partition (h : Planned.Numbered steps) {g : List Planned}
    (hg : g ∈ partition steps) {t : Planned} (ht : t ∈ g) : classOf steps t = g := by
  obtain ⟨s, hs, rfl, _⟩ := mem_partition.1 hg
  exact classOf_congr h hs ht

/-- The class of a step is a part. -/
theorem classOf_mem_partition (h : Planned.Numbered steps) {s : Planned} (hs : s ∈ steps) :
    classOf steps s ∈ partition steps := by
  have hself := self_mem_classOf h hs
  cases hc : classOf steps s with
  | nil => rw [hc] at hself; cases hself
  | cons first rest =>
    have hfirst : first ∈ classOf steps s := by rw [hc]; exact List.mem_cons_self ..
    have hmem := ((mem_classOf h hs).1 hfirst).1
    exact mem_partition.2 ⟨first, hmem, (classOf_congr h hs hfirst).trans hc, first, rfl, rfl⟩

/-- The steps of a part are steps. -/
theorem mem_steps_of_mem_partition {g : List Planned} (hg : g ∈ partition steps) {t : Planned}
    (ht : t ∈ g) : t ∈ steps := by
  obtain ⟨s, _, rfl, _⟩ := mem_partition.1 hg
  exact (List.mem_filter.1 ht).1

/-- Different parts have no step in common. -/
theorem partition_pairwise (h : Planned.Numbered steps) :
    (partition steps).Pairwise List.Disjoint := by
  -- the parts come from different steps, each of which is the first of its part
  have hne : steps.Pairwise fun s t => s.index ≠ t.index := List.pairwise_map.1 h.nodup
  rw [partition_eq]
  refine List.pairwise_filterMap.2 (hne.imp_of_mem fun {s t} hs ht hst => ?_)
  intro g hg g' hg' x hx hx'
  obtain ⟨rfl, f, hf, hfi⟩ := partOf?_eq_some_iff.1 hg
  obtain ⟨rfl, f', hf', hfi'⟩ := partOf?_eq_some_iff.1 hg'
  -- A common step would give both parts one class, and so one first step.
  have heq : classOf steps s = classOf steps t :=
    (classOf_congr h hs hx).symm.trans (classOf_congr h ht hx')
  rw [heq, hf'] at hf
  obtain rfl := Option.some.inj hf
  exact hst (hfi.symm.trans hfi')

/-- The parts hold every step once. -/
theorem flatten_partition_perm (h : Planned.Numbered steps) :
    (partition steps).flatten.Perm steps := by
  have hsteps : steps.Nodup := h.nodup.of_map _
  refine (List.perm_ext_iff_of_nodup ?_ hsteps).2 fun s => ?_
  · refine List.nodup_flatten.2 ⟨fun g hg => ?_, partition_pairwise h⟩
    obtain ⟨s, _, rfl, _⟩ := mem_partition.1 hg
    exact hsteps.filter _
  · rw [List.mem_flatten]
    constructor
    · rintro ⟨g, hg, hs⟩
      exact mem_steps_of_mem_partition hg hs
    · intro hs
      exact ⟨_, classOf_mem_partition h hs, self_mem_classOf h hs⟩

/-- A part holds plain steps only, or one step that is not plain. -/
theorem isPlain_or_eq_singleton (h : Planned.Numbered steps) {g : List Planned}
    (hg : g ∈ partition steps) :
    (∀ s ∈ g, s.statement.isPlain = true) ∨ ∃ s, g = [s] ∧ s.statement.isPlain = false := by
  obtain ⟨s, hs, rfl, _⟩ := mem_partition.1 hg
  have hcases {t : Planned} (ht : t ∈ classOf steps s) :=
    have hpath := (mem_classOf h hs).1 ht
    Planned.isPlain_of_path h hs hpath.1 hpath.2
  by_cases hplain : s.statement.isPlain = true
  · refine .inl fun t ht => ?_
    rcases hcases ht with rfl | ⟨_, ht⟩
    · exact hplain
    · exact ht
  · refine .inr ⟨s, ?_, by simpa using hplain⟩
    -- The step is linked to no other, so its class has no other step.
    have hnodup : (classOf steps s).Nodup := (h.nodup.of_map _).filter _
    refine List.perm_singleton.1 ((List.perm_ext_iff_of_nodup hnodup (List.nodup_singleton s)).2
      fun t => ?_)
    rw [List.mem_singleton]
    constructor
    · intro ht
      exact (hcases ht).elim Eq.symm fun h => absurd h.1 hplain
    · rintro rfl
      exact self_mem_classOf h hs

/-! ### The order of the parts -/

/-- The place of the part that holds the step with a number. -/
theorem findIdx_partition (h : Planned.Numbered steps) {i : Nat} {g : List Planned}
    (hg : (partition steps)[i]? = some g) {t : Planned} (ht : t ∈ g) :
    (partition steps).findIdx (fun g => g.any (·.index == t.index)) = i := by
  have hlt : i < (partition steps).length := (List.getElem?_eq_some_iff.1 hg).1
  have hgi : (partition steps)[i] = g := (List.getElem?_eq_some_iff.1 hg).2
  refine (List.findIdx_eq hlt).2 ⟨?_, fun j hj => ?_⟩
  · rw [hgi, List.any_eq_true]
    exact ⟨t, ht, by simp⟩
  · rw [List.any_eq_false]
    intro u hu e
    have hmem : u ∈ steps := mem_steps_of_mem_partition (List.getElem_mem _) hu
    have heq : u = t := h.eq_of_index hmem
      (mem_steps_of_mem_partition (List.mem_of_getElem? hg) ht) (by simpa using e)
    exact List.pairwise_iff_getElem.1 (partition_pairwise h) j i _ hlt hj hu (by rw [hgi, heq]; exact ht)

/-- A step of the first part depends on what a step of the second part realizes. -/
def Waits (g g' : List Planned) : Prop :=
  ∃ s ∈ g, ∃ t ∈ g', ∃ n ∈ s.dependencies.toList, t.statement.realizes n = true

/-- Edges lead from parts to the parts that wait for them. -/
theorem mem_edges_iff (h : Planned.Numbered steps) {i j : Nat} :
    (i, j) ∈ edges (partition steps) steps ↔
      ∃ g g', (partition steps)[i]? = some g ∧ (partition steps)[j]? = some g' ∧ Waits g' g := by
  have hpart {s : Planned} (hs : s ∈ steps) : ∃ (k : Nat) (g : List Planned),
      (partition steps)[k]? = some g ∧ s ∈ g := by
    obtain ⟨k, hk⟩ := List.mem_iff_getElem?.1 (classOf_mem_partition h hs)
    exact ⟨k, _, hk, self_mem_classOf h hs⟩
  simp only [edges, List.mem_flatMap, List.mem_map, List.mem_filter, Prod.mk.injEq]
  constructor
  · rintro ⟨s, hs, n, hn, t, ⟨ht, hr⟩, rfl, rfl⟩
    -- Each step belongs to a part, whose place is found.
    obtain ⟨i, g, hg, htg⟩ := hpart ht
    obtain ⟨j, g', hg', hsg⟩ := hpart hs
    refine ⟨g, g', ?_, ?_, s, hsg, t, htg, n, hn, hr⟩
    · rw [findIdx_partition h hg htg]; exact hg
    · rw [findIdx_partition h hg' hsg]; exact hg'
  · rintro ⟨g, g', hg, hg', s, hs, t, ht, n, hn, hr⟩
    exact ⟨s, mem_steps_of_mem_partition (List.mem_of_getElem? hg') hs, n, hn, t,
      ⟨mem_steps_of_mem_partition (List.mem_of_getElem? hg) ht, hr⟩,
      findIdx_partition h hg ht, findIdx_partition h hg' hs⟩

/-- How a schedule comes about from steps: its groups are their parts, and its edges, which form no
cycle, lead from parts to those that wait for them. -/
structure Arranges (c : RelationContext) (statements : List Realization) (steps : List Planned)
    (schedule : Schedule) : Prop where
  numbered : Planned.Numbered steps
  statements : steps.map Planned.statement = statements
  describes : ∀ s ∈ steps, s.Describes c
  groups : schedule.groups = (partition steps).map Planned.group
  size : schedule.order.size = (partition steps).length
  edge : ∀ i j, schedule.order.Edge i j ↔ (i, j) ∈ edges (partition steps) steps
  loop : ∀ i, ¬ schedule.order.Edge i i
  knot : schedule.order.knot? = none

/-- Every schedule is arranged from the steps of its statements. -/
theorem exists_arranges {c : RelationContext} {statements : List Realization} {schedule : Schedule}
    (h : ofStatements c statements = .ok schedule) :
    ∃ steps, Arranges c statements steps schedule := by
  simp only [ofStatements, Except.bind_eq_ok, Except.mapError_eq_ok] at h
  obtain ⟨steps, hsteps, h⟩ := h
  obtain ⟨hnum, hst, hdesc⟩ := Planned.ofStatements_eq_ok hsteps
  -- an edge of the graph is one of the edges that were added
  have hedge (i j : Nat) : Digraph.Edge ((edges (partition steps) steps).foldl
      (fun g e => g.addEdge e.1 e.2) ⟨(partition steps).length, []⟩) i j ↔
      (i, j) ∈ edges (partition steps) steps := by
    rw [Digraph.edge_foldl_addEdge]
    simp [Digraph.Edge]
  split at h
  · simp at h
  · rename_i hloop
    split at h
    · simp at h
    · rename_i hknot
      simp only [Except.pure_eq_ok] at h
      subst h
      have hloop : (edges (partition steps) steps).find? (fun e => e.1 == e.2) = none :=
        Option.eq_none_iff_forall_not_mem.2 fun e he => hloop e.1 e.2 he
      refine ⟨steps, hnum, hst, hdesc, rfl, Digraph.size_foldl_addEdge _, hedge, fun i hi => ?_,
        Option.eq_none_iff_forall_not_mem.2 hknot⟩
      -- the search for a loop found none
      have := List.find?_eq_none.1 hloop (i, i) ((hedge i i).1 hi)
      simp at this

/-- The groups that layers number, each with the number of its layer. -/
def placed (schedule : Schedule) (layers : List (List Nat)) : List (Group × Nat) :=
  layers.zipIdx.flatMap fun p => p.1.filterMap fun i =>
    (schedule.groups[i]?).map fun g => (g, p.2)

/-- The groups that layers number, in the order of the layers. -/
theorem map_fst_placed (schedule : Schedule) (layers : List (List Nat)) :
    (schedule.placed layers).map Prod.fst = layers.flatten.filterMap (schedule.groups[·]?) := by
  -- Layers are numbered from zero, but their tails are not, so any number may come first.
  have hfrom (k : Nat) : ((layers.zipIdx k).flatMap fun p => p.1.filterMap fun i =>
      (schedule.groups[i]?).map fun g => (g, p.2)).map Prod.fst =
        layers.flatten.filterMap (schedule.groups[·]?) := by
    induction layers generalizing k with
    | nil => rfl
    | cons is layers ih =>
      rw [List.zipIdx_cons, List.flatMap_cons, List.map_append, ih, List.flatten_cons,
        List.filterMap_append, List.map_filterMap]
      congr 1
      refine List.filterMap_congr fun i _ => ?_
      rw [Option.map_map]
      exact congrFun Option.map_id _
  exact hfrom 0

namespace Arranges

variable {c : RelationContext} {statements : List Realization} {schedule : Schedule}

/-- The edges of the order join groups. -/
theorem bounded (h : Arranges c statements steps schedule) : schedule.order.Bounded := by
  intro i j he
  obtain ⟨g, g', hg, hg', _⟩ := (mem_edges_iff h.numbered).1 ((h.edge i j).1 he)
  rw [h.size]
  exact ⟨(List.getElem?_eq_some_iff.1 hg).1, (List.getElem?_eq_some_iff.1 hg').1⟩

/-- No part waits for itself. -/
theorem not_waits_self (h : Arranges c statements steps schedule) {g : List Planned}
    (hg : g ∈ partition steps) : ¬ Waits g g := by
  intro hw
  obtain ⟨i, hi⟩ := List.mem_iff_getElem?.1 hg
  exact h.loop i ((h.edge i i).2 ((mem_edges_iff h.numbered).2 ⟨g, g, hi, hi, hw⟩))

/-- The statements of a group are those of its steps. -/
theorem filterMap_group (h : Arranges c statements steps schedule) {g : List Planned}
    (hg : g ∈ partition steps) :
    (Planned.group g).statements.filterMap (statements[·]?) = g.map Planned.statement := by
  show (g.map Planned.index).filterMap (statements[·]?) = _
  rw [List.filterMap_map, ← List.filterMap_eq_map]
  refine List.filterMap_congr fun s hs => ?_
  have hmem := mem_steps_of_mem_partition hg hs
  obtain ⟨i, hi⟩ := List.mem_iff_getElem?.1 hmem
  have hindex : s.index = i := by
    have hrange : (steps.map Planned.index)[i]? = some s.index := by rw [List.getElem?_map, hi]; rfl
    rw [h.numbered, List.getElem?_range (List.getElem?_eq_some_iff.1 hi).1] at hrange
    exact (Option.some.inj hrange).symm
  rw [Function.comp_apply, Function.comp_apply, ← h.statements, List.getElem?_map, hindex, hi]
  rfl

/-- The groups can be put into layers. In the order of the layers every part comes once, and no part
waits for a later one. -/
theorem exists_layers (h : Arranges c statements steps schedule) :
    ∃ (layers : List (List Nat)) (order : List (List Planned)), schedule.layers = .ok layers ∧
      layers.flatten.filterMap (schedule.groups[·]?) = order.map Planned.group ∧
      order.Perm (partition steps) ∧ order.Pairwise fun g g' => ¬ Waits g g' := by
  obtain ⟨layers, hl⟩ := Digraph.exists_layers_eq_ok h.bounded h.knot h.loop
  have hperm := Digraph.layers_perm hl
  have hpair := Digraph.layers_pairwise hl
  refine ⟨layers, layers.flatten.filterMap ((partition steps)[·]?), by simp [Schedule.layers, hl,
    Except.mapError], ?_, ?_, ?_⟩
  · rw [h.groups, List.map_filterMap]
    exact List.filterMap_congr fun i _ => List.getElem?_map
  · refine (hperm.filterMap _).trans (.of_eq ?_)
    rw [h.size, List.filterMap_getElem?_range]
  · refine List.pairwise_filterMap.2 (hpair.imp fun {i j} hij g hg g' hg' hw => ?_)
    exact hij ((h.edge j i).2 ((mem_edges_iff h.numbered).2 ⟨g', g, hg', hg, hw⟩))

/-- The groups in the order of the layers, each with the number of its layer. -/
theorem exists_placed (h : Arranges c statements steps schedule) :
    ∃ (layers : List (List Nat)) (order : List (List Planned × Nat)),
      schedule.layers = .ok layers ∧
      schedule.placed layers = order.map (fun p => (Planned.group p.1, p.2)) ∧
      (order.map Prod.fst).Perm (partition steps) ∧
      (order.map Prod.fst).Pairwise fun g g' => ¬ Waits g g' := by
  obtain ⟨layers, order, hlayers, hgroups, hperm, hpair⟩ := h.exists_layers
  -- The numbers of layers are put beside the order that is known already.
  have hplaced : (schedule.placed layers).map Prod.fst = order.map Planned.group := by
    rw [map_fst_placed, hgroups]
  have hlen : (schedule.placed layers).length = order.length := by
    simpa using congrArg List.length hplaced
  have hfst : (order.zip ((schedule.placed layers).map Prod.snd)).map Prod.fst = order :=
    List.map_fst_zip (by rw [List.length_map, hlen])
  refine ⟨layers, order.zip ((schedule.placed layers).map Prod.snd), hlayers, ?_, hfst.symm ▸ hperm,
    hfst.symm ▸ hpair⟩
  conv_lhs => rw [List.zip_of_prod hplaced rfl, List.zip_map_left]
  rfl

end Arranges

end Schedule

end CodeRules
