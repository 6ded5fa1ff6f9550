import CodeRules.Proofs.Statement.Reads
import Mathlib.Data.List.Pairwise

/-!
# Ranks of relations

An order in which no part waits for a later one gives every relation a rank, the place of the part that
realizes it. What a statement mentions has no higher rank than what it realizes, and a lower one where it
must be complete before (`Schedule.Ranks`).
-/

namespace CodeRules

namespace Realization

variable {c : RelationContext} {r : Realization} {n : String}

/-- A checked statement realizes something. -/
theorem Checked.exists_name (h : r.Checked) : ∃ n, n ∈ r.names := by
  obtain ⟨s, hs⟩ := List.exists_mem_of_ne_nil _ h.nonempty
  exact ⟨_, List.mem_map_of_mem hs⟩

/-- What a statement awaits must be complete before it runs. -/
theorem mem_dependencies_of_awaits {deps : NameSet} (hdeps : r.dependencies c = .ok deps)
    (hmention : n ∈ (r.relations c false).toList) (hawaits : r.awaits c n = true) :
    n ∈ deps.toList := by
  unfold dependencies at hdeps
  split at hdeps
  · cases hdeps
  · obtain rfl := Except.ok.inj hdeps
    exact NameSet.mem_union.2 (.inl (Catalog.mem_filter.2 ⟨hmention, hawaits⟩))

/-- A statement that is not local is plain or realizes singletons. -/
theorem isPlain_or_isSingleton (h : r.isLocal = false) :
    r.isPlain = true ∨ r.isPlain = false ∧ r.isSingleton = true := by
  rw [isPlain, h]
  cases r.isSingleton <;> simp

end Realization

namespace Schedule

open Realization

variable {c : RelationContext} {statements : List Realization} {steps : List Planned}
  {schedule : Schedule} {order : List (List Planned)} {g g' : List Planned} {n : String}

/-- Statements that can be ordered, none of which is local. -/
structure Orderly (c : RelationContext) (statements : List Realization) : Prop where
  checked : ∀ r ∈ statements, r.Checked
  openIn : ∀ r ∈ statements, r.OpenIn c
  notLocal : ∀ r ∈ statements, r.isLocal = false
  /-- No singleton is realized twice. -/
  singletons : ((statements.filter (·.isSingleton)).flatMap Realization.names).Nodup

/-- A relation has one kind, so the statements that realize it are plain, or none of them is. -/
theorem Orderly.isPlain_iff (h : Orderly c statements) {r r' : Realization} (hr : r ∈ statements)
    (hr' : r' ∈ statements) (hn : n ∈ r.names) (hn' : n ∈ r'.names) :
    r.isPlain = true ↔ r'.isPlain = true := by
  -- The statement is symmetric, so one direction is enough.
  suffices hplain : ∀ {r r' : Realization}, r ∈ statements → r' ∈ statements → n ∈ r.names →
      n ∈ r'.names → r.isPlain = true → r'.isPlain = true from
    ⟨hplain hr hr' hn hn', hplain hr' hr hn' hn⟩
  intro r r' hr hr' hn hn' hplain
  refine (isPlain_or_isSingleton (h.notLocal r' hr')).resolve_right fun ⟨_, hsingle⟩ => ?_
  obtain ⟨s, hs, rfl⟩ := mem_names_iff.1 hn
  obtain ⟨s', hs', hname⟩ := mem_names_iff.1 hn'
  have hknown := (h.openIn r' hr').known s' hs'
  rw [hname, (h.openIn r hr).known s hs] at hknown
  obtain rfl := Option.some.inj hknown
  -- The relation would be a singleton according to one statement, and not according to the other.
  obtain ⟨u, hu, hflags⟩ := (h.checked r hr).signatures_of_isPlain hplain
  rw [hu, List.mem_singleton] at hs
  have hflag := List.all_eq_true.1 hsingle s hs'
  rw [hs] at hflag
  simp [TraitFlags.isPlain, hflag] at hflags

/-- Steps that realize one relation belong to one part. -/
theorem Arranges.eq_of_mem_names (h : schedule.Arranges c statements steps)
    (hstatements : Orderly c statements) (hg : g ∈ partition steps) (hg' : g' ∈ partition steps)
    {s t : Planned} (hs : s ∈ g) (ht : t ∈ g') (hn : n ∈ s.statement.names)
    (hn' : n ∈ t.statement.names) : g = g' := by
  have hmem := mem_steps_of_mem_partition hg hs
  have hmem' := mem_steps_of_mem_partition hg' ht
  rw [← classOf_of_mem_partition h.numbered hg hs, ← classOf_of_mem_partition h.numbered hg' ht]
  have hplain := hstatements.isPlain_iff (h.statement_mem hg hs) (h.statement_mem hg' ht) hn hn'
  rcases isPlain_or_isSingleton (hstatements.notLocal _ (h.statement_mem hg hs)) with
    hkind | ⟨hkind, hsingle⟩
  · -- one plain step touches the other
    have htouches : s.touches t = true := by
      rw [Planned.touches, hkind, hplain.1 hkind, Bool.true_and, Bool.true_and, List.any_eq_true]
      exact ⟨n, hn', by rw [realizes_iff.2 hn, Bool.true_or]⟩
    refine (classOf_congr h.numbered hmem ((mem_classOf h.numbered hmem).2 ⟨hmem', .single ?_⟩)).symm
    exact Planned.edge_links.2 ⟨s, hmem, t, hmem', .inl htouches, rfl, rfl⟩
  · -- a singleton is realized once
    have hsingle' : t.statement.isSingleton = true := by
      rcases isPlain_or_isSingleton (hstatements.notLocal _ (h.statement_mem hg' ht)) with
        hkind' | ⟨_, hsingle'⟩
      · rw [hplain.2 hkind'] at hkind
        cases hkind
      · exact hsingle'
    by_contra hne
    have hnodup := hstatements.singletons
    rw [← h.statements, List.filter_map, List.flatMap_map, List.nodup_flatMap] at hnodup
    have : Std.Symm (Function.onFun List.Disjoint fun s : Planned => s.statement.names) :=
      ⟨fun _ _ hd => List.Disjoint.symm hd⟩
    exact hnodup.2.forall (List.mem_filter.2 ⟨hmem, hsingle⟩) (List.mem_filter.2 ⟨hmem', hsingle'⟩)
      (fun e => hne (e ▸ rfl)) hn hn'

/-! ### Ranks -/

/-- Numbers for relations: what a statement mentions has no higher number than what it realizes. -/
structure Ranks (c : RelationContext) (statements : List Realization) (rank : String → Nat) : Prop where
  /-- The relations of one statement have one rank. -/
  same : ∀ r ∈ statements, ∀ m ∈ r.names, ∀ n ∈ r.names, rank n = rank m
  tested : ∀ r ∈ statements, ∀ m ∈ r.names, ∀ r' ∈ statements, ∀ n ∈ r'.names,
    n ∈ (r.relations c true).toList → rank n < rank m
  untested : ∀ r ∈ statements, ∀ m ∈ r.names, ∀ r' ∈ statements, ∀ n ∈ r'.names,
    n ∈ (r.relations c false).toList → rank n ≤ rank m
  /-- Only plain statements may read the relations of others with the same rank. -/
  apart : ∀ r ∈ statements, ∀ m ∈ r.names, ∀ r' ∈ statements, ∀ n ∈ r'.names,
    n ∈ (r.relations c false).toList → n ∉ r.names → ¬(r.isPlain = true ∧ r'.isPlain = true) →
      rank n < rank m

namespace Ranks

variable {rank : String → Nat} {k : Nat} {r : Realization} (h : Ranks c statements rank)
  (hr : r ∈ statements) (hchecked : r.Checked) (hk : ∀ m ∈ r.names, rank m = k)
include h hr hchecked hk

/-- What is tested has a lower rank, whoever realizes it. -/
theorem lt_of_tested (hn : n ∈ (r.relations c true).toList) :
    ∀ q ∈ statements, n ∈ q.names → rank n < k := by
  obtain ⟨m, hm⟩ := hchecked.exists_name
  obtain rfl := hk m hm
  exact fun q hq hnq => h.tested r hr m hm q hq n hnq hn

/-- What is read has no higher rank, whoever realizes it. -/
theorem le_of_untested (hn : n ∈ (r.relations c false).toList) :
    ∀ q ∈ statements, n ∈ q.names → rank n ≤ k := by
  obtain ⟨m, hm⟩ := hchecked.exists_name
  obtain rfl := hk m hm
  exact fun q hq hnq => h.untested r hr m hm q hq n hnq hn

/-- What is read of others has a lower rank, unless both statements are plain. -/
theorem lt_of_apart (hn : n ∈ (r.relations c false).toList) (hown : n ∉ r.names) :
    ∀ q ∈ statements, n ∈ q.names → ¬(r.isPlain = true ∧ q.isPlain = true) → rank n < k := by
  obtain ⟨m, hm⟩ := hchecked.exists_name
  obtain rfl := hk m hm
  exact fun q hq hnq => h.apart r hr m hm q hq n hnq hn hown

end Ranks

/-- The order of the statements does not matter. -/
theorem Ranks.of_perm {all : List Realization} {rank : String → Nat} (h : Ranks c statements rank)
    (hperm : statements.Perm all) : Ranks c all rank where
  same r hr := h.same r (hperm.mem_iff.2 hr)
  tested r hr m hm r' hr' := h.tested r (hperm.mem_iff.2 hr) m hm r' (hperm.mem_iff.2 hr')
  untested r hr m hm r' hr' := h.untested r (hperm.mem_iff.2 hr) m hm r' (hperm.mem_iff.2 hr')
  apart r hr m hm r' hr' := h.apart r (hperm.mem_iff.2 hr) m hm r' (hperm.mem_iff.2 hr')

/-- The place of the part that realizes a relation. -/
def rankIn (order : List (List Planned)) (n : String) : Nat :=
  order.findIdx fun g => g.any fun s => s.statement.realizes n

/-- A part that realizes a relation gives it its rank. -/
theorem rankIn_eq (h : schedule.Arranges c statements steps) (hstatements : Orderly c statements)
    (hperm : order.Perm (partition steps)) {i : Nat} (hi : order[i]? = some g) {s : Planned}
    (hs : s ∈ g) (hn : n ∈ s.statement.names) : rankIn order n = i := by
  obtain ⟨hlt, hget⟩ := List.getElem?_eq_some_iff.1 hi
  have hg := hperm.mem_iff.1 (List.mem_of_getElem? hi)
  refine (List.findIdx_eq hlt).2 ⟨?_, fun j hj => ?_⟩
  · rw [hget, List.any_eq_true]
    exact ⟨s, hs, realizes_iff.2 hn⟩
  · rw [List.any_eq_false]
    intro t ht hreal
    have hg' := hperm.mem_iff.1 (List.getElem_mem (Nat.lt_trans hj hlt))
    have heq := h.eq_of_mem_names hstatements hg' hg ht hs (realizes_iff.1 hreal) hn
    -- the parts have no step in common, so one part does not come twice
    have hpairwise := (hperm.pairwise_iff fun hd => List.Disjoint.symm hd).2 (partition_pairwise h.numbered)
    refine List.pairwise_iff_getElem.1 hpairwise j i _ hlt hj ht ?_
    rw [hget, ← heq]
    exact ht

/-- A part stands behind those that it waits for. -/
theorem lt_of_waits (h : schedule.Arranges c statements steps) (hperm : order.Perm (partition steps))
    (horder : order.Pairwise fun g g' => ¬ Waits g g') {i j : Nat} (hi : order[i]? = some g)
    (hj : order[j]? = some g') (hwaits : Waits g g') : j < i := by
  obtain ⟨hilt, higet⟩ := List.getElem?_eq_some_iff.1 hi
  obtain ⟨hjlt, hjget⟩ := List.getElem?_eq_some_iff.1 hj
  rcases Nat.lt_trichotomy i j with hij | rfl | hji
  · have hnot := List.pairwise_iff_getElem.1 horder i j hilt hjlt hij
    rw [higet, hjget] at hnot
    exact absurd hwaits hnot
  · obtain rfl := Option.some.inj (hi.symm.trans hj)
    exact absurd hwaits (h.not_waits_self (hperm.mem_iff.1 (List.mem_of_getElem? hi)))
  · exact hji

/-- What the statements realize is open. -/
private theorem Orderly.exists_open (h : Orderly c statements) {r : Realization} (hr : r ∈ statements)
    (hn : n ∈ r.names) : ∃ s ∈ r.signatures, c.open? n = some s := by
  obtain ⟨s, hs, rfl⟩ := mem_names_iff.1 hn
  exact ⟨s, hs, (h.openIn r hr).open?_eq (h.checked r hr) hs⟩

section

variable (h : schedule.Arranges c statements steps) (hstatements : Orderly c statements)
  (hperm : order.Perm (partition steps)) {r r' : Realization} {m : String}
include h

/-- The statements of a schedule can tell what they depend on. -/
private theorem exists_dependencies (hr : r ∈ statements) : ∃ deps, r.dependencies c = .ok deps := by
  rw [← h.statements] at hr
  obtain ⟨s, hs, rfl⟩ := List.mem_map.1 hr
  exact ⟨_, (h.describes s hs).dependencies⟩

include hstatements hperm

/-- The part of a statement gives its relations their rank. -/
private theorem exists_place (hr : r ∈ statements) : ∃ (i : Nat) (g : List Planned) (s : Planned),
    order[i]? = some g ∧ s ∈ g ∧ s.statement = r ∧ s.Describes c ∧
      ∀ n ∈ r.names, rankIn order n = i := by
  rw [← h.statements] at hr
  obtain ⟨s, hs, rfl⟩ := List.mem_map.1 hr
  have hmem := self_mem_classOf h.numbered hs
  obtain ⟨i, hi⟩ := List.mem_iff_getElem?.1 (hperm.mem_iff.2 (classOf_mem_partition h.numbered hs))
  exact ⟨i, _, s, hi, hmem, rfl, h.describes s hs, fun n hn =>
    rankIn_eq h hstatements hperm hi hmem hn⟩

/-- The relations of one statement have one place. -/
private theorem rankIn_same (hr : r ∈ statements) (hm : m ∈ r.names) (hn : n ∈ r.names) :
    rankIn order n = rankIn order m := by
  obtain ⟨i, _, _, _, _, rfl, _, hrank⟩ := exists_place h hstatements hperm hr
  rw [hrank n hn, hrank m hm]

/-- One plain statement reads what the other realizes, so they are solved together. -/
private theorem rankIn_peers (hr : r ∈ statements) (hr' : r' ∈ statements) (hm : m ∈ r.names)
    (hn : n ∈ r'.names) (hplain : r.isPlain = true) (hplain' : r'.isPlain = true)
    (hmention : n ∈ (r.relations c false).toList) : rankIn order n = rankIn order m := by
  obtain ⟨i, g, s, hi, hs, rfl, hdescribes, hrank⟩ := exists_place h hstatements hperm hr
  obtain ⟨j, g', t, hj, ht, rfl, _, _⟩ := exists_place h hstatements hperm hr'
  have hg := hperm.mem_iff.1 (List.mem_of_getElem? hi)
  have hmem := mem_steps_of_mem_partition hg hs
  have hmem' := mem_steps_of_mem_partition (hperm.mem_iff.1 (List.mem_of_getElem? hj)) ht
  -- One step has the relation that the other realizes among its peers, so it touches the other one.
  have hpeer : n ∈ s.peers.toList := by
    obtain ⟨u, hu, hopen⟩ := hstatements.exists_open hr' hn
    obtain ⟨u', hu', hflags⟩ := (hstatements.checked _ hr').signatures_of_isPlain hplain'
    rw [hu', List.mem_singleton] at hu
    rw [hdescribes.peers, if_pos hplain, peers]
    refine Catalog.mem_filter.2 ⟨hmention, ?_⟩
    rw [hopen, Option.any_some, hu, hflags]
  have htouches : s.touches t = true := by
    rw [Planned.touches, hplain, hplain', Bool.true_and, Bool.true_and, List.any_eq_true]
    exact ⟨n, hn, by rw [NameSet.contains_iff.2 hpeer, Bool.or_true]⟩
  have hjoined : t ∈ classOf steps s := (mem_classOf h.numbered hmem).2 ⟨hmem', .single
    (Planned.edge_links.2 ⟨s, hmem, t, hmem', .inl htouches, rfl, rfl⟩)⟩
  rw [classOf_of_mem_partition h.numbered hg hs] at hjoined
  rw [hrank m hm, rankIn_eq h hstatements hperm hi hjoined hn]

variable (horder : order.Pairwise fun g g' => ¬ Waits g g')
include horder

/-- A dependency on what another statement realizes has a lower place. -/
private theorem rankIn_lt (hr : r ∈ statements) (hr' : r' ∈ statements) (hm : m ∈ r.names)
    (hn : n ∈ r'.names) {deps : NameSet} (hdeps : r.dependencies c = .ok deps) (hdep : n ∈ deps.toList) :
    rankIn order n < rankIn order m := by
  obtain ⟨i, g, s, hi, hs, rfl, hdescribes, hrank⟩ := exists_place h hstatements hperm hr
  obtain ⟨j, g', t, hj, ht, rfl, _, hrank'⟩ := exists_place h hstatements hperm hr'
  obtain rfl := Except.ok.inj (hdescribes.dependencies.symm.trans hdeps)
  rw [hrank m hm, hrank' n hn]
  exact lt_of_waits h hperm horder hi hj ⟨s, hs, t, ht, n, hdep, realizes_iff.2 hn⟩

/-- Unless both are plain, a statement waits for what another one realizes. -/
private theorem rankIn_lt_of_apart (hr : r ∈ statements) (hr' : r' ∈ statements) (hm : m ∈ r.names)
    (hn : n ∈ r'.names) (hmention : n ∈ (r.relations c false).toList) (hown : n ∉ r.names)
    (hkinds : ¬(r.isPlain = true ∧ r'.isPlain = true)) : rankIn order n < rankIn order m := by
  obtain ⟨deps, hd⟩ := exists_dependencies h hr
  refine rankIn_lt h hstatements hperm horder hr hr' hm hn hd (mem_dependencies_of_awaits hd hmention ?_)
  obtain ⟨s, hs, hs'⟩ := hstatements.exists_open hr' hn
  have hreal : r.realizes n = false := Bool.eq_false_iff.2 fun hreal => hown (realizes_iff.1 hreal)
  rw [awaits, hreal, hs']
  by_cases hplain : r.isPlain = true
  · rcases isPlain_or_isSingleton (hstatements.notLocal r' hr') with hplain' | ⟨_, hsingle⟩
    · exact absurd ⟨hplain, hplain'⟩ hkinds
    · simp [TraitFlags.isPlain, List.all_eq_true.1 hsingle s hs]
  · simp [hplain]

/-- The places in such an order are ranks. -/
theorem ranks_rankIn : Ranks c statements (rankIn order) where
  same r hr m hm n hn := rankIn_same h hstatements hperm hr hm hn
  tested r hr m hm r' hr' n hn hmention := by
    obtain ⟨deps, hd⟩ := exists_dependencies h hr
    obtain ⟨s, _, hs⟩ := hstatements.exists_open hr' hn
    refine rankIn_lt h hstatements hperm horder hr hr' hm hn hd ?_
    exact mem_dependencies_of_tested hd hmention (by rw [hs]; rfl)
  untested r hr m hm r' hr' n hn hmention := by
    by_cases hown : n ∈ r.names
    · exact Nat.le_of_eq (rankIn_same h hstatements hperm hr hm hown)
    by_cases hkinds : r.isPlain = true ∧ r'.isPlain = true
    · exact Nat.le_of_eq (rankIn_peers h hstatements hperm hr hr' hm hn hkinds.1 hkinds.2 hmention)
    · exact Nat.le_of_lt (rankIn_lt_of_apart h hstatements hperm horder hr hr' hm hn hmention hown hkinds)
  apart r hr m hm r' hr' n hn hmention hown hkinds :=
    rankIn_lt_of_apart h hstatements hperm horder hr hr' hm hn hmention hown hkinds

end

/-! ### Ranked parts -/

/-- The parts hold the statements of the ranks from `k` on, those of one rank each. -/
structure RankedFrom (statements : List Realization) (rank : String → Nat) (k : Nat)
    (parts : List (List Realization)) : Prop where
  rank_eq : ∀ i part, parts[i]? = some part → ∀ r ∈ part,
    r ∈ statements ∧ ∀ n ∈ r.names, rank n = k + i
  complete : ∀ r ∈ statements, ∀ n ∈ r.names, k ≤ rank n → r ∈ parts.flatten

namespace RankedFrom

variable {rank : String → Nat} {k : Nat} {parts : List (List Realization)} {part : List Realization}
  {r : Realization}

/-- The first part has the statements of the lowest rank. -/
theorem head (h : RankedFrom statements rank k (part :: parts)) (hr : r ∈ part) :
    r ∈ statements ∧ ∀ n ∈ r.names, rank n = k := h.rank_eq 0 part rfl r hr

/-- Later parts have higher ranks. -/
theorem later (h : RankedFrom statements rank k (part :: parts)) (hr : r ∈ parts.flatten) :
    r ∈ statements ∧ ∀ n ∈ r.names, k < rank n := by
  obtain ⟨part', hpart', hr⟩ := List.mem_flatten.1 hr
  obtain ⟨i, hi⟩ := List.mem_iff_getElem?.1 hpart'
  obtain ⟨hmem, hrank⟩ := h.rank_eq (i + 1) part' hi r hr
  exact ⟨hmem, fun n hn => by rw [hrank n hn]; omega⟩

/-- The statements of the parts have no lower ranks. -/
theorem of_mem (h : RankedFrom statements rank k parts) (hr : r ∈ parts.flatten) :
    r ∈ statements ∧ ∀ n ∈ r.names, k ≤ rank n := by
  obtain ⟨part, hpart, hr⟩ := List.mem_flatten.1 hr
  obtain ⟨i, hi⟩ := List.mem_iff_getElem?.1 hpart
  obtain ⟨hmem, hrank⟩ := h.rank_eq i part hi r hr
  exact ⟨hmem, fun n hn => by rw [hrank n hn]; omega⟩

/-- No part realizes what has a lower rank. -/
theorem not_mem_names (h : RankedFrom statements rank k parts)
    (hn : ∀ r ∈ statements, n ∈ r.names → rank n < k) : n ∉ parts.flatten.flatMap Realization.names := by
  intro hmem
  obtain ⟨r, hr, hnr⟩ := List.mem_flatMap.1 hmem
  obtain ⟨hr, hrank⟩ := h.of_mem hr
  exact Nat.not_lt.2 (hrank n hnr) (hn r hr hnr)

/-- The parts after the first are ranked from the next rank on. -/
theorem tail (h : RankedFrom statements rank k (part :: parts)) :
    RankedFrom statements rank (k + 1) parts where
  rank_eq i part' hi r hr := by
    obtain ⟨hmem, hrank⟩ := h.rank_eq (i + 1) part' hi r hr
    exact ⟨hmem, fun n hn => by rw [hrank n hn]; omega⟩
  complete r hr n hn hk := by
    have hmem := h.complete r hr n hn (Nat.le_of_succ_le hk)
    rw [List.flatten_cons, List.mem_append] at hmem
    refine hmem.resolve_left fun hpart => ?_
    have hrank := (h.head hpart).2 n hn
    omega

/-- The order of the statements does not matter for the ranks of parts. -/
theorem of_perm {all : List Realization} (h : RankedFrom statements rank k parts)
    (hperm : statements.Perm all) : RankedFrom all rank k parts where
  rank_eq i part hi r hr := (h.rank_eq i part hi r hr).imp_left hperm.mem_iff.1
  complete r hr := h.complete r (hperm.mem_iff.2 hr)

end RankedFrom

/-- The parts of an order are ranked by their places. -/
theorem rankedFrom_rankIn (h : schedule.Arranges c statements steps)
    (hstatements : Orderly c statements) (hperm : order.Perm (partition steps)) :
    RankedFrom statements (rankIn order) 0 (order.map (List.map Planned.statement)) where
  rank_eq i part hi r hr := by
    obtain ⟨g, hg, rfl⟩ := Option.map_eq_some_iff.1 (List.getElem?_map ▸ hi)
    obtain ⟨s, hs, rfl⟩ := List.mem_map.1 hr
    refine ⟨h.statement_mem (hperm.mem_iff.1 (List.mem_of_getElem? hg)) hs, fun n hn => ?_⟩
    rw [rankIn_eq h hstatements hperm hg hs hn, Nat.zero_add]
  complete r hr _ _ _ := by
    rw [← h.statements] at hr
    obtain ⟨s, hs, rfl⟩ := List.mem_map.1 hr
    refine List.mem_flatten.2 ⟨_, List.mem_map_of_mem (hperm.mem_iff.2 (classOf_mem_partition h.numbered hs)),
      List.mem_map_of_mem (self_mem_classOf h.numbered hs)⟩

end Schedule

end CodeRules
