import CodeRules.Proofs.Statement.Realization
import CodeRules.Proofs.Statement.Schedule

/-!
# What groups read of themselves

A statement of a scheduled group never tests a relation that the group realizes, since the group
would wait for itself. When a statement reads such a relation without a test the group is recursive.
-/

namespace CodeRules

namespace Realization

variable {c : RelationContext} {r : Realization} {s : Signature} {n : String}

/-- The context knows the realized traits, and none of them is complete. -/
structure OpenIn (c : RelationContext) (r : Realization) : Prop where
  known : ∀ s ∈ r.signatures, c.signatures.find? s.name = some s
  incomplete : ∀ s ∈ r.signatures, Catalog.contains c.complete s.name = false

/-- The realized traits are open. -/
theorem OpenIn.open?_eq (h : r.OpenIn c) (hr : r.Checked) (hs : s ∈ r.signatures) :
    c.open? s.name = some s := by
  simp only [RelationContext.open?, h.incomplete s hs, h.known s hs, Option.filter_some,
    hr.notBuiltin s hs]
  rfl

/-- The names of a statement are those of the traits that it realizes. -/
theorem mem_names_iff : n ∈ r.names ↔ ∃ s ∈ r.signatures, s.name = n := List.mem_map

/-- A statement realizes what it has among its names. -/
theorem realizes_iff : r.realizes n = true ↔ n ∈ r.names := List.contains_iff_mem

/-- A plain statement realizes one trait, which is neither a singleton nor local. -/
theorem Checked.signatures_of_isPlain (h : r.Checked) (hplain : r.isPlain = true) :
    ∃ s, r.signatures = [s] ∧ s.flags.isPlain = true := by
  simp only [isPlain, Bool.and_eq_true, Bool.not_eq_true'] at hplain
  obtain ⟨hsingleton, hlocal⟩ := hplain
  -- One of the realized traits is not a singleton, so it is the only one.
  rcases h.kinds with hall | ⟨s, hs, hnot⟩
  · rw [hsingleton] at hall
    cases hall
  · refine ⟨s, hs, ?_⟩
    rw [isLocal, hs, List.any_cons, List.any_nil, Bool.or_false] at hlocal
    simp [TraitFlags.isPlain, hnot, hlocal]

/-- The relations that a body mentions. -/
theorem mem_relations_of_trait {tested : Bool}
    (h : Mention.trait n tested ∈ r.body.references) : n ∈ (r.relations c tested).toList := by
  rw [relations, NameSet.mem_ofListFirst, List.mem_filterMap]
  exact ⟨_, h, if_pos rfl⟩

/-- What is mentioned under a test must be complete first, unless no statement can add to it. -/
theorem mem_dependencies_of_tested {deps : NameSet} (hdeps : r.dependencies c = .ok deps)
    (hmention : n ∈ (r.relations c true).toList) (hopen : (c.open? n).isSome = true) :
    n ∈ deps.toList := by
  unfold dependencies at hdeps
  split at hdeps
  · cases hdeps
  · obtain rfl := Except.ok.inj hdeps
    exact NameSet.mem_union.2 (.inr (Catalog.mem_filter.2 ⟨hmention, hopen⟩))

end Realization

/-- A group that is run as a fixpoint has plain statements only. -/
theorem Planned.isPlain_of_kind {part : List Planned} (h : (Planned.group part).kind = .fixpoint) :
    ∀ s ∈ part, s.statement.isPlain = true := by
  by_contra hnot
  have hall : part.all (·.statement.isPlain) = false :=
    Bool.eq_false_iff.2 fun hall => hnot (List.all_eq_true.1 hall)
  rw [Planned.group, hall] at h
  dsimp only at h
  split at h
  · rename_i hfalse
    cases hfalse
  · split at h <;> cases h

namespace Schedule.Arranges

open Realization

variable {c : RelationContext} {statements : List Realization} {steps g : List Planned}
  {schedule : Schedule} {s t : Planned} {n : String}

/-- The steps of a part stand for statements that were given. -/
theorem statement_mem (h : Arranges c statements steps schedule) (hg : g ∈ partition steps)
    (hs : s ∈ g) : s.statement ∈ statements := by
  rw [← h.statements]
  exact List.mem_map_of_mem (mem_steps_of_mem_partition hg hs)

/-- No statement of a part tests a relation that the part realizes. -/
theorem not_tested (h : Arranges c statements steps schedule) (hg : g ∈ partition steps)
    (hs : s ∈ g) (ht : t ∈ g) (hn : n ∈ t.statement.names) (hopen : (c.open? n).isSome = true) :
    Mention.trait n true ∉ s.statement.body.references := by
  -- Then the part would wait for itself, as the tested relation must be complete before the step.
  intro hmention
  have hdescribes := h.describes s (mem_steps_of_mem_partition hg hs)
  have hdep := mem_dependencies_of_tested hdescribes.dependencies
    (mem_relations_of_trait hmention) hopen
  exact h.not_waits_self hg ⟨s, hs, t, ht, n, hdep, realizes_iff.2 hn⟩

/-- A part is recursive when one of its plain statements reads what the part realizes. -/
theorem isRecursive_of_reads (h : Arranges c statements steps schedule) (hg : g ∈ partition steps)
    (hs : s ∈ g) (hplain : s.statement.isPlain = true) (ht : t ∈ g) (hn : n ∈ t.statement.names)
    (hopen : (c.open? n).any (·.flags.isPlain) = true)
    (hmention : Mention.trait n false ∈ s.statement.body.references) :
    (Planned.group g).isRecursive = true := by
  -- The relation is among the peers, which are what is read without a test.
  have hpeer : n ∈ s.peers.toList := by
    rw [(h.describes s (mem_steps_of_mem_partition hg hs)).peers, if_pos hplain, peers]
    exact Catalog.mem_filter.2 ⟨mem_relations_of_trait hmention, hopen⟩
  refine List.any_eq_true.2 ⟨s, hs, List.any_eq_true.2 ⟨n, hpeer, ?_⟩⟩
  rw [NameSet.contains_iff, NameSet.mem_ofListFirst]
  exact List.mem_flatMap.2 ⟨t, ht, hn⟩

end Schedule.Arranges

end CodeRules
