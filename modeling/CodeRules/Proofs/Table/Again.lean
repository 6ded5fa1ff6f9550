import CodeRules.Proofs.Table.Consistent
import CodeRules.Proofs.Table.Solve

/-!
# Solving again

What was done before a failure stays done, but a failed attempt to solve a table leaves its settings
and the signatures of its relations as they are (`Table.stays_iterate_solve`). So as long as no singleton
has got its tuple, solving the table again fails through the rules only, or for a fixpoint that is not
reached in time (`Table.expected_or_resolved_of_solve_again`).
-/

namespace CodeRules

open Effect

namespace Table

variable {settings : Settings} {t : Table} {program : Program} {solved? : String → String → Option Relation} {interface : Interface}
  {option : OptionDecl} {args : List Argument}

/-- The statements of a table can run again while its singletons wait for their tuples. -/
theorem awaits_iterate_solve (h : construct program settings solved? interface option args = .ok t)
    (n : Nat) {t' : Table} (ht' : (fun t => t.solve.2)^[n] t = t')
    (hpending : ∀ r ∈ t.statements, r.isSingleton = true → ∀ s ∈ r.signatures,
      ∀ rel, t'.store.find? s.name = some rel → rel.tuples = ∅) :
    t'.settings = settings ∧ t'.Awaits t'.statements := by
  obtain ⟨hconstructed, hsettings⟩ := constructed_of_construct h
  have hsound := (sound_of_construct h).iterate_solve n
  have hstays := t.stays_iterate_solve n
  rw [ht'] at hsound hstays
  refine ⟨hstays.settings.trans hsettings, hstays.statements ▸ ?_⟩
  exact {
    checked := hsound.checked
    registered := hsound.realized
    notCopiedTo := hconstructed.notCopiedTo
    copies := by
      obtain ⟨rel, hrel, harity⟩ := hconstructed.copiedTo
      -- The relation of copies may have more tuples now, but it has the signature it had.
      have hsame := hstays.signatures BuiltinRelation.copiedTo
      rw [Store.signature?, Store.signature?, hrel] at hsame
      obtain ⟨rel', hrel', hsignature⟩ := Option.map_eq_some_iff.1 hsame
      exact ⟨rel', hrel', hsignature ▸ harity⟩
    singletons := hconstructed.singletons
    owner := fun r hr hkind s hs p hp => by
      obtain ⟨rel, hrel, hsignature⟩ := hsound.realized r hr s hs
      refine (hsound.owner p s.name).2 ⟨rel, hrel, ?_, hsignature ▸ hp⟩
      exact hsignature ▸ Awaits.isSingleton_of_mem hkind hs
    pending := fun r hr hkind s hs => by
      obtain ⟨rel, hrel, hsignature⟩ := hsound.realized r hr s hs
      have hempty := hpending r hr hkind s hs rel hrel
      refine ⟨⟨rel, hrel, hempty⟩, ?_⟩
      -- A singleton without a tuple has unbound variables, as before the first attempt.
      cases hsound.settled s.name rel hrel (hsignature ▸ Awaits.isSingleton_of_mem hkind hs) with
      | pending _ hunbound => exact hsignature ▸ hunbound
      | resolved u htuple _ =>
        rw [hempty] at htuple
        cases htuple }

/-- Where an attempt to solve a table again fails otherwise than through the rules, some singleton got
its tuple before. -/
theorem expected_or_resolved_of_solve_again
    (h : construct program settings solved? interface option args = .ok t) (n : Nat) {t' : Table}
    (ht' : (fun t => t.solve.2)^[n] t = t') {f : Failure} (hf : t'.solve.1 = .error f) :
    Running.Expected settings.maxPasses f ∨
      ∃ r ∈ t.statements, r.isSingleton = true ∧ ∃ s ∈ r.signatures, ∃ rel u,
        t'.store.find? s.name = some rel ∧ rel.tuples.toList = [u] := by
  by_cases hpending : ∀ r ∈ t.statements, r.isSingleton = true → ∀ s ∈ r.signatures,
      ∀ rel, t'.store.find? s.name = some rel → rel.tuples = ∅
  · -- the statements can all run, as they could the first time
    left
    obtain ⟨rfl, hawaits⟩ := awaits_iterate_solve h n ht' hpending
    have hrun := hawaits.ends_run
    unfold solve at hf
    unfold Ends at hrun
    split at hrun <;> rename_i heq <;> rw [heq] at hf
    · cases hf
    · exact Except.error.inj hf ▸ hrun
  · right
    push Not at hpending
    obtain ⟨r, hr, hkind, s, hs, rel, hrel, htuples⟩ := hpending
    have hsound := ht' ▸ (sound_of_construct h).iterate_solve n
    obtain ⟨rel', hrel', hsignature⟩ := hsound.realized r hr s hs
    obtain rfl := Option.some.inj (hrel.symm.trans hrel')
    refine ⟨r, hr, hkind, s, hs, rel, ?_⟩
    -- a singleton with a tuple is resolved, and then has one tuple
    cases hsound.settled s.name rel hrel (hsignature ▸ Awaits.isSingleton_of_mem hkind hs) with
    | pending hempty _ => exact absurd hempty htuples
    | resolved u htuple _ => exact ⟨u, hrel, htuple⟩

end Table

end CodeRules
