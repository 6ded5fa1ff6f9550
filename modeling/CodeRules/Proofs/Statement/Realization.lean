import CodeRules.Proofs.Effect
import CodeRules.Statement.Realization
import Mathlib.Data.List.Nodup

/-!
# Checked statements

What `Realization.ofStatement` makes sure of: the realized traits are known, none of them is built
in or listed twice, and they are either singletons or a single trait that is none.
-/

namespace CodeRules

namespace Realization

/-- The realized traits may be realized together. -/
structure Checked (r : Realization) : Prop where
  nonempty : r.signatures ≠ []
  notBuiltin : ∀ s ∈ r.signatures, s.flags.isBuiltin = false
  nodup : r.names.Nodup
  kinds : r.isSingleton = true ∨ ∃ s, r.signatures = [s] ∧ s.flags.isSingleton = false

/-- The traits found so far are known, not built in, and different. -/
private theorem lookUp_eq_ok {lookup : String → Option Signature} {s : Statement}
    {known sigs : List Signature} {names : List (Spanned String)}
    (h : lookUp lookup s known names = .ok sigs)
    (hknown : ∀ t ∈ known, (∃ name, lookup name = some t) ∧ t.flags.isBuiltin = false)
    (hnodup : (known.map Signature.name).Nodup) :
    (∀ t ∈ sigs, (∃ name, lookup name = some t) ∧ t.flags.isBuiltin = false) ∧
      (sigs.map Signature.name).Nodup ∧ sigs.length = known.length + names.length := by
  induction names generalizing known with
  | nil =>
    simp only [lookUp, Except.ok.injEq] at h
    subst h
    exact ⟨hknown, hnodup, rfl⟩
  | cons n ns ih =>
    simp only [lookUp] at h
    split at h
    · cases h
    · rename_i sig hsig
      split at h
      · cases h
      · rename_i hbuiltin
        split at h
        · cases h
        · rename_i hnew
          -- a trait that was named before is refused
          have hnew : sig.name ∉ known.map Signature.name := by
            intro hmem
            obtain ⟨t, ht, e⟩ := List.mem_map.1 hmem
            exact hnew (List.any_eq_true.2 ⟨t, ht, by simpa using e⟩)
          have hnodup' : ((known ++ [sig]).map Signature.name).Nodup := by
            rw [List.map_append, List.nodup_append]
            refine ⟨hnodup, by simp, ?_⟩
            rintro a ha b hb rfl
            rw [List.map_singleton, List.mem_singleton] at hb
            exact hnew (hb ▸ ha)
          have hknown' : ∀ t ∈ known ++ [sig],
              (∃ name, lookup name = some t) ∧ t.flags.isBuiltin = false := by
            intro t ht
            rcases List.mem_append.1 ht with ht | ht
            · exact hknown t ht
            · rw [List.mem_singleton.1 ht]
              exact ⟨⟨_, hsig⟩, by simpa using hbuiltin⟩
          obtain ⟨h₁, h₂, h₃⟩ := ih h hknown' hnodup'
          refine ⟨h₁, h₂, ?_⟩
          rw [h₃, List.length_append, List.length_singleton, List.length_cons, Nat.add_assoc,
            Nat.add_comm 1]

/-- Traits that may be realized together are singletons, or one trait that is none. -/
private theorem kinds_of_checkKinds {span : Span} {sigs : List Signature} (hne : sigs ≠ [])
    (h : checkKinds span sigs = .ok ()) :
    (∀ s ∈ sigs, s.flags.isSingleton = true) ∨
      ∃ s, sigs = [s] ∧ s.flags.isSingleton = false := by
  simp only [checkKinds] at h
  -- singletons and other traits are not realized by one statement
  cases hs : sigs.filter (·.flags.isSingleton) with
  | cons single rest =>
    cases ho : sigs.filter (!·.flags.isSingleton) with
    | cons other more => simp [hs, ho] at h
    | nil =>
      left
      intro s hmem
      have := List.filter_eq_nil_iff.1 ho s hmem
      simpa using this
  | nil =>
    have hnone := List.filter_eq_nil_iff.1 hs
    have hall : sigs.filter (!·.flags.isSingleton) = sigs :=
      List.filter_eq_self.2 fun s hmem => by simpa using hnone s hmem
    rw [hs, hall] at h
    right
    cases sigs with
    | nil => exact absurd rfl hne
    | cons s more =>
      cases more with
      | nil => exact ⟨s, rfl, by simpa using hnone s (List.mem_cons_self ..)⟩
      | cons t more => cases h

/-- A statement that passes the check is a checked realization, of traits that were looked up. -/
theorem checked_of_ofStatement {owner : String} {level : Level}
    {lookup : String → Option Signature} {s : Statement} {r : Realization}
    (h : ofStatement owner level lookup s = .ok r) :
    r.Checked ∧ ∀ t ∈ r.signatures, ∃ name, lookup name = some t := by
  simp only [ofStatement] at h
  split at h
  · simp at h
  · rename_i hne
    simp only [Except.bind_eq_ok, Except.pure_eq_ok] at h
    obtain ⟨sigs, hsigs, ⟨⟩, hkinds, ⟨⟩, _, rfl⟩ := h
    obtain ⟨hknown, hnodup, hlen⟩ := lookUp_eq_ok hsigs (by simp) (by simp)
    have hne : sigs ≠ [] := by
      rintro rfl
      simp only [List.length_nil, Nat.zero_add] at hlen
      exact hne (by simp [List.eq_nil_of_length_eq_zero hlen.symm])
    refine ⟨⟨hne, fun t ht => (hknown t ht).2, hnodup, ?_⟩, fun t ht => (hknown t ht).1⟩
    -- all of the traits are singletons, or there is only one
    rcases kinds_of_checkKinds hne hkinds with hall | hone
    · exact .inl (List.all_eq_true.2 hall)
    · exact .inr hone

/-- A checked statement keeps its level and its body. -/
theorem eq_of_ofStatement {owner : String} {level : Level} {lookup : String → Option Signature}
    {s : Statement} {r : Realization} (h : ofStatement owner level lookup s = .ok r) :
    r.level = level ∧ r.body = s.body := by
  simp only [ofStatement] at h
  split at h
  · simp at h
  · simp only [Except.bind_eq_ok, Except.pure_eq_ok] at h
    obtain ⟨_, _, _, _, _, _, rfl⟩ := h
    exact ⟨rfl, rfl⟩

end Realization

end CodeRules
