import CodeRules.Rule.TypeExpr
import Mathlib.Data.List.Nodup
import Mathlib.Data.List.Zip
import Mathlib.Logic.Relator

/-!
# Pairs of variables

Expressions that differ in the names of variables are compared along a pairing: a relation between the
variables of the one and those of the other. A quantifier pairs its own variables in order, and these
hide the pairs of outer variables with the same names (`Pairing.under`).
-/

namespace CodeRules

/-- Which variables of two expressions stand for each other. -/
def Pairing := String → String → Prop

namespace Pairing

variable {N : Pairing} {V : String → Prop} {n m : String} {binders binders' : List String}

/-- No variable has two partners, and the wildcard has none but itself. -/
structure Proper (N : Pairing) : Prop where
  biUnique : Relator.BiUnique N
  wildcard_iff : ∀ {n m}, N n m → (n = wildcard ↔ m = wildcard)

/-- The variables that have a partner. -/
def domain (N : Pairing) (n : String) : Prop := ∃ m, N n m

/-- The variables that are a partner. -/
def range (N : Pairing) (m : String) : Prop := ∃ n, N n m

/-- The pairs the other way round. -/
def symm (N : Pairing) : Pairing := fun m n => N n m

/-- Some variables, each with itself. -/
def identity (V : String → Prop) : Pairing := fun n m => n = m ∧ V n

/-- The pairs under quantifiers that bind these variables. -/
def under (N : Pairing) (binders binders' : List String) : Pairing := fun n m =>
  (n, m) ∈ binders.zip binders' ∨ n ∉ binders ∧ m ∉ binders' ∧ N n m

/-- Partners are equal when what they are partners of is. -/
theorem Proper.eq_iff (h : N.Proper) {n' m' : String} (hn : N n m) (hn' : N n' m') :
    n = n' ↔ m = m' := by
  constructor
  · rintro rfl
    exact h.biUnique.2 hn hn'
  · rintro rfl
    exact h.biUnique.1 hn hn'

/-- Pairs stay proper when both sides change places. -/
theorem Proper.symm (h : N.Proper) : N.symm.Proper where
  biUnique := ⟨fun _ _ _ hn hn' => h.biUnique.2 hn hn', fun _ _ _ hn hn' => h.biUnique.1 hn hn'⟩
  wildcard_iff hn := (h.wildcard_iff hn).symm

/-- Variables paired with themselves are properly paired. -/
theorem proper_identity (V : String → Prop) : (identity V).Proper where
  biUnique := ⟨fun _ _ _ hn hn' => hn.1.trans hn'.1.symm, fun _ _ _ hn hn' => hn.1.symm.trans hn'.1⟩
  wildcard_iff hn := by rw [hn.1]

/-- Variables paired with themselves are the ones that have a partner. -/
@[simp] theorem domain_identity (V : String → Prop) : (identity V).domain = V :=
  funext fun _ => propext ⟨fun ⟨_, h⟩ => h.2, fun h => ⟨_, rfl, h⟩⟩

/-- Variables paired with themselves are so the other way round too. -/
theorem symm_identity (V : String → Prop) : (identity V).symm = identity V :=
  funext₂ fun _ _ => propext ⟨fun h => ⟨h.1.symm, h.1 ▸ h.2⟩, fun h => ⟨h.1.symm, h.1 ▸ h.2⟩⟩

/-- Quantified variables are paired with quantified variables only. -/
theorem mem_binders_iff (h : N.under binders binders' n m) : n ∈ binders ↔ m ∈ binders' := by
  rcases h with h | ⟨hn, hm, _⟩
  · exact iff_of_true (List.of_mem_zip h).1 (List.of_mem_zip h).2
  · exact iff_of_false hn hm

/-- A variable that the quantifier does not bind keeps its outer partner. -/
theorem pairs_of_under (h : N.under binders binders' n m) (hn : n ∉ binders) : N n m := by
  rcases h with h | ⟨_, _, h⟩
  · exact absurd (List.of_mem_zip h).1 hn
  · exact h

/-- The pairs under quantifiers, the other way round, are those of the quantifiers exchanged. -/
theorem symm_under (N : Pairing) (binders binders' : List String) :
    (N.under binders binders').symm = N.symm.under binders' binders := by
  funext m n
  have hzip : (n, m) ∈ binders.zip binders' ↔ (m, n) ∈ binders'.zip binders := by
    rw [← List.zip_swap binders' binders, List.mem_map]
    simp
  refine propext (or_congr hzip ?_)
  rw [← and_assoc, and_comm (a := n ∉ binders), and_assoc]
  rfl

/-- A quantified variable is paired with its new name. -/
theorem mem_zip_map {ρ : String → String} :
    (n, m) ∈ binders.zip (binders.map ρ) ↔ n ∈ binders ∧ m = ρ n := by
  rw [← List.map_id binders, List.map_map, List.zip_map', List.mem_map, List.map_id]
  simp only [id_eq, Function.comp_apply, Prod.mk.injEq]
  exact ⟨fun ⟨k, hk, hkn, hkm⟩ => ⟨hkn ▸ hk, hkn ▸ hkm.symm⟩, fun ⟨hn, hm⟩ => ⟨n, hn, rfl, hm.symm⟩⟩

/-- Variables in the same order are paired with themselves. -/
theorem mem_zip_self : (n, m) ∈ binders.zip binders ↔ n ∈ binders ∧ m = n := by
  have hmap : (n, m) ∈ binders.zip (binders.map id) ↔ n ∈ binders ∧ m = id n := mem_zip_map
  rwa [List.map_id] at hmap

/-- A quantifier whose variables keep their names pairs each of them with itself. -/
theorem under_identity (V : String → Prop) (binders : List String) :
    (identity V).under binders binders = identity fun n => V n ∨ n ∈ binders := by
  funext n m
  refine propext ⟨fun h => ?_, fun ⟨h, hn⟩ => ?_⟩
  -- a pair of the quantifiers, or one from outside
  · rcases h with h | ⟨_, _, h, hV⟩
    · obtain ⟨hn, rfl⟩ := mem_zip_self.1 h
      exact ⟨rfl, .inr hn⟩
    · exact ⟨h, .inl hV⟩
  · subst h
    -- a name that is bound is paired by the quantifier, whether or not it was paired outside
    by_cases hbound : n ∈ binders
    · exact .inl (mem_zip_self.2 ⟨hbound, rfl⟩)
    · exact .inr ⟨hbound, hbound, rfl, hn.resolve_right hbound⟩

/-- Each variable with itself. -/
def same : Pairing := identity fun _ => True

/-- All variables, each with itself, are properly paired. -/
theorem proper_same : same.Proper := proper_identity _

/-- Each variable with itself is so the other way round too. -/
theorem symm_same : same.symm = same := symm_identity _

/-- A quantifier that keeps its names changes nothing when each name stands for itself. -/
theorem under_same (binders : List String) : same.under binders binders = same := by
  rw [same, under_identity]
  simp

/-- A quantifier of several variables is like one of the first and then one of the others. -/
theorem under_cons (hlength : binders.length = binders'.length)
    (hunique : Relator.BiUnique fun k l => (k, l) ∈ (n :: binders).zip (m :: binders'))
    {k l : String} (h : N.under (n :: binders) (m :: binders') k l) :
    (N.under [n] [m]).under binders binders' k l := by
  have hfirst : (n, m) ∈ (n :: binders).zip (m :: binders') := List.mem_cons_self ..
  rcases h with h | ⟨hk, hl, hN⟩
  · rcases List.mem_cons.1 h with heq | h
    · obtain ⟨rfl, rfl⟩ := Prod.mk.inj heq
      -- a later variable of the same name has the same partner
      by_cases hin : k ∈ binders
      · rw [← List.map_fst_zip (Nat.le_of_eq hlength), List.mem_map] at hin
        obtain ⟨⟨_, l'⟩, hmem, rfl⟩ := hin
        rw [hunique.2 hfirst (List.mem_cons_of_mem _ hmem)]
        exact .inl hmem
      -- no later variable on the other side has this name: its partner would be `k`
      · refine .inr ⟨hin, fun hin' => hin ?_, .inl (List.mem_singleton_self _)⟩
        rw [← List.map_snd_zip (Nat.le_of_eq hlength.symm), List.mem_map] at hin'
        obtain ⟨⟨k', _⟩, hmem, rfl⟩ := hin'
        rw [hunique.1 hfirst (List.mem_cons_of_mem _ hmem)]
        exact (List.of_mem_zip hmem).1
    · exact .inl h
  -- an outer pair is hidden by none of the two quantifiers
  · rw [List.mem_cons, not_or] at hk hl
    exact .inr ⟨hk.2, hl.2, .inr ⟨by simpa using hk.1, by simpa using hl.1, hN⟩⟩

/-- Quantifiers of different variables keep pairs proper. -/
theorem Proper.under (h : N.Proper) (hnodup : binders.Nodup) (hnodup' : binders'.Nodup)
    (hwildcard : ∀ x ∈ binders.zip binders', x.1 = wildcard ↔ x.2 = wildcard) :
    (N.under binders binders').Proper := by
  -- a name stands at one index only, so its partner is the one at this index
  have hright {n m m' : String} {l l' : List String} (hl : l.Nodup)
      (hm : (n, m) ∈ l.zip l') (hm' : (n, m') ∈ l.zip l') : m = m' := by
    obtain ⟨i, hi, hnm⟩ := List.mem_iff_getElem.1 hm
    obtain ⟨j, hj, hnm'⟩ := List.mem_iff_getElem.1 hm'
    rw [List.getElem_zip, Prod.mk.injEq] at hnm hnm'
    obtain rfl := (hl.getElem_inj_iff).1 (hnm.1.trans hnm'.1.symm)
    exact hnm.2.symm.trans hnm'.2
  have hleft {n n' m : String} (hn : (n, m) ∈ binders.zip binders')
      (hn' : (n', m) ∈ binders.zip binders') : n = n' := by
    rw [← List.zip_swap, List.mem_map] at hn hn'
    obtain ⟨⟨_, _⟩, hn, heq⟩ := hn
    obtain ⟨⟨_, _⟩, hn', heq'⟩ := hn'
    simp only [Prod.swap_prod_mk, Prod.mk.injEq] at heq heq'
    obtain ⟨rfl, rfl⟩ := heq
    obtain ⟨rfl, rfl⟩ := heq'
    exact hright hnodup' hn hn'
  -- a quantified variable is never paired with an outer one
  refine ⟨⟨fun n m n' hn hn' => ?_, fun n m m' hm hm' => ?_⟩, fun hn => ?_⟩
  · rcases hn with hz | ⟨_, hout, hN⟩ <;> rcases hn' with hz' | ⟨_, hout', hN'⟩
    · exact hleft hz hz'
    · exact absurd (List.of_mem_zip hz).2 hout'
    · exact absurd (List.of_mem_zip hz').2 hout
    · exact h.biUnique.1 hN hN'
  · rcases hm with hz | ⟨hout, _, hN⟩ <;> rcases hm' with hz' | ⟨hout', _, hN'⟩
    · exact hright hnodup hz hz'
    · exact absurd (List.of_mem_zip hz).1 hout'
    · exact absurd (List.of_mem_zip hz').1 hout
    · exact h.biUnique.2 hN hN'
  · rcases hn with hz | ⟨_, _, hN⟩
    · exact hwildcard _ hz
    · exact h.wildcard_iff hN

/-- Renaming the variables of a quantifier apart from each other keeps pairs proper. -/
theorem Proper.under_map (h : N.Proper) {ρ : String → String} (hnodup : binders.Nodup)
    (hinj : ∀ k ∈ binders, ∀ l ∈ binders, ρ k = ρ l → k = l)
    (hwildcard : ∀ k ∈ binders, k = wildcard ↔ ρ k = wildcard) :
    (N.under binders (binders.map ρ)).Proper := by
  refine h.under hnodup (hnodup.map_on hinj) fun x hx => ?_
  obtain ⟨hmem, heq⟩ := mem_zip_map.1 (show (x.1, x.2) ∈ _ from hx)
  rw [heq]
  exact hwildcard x.1 hmem

/-- A quantifier whose variables keep their names keeps pairs proper. -/
theorem Proper.under_self (h : N.Proper) (hnodup : binders.Nodup) :
    (N.under binders binders).Proper := by
  have hmap := h.under_map (ρ := id) hnodup (fun _ _ _ _ heq => heq) fun _ _ => Iff.rfl
  rwa [List.map_id] at hmap

end Pairing

end CodeRules
