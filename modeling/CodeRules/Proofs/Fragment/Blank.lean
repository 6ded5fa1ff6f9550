import CodeRules.Proofs.Fragment.Parts
import Mathlib.Data.List.Flatten

/-!
# Replacing parts of a fragment by the wildcard

`Fragment.Blanks` relates a fragment to those in which the wildcard takes the place of some parts. When
this happens in a modifier set, another division of its items may be found first
(`Fragment.Redivides`), and then the variables of the set stand for other entities. These variables are
called loose; `Fragment.LooseApart` says that they occur in their modifier set only.
-/

namespace CodeRules

namespace Fragment

/-! ### Replacing parts by the wildcard -/

/-- The second fragment is the first with the wildcard in place of some fragments. -/
inductive Blanks : Fragment → Fragment → Prop
  | keep (f : Fragment) : Blanks f f
  | blank (f : Fragment) : Blanks f wildcard
  | composite {f g : Fragment} (hform : SameForm f g)
    (hchildren : ∀ y ∈ f.children.zip g.children, Blanks y.1 y.2) : Blanks f g
  | unordered {access access' rest rest' : Option Fragment} {fixed fixed' : List Fragment}
    (haccess : access'.isSome = access.isSome) (hfixed : fixed'.length = fixed.length)
    (hrest : rest'.isSome = rest.isSome)
    (hchildren : ∀ y ∈ (unordered access fixed rest).children.zip
      (unordered access' fixed' rest').children, Blanks y.1 y.2) :
    Blanks (unordered access fixed rest) (unordered access' fixed' rest')

/-- The variables whose entities depend on how the items of a modifier set are divided. What the access
slot takes does not. -/
def dividedNames : Fragment → List String
  | unordered access fixed rest =>
    (occurrencesAll fixed ++ occurrencesOpt rest).filter (!(occurrencesOpt access).contains ·)
  | _ => []

/-- `u` is a modifier set of the second fragment whose items may be divided in another way than those of
the modifier set in its place in the first: a fixed fragment or the remainder is not the same, or the
access slot is not and has a variable that occurs in the set again. -/
inductive Redivides : Fragment → Fragment → Fragment → Prop
  | here {access access' rest rest' : Option Fragment} {fixed fixed' : List Fragment}
    (h : fixed' ≠ fixed ∨ rest' ≠ rest ∨ access' ≠ access ∧
      ∃ n ∈ occurrencesOpt access, n ∈ occurrencesAll fixed ++ occurrencesOpt rest) :
    Redivides (unordered access fixed rest) (unordered access' fixed' rest')
      (unordered access' fixed' rest')
  | inside {f g u : Fragment} {y : Fragment × Fragment} (hy : y ∈ f.children.zip g.children)
    (h : Redivides y.1 y.2 u) : Redivides f g u

/-- The name is a variable of a modifier set whose items may be divided in another way. -/
def Loose (f g : Fragment) (n : String) : Prop := ∃ u, Redivides f g u ∧ n ∈ u.dividedNames

/-- The variables that may stand for other entities occur nowhere else. -/
def LooseApart (f g : Fragment) : Prop :=
  ∀ u, Redivides f g u → ∀ n ∈ u.dividedNames, g.occurrences.count n = u.occurrences.count n

variable {s : Surroundings} {f g u : Fragment} {access access' rest rest' : Option Fragment}
  {fixed fixed' : List Fragment} {e : Entity} {es items left chosen : List Entity} {b c : Bindings}
  {σ τ : Assignment} {n name : String} {type : ParamType} {y : Fragment × Fragment}

namespace Blanks

/-- A variable is kept or becomes the wildcard. -/
theorem eq_of_var_left (h : (var name type).Blanks g) : g = var name type ∨ g = wildcard := by
  cases h with
  | keep => exact .inl rfl
  | blank => exact .inr rfl
  | composite hform => cases hform

/-- A variable that is left was there before. -/
theorem eq_of_var_right (h : f.Blanks (var name type)) : f = var name type := by
  cases h with
  | keep => rfl
  | composite hform => cases hform

/-- A fragment for an absent part is replaced by the wildcard only. -/
theorem isEmpty_eq (h : f.Blanks g) : g = wildcard ∨ g.isEmpty = f.isEmpty := by
  cases h with
  | keep => exact .inr rfl
  | blank => exact .inl rfl
  | composite hform => cases hform <;> exact .inr rfl
  | unordered => exact .inr rfl

/-- What can take the rest of a modifier set is kept or becomes the wildcard. -/
theorem eq_of_isRemainder (h : f.Blanks g) (hf : f.isRemainder = true) : g = f ∨ g = wildcard := by
  cases f with
  | var name type => exact h.eq_of_var_left
  | wildcard =>
    cases h with
    | keep => exact .inl rfl
    | blank => exact .inr rfl
    | composite hform => cases hform
  | _ => cases hf

end Blanks

/-- The children of modifier sets of the same form are paired access with access, fixed with fixed, rest
with rest. -/
theorem mem_children_zip_unordered (haccess : access'.isSome = access.isSome)
    (hfixed : fixed'.length = fixed.length) :
    y ∈ (unordered access fixed rest).children.zip (unordered access' fixed' rest').children ↔
      y ∈ access.toList.zip access'.toList ∨ y ∈ fixed.zip fixed' ∨
        y ∈ rest.toList.zip rest'.toList := by
  have hlength : access.toList.length = access'.toList.length := by
    cases access <;> cases access' <;> first | rfl | cases haccess
  rw [children, children, List.zip_append (by simp [hlength, hfixed]), List.zip_append hlength,
    List.mem_append, List.mem_append, or_assoc]

/-- A fragment with open parts is well-formed when the first one is. -/
theorem Blanks.wellFormed (h : f.Blanks g) (hf : f.WellFormed) : g.WellFormed := by
  induction h with
  | keep => exact hf
  | blank => exact .wildcard
  | composite hform hchildren ih =>
    refine hform.wellFormed hf fun g hg => ?_
    obtain ⟨f, hf', hfg⟩ := (List.forall₂_iff_zip.2 ⟨hform.length_children.symm,
      fun h => ih _ h⟩).exists_left hg
    exact hfg (hf.children f hf')
  | @unordered access access' rest rest' fixed fixed' haccess hfixed hrest hchildren ih =>
    simp only [mem_children_zip_unordered haccess hfixed] at hchildren ih
    cases hf with
    | unordered hwfa hwff hwfr hremainder =>
    -- each part is well-formed by hypothesis, and what takes the rest stays fit for it
    refine .unordered (fun g hg => ?_) (fun g hg => ?_) (fun g hg => ?_) fun g hg => ?_
    · obtain rfl : access' = some g := hg
      obtain ⟨f, rfl⟩ := Option.isSome_iff_exists.1 haccess.symm
      exact ih (f, g) (.inl (by simp)) (hwfa f rfl)
    · obtain ⟨f, hf, hfg⟩ := (List.forall₂_iff_zip.2 ⟨hfixed.symm,
        fun h => ih _ (.inr (.inl h))⟩).exists_left hg
      exact hfg (hwff f hf)
    · obtain rfl : rest' = some g := hg
      obtain ⟨f, rfl⟩ := Option.isSome_iff_exists.1 hrest.symm
      exact ih (f, g) (.inr (.inr (by simp))) (hwfr f rfl)
    · obtain rfl : rest' = some g := hg
      obtain ⟨f, rfl⟩ := Option.isSome_iff_exists.1 hrest.symm
      have hfg : f.Blanks g := hchildren (f, g) (.inr (.inr (by simp)))
      rcases hfg.eq_of_isRemainder (hremainder f rfl) with rfl | rfl
      · exact hremainder _ rfl
      · rfl

/-- No variable is added. -/
theorem Blanks.mem_occurrences (h : f.Blanks g) (hn : n ∈ g.occurrences) : n ∈ f.occurrences := by
  -- a variable of a child is one of the child in its place
  have hchildren {f g : Fragment} (hf : ∀ name type, f ≠ var name type)
      (hg : ∀ name type, g ≠ var name type) (hlength : g.children.length = f.children.length)
      (ih : ∀ y ∈ f.children.zip g.children, n ∈ y.2.occurrences → n ∈ y.1.occurrences)
      (hn : n ∈ g.occurrences) : n ∈ f.occurrences := by
    rw [occurrences_eq_flatMap_children hg] at hn
    rw [occurrences_eq_flatMap_children hf]
    obtain ⟨g', hg', hn⟩ := List.mem_flatMap.1 hn
    obtain ⟨f', hf', hfg⟩ := (List.forall₂_iff_zip.2 ⟨hlength.symm, fun h => ih _ h⟩).exists_left hg'
    exact List.mem_flatMap.2 ⟨f', hf', hfg hn⟩
  induction h with
  | keep => exact hn
  | blank => cases hn
  | composite hform _ ih =>
    exact hchildren (ne_var_of_isComposite hform.isComposite_left)
      (ne_var_of_isComposite hform.isComposite_right) hform.length_children ih hn
  | @unordered access access' rest rest' fixed fixed' haccess hfixed hrest _ ih =>
    refine hchildren (fun _ _ h => by cases h) (fun _ _ h => by cases h) ?_ ih hn
    simp only [children, List.length_append, Option.length_toList, haccess, hfixed, hrest]

/-! ### Variables that may stand for something else -/

/-- A variable occurs in several fragments at least as often as in one of them. -/
theorem count_le_count_flatMap {gs : List Fragment} (h : g ∈ gs) (n : String) :
    g.occurrences.count n ≤ (gs.flatMap occurrences).count n := by
  have hsub := (List.singleton_sublist.2 h).flatMap occurrences
  rw [List.flatMap_singleton] at hsub
  exact hsub.count_le n

/-- The variables of a child are among those of the fragment. -/
theorem count_occurrences_le (h : f ∈ g.children) (n : String) :
    f.occurrences.count n ≤ g.occurrences.count n := by
  have hvar (name : String) (type : ParamType) : g ≠ var name type := by
    rintro rfl
    cases h
  rw [occurrences_eq_flatMap_children hvar]
  exact count_le_count_flatMap h n

/-- The variables of a set that is divided otherwise are among those of the fragment. -/
theorem Redivides.count_le (h : Redivides f g u) (n : String) :
    u.occurrences.count n ≤ g.occurrences.count n := by
  induction h with
  | here => exact Nat.le_refl _
  | inside hy _ ih => exact ih.trans (count_occurrences_le (List.of_mem_zip hy).2 n)

/-- Nothing can be divided in another way where nothing was replaced. -/
theorem Redivides.ne (h : Redivides f g u) : f ≠ g := by
  induction h with
  | here h =>
    intro hfg
    obtain ⟨rfl, rfl, rfl⟩ := Fragment.unordered.inj hfg
    rcases h with h | h | ⟨h, -⟩
    · exact h rfl
    · exact h rfl
    · exact h rfl
  | inside hy _ ih =>
    rintro rfl
    rw [List.zip_eq_zipWith, List.zipWith_self] at hy
    obtain ⟨x, _, rfl⟩ := List.mem_map.1 hy
    exact ih rfl

/-- A variable that is loose in a child is loose in the fragment. -/
theorem loose_of_mem_zip (hy : y ∈ f.children.zip g.children) (h : Loose y.1 y.2 n) : Loose f g n := by
  obtain ⟨u, hu, hn⟩ := h
  exact ⟨u, .inside hy hu, hn⟩

/-- The variables of a child that may stand for something else occur in no other child, and there only
in their modifier set. -/
theorem LooseApart.of_mem_zip (h : LooseApart f g) (hy : y ∈ f.children.zip g.children) :
    LooseApart y.1 y.2 ∧ ∀ n, Loose y.1 y.2 n → g.occurrences.count n ≤ y.2.occurrences.count n := by
  have hle := count_occurrences_le (List.of_mem_zip hy).2
  constructor
  · intro u hu n hn
    -- in the fragment it occurs as often as in its set, which lies in the child
    exact Nat.le_antisymm ((hle n).trans_eq (h u (.inside hy hu) n hn)) (hu.count_le n)
  · rintro n ⟨u, hu, hn⟩
    exact (h u (.inside hy hu) n hn).trans_le (hu.count_le n)

end Fragment

end CodeRules
