import CodeRules.Binding.Solutions
import CodeRules.Proofs.Binding.Merge

/-!
# The laws of products

A set of solutions is known by which bindings it holds up to equality (`Solutions.Holds`). A product
holds what the members of both sides join to, and since equal bindings have equal joins
(`Bindings.JoinsTo.congr`), the laws of products are those of joins: which of several equal bindings
stays in a set does not matter.
-/

namespace CodeRules

namespace Solutions

open Bindings (JoinsTo)

variable {s t u : Solutions} {b c d : Bindings}

/-- Some member of the set is equal to the bindings. -/
def Holds (s : Solutions) (b : Bindings) : Prop := ∃ a ∈ s.toList, a.shape = b.shape

/-- Sets that hold the same bindings are the same. -/
theorem same_of_holds_iff (h : ∀ b, s.Holds b ↔ t.Holds b) : s.same t = true := by
  have hcontains {s t : Solutions} (h : ∀ b, s.Holds b → t.Holds b) {k : Shape}
      (hk : Catalog.contains s k = true) : Catalog.contains t k = true := by
    obtain ⟨a, ha, rfl⟩ := Catalog.contains_iff.1 hk
    exact Catalog.contains_iff.2 (h a ⟨a, ha, rfl⟩)
  exact decide_eq_true <| Catalog.map_key_eq fun k =>
    ⟨hcontains fun b => (h b).1, hcontains fun b => (h b).2⟩

/-- The unit holds what equals the empty bindings. -/
@[simp] theorem holds_unit : unit.Holds b ↔ Bindings.empty.shape = b.shape := by
  simp [Holds, unit]

/-- The empty set holds no bindings. -/
@[simp] theorem not_holds_empty : ¬ Holds ∅ b := by
  simp [Holds]

/-- A union holds what one of its sides holds. -/
@[simp] theorem holds_union : Holds (Catalog.union s t) b ↔ s.Holds b ∨ t.Holds b := by
  unfold Holds
  rw [← Catalog.contains_iff, ← Catalog.contains_iff, ← Catalog.contains_iff, Catalog.contains_union]

/-- A product holds what the bindings that its sides hold join to. -/
theorem holds_product : (product s t).Holds d ↔ ∃ b c, s.Holds b ∧ t.Holds c ∧ JoinsTo b c d := by
  rw [Holds, ← Catalog.contains_iff, product, Catalog.contains_ofListFirst]
  constructor
  · rintro ⟨m, hm, hshape⟩
    obtain ⟨b, hb, hm⟩ := List.mem_flatMap.1 hm
    obtain ⟨c, hc, hmerge⟩ := List.mem_filterMap.1 hm
    have hjoin := JoinsTo.of_consistentMerge? hmerge
    exact ⟨b, c, ⟨b, hb, rfl⟩, ⟨c, hc, rfl⟩, hjoin.congr rfl rfl hshape⟩
  · -- the members are equal to `b` and `c` only, so their join is equal to `d` only
    rintro ⟨b, c, ⟨b', hb', hb⟩, ⟨c', hc', hc⟩, hjoin⟩
    obtain ⟨m, hmerge, hshape⟩ := (hjoin.congr hb.symm hc.symm rfl).exists_consistentMerge?
    exact ⟨m, List.mem_flatMap.2 ⟨b', hb', List.mem_filterMap.2 ⟨c', hc', hmerge⟩⟩, hshape⟩

/-! ### The laws -/

/-- The order of two sets does not matter to their product. -/
theorem holds_product_comm : (product s t).Holds d ↔ (product t s).Holds d := by
  have hswap {s t : Solutions} (h : (product s t).Holds d) : (product t s).Holds d := by
    obtain ⟨b, c, hb, hc, hjoin⟩ := holds_product.1 h
    exact holds_product.2 ⟨c, b, hc, hb, hjoin.comm⟩
  exact ⟨hswap, hswap⟩

/-- Products are taken in any grouping. -/
theorem holds_product_assoc :
    (product (product s t) u).Holds d ↔ (product s (product t u)).Holds d := by
  simp only [holds_product]
  constructor
  · rintro ⟨x, c, ⟨a, b, ha, hb, hx⟩, hc, hd⟩
    obtain ⟨y, hy, hd⟩ := hx.assoc hd
    exact ⟨a, y, ha, ⟨b, c, hb, hc, hy⟩, hd⟩
  · rintro ⟨a, x, ha, ⟨b, c, hb, hc, hx⟩, hd⟩
    obtain ⟨y, hy, hd⟩ := hx.assoc' hd
    exact ⟨y, c, ⟨a, b, ha, hb, hy⟩, hc, hd⟩

/-- The unit is an identity of products. -/
theorem holds_unit_product : (product unit s).Holds d ↔ s.Holds d := by
  rw [holds_product]
  constructor
  · rintro ⟨b, c, hb, ⟨a, ha, hac⟩, hjoin⟩
    -- with bindings equal to the empty ones a member joins to itself
    have hself := hjoin.congr (holds_unit.1 hb).symm hac.symm rfl
    exact ⟨a, ha, (JoinsTo.empty_left a).unique hself⟩
  · intro hd
    exact ⟨.empty, d, holds_unit.2 rfl, hd, .empty_left d⟩

/-- The empty set is a zero of products. -/
theorem not_holds_empty_product : ¬ (product ∅ s).Holds d := by
  rw [holds_product]
  rintro ⟨b, c, hb, _⟩
  exact not_holds_empty hb

/-- Products distribute over unions. -/
theorem holds_product_union :
    (product s (Catalog.union t u)).Holds d ↔ (product s t).Holds d ∨ (product s u).Holds d := by
  simp only [holds_product, holds_union]
  constructor
  · rintro ⟨b, c, hb, hc | hc, hjoin⟩
    · exact .inl ⟨b, c, hb, hc, hjoin⟩
    · exact .inr ⟨b, c, hb, hc, hjoin⟩
  · rintro (⟨b, c, hb, hc, hjoin⟩ | ⟨b, c, hb, hc, hjoin⟩)
    · exact ⟨b, c, hb, .inl hc, hjoin⟩
    · exact ⟨b, c, hb, .inr hc, hjoin⟩

/-- The product of sets of solutions is commutative and associative, has the set of the empty bindings
as identity and the empty set as zero, and distributes over unions on both sides. -/
theorem product_laws (s t u : Solutions) :
    (product s t).same (product t s) = true ∧
    (product (product s t) u).same (product s (product t u)) = true ∧
    ((product s unit).same s = true ∧ (product unit s).same s = true) ∧
    ((product s ∅).same ∅ = true ∧ (product ∅ s).same ∅ = true) ∧
    (product s (Catalog.union t u)).same (Catalog.union (product s t) (product s u)) = true ∧
    (product (Catalog.union s t) u).same (Catalog.union (product s u) (product t u)) = true := by
  have hzero {s : Solutions} {d : Bindings} : (product ∅ s).Holds d ↔ Holds ∅ d :=
    iff_of_false not_holds_empty_product not_holds_empty
  refine ⟨same_of_holds_iff fun d => holds_product_comm,
    same_of_holds_iff fun d => holds_product_assoc,
    ⟨same_of_holds_iff fun d => holds_product_comm.trans holds_unit_product,
      same_of_holds_iff fun d => holds_unit_product⟩,
    ⟨same_of_holds_iff fun d => holds_product_comm.trans hzero, same_of_holds_iff fun d => hzero⟩,
    same_of_holds_iff fun d => ?_, same_of_holds_iff fun d => ?_⟩
  -- the product distributes over a union on the right, and by commutativity also on the left
  · rw [holds_product_union, holds_union]
  · rw [holds_product_comm, holds_product_union, holds_union, holds_product_comm (s := u),
      holds_product_comm (s := u)]

end Solutions

end CodeRules
