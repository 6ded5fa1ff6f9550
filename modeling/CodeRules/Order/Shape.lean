/-!
# Shapes

A shape is a tree of numbers and texts. Every value of the library that is kept in an ordered
collection has one: two values count as the same exactly when their shapes are equal, and
values are listed in the order of their shapes.

Main statements: `Shape.compare` is a total order (`Std.TransCmp`) that answers `eq` on equal
shapes only (`Std.LawfulEqCmp`), so equality of shapes is decidable.
-/

namespace CodeRules

/-- A tree of numbers and texts. -/
inductive Shape where
  | num (n : Int)
  | text (s : String)
  | seq (items : List Shape)

namespace Shape

mutual

/-- Numbers come before texts and texts before sequences; sequences are compared item by item,
and a sequence comes before its extensions. -/
protected def compare : Shape → Shape → Ordering
  | .num a, .num b => Ord.compare a b
  | .num _, .text _ => .lt
  | .num _, .seq _ => .lt
  | .text _, .num _ => .gt
  | .text a, .text b => Ord.compare a b
  | .text _, .seq _ => .lt
  | .seq _, .num _ => .gt
  | .seq _, .text _ => .gt
  | .seq as, .seq bs => Shape.compareAll as bs

/-- The comparison of two sequences of shapes. -/
protected def compareAll : List Shape → List Shape → Ordering
  | [], [] => .eq
  | [], _ :: _ => .lt
  | _ :: _, [] => .gt
  | a :: as, b :: bs => (Shape.compare a b).then (Shape.compareAll as bs)

end

instance : Ord Shape := ⟨Shape.compare⟩

/-- A missing part comes before a present one. -/
def opt : Option Shape → Shape
  | none => .seq []
  | some s => .seq [s]

/-- `false` comes before `true`. -/
def flag (b : Bool) : Shape := .num (if b then 1 else 0)

mutual

private theorem compare_swap : ∀ a b : Shape, Shape.compare a b = (Shape.compare b a).swap
  | .num a, .num b => by
    simp only [Shape.compare]; exact Std.OrientedCmp.eq_swap
  | .num _, .text _ => rfl
  | .num _, .seq _ => rfl
  | .text _, .num _ => rfl
  | .text a, .text b => by
    simp only [Shape.compare]; exact Std.OrientedCmp.eq_swap
  | .text _, .seq _ => rfl
  | .seq _, .num _ => rfl
  | .seq _, .text _ => rfl
  | .seq as, .seq bs => by
    simp only [Shape.compare]; exact compareAll_swap as bs

private theorem compareAll_swap :
    ∀ as bs : List Shape, Shape.compareAll as bs = (Shape.compareAll bs as).swap
  | [], [] => rfl
  | [], _ :: _ => rfl
  | _ :: _, [] => rfl
  | a :: as, b :: bs => by
    simp only [Shape.compareAll, Ordering.swap_then]
    rw [compare_swap a b, compareAll_swap as bs]

end

mutual

private theorem eq_of_compare : ∀ {a b : Shape}, Shape.compare a b = .eq → a = b
  | .num _, .num _, h => by
    simp only [Shape.compare] at h; rw [Std.LawfulEqCmp.eq_of_compare h]
  | .text _, .text _, h => by
    simp only [Shape.compare] at h; rw [Std.LawfulEqCmp.eq_of_compare h]
  | .seq _, .seq _, h => by
    simp only [Shape.compare] at h; rw [eq_of_compareAll h]
  | .num _, .text _, h => nomatch h
  | .num _, .seq _, h => nomatch h
  | .text _, .num _, h => nomatch h
  | .text _, .seq _, h => nomatch h
  | .seq _, .num _, h => nomatch h
  | .seq _, .text _, h => nomatch h

private theorem eq_of_compareAll :
    ∀ {as bs : List Shape}, Shape.compareAll as bs = .eq → as = bs
  | [], [], _ => rfl
  | [], _ :: _, h => nomatch h
  | _ :: _, [], h => nomatch h
  | a :: as, b :: bs, h => by
    simp only [Shape.compareAll, Ordering.then_eq_eq] at h
    rw [eq_of_compare h.1, eq_of_compareAll h.2]

end

mutual

private theorem compare_refl : ∀ a : Shape, Shape.compare a a = .eq
  | .num _ => by simp only [Shape.compare]; exact Std.ReflCmp.compare_self
  | .text _ => by simp only [Shape.compare]; exact Std.ReflCmp.compare_self
  | .seq as => by simp only [Shape.compare]; exact compareAll_refl as

private theorem compareAll_refl : ∀ as : List Shape, Shape.compareAll as as = .eq
  | [] => rfl
  | a :: as => by
    simp only [Shape.compareAll, Ordering.then_eq_eq]
    exact ⟨compare_refl a, compareAll_refl as⟩

end

private theorem lt_of_isLE_of_lt_or {x y z : Ordering} (hxz : x.isLE) (hne : x = .eq → z = y.swap)
    (hyz : y = .lt ∧ z.isLE ∨ y.isLE ∧ z = .lt) : x = .lt := by
  revert hxz hne hyz
  cases x <;> cases y <;> cases z <;> simp

mutual

private theorem compare_isLE_trans :
    ∀ {a b c : Shape}, (Shape.compare a b).isLE → (Shape.compare b c).isLE →
      (Shape.compare a c).isLE
  | .num a, .num b, .num c, h, k => by
    simp only [Shape.compare] at h k ⊢; exact Std.TransCmp.isLE_trans h k
  | .text a, .text b, .text c, h, k => by
    simp only [Shape.compare] at h k ⊢; exact Std.TransCmp.isLE_trans h k
  | .seq _, .seq _, .seq _, h, k => by
    simp only [Shape.compare] at h k ⊢; exact compareAll_isLE_trans h k
  | .num _, _, .text _, _, _ => rfl
  | .num _, _, .seq _, _, _ => rfl
  | .text _, _, .seq _, _, _ => rfl
  | .num _, .text _, .num _, _, k => nomatch k
  | .num _, .seq _, .num _, _, k => nomatch k
  | .text _, .num _, _, h, _ => nomatch h
  | .text _, .text _, .num _, _, k => nomatch k
  | .text _, .seq _, .num _, _, k => nomatch k
  | .text _, .seq _, .text _, _, k => nomatch k
  | .seq _, .num _, _, h, _ => nomatch h
  | .seq _, .text _, _, h, _ => nomatch h
  | .seq _, .seq _, .num _, _, k => nomatch k
  | .seq _, .seq _, .text _, _, k => nomatch k

private theorem compareAll_isLE_trans :
    ∀ {as bs cs : List Shape}, (Shape.compareAll as bs).isLE → (Shape.compareAll bs cs).isLE →
      (Shape.compareAll as cs).isLE
  | [], _, [], _, _ => rfl
  | [], _, _ :: _, _, _ => rfl
  | _ :: _, [], _, h, _ => nomatch h
  | _ :: _, _ :: _, [], _, k => nomatch k
  | a :: as, b :: bs, c :: cs, h, k => by
    simp only [Shape.compareAll, Ordering.isLE_then_iff_or] at h k ⊢
    have hab : (Shape.compare a b).isLE := by rcases h with h | ⟨h, _⟩ <;> rw [h] <;> rfl
    have hbc : (Shape.compare b c).isLE := by rcases k with k | ⟨k, _⟩ <;> rw [k] <;> rfl
    -- the heads decide, unless they are equal throughout
    have key : (Shape.compare a c).isLE := compare_isLE_trans hab hbc
    have swap : Shape.compare a c = .eq → Shape.compare b c = (Shape.compare a b).swap := by
      intro e
      rw [eq_of_compare e]; exact compare_swap b c
    rcases h with h | ⟨h, h'⟩
    · exact .inl (lt_of_isLE_of_lt_or key swap (.inl ⟨h, hbc⟩))
    · rcases k with k | ⟨k, k'⟩
      · exact .inl (lt_of_isLE_of_lt_or key swap (.inr ⟨hab, k⟩))
      · right
        have e := eq_of_compare h
        subst e
        exact ⟨k, compareAll_isLE_trans h' k'⟩

end

instance : Std.TransOrd Shape where
  eq_swap := compare_swap _ _
  isLE_trans := compare_isLE_trans

instance : Std.LawfulEqOrd Shape where
  compare_self := compare_refl _
  eq_of_compare := eq_of_compare

instance : DecidableEq Shape := fun a b =>
  if h : Ord.compare a b = .eq then .isTrue (Std.LawfulEqCmp.eq_of_compare h)
  else .isFalse fun e => h (e ▸ Std.ReflCmp.compare_self)

end Shape

end CodeRules
