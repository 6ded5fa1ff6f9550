import CodeRules.Binding.Solutions
import CodeRules.Proofs.Binding.View

/-!
# Sets of solutions as sets of views

Solutions without results are known by their views. `View.Join` joins sets of views; it is commutative
and associative, and the views of a product of solutions are the join of theirs
(`Solutions.HasViews.product`).
-/

namespace CodeRules

/-! ### Sets of views -/

namespace View

variable {u v w : View} {P P' Q R : View → Prop}

/-- The joins of the views of two sets. -/
def Join (P Q : View → Prop) (w : View) : Prop := ∃ u v, P u ∧ Q v ∧ Joins u v w

/-- The order of two sets does not matter to their join. -/
theorem join_comm (P Q : View → Prop) : Join P Q = Join Q P := by
  have hswap {P Q : View → Prop} {w : View} : Join P Q w → Join Q P w :=
    fun ⟨u, v, hu, hv, h⟩ => ⟨v, u, hv, hu, h.comm⟩
  exact funext fun w => propext ⟨hswap, hswap⟩

/-- Sets of views are joined in any grouping. -/
theorem join_assoc (P Q R : View → Prop) : Join (Join P Q) R = Join P (Join Q R) := by
  refine funext fun w => propext ⟨?_, ?_⟩
  · rintro ⟨x, r, ⟨p, q, hp, hq, hx⟩, hr, hw⟩
    obtain ⟨y, hy, hw⟩ := hx.assoc hw
    exact ⟨p, y, hp, ⟨q, r, hq, hr, hy⟩, hw⟩
  · rintro ⟨p, y, hp, ⟨q, r, hq, hr, hy⟩, hw⟩
    obtain ⟨x, hx, hw⟩ := hy.assoc' hw
    exact ⟨x, r, ⟨p, q, hp, hq, hx⟩, hr, hw⟩

/-- The first two of three sets can be exchanged. -/
theorem join_left_comm (P Q R : View → Prop) : Join P (Join Q R) = Join Q (Join P R) := by
  rw [← join_assoc, join_comm P Q, join_assoc]

/-- The view without names joined to a set gives the set. -/
theorem none_join (P : View → Prop) : Join (· = none) P = P := by
  refine funext fun w => propext ⟨?_, fun hw => ⟨none, w, rfl, hw, .none_left w⟩⟩
  rintro ⟨u, v, rfl, hv, h⟩
  exact h.unique (.none_left v) ▸ hv

/-- A set joined to the view without names stays the set. -/
theorem join_none (P : View → Prop) : Join P (· = none) = P := by rw [join_comm, none_join]

/-- Of the views that a view is joined to, the names that are hidden from it do not matter, when they
are hidden afterwards. -/
theorem exists_joins_hide {hidden : List String} :
    (∃ x, Joins (u.hide hidden) v x ∧ Joins (x.hide hidden) u w) ↔ Joins u (v.hide hidden) w := by
  constructor
  -- a join of the hidden view is a join of the whole one with `v` hidden: name by name
  · rintro ⟨x, hx, hw⟩
    refine ⟨fun n k k' hk hk' => ?_, fun n => ?_⟩
    · unfold hide at hk'
      split at hk'
      · cases hk'
      · exact hx.agree n k k' (by rw [hide, if_neg ‹_›]; exact hk) hk'
    · rw [hw.eq, hide, hide]
      split
      · rw [Option.none_or, Option.or_none]
      · rw [hx.eq, hide, if_neg ‹_›]
        cases u n with
        | none => rw [Option.none_or, Option.or_none]
        | some k => rw [Option.some_or, Option.some_or]
  -- for the way back, the middle is the join of the hidden `u` with all of `v`
  · intro h
    have hhide {n : String} {k : Shape} (hk : u.hide hidden n = some k) :
        n ∉ hidden ∧ u n = some k := by
      unfold hide at hk
      split at hk
      · cases hk
      · exact ⟨‹_›, hk⟩
    obtain ⟨x, hx⟩ := Joins.exists_of_agree (u := u.hide hidden) (v := v) fun n k k' hk hk' =>
      h.agree n k k' (hhide hk).2 (by rw [hide, if_neg (hhide hk).1]; exact hk')
    -- at a hidden name the middle view has what `v` has, and hiding it again leaves what `u` has
    refine ⟨x, hx, fun n k k' hk hk' => ?_, fun n => ?_⟩
    · unfold hide at hk
      split at hk
      · cases hk
      · rw [hx.eq, hide, if_neg ‹_›, hk', Option.some_or] at hk
        exact (Option.some.inj hk).symm
    · rw [h.eq, hide, hide]
      split
      · rw [Option.none_or, Option.or_none]
      · rw [hx.eq, hide, if_neg ‹_›]
        cases u n with
        | none => rw [Option.none_or, Option.or_none]
        | some k => rw [Option.some_or, Option.some_or]

end View

/-! ### Solutions by their views -/

namespace Solutions

variable {P Q : View → Prop} {s t : Solutions}

/-- The solutions have no results, and their views are exactly those of a set. -/
structure HasViews (s : Solutions) (P : View → Prop) : Prop where
  sound : ∀ c ∈ s.toList, c.result = none ∧ P c.view
  complete : ∀ v, P v → ∃ c ∈ s.toList, c.view = v

/-- Bindings that are kept once for each shape have the views of the bindings that were given. -/
private theorem hasViews_of_contains {l : List Bindings}
    (hs : ∀ k, Catalog.contains s k = true ↔ ∃ c ∈ l, c.shape = k) (hmem : ∀ c ∈ s.toList, c ∈ l)
    (hsound : ∀ c ∈ l, c.result = none ∧ P c.view) (hcomplete : ∀ v, P v → ∃ c ∈ l, c.view = v) :
    s.HasViews P where
  sound c hc := hsound c (hmem c hc)
  complete v hv := by
    obtain ⟨c, hc, rfl⟩ := hcomplete v hv
    -- the bindings that are kept have the shape of the given ones, and so the same view
    obtain ⟨d, hd, hshape⟩ := Catalog.contains_iff.1 ((hs c.shape).2 ⟨c, hc, rfl⟩)
    exact ⟨d, hd, (Bindings.shape_eq_iff.1 hshape).1⟩

/-- A list of solutions, once each, has the views of the list. -/
theorem hasViews_ofListFirst {l : List Bindings} (hsound : ∀ c ∈ l, c.result = none ∧ P c.view)
    (hcomplete : ∀ v, P v → ∃ c ∈ l, c.view = v) : HasViews (Catalog.ofListFirst l) P :=
  hasViews_of_contains (fun _ => Catalog.contains_ofListFirst)
    (fun _ => Catalog.mem_of_mem_ofListFirst) hsound hcomplete

/-- No solution has no view. -/
theorem hasViews_empty : HasViews ∅ fun _ => False :=
  ⟨fun _ hc => absurd hc List.not_mem_nil, fun _ h => h.elim⟩

/-- A single solution has its own view. -/
theorem hasViews_singleton {b : Bindings} (hb : b.result = none) :
    HasViews (Catalog.singleton b) (· = b.view) where
  sound c hc := by
    rw [List.mem_singleton.1 hc]
    exact ⟨hb, rfl⟩
  complete v hv := ⟨b, List.mem_singleton_self b, hv.symm⟩

/-- All solutions of two sets have the views of either. -/
theorem HasViews.union (hs : s.HasViews P) (ht : t.HasViews Q) :
    HasViews (Catalog.union s t) fun v => P v ∨ Q v := by
  refine hasViews_of_contains (l := s.toList ++ t.toList) (fun k => ?_) (fun c hc => ?_)
    (fun c hc => ?_) fun v hv => ?_
  · rw [Catalog.contains_union, Catalog.contains_iff, Catalog.contains_iff]
    simp only [List.mem_append, or_and_right, exists_or]
  · exact List.mem_append.2 (Catalog.mem_of_mem_union hc)
  · rcases List.mem_append.1 hc with hc | hc
    · exact ⟨(hs.sound c hc).1, .inl (hs.sound c hc).2⟩
    · exact ⟨(ht.sound c hc).1, .inr (ht.sound c hc).2⟩
  · rcases hv with hv | hv
    · obtain ⟨c, hc, hview⟩ := hs.complete v hv
      exact ⟨c, List.mem_append_left _ hc, hview⟩
    · obtain ⟨c, hc, hview⟩ := ht.complete v hv
      exact ⟨c, List.mem_append_right _ hc, hview⟩

/-- A solution that may be missing is added to others. -/
theorem HasViews.insert {o : Option Bindings} (hs : s.HasViews P) (ho : (ofOption o).HasViews Q) :
    HasViews (o.elim s (Catalog.insert s)) fun v => P v ∨ Q v := by
  cases o with
  | none =>
    refine ⟨fun c hc => (hs.sound c hc).imp_right .inl, fun v hv => hv.elim (hs.complete v) fun hv => ?_⟩
    obtain ⟨c, hc, _⟩ := ho.complete v hv
    exact absurd hc List.not_mem_nil
  | some b => exact hs.union ho

/-- Solutions with the same views are the same. -/
theorem HasViews.same (hs : s.HasViews P) (ht : t.HasViews P) : s.same t = true := by
  -- a solution without result is known by its view, so each side contains what the other has
  have hcontains {s t : Solutions} (hs : s.HasViews P) (ht : t.HasViews P) {k : Shape}
      (hk : Catalog.contains s k = true) : Catalog.contains t k = true := by
    obtain ⟨c, hc, rfl⟩ := Catalog.contains_iff.1 hk
    obtain ⟨hresult, hview⟩ := hs.sound c hc
    obtain ⟨d, hd, hview⟩ := ht.complete _ hview
    refine Catalog.contains_iff.2 ⟨d, hd, Bindings.shape_eq_iff.2 ⟨hview, ?_⟩⟩
    rw [hresult, (ht.sound d hd).1]
  exact decide_eq_true (Catalog.map_key_eq fun k => ⟨hcontains hs ht, hcontains ht hs⟩)

/-- The product of sets of solutions joins their views. -/
theorem HasViews.product (hs : s.HasViews P) (ht : t.HasViews Q) :
    (product s t).HasViews (View.Join P Q) := by
  refine hasViews_ofListFirst (fun c hc => ?_) fun w hw => ?_
  -- a merge of two solutions joins their views
  · obtain ⟨a, ha, hc⟩ := List.mem_flatMap.1 hc
    obtain ⟨b, hb, hmerge⟩ := List.mem_filterMap.1 hc
    obtain ⟨haresult, hP⟩ := hs.sound a ha
    obtain ⟨hbresult, hQ⟩ := ht.sound b hb
    exact ⟨Bindings.result_of_consistentMerge? hmerge haresult hbresult,
      a.view, b.view, hP, hQ, Bindings.joins_of_consistentMerge? hmerge⟩
  -- two views that join agree, so bindings with these views can be merged
  · obtain ⟨u, v, hu, hv, hjoins⟩ := hw
    obtain ⟨a, ha, rfl⟩ := hs.complete u hu
    obtain ⟨b, hb, rfl⟩ := ht.complete v hv
    obtain ⟨c, hmerge⟩ := Bindings.exists_consistentMerge? (hs.sound a ha).1 (ht.sound b hb).1
      hjoins.agree
    refine ⟨c, List.mem_flatMap.2 ⟨a, ha, List.mem_filterMap.2 ⟨b, hb, hmerge⟩⟩, ?_⟩
    exact (Bindings.joins_of_consistentMerge? hmerge).unique hjoins

end Solutions

end CodeRules
