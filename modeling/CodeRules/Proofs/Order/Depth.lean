import CodeRules.Proofs.Order.Digraph
import Mathlib.Order.Bounds.Defs

/-!
# The depth of layers

`Steps R n u v` counts the steps of a path. The layer of a node is as deep as the longest path into it
has edges (`Digraph.isGreatest_layers`). Knots are cycles (`Digraph.exists_cycle_of_knot?`), so a graph
has neither loops nor knots exactly when it has no cycle.
-/

namespace CodeRules

/-- A path of `n` steps leads from the first node to the second. -/
inductive Steps {α : Type} (R : α → α → Prop) : Nat → α → α → Prop
  | refl (v : α) : Steps R 0 v v
  | head {n : Nat} {u v w : α} : R u v → Steps R n v w → Steps R (n + 1) u w

namespace Steps

variable {α : Type} {R S : α → α → Prop} {n : Nat} {u v : α}

/-- Steps may be replaced by steps of another relation. -/
theorem mono (hRS : ∀ u v, R u v → S u v) (h : Steps R n u v) : Steps S n u v := by
  induction h with
  | refl v => exact .refl v
  | head huv _ ih => exact .head (hRS _ _ huv) ih

/-- The first step of a path that has one. -/
theorem cases_succ (h : Steps R (n + 1) u v) : ∃ w, R u w ∧ Steps R n w v := by
  cases h with
  | head huw hwv => exact ⟨_, huw, hwv⟩

/-- A path may go on. -/
theorem tail {w : α} (h : Steps R n u v) (hvw : R v w) : Steps R (n + 1) u w := by
  induction h with
  | refl v => exact .head hvw (.refl w)
  | head huv _ ih => exact .head huv (ih hvw)

/-- The last step of a path that has one. -/
theorem exists_last (h : Steps R (n + 1) u v) : ∃ w, R w v := by
  induction n generalizing u with
  | zero =>
    obtain ⟨w, huw, hwv⟩ := h.cases_succ
    cases hwv
    exact ⟨u, huw⟩
  | succ n ih =>
    obtain ⟨w, _, hwv⟩ := h.cases_succ
    exact ih hwv

end Steps

namespace Digraph

variable {g : Digraph}

/-! ### Knots -/

/-- The nodes of a knot stand on a cycle. -/
theorem exists_cycle_of_knot? (hb : g.Bounded) {knot : List Nat} (h : g.knot? = some knot) :
    ∃ v, Relation.TransGen g.Edge v v := by
  unfold knot? at h
  obtain ⟨p, hp, hsome⟩ := List.exists_of_findSome?_eq_some h
  obtain ⟨v, hv, rfl⟩ := List.mem_map.1 hp
  have hv : v < g.size := (mem_postorder hb).1 hv
  have hlong : 1 < (g.component v).length := by
    dsimp only at hsome
    split at hsome
    · rename_i hlong
      exact hlong.1
    · cases hsome
  -- a component of several nodes has a node besides `v`
  have hnodup : (g.component v).Nodup := (nodup_postorder hb).filter _
  obtain ⟨u, hu, huv⟩ : ∃ u ∈ g.component v, u ≠ v := by
    by_contra hall
    have hsub : g.component v ⊆ [v] := by
      intro u hu
      by_contra hne
      exact hall ⟨u, hu, by simpa using hne⟩
    have hlen : (g.component v).length ≤ 1 := (hnodup.subperm hsub).length_le
    omega
  obtain ⟨_, hpath, hback⟩ := (mem_component hb hv).1 hu
  refine ⟨v, ?_⟩
  rcases Relation.ReflTransGen.cases_head hback with heq | ⟨w, hvw, hwu⟩
  · exact absurd heq.symm huv
  · exact Relation.TransGen.head' hvw (hwu.trans hpath)

/-! ### Layers -/

/-- An edge between pending nodes. -/
private def EdgeAmong (g : Digraph) (pending : List Nat) (u v : Nat) : Prop :=
  u ∈ pending ∧ v ∈ pending ∧ g.Edge u v

/-- A pending node waits when an edge leads to it from a pending node. -/
private theorem mem_waiting_iff {pending : List Nat} {v : Nat} :
    v ∈ g.waiting pending ↔ v ∈ pending ∧ ∃ u ∈ pending, g.Edge u v := by
  rw [waiting, List.mem_filter, Bool.not_eq_true', ← Bool.not_eq_true, isReady_iff]
  simp

/-- The rest of a path stays among the nodes that wait. -/
private theorem walk_waiting {pending : List Nat} {n : Nat} {u v : Nat}
    (hu : u ∈ g.waiting pending) (h : Steps (g.EdgeAmong pending) n u v) :
    Steps (g.EdgeAmong (g.waiting pending)) n u v := by
  induction h with
  | refl v => exact .refl v
  | head huv _ ih =>
    -- The second node of the path waits for the first.
    have hv := mem_waiting_iff.2 ⟨huv.2.1, _, huv.1, huv.2.2⟩
    exact .head ⟨hu, hv, huv.2.2⟩ (ih hv)

/-- The layer of a pending node is as deep as the longest path from a pending node has edges. -/
private theorem isGreatest_layersOf {pending : List Nat} {layers : List (List Nat)}
    (h : g.layersOf pending = .ok layers) {depth : Nat} {layer : List Nat}
    (hlayer : layers[depth]? = some layer) {v : Nat} (hv : v ∈ layer) :
    IsGreatest {n | ∃ u, Steps (g.EdgeAmong pending) n u v} depth := by
  -- The induction is on the layering: the first layer has no edges into it, and the others are one deeper
  -- than among the nodes that wait.
  induction pending using layersOf.induct (g := g) generalizing layers depth layer with
  | case1 =>
    simp only [layersOf, ↓reduceIte, Except.ok.injEq] at h
    subst h
    cases hlayer
  | case2 pending hne hready =>
    rw [layersOf] at h
    simp [hne, hready] at h
  | case3 pending hne hready _ ih =>
    obtain ⟨rest, hrest, rfl⟩ := layersOf_eq_ok hne h
    cases depth with
    | zero =>
      obtain rfl := Option.some.inj hlayer
      refine ⟨⟨v, .refl v⟩, ?_⟩
      rintro n ⟨u, hwalk⟩
      cases n with
      | zero => exact Nat.le_refl 0
      | succ n =>
        -- no edge from a pending node leads to a node that is ready
        obtain ⟨w, hw⟩ := hwalk.exists_last
        exact absurd hw.2.2 (isReady_iff.1 (List.mem_filter.1 hv).2 w hw.1)
    | succ depth =>
      obtain ⟨⟨u, hwalk⟩, hgreatest⟩ := ih hrest hlayer hv
      constructor
      · -- the longest path starts at a node that waits, so it can be made longer
        have hu : u ∈ g.waiting pending := by
          cases hwalk with
          | refl _ =>
            have hflat : v ∈ rest.flatten :=
              List.mem_flatten.2 ⟨layer, List.mem_of_getElem? hlayer, hv⟩
            exact (layersOf_perm hrest).mem_iff.1 hflat
          | head huw _ => exact huw.1
        obtain ⟨hmem, w, hw, hedge⟩ := mem_waiting_iff.1 hu
        refine ⟨w, .head ⟨hw, hmem, hedge⟩ (hwalk.mono fun a b hab => ?_)⟩
        exact ⟨(mem_waiting_iff.1 hab.1).1, (mem_waiting_iff.1 hab.2.1).1, hab.2.2⟩
      · rintro n ⟨u, hwalk⟩
        cases n with
        | zero => exact Nat.zero_le _
        | succ n =>
          obtain ⟨w, huw, hwv⟩ := hwalk.cases_succ
          have hw := mem_waiting_iff.2 ⟨huw.2.1, u, huw.1, huw.2.2⟩
          exact Nat.succ_le_succ (hgreatest ⟨w, walk_waiting hw hwv⟩)

/-- The layer of a node is as deep as the longest path into it has edges. -/
theorem isGreatest_layers (hb : g.Bounded) {layers : List (List Nat)} (h : g.layers = .ok layers)
    {depth : Nat} {layer : List Nat} (hlayer : layers[depth]? = some layer) {v : Nat}
    (hv : v ∈ layer) : IsGreatest {n | ∃ u, Steps g.Edge n u v} depth := by
  have hsame : g.EdgeAmong (List.range g.size) = g.Edge := by
    funext u v
    -- All nodes are pending in the beginning, and the edges join nodes of the graph.
    refine propext ⟨fun h => h.2.2, fun h => ?_⟩
    exact ⟨List.mem_range.2 (hb u v h).1, List.mem_range.2 (hb u v h).2, h⟩
  rw [← hsame]
  exact isGreatest_layersOf h hlayer hv

end Digraph

end CodeRules
