import CodeRules.Order.Digraph
import Mathlib.Data.Finset.Card
import Mathlib.Data.Finset.Range
import Mathlib.Data.List.Perm.Basic
import Mathlib.Logic.Relation

/-!
# Searching and layering directed graphs

A depth-first search finds what is reachable: `reaches_iff` reads `Digraph.reaches` as a path, and
`postorder` lists every node once. From this `exists_layers_eq_ok` follows: a graph whose edges stay
within it, without loops from a node to itself and without a knot, can be put into layers.

`layers_perm` and `layers_pairwise` say what layers are good for: run in this order, every node
comes once, and after all nodes that have an edge to it. `countDown_counts` ties readiness to counters:
a node is ready when it waits for no edge, and taking off the edges of the nodes that are ready keeps
the count of every other node right.
-/

namespace CodeRules

/-- The nodes seen so far are nodes of the graph, each listed once. -/
structure Exploration.Within (w : Exploration) (g : Digraph) : Prop where
  nodup : w.seen.Nodup
  lt : ∀ v ∈ w.seen, v < g.size

namespace Digraph

variable {g : Digraph}

/-- There is an edge from `u` to `v`. -/
def Edge (g : Digraph) (u v : Nat) : Prop := (u, v) ∈ g.edges

/-- There is a path from `u` to `v`, perhaps of no edge. -/
def Path (g : Digraph) : Nat → Nat → Prop := Relation.ReflTransGen g.Edge

/-- Every edge joins nodes of the graph. -/
def Bounded (g : Digraph) : Prop := ∀ u v, g.Edge u v → u < g.size ∧ v < g.size

/-- The successors of a node are where its edges lead to. -/
theorem mem_successors {u v : Nat} : v ∈ g.successors u ↔ g.Edge u v := by
  simp [successors, Edge]

/-! ### Depth-first search -/

/-- What a search from `roots` adds to an exploration: the roots and what can be reached from them,
closed under edges. Every node that is seen is also left. -/
structure Explores (g : Digraph) (roots : List Nat) (w w' : Exploration) : Prop where
  within : w'.Within g
  suffix : w.seen <:+ w'.seen
  mem_roots : ∀ r ∈ roots, r ∈ w'.seen
  closed : ∀ u v, u ∈ w'.seen → u ∉ w.seen → g.Edge u v → v ∈ w'.seen
  path : ∀ v ∈ w'.seen, v ∉ w.seen → ∃ r ∈ roots, g.Path r v
  left : ∃ l, w'.left = w.left ++ l ∧ l.Nodup ∧ ∀ v, v ∈ l ↔ v ∈ w'.seen ∧ v ∉ w.seen

namespace Explores

variable {w w₁ w₂ : Exploration} {roots more : List Nat}

/-- A search from no node sees nothing new. -/
private theorem refl (hw : w.Within g) : Explores g [] w w where
  within := hw
  suffix := List.suffix_refl _
  mem_roots := by simp
  closed u v hu hn := absurd hu hn
  path v hv hn := absurd hv hn
  left := ⟨[], by simp, List.nodup_nil, by simp⟩

/-- Nothing is done for a node that was seen. -/
private theorem of_mem {v : Nat} (hw : w.Within g) (hv : v ∈ w.seen) : Explores g [v] w w :=
  { refl hw with
    mem_roots := by simpa using hv
    path := fun _ hu hn => absurd hu hn }

/-- Searches that follow each other count as one search. -/
private theorem trans (h₁ : Explores g roots w w₁) (h₂ : Explores g more w₁ w₂) :
    Explores g (roots ++ more) w w₂ where
  within := h₂.within
  suffix := h₁.suffix.trans h₂.suffix
  mem_roots r hr := by
    rcases List.mem_append.1 hr with hr | hr
    · exact h₂.suffix.subset (h₁.mem_roots r hr)
    · exact h₂.mem_roots r hr
  closed u v hu hn he := by
    -- A node that is seen was seen by the first search or only by the second one, and its edges were
    -- followed by that search.
    by_cases hu₁ : u ∈ w₁.seen
    · exact h₂.suffix.subset (h₁.closed u v hu₁ hn he)
    · exact h₂.closed u v hu hu₁ he
  path v hv hn := by
    by_cases hv₁ : v ∈ w₁.seen
    · obtain ⟨r, hr, hp⟩ := h₁.path v hv₁ hn
      exact ⟨r, List.mem_append_left _ hr, hp⟩
    · obtain ⟨r, hr, hp⟩ := h₂.path v hv hv₁
      exact ⟨r, List.mem_append_right _ hr, hp⟩
  left := by
    obtain ⟨l₁, e₁, n₁, m₁⟩ := h₁.left
    obtain ⟨l₂, e₂, n₂, m₂⟩ := h₂.left
    have hsub := h₁.suffix.subset
    have hsub' := h₂.suffix.subset
    -- What the second search leaves was not seen by the first one, so nothing is left twice.
    refine ⟨l₁ ++ l₂, by rw [e₂, e₁, List.append_assoc], ?_, ?_⟩
    · refine List.nodup_append.2 ⟨n₁, n₂, ?_⟩
      rintro v hv u hu rfl
      exact ((m₂ v).1 hu).2 ((m₁ v).1 hv).1
    · intro v
      rw [List.mem_append, m₁, m₂]
      constructor
      · rintro (⟨hv, hn⟩ | ⟨hv, hn⟩)
        · exact ⟨hsub' hv, hn⟩
        · exact ⟨hv, fun hv' => hn (hsub hv')⟩
      · rintro ⟨hv, hn⟩
        by_cases hv₁ : v ∈ w₁.seen
        · exact .inl ⟨hv₁, hn⟩
        · exact .inr ⟨hv, hv₁⟩

end Explores

/-- An exploration of as many nodes as the graph has has seen all of them. -/
private theorem mem_of_size_le {w : Exploration} (hw : w.Within g)
    (hsize : g.size ≤ w.seen.length) {v : Nat} (hv : v < g.size) : v ∈ w.seen := by
  have hsub : w.seen.toFinset ⊆ Finset.range g.size := by
    intro u hu
    exact Finset.mem_range.2 (hw.lt u (List.mem_toFinset.1 hu))
  have hcard : (Finset.range g.size).card ≤ w.seen.toFinset.card := by
    rw [Finset.card_range, List.toFinset_card_of_nodup hw.nodup]
    exact hsize
  have heq := Finset.eq_of_subset_of_card_le hsub hcard
  exact List.mem_toFinset.1 (heq ▸ Finset.mem_range.2 hv)

/-- Searching from several nodes in turn, given what searching from one of them does. -/
private theorem explores_foldl {depth : Nat}
    (ih : ∀ (w : Exploration) (v : Nat), w.Within g → v < g.size →
      g.size ≤ depth + w.seen.length → Explores g [v] w (g.visit depth w v))
    (vs : List Nat) (w : Exploration) (hw : w.Within g) (hvs : ∀ v ∈ vs, v < g.size)
    (hfuel : g.size ≤ depth + w.seen.length) :
    Explores g vs w (vs.foldl (g.visit depth) w) := by
  induction vs generalizing w with
  | nil => exact .refl hw
  | cons v vs ihv =>
    have h₁ := ih w v hw (hvs v (List.mem_cons_self ..)) hfuel
    have hlen := h₁.suffix.length_le
    -- The first search only adds to what is seen, so the depth is still enough for the others.
    have h₂ := ihv (g.visit depth w v) h₁.within
      (fun u hu => hvs u (List.mem_cons_of_mem _ hu)) (by omega)
    exact h₁.trans h₂

/-- A search with enough depth left for the nodes that were not seen explores what it is asked
to. -/
private theorem explores_visit (hb : g.Bounded) (depth : Nat) (w : Exploration) (v : Nat)
    (hw : w.Within g) (hv : v < g.size) (hfuel : g.size ≤ depth + w.seen.length) :
    Explores g [v] w (g.visit depth w v) := by
  induction depth generalizing w v with
  -- No depth is left, so all nodes were seen already.
  | zero => exact .of_mem hw (mem_of_size_le hw (by omega) hv)
  | succ depth ih =>
    simp only [visit]
    split
    · rename_i hs
      exact .of_mem hw (by simpa using hs)
    · rename_i hs
      have hs : v ∉ w.seen := by simpa using hs
      -- The node counts as seen, so the searches from its successors need one step less.
      have hw₁ : Exploration.Within { w with seen := v :: w.seen } g :=
        ⟨List.nodup_cons.2 ⟨hs, hw.nodup⟩, by simpa using ⟨hv, hw.lt⟩⟩
      have h := explores_foldl ih (g.successors v) { w with seen := v :: w.seen } hw₁
        (fun u hu => (hb v u (mem_successors.1 hu)).2)
        (by simp only [List.length_cons]; omega)
      have hmem : v ∈ ((g.successors v).foldl (g.visit depth)
          { w with seen := v :: w.seen }).seen := h.suffix.subset (List.mem_cons_self ..)
      refine
        { within := ⟨h.within.nodup, h.within.lt⟩
          suffix := (List.suffix_cons v w.seen).trans h.suffix
          mem_roots := by simpa using hmem
          closed := ?_
          path := ?_
          left := ?_ }
      -- The edges of the node lead to the roots of the inner search; other nodes are left to that search.
      · intro x y hx hn he
        by_cases hxv : x = v
        · subst hxv
          exact h.mem_roots y (mem_successors.2 he)
        · exact h.closed x y hx (by simp [hxv, hn]) he
      -- A path to what the inner search found goes on from the edge to a successor.
      · intro x hx hn
        by_cases hxv : x = v
        · exact ⟨v, by simp, hxv ▸ .refl⟩
        · obtain ⟨r, hr, hp⟩ := h.path x hx (by simp [hxv, hn])
          exact ⟨v, by simp, .head (mem_successors.1 hr) hp⟩
      -- The node is left last, after all that the inner search left.
      · obtain ⟨l, e, hnd, hm⟩ := h.left
        refine ⟨l ++ [v], by simp only [e, List.append_assoc], ?_, ?_⟩
        · refine List.nodup_append.2 ⟨hnd, by simp, ?_⟩
          rintro x hx u hu rfl
          have := ((hm x).1 hx).2
          simp_all
        · intro x
          simp only [List.mem_append, hm, List.mem_cons, List.not_mem_nil, or_false, not_or]
          constructor
          · rintro (⟨hx, _, hn⟩ | rfl)
            · exact ⟨hx, hn⟩
            · exact ⟨hmem, hs⟩
          · rintro ⟨hx, hn⟩
            by_cases hxv : x = v
            · exact .inr hxv
            · exact .inl ⟨hx, hxv, hn⟩

/-- What a search from the start finds: the nodes with a path from one of the roots. -/
private theorem Explores.mem_iff {roots : List Nat} {w : Exploration}
    (h : Explores g roots {} w) (v : Nat) : v ∈ w.seen ↔ ∃ r ∈ roots, g.Path r v := by
  refine ⟨fun hv => h.path v hv (by simp), ?_⟩
  rintro ⟨r, hr, hp⟩
  induction hp with
  | refl => exact h.mem_roots r hr
  | tail _ he ih => exact h.closed _ _ ih (by simp) he

/-- Nothing is seen in the beginning. -/
private theorem within_empty : Exploration.Within {} g := ⟨List.nodup_nil, by simp⟩

/-- A node reaches the nodes that a path leads to. -/
theorem reaches_iff (hb : g.Bounded) {u v : Nat} (hu : u < g.size) :
    g.reaches u v = true ↔ g.Path u v := by
  have h := explores_visit hb g.size {} u within_empty hu (by omega)
  simpa [reaches] using h.mem_iff v

/-- The search over all nodes explores the whole graph. -/
private theorem explores_postorder (hb : g.Bounded) : Explores g (List.range g.size) {}
    ((List.range g.size).foldl (g.visit g.size) {}) :=
  explores_foldl (explores_visit hb g.size) _ _ within_empty (by simp) (by omega)

/-- The order of leaving has no node twice. -/
theorem nodup_postorder (hb : g.Bounded) : g.postorder.Nodup := by
  obtain ⟨l, e, hnd, _⟩ := (explores_postorder hb).left
  simpa [postorder, e] using hnd

/-- The order of leaving has every node of the graph. -/
theorem mem_postorder (hb : g.Bounded) {v : Nat} : v ∈ g.postorder ↔ v < g.size := by
  have h := explores_postorder hb
  obtain ⟨l, e, _, hm⟩ := h.left
  simp only [postorder, e, List.nil_append, hm, List.not_mem_nil, not_false_eq_true, and_true]
  exact ⟨h.within.lt v, fun hv => h.mem_roots v (List.mem_range.2 hv)⟩

/-! ### Knots -/

/-- A path from a node of the graph ends in one. -/
theorem Path.lt (hb : g.Bounded) {u v : Nat} (hp : g.Path u v) (hu : u < g.size) :
    v < g.size := by
  -- the last edge of a path joins nodes of the graph, whatever comes before it
  cases hp with
  | refl => exact hu
  | tail _ he => exact (hb _ _ he).2

/-- The component of a node has the nodes that it reaches and that reach it. -/
theorem mem_component (hb : g.Bounded) {u v : Nat} (hv : v < g.size) :
    u ∈ g.component v ↔ u < g.size ∧ g.Path u v ∧ g.Path v u := by
  simp only [component, List.mem_filter, mem_postorder hb, Bool.and_eq_true, reaches_iff hb hv]
  constructor
  · rintro ⟨hu, hp, hq⟩
    exact ⟨hu, (reaches_iff hb hu).1 hp, hq⟩
  · rintro ⟨hu, hp, hq⟩
    exact ⟨hu, (reaches_iff hb hu).2 hp, hq⟩

/-- Nodes that reach each other have the same component. -/
private theorem component_congr (hb : g.Bounded) {u v : Nat} (hu : u < g.size)
    (huv : g.Path u v) (hvu : g.Path v u) : g.component u = g.component v := by
  refine List.filter_congr fun x hx => ?_
  have hx : x < g.size := (mem_postorder hb).1 hx
  have hv : v < g.size := huv.lt hb hu
  rw [Bool.eq_iff_iff]
  simp only [Bool.and_eq_true, reaches_iff hb hx, reaches_iff hb hu, reaches_iff hb hv]
  constructor
  · intro h
    exact ⟨h.1.trans huv, hvu.trans h.2⟩
  · intro h
    exact ⟨h.1.trans hvu, huv.trans h.2⟩

/-- When there is no knot, nodes that reach each other are one node. -/
theorem eq_of_knot?_eq_none (hb : g.Bounded) (h : g.knot? = none) {u v : Nat} (hu : u < g.size)
    (huv : g.Path u v) (hvu : g.Path v u) : u = v := by
  by_cases heq : u = v
  · exact heq
  have hv : v < g.size := huv.lt hb hu
  have hmu : u ∈ g.component u := (mem_component hb hu).2 ⟨hu, .refl, .refl⟩
  have hmv : v ∈ g.component u := (mem_component hb hu).2 ⟨hv, hvu, huv⟩
  -- the last node of the component is the one whose component is reported
  obtain ⟨w, hw⟩ : ∃ w, (g.component u).getLast? = some w :=
    ⟨_, List.getLast?_eq_some_getLast (List.ne_nil_of_mem hmu)⟩
  obtain ⟨hw₁, hwu, huw⟩ := (mem_component hb hu).1 (List.mem_of_getLast? hw)
  -- Two different nodes belong to the component, so it is long enough to be reported.
  have hlen : 1 < (g.component u).length := by
    by_contra hlen
    obtain ⟨x, hx⟩ := List.length_eq_one_iff.1
      (show (g.component u).length = 1 by
        have := List.length_pos_of_mem hmu
        omega)
    rw [hx, List.mem_singleton] at hmu hmv
    exact heq (hmu.trans hmv.symm)
  simp only [knot?, List.findSome?_eq_none_iff, List.mem_map, forall_exists_index, and_imp,
    forall_apply_eq_imp_iff₂] at h
  have := h w ((mem_postorder hb).2 hw₁)
  rw [← component_congr hb hu huw hwu] at this
  simp [hlen, hw] at this

/-- No node reaches itself by a path of some edges. -/
def Acyclic (g : Digraph) : Prop := ∀ v, ¬ Relation.TransGen g.Edge v v

/-- Without loops and knots there are no cycles. -/
theorem acyclic_of_knot?_eq_none (hb : g.Bounded) (h : g.knot? = none)
    (hloop : ∀ v, ¬ g.Edge v v) : g.Acyclic := by
  intro v hv
  obtain ⟨u, he, hp⟩ := Relation.TransGen.head'_iff.1 hv
  have huv : g.Path v u := .single he
  have heq := eq_of_knot?_eq_none hb h (hb v u he).1 huv hp
  subst heq
  exact hloop v he

/-! ### Layers -/

/-- Among some nodes of a graph without cycles there is one that no edge from them leads to. -/
private theorem exists_ready (hg : g.Acyclic) {pending : List Nat} (hne : pending ≠ []) :
    ∃ v ∈ pending, ∀ u ∈ pending, ¬ Relation.TransGen g.Edge u v := by
  induction pending with
  | nil => exact absurd rfl hne
  | cons a l ih =>
    by_cases hl : l = []
    · subst hl
      refine ⟨a, List.mem_cons_self .., fun u hu => ?_⟩
      rw [List.mem_singleton.1 hu]
      exact hg a
    · obtain ⟨m, hm, hmin⟩ := ih hl
      by_cases ham : Relation.TransGen g.Edge a m
      -- what precedes `a` precedes `m` as well
      · refine ⟨a, List.mem_cons_self .., fun u hu hua => ?_⟩
        rcases List.mem_cons.1 hu with rfl | hu
        · exact hg _ hua
        · exact hmin u hu (hua.trans ham)
      · refine ⟨m, List.mem_cons_of_mem _ hm, fun u hu hum => ?_⟩
        rcases List.mem_cons.1 hu with rfl | hu
        · exact ham hum
        · exact hmin u hu hum

/-- A node is ready when no edge from a pending node leads to it. -/
theorem isReady_iff {pending : List Nat} {v : Nat} :
    g.isReady pending v = true ↔ ∀ u ∈ pending, ¬ g.Edge u v := by
  simp only [isReady, Bool.not_eq_true', List.any_eq_false, Bool.and_eq_true, beq_iff_eq,
    List.contains_iff_mem, not_and, Prod.forall, Edge]
  constructor
  · intro h u hu he
    exact h u v he rfl hu
  · rintro h a b he rfl ha
    exact h a ha he

/-- A graph without cycles can be put into layers. -/
theorem exists_layersOf_eq_ok (hg : g.Acyclic) (pending : List Nat) :
    ∃ layers, g.layersOf pending = .ok layers := by
  induction pending using layersOf.induct (g := g) with
  | case1 => exact ⟨[], by simp [layersOf]⟩
  | case2 pending hne hready =>
    obtain ⟨v, hv, hmin⟩ := exists_ready hg hne
    have : v ∈ g.ready pending :=
      List.mem_filter.2 ⟨hv, isReady_iff.2 fun u hu he => hmin u hu (.single he)⟩
    simp [hready] at this
  | case3 pending hne hready _ ih =>
    obtain ⟨layers, h⟩ := ih
    exact ⟨g.ready pending :: layers, by rw [layersOf]; simp [hne, hready, h, Except.map]⟩

/-- One step of the layering: the nodes that are ready come before the layers of the others. -/
theorem layersOf_eq_ok {pending : List Nat} (hne : pending ≠ [])
    {layers : List (List Nat)} (h : g.layersOf pending = .ok layers) :
    ∃ rest, g.layersOf (g.waiting pending) = .ok rest ∧ layers = g.ready pending :: rest := by
  rw [layersOf] at h
  simp only [hne, ↓reduceIte] at h
  split at h
  · cases h
  · cases hrest : g.layersOf (g.waiting pending) with
    | error n => rw [hrest] at h; cases h
    | ok rest =>
      rw [hrest] at h
      simp only [Except.map, Except.ok.injEq] at h
      exact ⟨rest, rfl, h.symm⟩

/-- The layers hold every node once. -/
theorem layersOf_perm {pending : List Nat} {layers : List (List Nat)}
    (h : g.layersOf pending = .ok layers) : layers.flatten.Perm pending := by
  induction pending using layersOf.induct (g := g) generalizing layers with
  | case1 =>
    simp only [layersOf, ↓reduceIte, Except.ok.injEq] at h
    subst h
    exact .refl _
  | case2 pending hne hready =>
    -- nothing is ready: there are no layers
    rw [layersOf] at h
    simp [hne, hready] at h
  | case3 pending hne hready _ ih =>
    obtain ⟨rest, hrest, rfl⟩ := layersOf_eq_ok hne h
    rw [List.flatten_cons]
    exact ((ih hrest).append_left _).trans (List.filter_append_perm ..)

/-- Run in layers, a node comes after all nodes with an edge to it. -/
theorem layersOf_pairwise {pending : List Nat} {layers : List (List Nat)}
    (h : g.layersOf pending = .ok layers) :
    layers.flatten.Pairwise fun u v => ¬ g.Edge v u := by
  induction pending using layersOf.induct (g := g) generalizing layers with
  | case1 =>
    simp only [layersOf, ↓reduceIte, Except.ok.injEq] at h
    subst h
    exact .nil
  | case2 pending hne hready =>
    rw [layersOf] at h
    simp [hne, hready] at h
  | case3 pending hne hready _ ih =>
    obtain ⟨rest, hrest, rfl⟩ := layersOf_eq_ok hne h
    have hperm := layersOf_perm hrest
    -- no edge leads to a node that is ready
    have hno {u v : Nat} (hu : u ∈ g.ready pending) (hv : v ∈ pending) : ¬ g.Edge v u :=
      isReady_iff.1 (List.mem_filter.1 hu).2 v hv
    rw [List.flatten_cons]
    refine List.pairwise_append.2 ⟨?_, ih hrest, ?_⟩
    · refine List.pairwise_of_forall_mem_list fun u hu v hv => ?_
      exact hno hu (List.mem_filter.1 hv).1
    · intro u hu v hv
      exact hno hu (List.mem_filter.1 (hperm.mem_iff.1 hv)).1

/-- A graph without loops and knots can be put into layers. -/
theorem exists_layers_eq_ok (hb : g.Bounded) (h : g.knot? = none) (hloop : ∀ v, ¬ g.Edge v v) :
    ∃ layers, g.layers = .ok layers :=
  exists_layersOf_eq_ok (acyclic_of_knot?_eq_none hb h hloop) _

/-- The layers of a graph hold each of its nodes once. -/
theorem layers_perm {layers : List (List Nat)} (h : g.layers = .ok layers) :
    layers.flatten.Perm (List.range g.size) := layersOf_perm h

/-- Run in the layers of a graph, a node comes after all nodes with an edge to it. -/
theorem layers_pairwise {layers : List (List Nat)} (h : g.layers = .ok layers) :
    layers.flatten.Pairwise fun u v => ¬ g.Edge v u := layersOf_pairwise h

/-! ### Counting incoming edges -/

/-- The number of edges that lead from pending nodes to `v`. -/
def incoming (g : Digraph) (pending : List Nat) (v : Nat) : Nat :=
  g.edges.countP fun (a, b) => b == v && pending.contains a

/-- The pending nodes, each with the number of edges that it waits for. -/
def counts (g : Digraph) (pending : List Nat) : List (Nat × Nat) :=
  pending.map fun v => (v, g.incoming pending v)

/-- The nodes that wait for no edge. -/
def countedOut (counts : List (Nat × Nat)) : List Nat := (counts.filter (·.2 == 0)).map Prod.fst

/-- Take off the nodes that wait for no edge, and each edge that starts at one of them from the
count of the node where it ends. -/
def countDown (g : Digraph) (counts : List (Nat × Nat)) : List (Nat × Nat) :=
  (countedOut counts).foldl
    (fun rest u => rest.map fun x => (x.1, x.2 - g.edges.count (u, x.1)))
    (counts.filter (·.2 != 0))

section

variable {pending : List Nat} {u v : Nat}

/-- A node is ready when it waits for no edge. -/
theorem isReady_eq_incoming (g : Digraph) (pending : List Nat) (v : Nat) :
    g.isReady pending v = (g.incoming pending v == 0) := by
  rw [Bool.eq_iff_iff, beq_iff_eq, incoming, List.countP_eq_zero, isReady_iff]
  simp only [Bool.and_eq_true, beq_iff_eq, List.contains_iff_mem, Prod.forall, not_and, Edge]
  exact ⟨fun h a b he hb ha => h a ha (hb ▸ he), fun h a ha he => h a v he rfl ha⟩

/-- In the beginning all edges to a node are counted. -/
theorem incoming_range (hb : g.Bounded) (v : Nat) :
    g.incoming (List.range g.size) v = g.edges.countP (·.2 == v) := by
  refine List.countP_congr fun e he => ?_
  have hstart : e.1 < g.size := (hb e.1 e.2 he).1
  simp [hstart]

/-- The edges from another pending node are counted apart from those that were counted. -/
private theorem incoming_cons (hu : u ∉ pending) :
    g.incoming (u :: pending) v = g.edges.count (u, v) + g.incoming pending v := by
  -- Each edge is counted on both sides: it starts at the node, at a pending one, or at another one.
  unfold incoming
  induction g.edges with
  | nil => rfl
  | cons e edges ih =>
    obtain ⟨a, b⟩ := e
    rw [List.countP_cons, List.countP_cons, List.count_cons, ih]
    grind

/-- The edges from the nodes that are ready and from those that are not make up all edges. -/
private theorem incoming_ready_add_waiting (pending : List Nat) (v : Nat) :
    g.incoming (g.ready pending) v + g.incoming (g.waiting pending) v = g.incoming pending v := by
  unfold incoming ready waiting
  -- Each edge that is counted starts at a node that is ready or at one that is not.
  induction g.edges with
  | nil => rfl
  | cons e edges ih =>
    obtain ⟨a, b⟩ := e
    rw [List.countP_cons, List.countP_cons, List.countP_cons, ← ih]
    simp only [List.contains_iff_mem, List.mem_filter, Bool.and_eq_true, beq_iff_eq]
    cases g.isReady pending a <;> simp <;> omega

/-- Going through nodes takes the edges from all of them off the counts. -/
private theorem foldl_countDown {done : List Nat} (hdone : done.Nodup) (rest : List Nat)
    (n : Nat → Nat) :
    done.foldl (fun counts u => counts.map fun x => (x.1, x.2 - g.edges.count (u, x.1)))
      (rest.map fun v => (v, n v)) = rest.map fun v => (v, n v - g.incoming done v) := by
  induction done generalizing n with
  | nil => simp [incoming]
  | cons u done ih =>
    obtain ⟨hu, hdone⟩ := List.nodup_cons.1 hdone
    rw [List.foldl_cons, List.map_map]
    refine (ih hdone fun v => n v - g.edges.count (u, v)).trans ?_
    refine List.map_congr_left fun v _ => ?_
    rw [incoming_cons hu, Nat.sub_sub]

/-- The counts say which nodes are ready, and counting down keeps them right: what is counted for the
nodes that are left are again the edges from pending nodes. -/
theorem countDown_counts (hpending : pending.Nodup) :
    countedOut (g.counts pending) = g.ready pending ∧
      g.countDown (g.counts pending) = g.counts (g.waiting pending) := by
  have hready : countedOut (g.counts pending) = g.ready pending := by
    rw [countedOut, counts, List.filter_map, List.map_map, ready]
    refine (List.map_id _).trans (List.filter_congr fun v _ => ?_)
    exact (g.isReady_eq_incoming pending v).symm
  have hwaiting : (g.counts pending).filter (·.2 != 0) =
      (g.waiting pending).map fun v => (v, g.incoming pending v) := by
    rw [counts, List.filter_map, waiting]
    refine congrArg _ (List.filter_congr fun v _ => ?_)
    exact congrArg (!·) (g.isReady_eq_incoming pending v).symm
  refine ⟨hready, ?_⟩
  -- no node is counted twice, so none takes its edges off twice
  have hnodup : (g.ready pending).Nodup := hpending.filter _
  rw [countDown, hready, hwaiting]
  refine (foldl_countDown hnodup _ _).trans (List.map_congr_left fun v _ => ?_)
  rw [← incoming_ready_add_waiting, Nat.add_sub_cancel_left]

end

/-! ### Adding edges -/

/-- Adding an edge adds no node. -/
@[simp] theorem size_addEdge (u v : Nat) : (g.addEdge u v).size = g.size := by
  unfold addEdge; split <;> rfl

/-- A graph that an edge is added to has the edges it had and this one. -/
theorem edge_addEdge {u v a b : Nat} :
    (g.addEdge u v).Edge a b ↔ g.Edge a b ∨ (a, b) = (u, v) := by
  unfold addEdge Edge
  split
  · rename_i hmem
    have hmem : (u, v) ∈ g.edges := by simpa using hmem
    constructor
    · exact .inl
    · rintro (h | h)
      · exact h
      · exact h ▸ hmem
  · simp

/-- A graph that edges are added to has the edges it had and those. -/
theorem edge_foldl_addEdge (edges : List (Nat × Nat)) {a b : Nat} :
    (edges.foldl (fun g e => g.addEdge e.1 e.2) g).Edge a b ↔ g.Edge a b ∨ (a, b) ∈ edges := by
  induction edges generalizing g with
  | nil => simp
  | cons e edges ih =>
    rw [List.foldl_cons, ih, edge_addEdge, List.mem_cons, or_assoc]

/-- Adding edges adds no node. -/
theorem size_foldl_addEdge (edges : List (Nat × Nat)) :
    (edges.foldl (fun g e => g.addEdge e.1 e.2) g).size = g.size := by
  induction edges generalizing g with
  | nil => rfl
  | cons e edges ih => rw [List.foldl_cons, ih, size_addEdge]

end Digraph

end CodeRules
