/-!
# Directed graphs

Graphs on the nodes `0` to `size - 1` with a list of edges. A depth-first search starts from every
node in order and follows the newest edges first; `postorder` lists the nodes as their visits end.

`knot?` finds nodes that can all reach each other, and `layers` orders the nodes of a graph without
knots so that edges lead from earlier to later layers.
-/

namespace CodeRules

/-- A directed graph on the numbers below `size`. The oldest edge stands first. -/
structure Digraph where
  size : Nat
  edges : List (Nat × Nat)
deriving Inhabited

/-- The nodes that a search has come upon, and those it has left, in the order of leaving. -/
structure Exploration where
  seen : List Nat := []
  left : List Nat := []
deriving Inhabited

namespace Digraph

/-- The ends of the edges that start at `v`, newest edge first. -/
def successors (g : Digraph) (v : Nat) : List Nat :=
  ((g.edges.filter (·.1 == v)).map Prod.snd).reverse

/-- Visit `v` and what can be reached from it without passing through seen nodes. Every step down
visits a node that was not seen, so `size` steps suffice. -/
def visit (g : Digraph) : Nat → Exploration → Nat → Exploration
  | 0, w, _ => w
  | depth + 1, w, v =>
    if w.seen.contains v then w
    else
      -- `v` counts as seen before its successors are visited, so a loop comes to an end
      let below := (g.successors v).foldl (visit g depth) { w with seen := v :: w.seen }
      { below with left := below.left ++ [v] }

/-- The nodes in the order in which a depth-first search leaves them. -/
def postorder (g : Digraph) : List Nat := ((List.range g.size).foldl (g.visit g.size) {}).left

/-- Whether there is a path from `u` to `v`, perhaps of no edge. -/
def reaches (g : Digraph) (u v : Nat) : Bool := (g.visit g.size {} u).seen.contains v

/-- The nodes that reach `v` and are reached from it, in the order of `postorder`. -/
def component (g : Digraph) (v : Nat) : List Nat :=
  g.postorder.filter fun u => g.reaches u v && g.reaches v u

/-- A component of several nodes: of all these, the one that the search leaves first. -/
def knot? (g : Digraph) : Option (List Nat) :=
  -- the search leaves a component for good when it leaves the component's last node
  (g.postorder.map fun v => (v, g.component v)).findSome? fun (v, c) =>
    if c.length > 1 ∧ c.getLast? = some v then some c else none

/-- Whether no edge leads from a pending node to `v`. -/
def isReady (g : Digraph) (pending : List Nat) (v : Nat) : Bool :=
  !g.edges.any fun (a, b) => b == v && pending.contains a

/-- The pending nodes that no edge from a pending node leads to. -/
def ready (g : Digraph) (pending : List Nat) : List Nat := pending.filter (g.isReady pending)

/-- The pending nodes that wait for a pending node. -/
def waiting (g : Digraph) (pending : List Nat) : List Nat :=
  pending.filter fun v => !g.isReady pending v

theorem length_waiting_lt {g : Digraph} {pending : List Nat} (h : g.ready pending ≠ []) :
    (g.waiting pending).length < pending.length := by
  obtain ⟨v, hv⟩ := List.exists_mem_of_ne_nil _ h
  obtain ⟨hv, hr⟩ := List.mem_filter.1 hv
  exact List.length_filter_lt_length_iff_exists.2 ⟨v, hv, by simp [hr]⟩

/-- Order pending nodes: first those that wait for none of them, then the rest in the same way.
When all of them wait for others, the answer is how many there are. -/
def layersOf (g : Digraph) (pending : List Nat) : Except Nat (List (List Nat)) :=
  if pending = [] then .ok []
  -- nothing is ready: every pending node stands on a cycle or behind one
  else if h : g.ready pending = [] then .error pending.length
  else
    have := length_waiting_lt h  -- for termination
    (g.layersOf (g.waiting pending)).map (g.ready pending :: ·)
termination_by pending.length

/-- All nodes in layers, so that no edge leads to the same or an earlier layer. -/
def layers (g : Digraph) : Except Nat (List (List Nat)) := g.layersOf (List.range g.size)

/-- Add an edge unless it is there. -/
def addEdge (g : Digraph) (u v : Nat) : Digraph :=
  if g.edges.contains (u, v) then g else { g with edges := g.edges ++ [(u, v)] }

end Digraph

end CodeRules
