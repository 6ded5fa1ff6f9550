import CodeRules.Binding.Bindings

/-!
# Sets of solutions

The solutions of a goal are alternative bindings. Solutions that bind the same entities at the same
places count once. `product` joins two sets: it holds the merge of every pair that can be merged.
-/

namespace CodeRules

/-- A set of alternative bindings. -/
abbrev Solutions := Catalog Bindings.shape

namespace Solutions

/-- The set that holds only the empty bindings. -/
def unit : Solutions := Catalog.singleton .empty

/-- The merges of the pairs of bindings, one of each set, that can be merged. -/
def product (s t : Solutions) : Solutions :=
  Catalog.ofListFirst <| s.toList.flatMap fun a => t.toList.filterMap fun b => a.consistentMerge? b

/-- Change every binding; of bindings that become the same the last stays. -/
def map (f : Bindings → Bindings) (s : Solutions) : Solutions :=
  Catalog.ofListLast (s.toList.map f)

/-- Whether two sets hold the same bindings. -/
def same (s t : Solutions) : Bool :=
  decide (s.toList.map Bindings.shape = t.toList.map Bindings.shape)

end Solutions

end CodeRules
