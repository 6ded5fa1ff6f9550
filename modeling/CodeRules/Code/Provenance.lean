import CodeRules.Code.Node

/-!
# Provenance of made nodes

Nodes that are made while rules run get their numbers from an arena. The number of a made node is
the arena's base plus the place of the record that says where the node was copied from and which
type it is meant for.

Main operations: `Arena.alloc` makes a number, `Arena.get?` reads its record, and `Arena.origin?`
follows copies of copies back to the first node that is no copy.
-/

namespace CodeRules

/-- Where a made node comes from. -/
structure Provenance where
  /-- The node that this one is a copy of. -/
  copiedFrom : Option NodeId := none
  /-- The type that the node is meant to become a member of. -/
  declaringType : Option CodeType := none
deriving Inhabited

/-- The numbers given to made nodes so far. -/
structure Arena where
  base : UInt32
  records : Array Provenance := #[]
deriving Inhabited

namespace Arena

/-- The number of nodes made so far. -/
def size (a : Arena) : Nat := a.records.size

/-- The number of the made node whose record stands at `index`. -/
def idAt (a : Arena) (index : Nat) : NodeId := ⟨a.base + UInt32.ofNat index⟩

/-- Give out the next number. -/
def alloc (a : Arena) (p : Provenance) : NodeId × Arena :=
  (a.idAt a.size, { a with records := a.records.push p })

/-- The place of the record of a number, when the arena gave that number out. -/
def index? (a : Arena) (i : NodeId) : Option Nat :=
  -- below the base the difference would wrap round
  if a.base ≤ i.word ∧ (i.word - a.base).toNat < a.size then some (i.word - a.base).toNat else none

/-- Whether the arena gave this number out. -/
def contains (a : Arena) (i : NodeId) : Bool := (a.index? i).isSome

/-- The record of a made node. -/
def get? (a : Arena) (i : NodeId) : Option Provenance := do a.records[← a.index? i]?

/-- Record the type that a made node is meant for. -/
def setDeclaringType (a : Arena) (i : NodeId) (t : CodeType) : Arena :=
  match a.index? i with
  | none => a
  | some k => { a with records := a.records.modify k fun p => { p with declaringType := some t } }

/-- The node that a made node was copied from. -/
def source? (a : Arena) (i : NodeId) : Option NodeId := (a.get? i).bind Provenance.copiedFrom

/-- Follow copies backwards for at most as many steps as given. -/
def follow (a : Arena) : Nat → NodeId → NodeId
  | 0, i => i
  | steps + 1, i =>
    match a.source? i with
    | none => i
    | some j => a.follow steps j

/-- The first node of the chain of copies that ends in `i`, when `i` is a copy. A chain has at most
as many links as the arena has records. -/
def origin? (a : Arena) (i : NodeId) : Option NodeId := (a.source? i).map (a.follow a.size)

/-- The made nodes that are copies, each with the node it was copied from, oldest first. -/
def copies (a : Arena) : List (NodeId × NodeId) :=
  a.records.toList.zipIdx.filterMap fun (p, k) => p.copiedFrom.map fun i => (i, a.idAt k)

end Arena

end CodeRules
