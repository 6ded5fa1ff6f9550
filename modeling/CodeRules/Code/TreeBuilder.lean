import CodeRules.Code.Provenance

/-!
# Building trees

A tree builder numbers the nodes of a program one after the other. Each node gets a span of one
character at its number, so that different nodes have different places.
-/

namespace CodeRules

/-- The file that nodes are placed in, and the next number. -/
structure TreeBuilder where
  file : UInt32
  next : UInt32 := 0
deriving Inhabited

namespace TreeBuilder

/-- Build a node of the given kind. -/
def node (b : TreeBuilder) (kind : NodeKind Node) : Node × TreeBuilder :=
  (.make ⟨b.next⟩ ⟨b.file, b.next, b.next + 1⟩ kind, { b with next := b.next + 1 })

/-- Build several nodes. -/
def nodes (b : TreeBuilder) : List (NodeKind Node) → List Node × TreeBuilder
  | [] => ([], b)
  | k :: ks =>
    let (n, b) := b.node k
    let (ns, b) := b.nodes ks
    (n :: ns, b)

/-- Add annotations with the given names to a declaration. Other nodes stay as they are, but the
numbers of the annotations are used up. -/
def annotate (b : TreeBuilder) (decl : Node) (names : List String) : Node × TreeBuilder :=
  let (built, b) := b.nodes (names.map fun s => .annotationUse s [])
  (⟨decl.id, decl.span, decl.kind.annotate built⟩, b)

/-- An arena for the nodes that are made once the program is built. -/
def arena (b : TreeBuilder) : Arena := { base := b.next }

end TreeBuilder

end CodeRules
