import CodeRules.Program.Index

/-!
# Built-in relations

The relations that hold between the declarations, types and calls of a program without any rule.
`copied-to` is among them but has no tuple before nodes are copied.
-/

namespace CodeRules

namespace BuiltinRelation

/-- The name of the relation between nodes and their copies. -/
def copiedTo : String := "copied-to"

/-- A built-in relation with the given rows. -/
def ofRows (name : String) (params : List (String × Category)) (rows : List (List Entity)) :
    BuiltinRelation :=
  let signature : Signature :=
    { name
      params := params.map fun (param, c) => ⟨param, .category c⟩
      flags := { isBuiltin := true, isStatic := true } }
  ⟨signature, rows.filterMap fun row => (Tuple.ofValues signature row).toOption⟩

end BuiltinRelation

namespace Program

/-- The members of all classes, each with the type that declares it. -/
private def allMembers (p : Program) : List (CodeType × Node) :=
  p.classes.values.flatMap fun c => c.kind.members.map fun m => (c.declares, m)

/-- The members with a tag. -/
private def membersWith (p : Program) (tag : Tag) : List (CodeType × Node) :=
  p.allMembers.filter (·.2.tag == tag)

/-- Which type declares which member with a given tag. -/
private def declares (p : Program) (tag : Tag) : List (List Entity) :=
  (p.membersWith tag).map fun (t, m) => [.type t, .node m]

/-- Which declaration has which annotation. -/
private def annotated (p : Program) : List (List Entity) :=
  p.classes.values.flatMap fun c => c.preorder.flatMap fun n =>
    n.kind.annotations.map fun a => [.node n, .node a]

/-- Which method has which call in it. -/
private def invocations (p : Program) : List (List Entity) :=
  (p.membersWith .methodDecl).flatMap fun (_, m) =>
    (m.preorder.filter (·.tag == .call)).map fun call => [.node m, .node call]

/-- Which call goes to which method. -/
private def callTargets (p : Program) : List (List Entity) :=
  p.facts.callTargets.toList.filterMap fun (call, method) => do
    return [.node (← p.node? call), .node (← p.node? method)]

/-- Which type is written as the superclass of which. -/
private def superclasses (p : Program) : List (List Entity) :=
  p.classes.values.filterMap fun c =>
    match c.kind with
    | .classDecl _ _ _ (some sup) _ => some [.type sup, .type c.declares]
    | _ => none

/-- The built-in relations of a program. -/
def builtins (p : Program) : List BuiltinRelation :=
  [.ofRows "declares-field" [("type", .type), ("field", .field)] (p.declares .fieldDecl),
    .ofRows "declares-method" [("type", .type), ("method", .method)] (p.declares .methodDecl),
    .ofRows "has-annotation" [("decl", .declaration), ("annotation", .annotationUse)] p.annotated,
    .ofRows "invokes" [("method", .method), ("call", .expression)] p.invocations,
    .ofRows "call-target" [("call", .expression), ("method", .method)] p.callTargets,
    .ofRows "declared-by" [("member", .declaration), ("type", .type)]
      (p.allMembers.map fun (t, m) => [.node m, .type t]),
    .ofRows "superclass-of" [("super", .type), ("sub", .type)] p.superclasses,
    .ofRows BuiltinRelation.copiedTo [("original", .any), ("copy", .any)] []]

end Program

end CodeRules
