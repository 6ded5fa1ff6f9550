import CodeRules.Code.Atom
import CodeRules.Code.Location
import CodeRules.Code.Tag

/-!
# Syntax trees

A node has a number, a span and a kind; the kind holds what the node is made of, its children
included. `NodeKind` is generic in what stands for a child, so every traversal is the one fold of
this module with a step that is not recursive.

Main statements: `Node.fold_eq` unfolds the fold by one level, and `Node.induction` proves a
property of a node from the same property of its children. The shape of a node forgets numbers and
spans: nodes of one shape are structurally equal.
-/

namespace CodeRules

/-- What a node consists of, with children of type `α`. -/
inductive NodeKind (α : Type) where
  | classDecl (name : String) (modifiers : List Modifier) (annotations : List α)
      (superclass : Option CodeType) (members : List α)
  | fieldDecl (modifiers : List Modifier) (annotations : List α) (type : CodeType) (name : String)
      (init : Option α)
  | methodDecl (modifiers : List Modifier) (annotations : List α) (result : CodeType)
      (name : String) (params : List α) (body : Option α)
  | param (type : CodeType) (name : String)
  | annotationUse (name : String) (args : List α)
  | block (stmts : List α)
  | exprStmt (expr : α)
  | returnStmt (value : Option α)
  | localVar (type : CodeType) (name : String) (init : Option α)
  | literal (value : Literal)
  | name (s : String)
  | this
  /-- The receiver that an unqualified call or field has without writing it. Programs do not
  contain it; it is made when a pattern asks for the receiver. -/
  | implicitReceiver (type : CodeType) (isStatic : Bool)
  | fieldAccess (receiver : α) (field : String)
  | assign (target value : α)
  | call (receiver : Option α) (method : String) (args : List α)
  | newObject (type : CodeType) (args : List α)
  | binary (op : Operator) (left right : α)
deriving Inhabited

namespace NodeKind

variable {α β γ : Type}

/-- The kind without its contents. -/
def tag : NodeKind α → Tag
  | classDecl .. => .classDecl
  | fieldDecl .. => .fieldDecl
  | methodDecl .. => .methodDecl
  | param .. => .param
  | annotationUse .. => .annotationUse
  | block .. => .block
  | exprStmt .. => .exprStmt
  | returnStmt .. => .returnStmt
  | localVar .. => .localVar
  | literal .. => .literal
  | name .. => .name
  | this => .this
  | implicitReceiver .. => .implicitReceiver
  | fieldAccess .. => .fieldAccess
  | assign .. => .assign
  | call .. => .call
  | newObject .. => .newObject
  | binary .. => .binary

/-- Change every child. -/
def map (f : α → β) : NodeKind α → NodeKind β
  | classDecl n ms as sup mem => classDecl n ms (as.map f) sup (mem.map f)
  | fieldDecl ms as t n init => fieldDecl ms (as.map f) t n (init.map f)
  | methodDecl ms as t n ps body => methodDecl ms (as.map f) t n (ps.map f) (body.map f)
  | param t n => param t n
  | annotationUse n args => annotationUse n (args.map f)
  | block stmts => block (stmts.map f)
  | exprStmt e => exprStmt (f e)
  | returnStmt v => returnStmt (v.map f)
  | localVar t n init => localVar t n (init.map f)
  | literal v => literal v
  | name s => name s
  | this => this
  | implicitReceiver t s => implicitReceiver t s
  | fieldAccess r n => fieldAccess (f r) n
  | assign t v => assign (f t) (f v)
  | call r n args => call (r.map f) n (args.map f)
  | newObject t args => newObject t (args.map f)
  | binary op l r => binary op (f l) (f r)

/-- Change every child by a computation, in the order they are written. -/
def mapM {m : Type → Type} [Monad m] (f : α → m β) : NodeKind α → m (NodeKind β)
  | classDecl n ms as sup mem => return classDecl n ms (← as.mapM f) sup (← mem.mapM f)
  | fieldDecl ms as t n init => return fieldDecl ms (← as.mapM f) t n (← init.mapM f)
  | methodDecl ms as t n ps body =>
    return methodDecl ms (← as.mapM f) t n (← ps.mapM f) (← body.mapM f)
  | param t n => return param t n
  | annotationUse n args => return annotationUse n (← args.mapM f)
  | block stmts => return block (← stmts.mapM f)
  | exprStmt e => return exprStmt (← f e)
  | returnStmt v => return returnStmt (← v.mapM f)
  | localVar t n init => return localVar t n (← init.mapM f)
  | literal v => return literal v
  | name s => return name s
  | this => return this
  | implicitReceiver t s => return implicitReceiver t s
  | fieldAccess r n => return fieldAccess (← f r) n
  | assign t v => return assign (← f t) (← f v)
  | call r n args => return call (← r.mapM f) n (← args.mapM f)
  | newObject t args => return newObject t (← args.mapM f)
  | binary op l r => return binary op (← f l) (← f r)

/-- The children in the order they are written. -/
def children : NodeKind α → List α
  | classDecl _ _ as _ mem => as ++ mem
  | fieldDecl _ as _ _ init => as ++ init.toList
  | methodDecl _ as _ _ ps body => as ++ ps ++ body.toList
  | annotationUse _ args => args
  | block stmts => stmts
  | exprStmt e => [e]
  | returnStmt v => v.toList
  | localVar _ _ init => init.toList
  | fieldAccess r _ => [r]
  | assign t v => [t, v]
  | call r _ args => r.toList ++ args
  | newObject _ args => args
  | binary _ l r => [l, r]
  | param .. | literal .. | name .. | this | implicitReceiver .. => []

private theorem toList_map (f : α → β) (o : Option α) : (o.map f).toList = o.toList.map f := by
  cases o <;> rfl

theorem children_map (f : α → β) (k : NodeKind α) : (k.map f).children = k.children.map f := by
  cases k <;> simp [map, children, toList_map]

theorem map_map (f : α → β) (g : β → γ) (k : NodeKind α) : (k.map f).map g = k.map (g ∘ f) := by
  cases k <;> simp [map]

theorem tag_map (f : α → β) (k : NodeKind α) : (k.map f).tag = k.tag := by
  cases k <;> rfl

/-- Two maps that agree on the children give the same kind. -/
theorem map_congr {f g : α → β} {k : NodeKind α} (h : ∀ c ∈ k.children, f c = g c) :
    k.map f = k.map g := by
  have option {o : Option α} (h : ∀ c ∈ o.toList, f c = g c) : o.map f = o.map g := by
    cases o <;> simp_all
  cases k <;> grind [map, children, List.map_inj_left]

/-- The modifiers of a declaration. -/
def modifiers : NodeKind α → List Modifier
  | classDecl _ ms .. | fieldDecl ms .. | methodDecl ms .. => ms
  | _ => []

/-- The annotations of a declaration. -/
def annotations : NodeKind α → List α
  | classDecl _ _ as .. | fieldDecl _ as .. | methodDecl _ as .. => as
  | _ => []

/-- Add annotations to a declaration after those it has. -/
def annotate (k : NodeKind α) (more : List α) : NodeKind α :=
  match k with
  | classDecl n ms as sup mem => classDecl n ms (as ++ more) sup mem
  | fieldDecl ms as t n init => fieldDecl ms (as ++ more) t n init
  | methodDecl ms as t n ps body => methodDecl ms (as ++ more) t n ps body
  | k => k

/-- The members of a class. -/
def members : NodeKind α → List α
  | classDecl _ _ _ _ mem => mem
  | _ => []

/-- The name that a declaration declares, or that an expression refers to. -/
def name? : NodeKind α → Option String
  | classDecl n .. | fieldDecl _ _ _ n _ | methodDecl _ _ _ n .. | param _ n | annotationUse n _
  | localVar _ n _ | name n | fieldAccess _ n | call _ n _ => some n
  | _ => none

/-- The type that a declaration is written with. -/
def declaredType? : NodeKind α → Option CodeType
  | fieldDecl _ _ t .. | param t _ | localVar t .. | methodDecl _ _ t .. => some t
  | _ => none

/-- The same kind with its modifiers in canonical order. -/
def canonical : NodeKind α → NodeKind α
  | classDecl n ms as sup mem => classDecl n (Modifier.canonical ms) as sup mem
  | fieldDecl ms as t n init => fieldDecl (Modifier.canonical ms) as t n init
  | methodDecl ms as t n ps body => methodDecl (Modifier.canonical ms) as t n ps body
  | k => k

/-- The shape of a kind whose children are given by their shapes. -/
def shape (k : NodeKind Shape) : Shape :=
  let mods (ms : List Modifier) : Shape := .seq (ms.map Modifier.shape)
  .seq (.num k.tag.ctorIdx :: match k with
    | classDecl n ms as sup mem =>
      [.text n, mods ms, .seq as, .opt (sup.map CodeType.shape), .seq mem]
    | fieldDecl ms as t n init => [mods ms, .seq as, t.shape, .text n, .opt init]
    | methodDecl ms as t n ps body => [mods ms, .seq as, t.shape, .text n, .seq ps, .opt body]
    | param t n => [t.shape, .text n]
    | annotationUse n args => [.text n, .seq args]
    | block stmts => [.seq stmts]
    | exprStmt e => [e]
    | returnStmt v => [.opt v]
    | localVar t n init => [t.shape, .text n, .opt init]
    | literal v => [v.shape]
    | name s => [.text s]
    | this => []
    | implicitReceiver t s => [t.shape, .flag s]
    | fieldAccess r n => [r, .text n]
    | assign t v => [t, v]
    | call r n args => [.opt r, .text n, .seq args]
    | newObject t args => [t.shape, .seq args]
    | binary op l r => [.num op.ctorIdx, l, r])

end NodeKind

/-- A node of a syntax tree. -/
structure Node where
  id : NodeId
  span : Span
  kind : NodeKind Node
deriving Inhabited

namespace Node

variable {β : Type}

/-- A node with its modifiers in canonical order: sets of modifiers have no order of their own, so
equal sets are made equal lists. -/
def make (id : NodeId) (span : Span) (kind : NodeKind Node) : Node := ⟨id, span, kind.canonical⟩

mutual

/-- Fold a tree from the leaves up. The step `f` gets a node, and its kind with each child beside
the child's result. -/
def fold (f : Node → NodeKind (Node × β) → β) : Node → β
  | ⟨id, span, kind⟩ => f ⟨id, span, kind⟩ (foldKind f kind)

/-- Fold the children of a kind. -/
def foldKind (f : Node → NodeKind (Node × β) → β) : NodeKind Node → NodeKind (Node × β)
  | .classDecl n ms as sup mem => .classDecl n ms (foldList f as) sup (foldList f mem)
  | .fieldDecl ms as t n init => .fieldDecl ms (foldList f as) t n (foldOption f init)
  | .methodDecl ms as t n ps body =>
    .methodDecl ms (foldList f as) t n (foldList f ps) (foldOption f body)
  | .param t n => .param t n
  | .annotationUse n args => .annotationUse n (foldList f args)
  | .block stmts => .block (foldList f stmts)
  | .exprStmt e => .exprStmt (e, fold f e)
  | .returnStmt v => .returnStmt (foldOption f v)
  | .localVar t n init => .localVar t n (foldOption f init)
  | .literal v => .literal v
  | .name s => .name s
  | .this => .this
  | .implicitReceiver t s => .implicitReceiver t s
  | .fieldAccess r n => .fieldAccess (r, fold f r) n
  | .assign t v => .assign (t, fold f t) (v, fold f v)
  | .call r n args => .call (foldOption f r) n (foldList f args)
  | .newObject t args => .newObject t (foldList f args)
  | .binary op l r => .binary op (l, fold f l) (r, fold f r)

/-- Fold a list of trees. -/
def foldList (f : Node → NodeKind (Node × β) → β) : List Node → List (Node × β)
  | [] => []
  | n :: ns => (n, fold f n) :: foldList f ns

/-- Fold a tree that may be absent. -/
def foldOption (f : Node → NodeKind (Node × β) → β) : Option Node → Option (Node × β)
  | none => none
  | some n => some (n, fold f n)

end

private theorem foldList_eq (f : Node → NodeKind (Node × β) → β) (ns : List Node) :
    foldList f ns = ns.map fun c => (c, c.fold f) := by
  induction ns with
  | nil => rfl
  | cons n ns ih => simp [foldList, ih]

private theorem foldOption_eq (f : Node → NodeKind (Node × β) → β) (n : Option Node) :
    foldOption f n = n.map fun c => (c, c.fold f) := by
  cases n <;> rfl

/-- One level of the fold. -/
theorem fold_eq (f : Node → NodeKind (Node × β) → β) (n : Node) :
    n.fold f = f n (n.kind.map fun c => (c, c.fold f)) := by
  obtain ⟨id, span, kind⟩ := n
  simp only [fold]
  congr 1
  cases kind <;> simp [foldKind, NodeKind.map, foldList_eq, foldOption_eq]

/-- What holds of a node whenever it holds of its children holds of every node. -/
theorem induction {P : Node → Prop} (step : ∀ n : Node, (∀ c ∈ n.kind.children, P c) → P n)
    (n : Node) : P n := by
  refine @Node.rec P (fun k => ∀ c ∈ k.children, P c) (fun ns => ∀ c ∈ ns, P c)
    (fun o => ∀ c ∈ o.toList, P c) (fun id span kind => step ⟨id, span, kind⟩)
    ?_ ?_ ?_ ?_ ?_ ?_ ?_ ?_ ?_ ?_ ?_ ?_ ?_ ?_ ?_ ?_ ?_ ?_ ?_ ?_ ?_ ?_ n
  -- one goal for each kind, and those for lists and optional children
  all_goals
    intros
    simp only [NodeKind.children, List.mem_append, List.mem_cons, List.not_mem_nil,
      Option.toList_none, Option.toList_some] at *
  all_goals grind

/-- The tag of a node. -/
def tag (n : Node) : Tag := n.kind.tag

/-- The name that a node declares or refers to. -/
def name? (n : Node) : Option String := n.kind.name?

/-- The children in the order they are written. -/
def children (n : Node) : List Node := n.kind.children

/-- Whether a declaration is static. -/
def isStatic (n : Node) : Bool := n.kind.modifiers.contains .static

/-- The signature of a method declaration. -/
def signature? (n : Node) : Option MethodSignature :=
  match n.kind with
  | .methodDecl _ _ _ name params _ => some ⟨name, params.filterMap fun p =>
    match p.kind with
    | .param t _ => some t
    | _ => none⟩
  | _ => none

/-- The node and all nodes below it, each before its children. -/
def preorder : Node → List Node :=
  fold fun n k => n :: k.children.flatMap Prod.snd

/-- Each node below this one with its parent, in the order of `preorder`. -/
def edges : Node → List (Node × Node) :=
  fold fun n k => k.children.flatMap fun (c, below) => (c, n) :: below

/-- The numbers of the nodes of a tree, each before those of its children. -/
def ids (n : Node) : List NodeId := n.preorder.map id

/-- The first node of a tree with the given number. -/
def find? (n : Node) (i : NodeId) : Option Node := n.preorder.find? (·.id == i)

/-- What a node is made of, apart from numbers and spans. -/
def shape : Node → Shape := fold fun _ k => (k.map Prod.snd).shape

theorem preorder_eq (n : Node) : n.preorder = n :: n.children.flatMap preorder := by
  rw [preorder, fold_eq, NodeKind.children_map, List.flatMap_map]; rfl

theorem mem_preorder_self (n : Node) : n ∈ n.preorder := by
  rw [preorder_eq]
  exact List.mem_cons_self ..

theorem mem_preorder_of_child {n c m : Node} (hc : c ∈ n.kind.children) (hm : m ∈ c.preorder) :
    m ∈ n.preorder := by
  rw [preorder_eq]
  exact List.mem_cons_of_mem _ (List.mem_flatMap.2 ⟨c, hc, hm⟩)

/-- The nodes below a node of a tree are nodes of the tree. -/
theorem mem_preorder_trans {n m x : Node} (hm : m ∈ n.preorder) (hx : x ∈ m.preorder) :
    x ∈ n.preorder := by
  induction n using Node.induction with
  | step n ih =>
  rw [preorder_eq, List.mem_cons] at hm
  rcases hm with rfl | hm
  · exact hx
  · obtain ⟨c, hc, hm⟩ := List.mem_flatMap.1 hm
    exact mem_preorder_of_child hc (ih c hc hm)

theorem shape_eq (n : Node) : n.shape = (n.kind.map shape).shape := by
  rw [shape, fold_eq, NodeKind.map_map]; rfl

end Node

end CodeRules
