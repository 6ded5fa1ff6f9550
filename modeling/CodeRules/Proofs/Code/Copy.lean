import CodeRules.Code.Copy
import CodeRules.Proofs.Code.Arena
import CodeRules.Proofs.Code.Normal
import CodeRules.Proofs.Effect

/-!
# What copies are

Copying only gives out numbers. As long as the arena stays intact all nodes of a copy are made, and
the normal form of the copy is known before (`Entity.remade`).
-/

namespace CodeRules

/-! ### Computations that cannot fail -/

namespace Effect

variable {σ α β γ δ : Type}

/-- What holds of the value that the computation gives from `s`, and of the state it leaves. -/
def Leaves (x : StateM σ α) (s : σ) (Q : α → σ → Prop) : Prop := Q (x.run s).1 (x.run s).2

variable {s : σ} {Q Q' : α → σ → Prop}

/-- What holds after a computation may be weakened. -/
theorem Leaves.mono {x : StateM σ α} (h : Leaves x s Q) (hQ : ∀ a s', Q a s' → Q' a s') :
    Leaves x s Q' := hQ _ _ h

/-- Two things that hold after a computation hold together. -/
theorem Leaves.and {x : StateM σ α} (h : Leaves x s Q) (h' : Leaves x s Q') :
    Leaves x s fun a s' => Q a s' ∧ Q' a s' := ⟨h, h'⟩

/-- A value leaves the state as it is. -/
@[simp] theorem leaves_pure {a : α} : Leaves (pure a) s Q ↔ Q a s := Iff.rfl

/-- What two steps leave is what the second one leaves after the first. -/
@[simp] theorem leaves_bind {x : StateM σ β} {f : β → StateM σ α} :
    Leaves (x >>= f) s Q ↔ Leaves x s fun b s' => Leaves (f b) s' Q := Iff.rfl

/-- A changed value leaves the state that the value left. -/
@[simp] theorem leaves_map {x : StateM σ β} {f : β → α} :
    Leaves (f <$> x) s Q ↔ Leaves x s fun b s' => Q (f b) s' := Iff.rfl

section

variable {r : σ → σ → Prop} [Std.Refl r] [IsTrans σ r] {f : α → StateM σ β} {g : β → γ} {h : α → γ}
  {P : β → σ → Prop}

/-- Going through a list: the results are as each element promises, and stay so. -/
theorem leaves_mapM_list {l : List α} (hP : ∀ b s s', r s s' → P b s → P b s')
    (hf : ∀ a ∈ l, ∀ s, Leaves (f a) s fun b s' => r s s' ∧ P b s' ∧ g b = h a) (s : σ) :
    Leaves (l.mapM f) s fun bs s' => r s s' ∧ (∀ b ∈ bs, P b s') ∧ bs.map g = l.map h := by
  induction l generalizing s with
  | nil =>
    rw [List.mapM_nil, leaves_pure]
    exact ⟨Std.Refl.refl s, by simp, rfl⟩
  | cons a l ih =>
    rw [List.mapM_cons, leaves_bind]
    refine (hf a (List.mem_cons_self ..) s).mono fun b s₁ hb => ?_
    rw [leaves_bind]
    refine (ih (fun c hc => hf c (List.mem_cons_of_mem _ hc)) s₁).mono fun bs s₂ hbs => ?_
    obtain ⟨h₁, hPb, hgb⟩ := hb
    obtain ⟨h₂, hPbs, hgbs⟩ := hbs
    rw [leaves_pure]
    refine ⟨IsTrans.trans _ _ _ h₁ h₂, fun c hc => ?_, by rw [List.map_cons, List.map_cons, hgb, hgbs]⟩
    -- the first result stays as promised while the others are made
    rcases List.mem_cons.1 hc with rfl | hc
    · exact hP _ _ _ h₂ hPb
    · exact hPbs c hc

omit [IsTrans σ r] in
/-- Going through an option: its result is as promised, and a missing one stays missing. -/
theorem leaves_mapM_option {o : Option α}
    (hf : ∀ a ∈ o.toList, ∀ s, Leaves (f a) s fun b s' => r s s' ∧ P b s' ∧ g b = h a) (s : σ) :
    Leaves (o.mapM f) s fun bs s' => r s s' ∧ (∀ b ∈ bs.toList, P b s') ∧ bs.map g = o.map h := by
  cases o with
  | none =>
    show Leaves (pure none) s _
    rw [leaves_pure]
    exact ⟨Std.Refl.refl s, by simp, rfl⟩
  | some a =>
    show Leaves (some <$> f a) s _
    rw [leaves_map]
    refine (hf a (by simp) s).mono fun b s' hb => ?_
    obtain ⟨hr, hPb, hgb⟩ := hb
    exact ⟨hr, by simpa using hPb, congrArg some hgb⟩

end

end Effect

open Effect

/-- Changing the children of a kind: the new children are as each child promises, and stay so. -/
theorem NodeKind.leaves_mapM {σ α β γ : Type} {r : σ → σ → Prop} [Std.Refl r] [IsTrans σ r]
    {f : α → StateM σ β} {g : β → γ} {h : α → γ} {P : β → σ → Prop}
    (hP : ∀ b s s', r s s' → P b s → P b s') {k : NodeKind α}
    (hf : ∀ a ∈ k.children, ∀ s, Leaves (f a) s fun b s' => r s s' ∧ P b s' ∧ g b = h a) (s : σ) :
    Leaves (k.mapM f) s fun k' s' =>
      r s s' ∧ (∀ b ∈ k'.children, P b s') ∧ k'.map g = k.map h := by
  -- each kind keeps its children in lists, options and single places, so these cover all cases
  have hlist (l : List α) (hl : ∀ a ∈ l, a ∈ k.children) (s : σ) :=
    leaves_mapM_list (l := l) hP (fun a ha => hf a (hl a ha)) s
  have hoption (o : Option α) (ho : ∀ a ∈ o.toList, a ∈ k.children) (s : σ) :=
    leaves_mapM_option (o := o) (fun a ha => hf a (ho a ha)) s
  have htrans (s₁ s₂ s₃ : σ) (h₁ : r s₁ s₂) (h₂ : r s₂ s₃) : r s₁ s₃ := IsTrans.trans _ _ _ h₁ h₂
  have hrefl (s : σ) : r s s := Std.Refl.refl s
  cases k with
  | classDecl n ms as sup mem =>
    simp only [mapM, leaves_bind, leaves_pure]
    refine (hlist as (by simp +contextual [children]) s).mono fun as' s₁ h₁ => ?_
    refine (hlist mem (by simp +contextual [children]) s₁).mono fun mem' s₂ h₂ => ?_
    grind [children, map]
  | fieldDecl ms as t n init =>
    simp only [mapM, leaves_bind, leaves_pure]
    refine (hlist as (by simp +contextual [children]) s).mono fun as' s₁ h₁ => ?_
    refine (hoption init (by simp +contextual [children]) s₁).mono fun init' s₂ h₂ => ?_
    grind [children, map]
  | methodDecl ms as t n ps body =>
    simp only [mapM, leaves_bind, leaves_pure]
    refine (hlist as (by simp +contextual [children]) s).mono fun as' s₁ h₁ => ?_
    refine (hlist ps (by simp +contextual [children]) s₁).mono fun ps' s₂ h₂ => ?_
    refine (hoption body (by simp +contextual [children]) s₂).mono fun body' s₃ h₃ => ?_
    grind [children, map]
  | annotationUse n args | newObject n args =>
    simp only [mapM, leaves_bind, leaves_pure]
    refine (hlist args (by simp +contextual [children]) s).mono fun args' s₁ h₁ => ?_
    grind [children, map]
  | block stmts =>
    simp only [mapM, leaves_bind, leaves_pure]
    refine (hlist stmts (by simp +contextual [children]) s).mono fun stmts' s₁ h₁ => ?_
    grind [children, map]
  | returnStmt value =>
    simp only [mapM, leaves_bind, leaves_pure]
    refine (hoption value (by simp +contextual [children]) s).mono fun value' s₁ h₁ => ?_
    grind [children, map]
  | localVar t n init =>
    simp only [mapM, leaves_bind, leaves_pure]
    refine (hoption init (by simp +contextual [children]) s).mono fun init' s₁ h₁ => ?_
    grind [children, map]
  | exprStmt e =>
    simp only [mapM, leaves_bind, leaves_pure]
    refine (hf e (by simp [children]) s).mono fun e' s₁ h₁ => ?_
    grind [children, map]
  | fieldAccess e n =>
    simp only [mapM, leaves_bind, leaves_pure]
    refine (hf e (by simp [children]) s).mono fun e' s₁ h₁ => ?_
    grind [children, map]
  | assign left right =>
    simp only [mapM, leaves_bind, leaves_pure]
    refine (hf left (by simp [children]) s).mono fun left' s₁ h₁ => ?_
    refine (hf right (by simp [children]) s₁).mono fun right' s₂ h₂ => ?_
    grind [children, map]
  | binary op left right =>
    simp only [mapM, leaves_bind, leaves_pure]
    refine (hf left (by simp [children]) s).mono fun left' s₁ h₁ => ?_
    refine (hf right (by simp [children]) s₁).mono fun right' s₂ h₂ => ?_
    grind [children, map]
  | call receiver n args =>
    simp only [mapM, leaves_bind, leaves_pure]
    refine (hoption receiver (by simp +contextual [children]) s).mono fun receiver' s₁ h₁ => ?_
    refine (hlist args (by simp +contextual [children]) s₁).mono fun args' s₂ h₂ => ?_
    grind [children, map]
  -- all other kinds have no children
  | _ =>
    simp only [mapM, leaves_pure]
    exact ⟨hrefl s, by simp [children], rfl⟩

/-! ### Copies -/

namespace NodeKind

variable {α : Type}

/-- The canonical order of modifiers does not touch the children. -/
theorem children_canonical (k : NodeKind α) : k.canonical.children = k.children := by
  cases k <;> rfl

/-- Leaving out unwritten children leaves out children. -/
theorem mem_children_of_mem_written {k : NodeKind Node} {c : Node} (h : c ∈ k.written.children) :
    c ∈ k.children := by
  -- an option that is filtered holds nothing new
  have hfilter {o : Option Node} (h : c ∈ (o.filter (!·.kind.isImplicitReceiver)).toList) :
      c ∈ o.toList := by
    exact Option.mem_toList.2 (Option.filter_eq_some_iff.1 (Option.mem_toList.1 h)).1
  cases k <;> simp only [written, children] at h ⊢ <;> grind

end NodeKind

namespace Node

variable (base : UInt32)

/-- The normal form of a node that is made of a kind in normal form. -/
def madeOf (kind : NodeKind Node) : Node := .make ⟨base⟩ .synthetic kind

/-- The normal form of a copy. -/
def remade : Node → Node := fold fun _ k => madeOf base (k.map Prod.snd).written

/-- A copy is made of the copies of its written children. -/
theorem remade_eq (n : Node) : n.remade base = madeOf base (n.kind.map (remade base)).written := by
  rw [remade, fold_eq, NodeKind.map_map]
  rfl

variable {base}

/-- Whether a node is a receiver that was never written does not depend on numbers. -/
theorem isImplicitReceiver_normal (n : Node) :
    (n.normal base).kind.isImplicitReceiver = n.kind.isImplicitReceiver :=
  n.isImplicitReceiver_relabel (.normal base)

/-- Copies do not depend on numbers. -/
@[simp] theorem remade_relabel (ρ : Relabeling) (n : Node) :
    (n.relabel ρ).remade base = n.remade base := by
  induction n using Node.induction with
  | step n ih =>
  rw [remade_eq, kind_relabel, NodeKind.map_map, remade_eq base n]
  exact congrArg (fun k => madeOf base (NodeKind.written k)) (NodeKind.map_congr ih)

/-- The nodes of a new node are made when those of its children are. -/
theorem isMade_madeOf {kind : NodeKind Node}
    (h : ∀ c ∈ kind.children, ∀ m ∈ c.preorder, m.IsMade base) :
    ∀ m ∈ (madeOf base kind).preorder, m.IsMade base := by
  intro m hm
  rw [preorder_eq, List.mem_cons] at hm
  rcases hm with rfl | hm
  · exact ⟨rfl, UInt32.le_refl base⟩
  · obtain ⟨c, hc, hm⟩ := List.mem_flatMap.1 hm
    exact h c (NodeKind.children_canonical kind ▸ hc) m hm

/-- The nodes of a copy are made. -/
theorem isMade_remade (n : Node) : ∀ m ∈ (n.remade base).preorder, m.IsMade base := by
  induction n using Node.induction with
  | step n ih =>
  rw [remade_eq]
  apply isMade_madeOf
  intro c hc m hm
  -- what is left of the children after leaving some out comes from children of the node
  have hc := NodeKind.mem_children_of_mem_written hc
  rw [NodeKind.children_map] at hc
  obtain ⟨d, hd, rfl⟩ := List.mem_map.1 hc
  exact ih d hd m hm

/-- The normal form of a made node in canonical order is made of those of its children. -/
theorem normal_eq_madeOf {n : Node} {kind : NodeKind Node} (hspan : n.span.isSynthetic = true)
    (hkind : n.kind = kind.canonical) : n.normal base = madeOf base (kind.map (normal base)) := by
  rw [normal_eq, mark, if_pos hspan, hkind, madeOf, make, NodeKind.canonical_map]
  rfl

/-- All nodes of a new node are made when those of its children are. -/
theorem leaves_make (base : UInt32) {p : Provenance} (hp : p.declaringType = none)
    (kind : NodeKind Node) (a : Arena) :
    Leaves (Arena.make p kind) a fun n a' => a.KeptBy base a' ∧
      (a'.Intact base → (∀ c ∈ kind.children, ∀ m ∈ c.preorder, m.IsMade base) →
        ∀ m ∈ n.preorder, m.IsMade base) ∧
      n.normal base = madeOf base (kind.map (normal base)) := by
  obtain ⟨hkept, hid⟩ := Arena.keptBy_alloc base a hp
  refine ⟨hkept, fun h hchildren m hm => ?_, normal_eq_madeOf rfl rfl⟩
  rw [preorder_eq, List.mem_cons] at hm
  rcases hm with rfl | hm
  · exact ⟨rfl, hid h⟩
  · obtain ⟨c, hc, hm⟩ := List.mem_flatMap.1 hm
    exact hchildren c (NodeKind.children_canonical kind ▸ hc) m hm

/-- All nodes of a copy are made, and its normal form is known. -/
theorem leaves_copy (base : UInt32) (n : Node) (a : Arena) :
    Leaves n.copy a fun m a' => a.KeptBy base a' ∧
      (a'.Intact base → ∀ x ∈ m.preorder, x.IsMade base) ∧ m.normal base = n.remade base := by
  induction n using Node.induction generalizing a with
  | step n ih =>
  -- what each child promises, with the child beside its copy
  have hchildren : ∀ x ∈ (n.kind.map fun c => (c, c.copy)).children, ∀ a, Leaves x.2 a fun m a' =>
      a.KeptBy base a' ∧ (a'.Intact base → ∀ x ∈ m.preorder, x.IsMade base) ∧
        m.normal base = x.1.remade base := by
    intro x hx a
    rw [NodeKind.children_map] at hx
    obtain ⟨c, hc, rfl⟩ := List.mem_map.1 hx
    exact ih c hc a
  rw [copy, fold_eq]
  show Leaves (NodeKind.mapM Prod.snd (n.kind.map fun c => (c, c.copy)) >>= _) a _
  rw [leaves_bind]
  refine (NodeKind.leaves_mapM (fun m a a' hkept hm h => hm (hkept.intact h)) hchildren a).mono
    fun kind a₁ hkind => ?_
  obtain ⟨hkept, hmade, hnormal⟩ := hkind
  have hmake := leaves_make base (p := { copiedFrom := some n.id }) rfl kind.written a₁
  -- the node is made after its children, in the arena they leave
  refine hmake.mono fun m a₂ hm => ?_
  obtain ⟨hkept', hmade', hnormal'⟩ := hm
  refine ⟨hkept.trans hkept', fun h => hmade' h fun c hc => ?_, ?_⟩
  · exact hmade c (NodeKind.mem_children_of_mem_written hc) (hkept'.intact h)
  · rw [hnormal', ← NodeKind.written_map isImplicitReceiver_normal, hnormal, NodeKind.map_map,
      remade_eq]
    rfl

end Node

namespace Entity

mutual

/-- The normal form of a copy. -/
def remade (base : UInt32) : Entity → Entity
  | .node n => .node (n.remade base)
  | .list items => .list (remadeAll base items)
  | e => e

/-- The normal forms of copies. -/
def remadeAll (base : UInt32) : List Entity → List Entity
  | [] => []
  | e :: es => e.remade base :: remadeAll base es

end

variable {base : UInt32}

/-- The copies of several entities are made one by one. -/
theorem remadeAll_eq_map (es : List Entity) : remadeAll base es = es.map (remade base) := by
  induction es with
  | nil => rfl
  | cons e es ih => rw [remadeAll, ih, List.map_cons]

/-- Copies do not depend on numbers. -/
@[simp] theorem remade_relabel (ρ : Relabeling) (e : Entity) :
    (e.relabel ρ).remade base = e.remade base := by
  induction e using Entity.induction with
  | node n => rw [relabel, remade, Node.remade_relabel, remade]
  | list items ih =>
    rw [relabel, remade, remadeAll_eq_map, relabelAll_eq_map, List.map_map, remade, remadeAll_eq_map]
    exact congrArg Entity.list (List.map_congr_left ih)
  | _ => rfl

/-- The normal form of an entity has the same copy. -/
@[simp] theorem remade_normal (e : Entity) : (e.normal base).remade base = e.remade base := by
  rw [normal_eq_relabel, remade_relabel]

/-- The nodes of a copy are made, as far as the entity has nodes. -/
theorem isMade_remade (e : Entity) : (e.remade base).IsMade base := by
  induction e using Entity.induction with
  | node n => exact n.isMade_remade
  | list items ih =>
    intro n hn
    rw [remade, remadeAll_eq_map, nodes, nodesAll_eq_flatMap, List.flatMap_map] at hn
    obtain ⟨e, he, hn⟩ := List.mem_flatMap.1 hn
    exact ih e he n hn
  | _ => exact fun n hn => by cases hn

/-- All nodes of several copies are made, and the normal forms are known. -/
private theorem leaves_copyAll {es : List Entity}
    (h : ∀ e ∈ es, ∀ a, Leaves e.copy a fun m a' => a.KeptBy base a' ∧
      (a'.Intact base → ∀ n ∈ m.nodes, n.IsMade base) ∧ m.normal base = e.remade base)
    (a : Arena) : Leaves (copyAll es) a fun ms a' => a.KeptBy base a' ∧
      (a'.Intact base → ∀ m ∈ ms, ∀ n ∈ m.nodes, n.IsMade base) ∧
      ms.map (normal base) = es.map (remade base) := by
  induction es generalizing a with
  | nil =>
    rw [copyAll, leaves_pure]
    exact ⟨.refl base a, by simp, rfl⟩
  | cons e es ih =>
    rw [copyAll, leaves_bind]
    refine (h e (List.mem_cons_self ..) a).mono fun m a₁ hm => ?_
    rw [leaves_bind]
    refine (ih (fun d hd => h d (List.mem_cons_of_mem _ hd)) a₁).mono fun ms a₂ hms => ?_
    obtain ⟨hkept, hmade, hnormal⟩ := hm
    obtain ⟨hkept', hmade', hnormal'⟩ := hms
    rw [leaves_pure]
    -- the first copy stays made while the others are copied
    refine ⟨hkept.trans hkept', fun h d hd => ?_, ?_⟩
    · rcases List.mem_cons.1 hd with rfl | hd
      · exact hmade (hkept'.intact h)
      · exact hmade' h d hd
    · rw [List.map_cons, List.map_cons, hnormal, hnormal']

/-- All nodes of a copy are made, and its normal form is known. -/
theorem leaves_copy (base : UInt32) (e : Entity) (a : Arena) :
    Leaves e.copy a fun m a' => a.KeptBy base a' ∧
      (a'.Intact base → ∀ n ∈ m.nodes, n.IsMade base) ∧ m.normal base = e.remade base := by
  induction e using Entity.induction generalizing a with
  | node n =>
    rw [copy, leaves_bind]
    refine (n.leaves_copy base a).mono fun m a' hm => ?_
    obtain ⟨hkept, hmade, hnormal⟩ := hm
    exact ⟨hkept, hmade, congrArg Entity.node hnormal⟩
  | list items ih =>
    rw [copy, leaves_bind]
    refine (leaves_copyAll ih a).mono fun ms a' hms => ?_
    obtain ⟨hkept, hmade, hnormal⟩ := hms
    rw [leaves_pure]
    refine ⟨hkept, fun h n hn => ?_, ?_⟩
    · rw [nodes, nodesAll_eq_flatMap] at hn
      obtain ⟨m, hm, hn⟩ := List.mem_flatMap.1 hn
      exact hmade h m hm n hn
    · rw [normal, normalAll_eq_map, hnormal, remade, remadeAll_eq_map]
  -- an entity without nodes is its own copy
  | _ =>
    show Leaves (pure _) a _
    rw [leaves_pure]
    exact ⟨.refl base a, by simp [nodes], rfl⟩

end Entity

end CodeRules
