import CodeRules.Proofs.Goal.Values
import CodeRules.Proofs.Program.Builtins
import CodeRules.Proofs.Table.Conclusions
import CodeRules.Proofs.Table.Construct

/-!
# Tables from uniform arguments

When the nodes of a program were read, and arguments and the relations of other instances are uniform,
then so is the table that is constructed: what a text means is a type, a name, a node of the program, or
a literal with a new number (`Table.uniform_of_construct`).
-/

namespace CodeRules

open Effect

variable {base : UInt32}

/-- An entity that is given is uniform. -/
def Argument.Uniform (base : UInt32) : Argument → Prop
  | .entity e => e.Uniform base
  | .text _ => True

/-! ### Single arguments -/

namespace Program

variable {p : Program} {a a' : Arena} {param text : String} {type : ParamType} {e : Entity}

/-- A declaration that is found by its name is a node of a class. -/
theorem exists_of_declarationNamed {c : Category} (h : p.declarationNamed param c text = .ok e) :
    ∃ c ∈ p.classes.values, ∃ n ∈ c.preorder, e = .node n := by
  unfold declarationNamed at h
  split at h
  -- a class
  · rename_i d hd
    obtain rfl := Except.ok.inj h
    split at hd
    · exact ⟨d, ClassTable.mem_values_of_class? hd, d, d.mem_preorder_self, rfl⟩
    · cases hd
  · split at h
    -- a member of a class
    · rename_i m hmembers
      obtain rfl := Except.ok.inj h
      have hm : m ∈ p.findMembers text := List.mem_of_mem_filter (hmembers ▸ List.mem_singleton_self m)
      obtain ⟨c, hc, hm⟩ := List.mem_flatMap.1 (List.mem_of_mem_filter hm)
      exact ⟨c, List.mem_of_mem_filter hc, m, Node.mem_preorder_of_child
        (NodeKind.mem_children_of_mem_members hm) m.mem_preorder_self, rfl⟩
    · cases h
    · cases h

/-- What a text means is uniform, and at most one node was made for it. -/
private theorem uniform_of_resolveText (hp : p.Below base) (ha : a.Undeclared base)
    (hfits : base.toNat + (a.size + 1) ≤ UInt32.size)
    (h : p.resolveText a param type text = .ok (e, a')) :
    e.Uniform base ∧ a.KeptBy base a' ∧ a'.size ≤ a.size + 1 := by
  -- nothing is made for most types
  have hread {e : Entity} {a' : Arena} (he : e.IsRead) (heq : a' = a) :
      e.Uniform base ∧ a.KeptBy base a' ∧ a'.size ≤ a.size + 1 :=
    ⟨.inl he, heq.symm ▸ .refl base a, heq.symm ▸ Nat.le_succ _⟩
  have hnamed {c : Category}
      (h : (do return (← p.declarationNamed param c text, a)) = Except.ok (e, a')) :
      e.Uniform base ∧ a.KeptBy base a' ∧ a'.size ≤ a.size + 1 := by
    simp only [Except.bind_eq_ok, Except.pure_eq_ok, Prod.mk.injEq] at h
    obtain ⟨_, hfound, rfl, rfl⟩ := h
    obtain ⟨c, hc, n, hn, rfl⟩ := exists_of_declarationNamed hfound
    exact hread (hp.isRead_node hc hn) rfl
  unfold resolveText at h
  split at h
  · split at h
    · obtain ⟨rfl, rfl⟩ := Prod.mk.inj (Except.ok.inj h)
      exact hread (fun n hn => by cases hn) rfl
    · cases h
  · exact hnamed h
  · exact hnamed h
  · exact hnamed h
  · obtain ⟨rfl, rfl⟩ := Prod.mk.inj (Except.ok.inj h)
    exact hread (fun n hn => by cases hn) rfl
  · obtain ⟨rfl, rfl⟩ := Prod.mk.inj (Except.ok.inj h)
    exact hread (fun n hn => by cases hn) rfl
  · split at h
    -- a literal is made, with a new number
    · rename_i l _
      obtain ⟨rfl, rfl⟩ := Prod.mk.inj (Except.ok.inj h)
      obtain ⟨hkept, hmade, _⟩ := Node.leaves_make base (p := {}) rfl (.literal l) a
      have hsize : ((Arena.make {} (.literal l)).run a).2.size = a.size + 1 :=
        Array.size_push ..
      refine ⟨.inr ?_, hkept, Nat.le_of_eq hsize⟩
      exact hmade ⟨hkept.undeclared_iff.2 ha, hsize ▸ hfits⟩ fun c hc => by cases hc
    · cases h
  · cases h

/-- What is given for a parameter is uniform, and at most one node was made for it. -/
theorem uniform_of_argument (hp : p.Below base) (ha : a.Undeclared base)
    (hfits : base.toNat + (a.size + 1) ≤ UInt32.size) {arg : Argument} (harg : arg.Uniform base)
    (h : p.argument a param type arg = .ok (e, a')) :
    e.Uniform base ∧ a.KeptBy base a' ∧ a'.size ≤ a.size + 1 := by
  have haccepted {x : Entity × Arena} (hx : x.1.Uniform base ∧ a.KeptBy base x.2 ∧
      x.2.size ≤ a.size + 1) (h : (if type.accepts p.types x.1 = true then pure (x.1, x.2)
        else throw (.mismatch param x.1 type) : Except ArgumentError (Entity × Arena)) = .ok (e, a')) :
      e.Uniform base ∧ a.KeptBy base a' ∧ a'.size ≤ a.size + 1 := by
    split at h
    · obtain ⟨rfl, rfl⟩ := Prod.mk.inj (Except.pure_eq_ok.1 h)
      exact hx
    · cases h
  -- an entity is given as it is, and a text stands for one
  cases arg with
  | entity x => exact haccepted (x := (x, a)) ⟨harg, .refl base a, Nat.le_succ _⟩ h
  | text s =>
    simp only [argument, Except.bind_eq_ok] at h
    obtain ⟨found, hfound, h⟩ := h
    exact haccepted (uniform_of_resolveText hp ha hfits hfound) h

/-- The values of a relation that is given are those of a relation of another instance. -/
theorem mem_of_relationArgument {solved? : String → String → Option Relation} {s : Signature}
    {arg : Argument} {r : Relation} (h : p.relationArgument solved? s arg = .ok r) {u : Tuple}
    (hu : u ∈ r.tuples.toList) :
    ∃ inst trait r', solved? inst trait = some r' ∧ ∃ v ∈ r'.tuples.toList, u.values = v.values := by
  obtain ⟨_, inst, trait, r', us, _, _, hr', _, hus, rfl⟩ := relationArgument_eq_ok.1 h
  obtain ⟨v, hv, huv⟩ := hus.exists_left (Catalog.mem_of_mem_ofListFirst hu)
  exact ⟨inst, trait, r', hr', v, hv, (argumentTuple_eq_ok.1 huv).2.1.values⟩

end Program

/-! ### Stores -/

namespace Store

variable {s : Store}

/-- No relation holds anything in an empty store. -/
theorem valuesIn_empty {D : Entity → Prop} : ValuesIn D ∅ := fun _ _ h => by cases h

/-- A built-in relation is filled with tuples of entities of the set. -/
theorem ValuesIn.seed {D : Entity → Prop} (hs : s.ValuesIn D) (signature : Signature) {us : List Tuple}
    (hus : ∀ u ∈ us, ∀ e ∈ u.values, D e) : (s.seed signature us).ValuesIn D := by
  have hinsert (r : Relation) (hr : ∀ u ∈ r.tuples.toList, ∀ e ∈ u.values, D e) :
      ∀ u ∈ (us.foldl Relation.insert r).tuples.toList, ∀ e ∈ u.values, D e := by
    refine List.foldlRecOn (motive := fun r : Relation => ∀ u ∈ r.tuples.toList, ∀ e ∈ u.values,
      D e) us _ hr ?_
    intro r hr v hv u hu
    rcases Catalog.mem_of_mem_insert hu with rfl | hu
    · exact hus u hv
    · exact hr u hu
  intro n r hr
  rw [find?_seed] at hr
  -- the relation that was seeded holds what it held before, and the tuples
  split at hr
  · obtain rfl := Option.some.inj hr
    refine hinsert _ ?_
    cases hold : s.find? signature.name with
    | none => exact fun u hu => by cases hu
    | some old => exact hs _ old hold
  · exact hs n r hr

end Store

/-! ### Construction -/

namespace Table

variable {t t' : Table} {solved? : String → String → Option Relation}
  (hsolved : ∀ inst trait r, solved? inst trait = some r →
    ∀ u ∈ r.tuples.toList, ∀ e ∈ u.values, e.Uniform base)
include hsolved

/-- One argument keeps a table uniform. -/
private theorem Uniform.bindArgument {p : ParamDecl TypeExpr} {arg : Argument} (ht : t.Uniform base)
    (hfits : base.toNat + (t.arena.size + 1) ≤ UInt32.size) (harg : arg.Uniform base)
    (h : bindArgument solved? t p arg = .ok t') :
    t'.Uniform base ∧ t'.arena.size ≤ t.arena.size + 1 := by
  obtain ⟨type, _, ⟨owner, params, r, rfl, hr, rfl⟩ | ⟨e, arena, he, rfl⟩⟩ := bindArgument_cases h
  · have hstore : Store.Uniform base (t.store.put r) := by
      refine Store.ValuesIn.set ht.store fun u hu e he => ?_
      obtain ⟨inst, trait, r', hr', v, hv, hvalues⟩ := Program.mem_of_relationArgument hr hu
      exact hsolved inst trait r' hr' v hv e (hvalues ▸ he)
    exact ⟨⟨⟨ht.world.program, ht.world.overlay⟩, hstore, ht.globals, ht.arena⟩, Nat.le_succ _⟩
  · obtain ⟨he, hkept, hsize⟩ := Program.uniform_of_argument ht.world.program ht.arena hfits harg he
    exact ⟨⟨ht.world, ht.store, ht.globals.bind he _, hkept.undeclared_iff.2 ht.arena⟩, hsize⟩

/-- Arguments keep a table uniform, one after the other. -/
private theorem Uniform.bindArguments {l : List (ParamDecl TypeExpr × Argument)}
    (ht : t.Uniform base) (hfits : base.toNat + (t.arena.size + l.length) ≤ UInt32.size)
    (hargs : ∀ x ∈ l, x.2.Uniform base)
    (h : l.foldlM (fun t (p, arg) =>
      (Table.bindArgument solved? t p arg).mapError (ConstructError.argument p.name.span)) t = .ok t') :
    t'.Uniform base ∧ t'.arena.size ≤ t.arena.size + l.length := by
  induction l generalizing t with
  | nil =>
    obtain rfl := Except.pure_eq_ok.1 h
    exact ⟨ht, Nat.le_refl _⟩
  | cons x l ih =>
    simp only [List.foldlM_cons, Except.bind_eq_ok, Except.mapError_eq_ok] at h
    obtain ⟨mid, hmid, h⟩ := h
    rw [List.length_cons] at hfits ⊢
    obtain ⟨hmid, hsize⟩ := ht.bindArgument hsolved (by omega) (hargs x (List.mem_cons_self ..)) hmid
    obtain ⟨ht', hsize'⟩ := ih hmid (by omega) (fun y hy => hargs y (List.mem_cons_of_mem _ hy)) h
    exact ⟨ht', by omega⟩

omit hsolved in
/-- Before arguments are given, the relations hold types and nodes of classes. -/
theorem valuesIn_of_declare {D : Entity → Prop} {program : Program} {settings : Settings}
    {option : OptionDecl} {decls : List TraitDecl} {traits : DeclaredTraits}
    (htype : ∀ t, D (.type t)) (hnode : ∀ c ∈ program.classes.values, ∀ n ∈ c.preorder, D (.node n))
    (hnodes : ∀ i n, program.node? i = some n → ∃ c ∈ program.classes.values, n ∈ c.preorder)
    (h : (start program settings option).declare decls = .ok (traits, t)) : t.store.ValuesIn D := by
  obtain ⟨trace, hstart⟩ := exists_start program settings option
  obtain ⟨_, _, hstore, _⟩ := declare_eq_ok h
  rw [hstart] at hstore
  have hseeds : Store.ValuesIn D
      (program.builtins.foldl (fun s r => s.seed r.signature r.tuples) ∅) := by
    refine List.foldlRecOn (motive := Store.ValuesIn D) _ _ Store.valuesIn_empty ?_
    intro s hs b hb
    exact hs.seed b.signature fun u hu e he => Program.values_of_builtins htype hnode hnodes hb hu he
  intro n r hr
  rw [hstore] at hr
  -- a relation is built in, or declared and empty
  split at hr
  · rename_i r' hr'
    exact hseeds n r (hr'.trans hr)
  · obtain ⟨_, _, rfl⟩ := Option.map_eq_some_iff.1 hr
    exact fun u hu => by cases hu

omit hsolved in
/-- A table that was not given any arguments yet is uniform. -/
private theorem uniform_of_declare {program : Program} {settings : Settings} {option : OptionDecl}
    {decls : List TraitDecl} {traits : DeclaredTraits} (hp : program.Below base)
    (hnodes : ∀ i n, program.node? i = some n → ∃ c ∈ program.classes.values, n ∈ c.preorder)
    (hbase : program.idBase = base)
    (h : (start program settings option).declare decls = .ok (traits, t)) :
    t.Uniform base ∧ t.arena.size = 0 := by
  obtain ⟨trace, hstart⟩ := exists_start program settings option
  obtain ⟨_, _, _, ht⟩ := declare_eq_ok h
  rw [hstart] at ht
  have hstore : t.store.Uniform base := valuesIn_of_declare (D := Entity.Uniform base)
    (fun _ => Entity.uniform_of_nodes_eq_nil rfl) (fun _ hc _ hn => .inl (hp.isRead_node hc hn))
    hnodes h
  refine ⟨⟨?_, hstore, ?_, ?_⟩, ?_⟩
  · rw [ht]
    exact ⟨hp, fun e he => by cases he⟩
  · rw [ht]
    exact Bindings.uniform_empty
  · rw [ht]
    exact ⟨hbase, fun r hr => by simp at hr⟩
  · rw [ht]
    rfl

/-- A table that is constructed from uniform arguments is uniform, and made at most one node for each of
them. -/
theorem uniform_of_construct {program : Program} {settings : Settings} {interface : Interface}
    {option : OptionDecl} {args : List Argument} (hp : program.Below base)
    (hnodes : ∀ i n, program.node? i = some n → ∃ c ∈ program.classes.values, n ∈ c.preorder)
    (hbase : program.idBase = base) (hargs : ∀ arg ∈ args, arg.Uniform base)
    (hfits : base.toNat + args.length ≤ UInt32.size)
    (h : construct program settings solved? interface option args = .ok t) :
    t.Uniform base ∧ t.Fits base := by
  obtain ⟨traits, t₁, t₂, hdeclare, hbind, hadd⟩ := exists_of_construct h
  obtain ⟨ht₁, hsize₁⟩ := uniform_of_declare hp hnodes hbase hdeclare
  -- there are as many arguments as parameters, and each makes one node at most
  obtain ⟨hlength, _, hfold⟩ := foldlM_of_bindArguments hbind
  have hzip : ((interface.params ++ option.params).zip args).length = args.length := by
    rw [List.length_zip, hlength, Nat.min_self]
  obtain ⟨ht₂, hsize₂⟩ := ht₁.bindArguments hsolved (by omega)
    (fun x hx => hargs x.2 (List.of_mem_zip hx).2) hfold
  obtain ⟨statements, rfl⟩ : ∃ statements, t = { t₂ with statements } :=
    ⟨_, (addStatements_eq_ok hadd).1⟩
  refine ⟨⟨⟨ht₂.world.program, ht₂.world.overlay⟩, ht₂.store, ht₂.globals, ht₂.arena⟩, ?_⟩
  show base.toNat + t₂.arena.size ≤ _
  omega

end Table

end CodeRules
