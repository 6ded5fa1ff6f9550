import CodeRules.Proofs.Table.Consistent
import CodeRules.Proofs.Table.Traced
import CodeRules.Proofs.Table.Uniform

/-!
# Origins of generated entities

A table that is constructed from given nodes is traced (`Table.traced_of_construct`). So after any
number of attempts to solve it, successful or not, chains of copies end
(`Table.chains_end_iterate_solve`), a generated entity replaces a node of the program or one that was made
anew (`Table.replaces_of_classes`), and the relation of copies pairs nodes of the same shape, except for
receivers that were not written (`Table.copies_of_classes`).
-/

namespace CodeRules

open Effect

/-! ### What a program offers -/

/-- A receiver that was not written has the number and the span of the node that it is missing from. -/
theorem Surroundings.eq_make_of_implicitReceiver {s : Surroundings} {n o : Node}
    (h : s.implicitReceiver n = .node o) :
    ∃ type isStatic, o = .make n.id n.span (.implicitReceiver type isStatic) := by
  unfold implicitReceiver at h
  split at h
  · exact ⟨_, _, (Entity.node.inj h).symm⟩
  · cases h

namespace Program

/-- The node is one of the program, or the receiver that was not written at such a node. -/
def Offers (p : Program) (n : Node) : Prop :=
  ∃ c ∈ p.classes.values, ∃ m ∈ c.preorder,
    n = m ∨ Entity.node n = p.surroundings.implicitReceiver m

variable {p : Program} {n : Node}

/-- A program offers its nodes. -/
theorem offers_of_mem {c : Node} (hc : c ∈ p.classes.values) (hn : n ∈ c.preorder) : p.Offers n :=
  ⟨c, hc, n, hn, .inl rfl⟩

/-- What is offered has the number of a node of the program. -/
theorem Offers.exists_id (h : p.Offers n) :
    ∃ c ∈ p.classes.values, ∃ m ∈ c.preorder, n.id = m.id ∧ n.span = m.span := by
  obtain ⟨c, hc, m, hm, rfl | hreceiver⟩ := h
  · exact ⟨c, hc, n, hm, rfl, rfl⟩
  · obtain ⟨_, _, rfl⟩ := Surroundings.eq_make_of_implicitReceiver hreceiver.symm
    exact ⟨c, hc, m, hm, rfl, rfl⟩

/-- A program of classes that were read supplies what it offers. -/
theorem supplies_offers {classes : List Node} {free : UInt32}
    (h : ∀ c ∈ classes, ∀ n ∈ c.preorder,
      n.IsRead ∧ n.id.word < ((ofClasses classes).withIdBase free).idBase) :
    ((ofClasses classes).withIdBase free).Supplies ((ofClasses classes).withIdBase free).Offers := by
  set p := (ofClasses classes).withIdBase free with hp
  have hbelow : p.Below p.idBase := (below_ofClasses h).withIdBase free
  have hmem {c n : Node} (hc : c ∈ p.classes.values) (hn : n ∈ c.preorder) : n.id.word < p.idBase :=
    (h c (ClassTable.mem_of_mem_values_ofNodes hc) n hn).2
  exact {
    -- a receiver has the number of the node that it is at
    below := fun n hn => by
      obtain ⟨c, hc, m, hm, hid, _⟩ := hn.exists_id
      exact hid ▸ hmem hc hm
    enclosing := hbelow.enclosing
    receiver := fun n hn m hm => by
      obtain ⟨c, hc, o, ho, hid, hspan⟩ := hn.exists_id
      refine ⟨c, hc, o, ho, .inr ?_⟩
      -- the receivers at both nodes are the same
      have hsame : p.surroundings.implicitReceiver n = p.surroundings.implicitReceiver o := by
        rw [Surroundings.implicitReceiver, Surroundings.implicitReceiver, hid, hspan]
      rw [hsame] at hm
      unfold Surroundings.implicitReceiver at hm ⊢
      split at hm
      · rw [Entity.nodes, Node.preorder_eq] at hm
        obtain rfl := List.mem_singleton.1 hm
        rfl
      · cases hm
    nodes := fun i n hi m hm => by
      obtain ⟨c, hc, hn⟩ := mem_of_node? hi
      exact offers_of_mem hc (Node.mem_preorder_trans hn hm)
    classes := fun c hc n hn => offers_of_mem hc hn
    -- the program offers its nodes, and besides them types and signatures, which hold no nodes
    entities := fun e he n hn => by
      rcases List.mem_append.1 he with he | he
      · rcases List.mem_append.1 he with he | he
        · obtain ⟨m, hm, rfl⟩ := List.mem_map.1 he
          obtain ⟨c, hc, hm⟩ := List.mem_flatMap.1 hm
          exact offers_of_mem hc (Node.mem_preorder_trans hm hn)
        · obtain ⟨t, _, rfl⟩ := List.mem_map.1 he
          cases hn
      · obtain ⟨s, _, rfl⟩ := List.mem_map.1 he
        cases hn }

end Program

/-! ### Construction -/

variable {given : Node → Prop}

/-- The nodes of an entity that is an argument are given. -/
def Argument.Supplied (given : Node → Prop) : Argument → Prop
  | .entity e => ∀ n ∈ e.nodes, given n
  | .text _ => True

namespace Program

variable {p : Program} {a a' : Arena} {param text : String} {type : ParamType} {e : Entity}

/-- What a text is resolved to is traced: a declaration, a value, or a literal that is made. -/
private theorem traced_of_resolveText (hp : p.Supplies given)
    (h : p.resolveText a param type text = .ok (e, a')) : e.Traced given a' ∧ a.Later a' := by
  -- Classes, methods and fields are found by their names among the nodes of the program.
  have hnamed {c : Category}
      (h : (do return (← p.declarationNamed param c text, a)) = Except.ok (e, a')) :
      e.Traced given a' ∧ a.Later a' := by
    simp only [Except.bind_eq_ok, Except.pure_eq_ok, Prod.mk.injEq] at h
    obtain ⟨_, hfound, rfl, rfl⟩ := h
    obtain ⟨c, hc, n, hn, rfl⟩ := exists_of_declarationNamed hfound
    refine ⟨Entity.traced_of_given fun m hm => ?_, .refl a⟩
    exact hp.classes c hc m (Node.mem_preorder_trans hn hm)
  unfold resolveText at h
  split at h
  · split at h
    · obtain ⟨rfl, rfl⟩ := Prod.mk.inj (Except.ok.inj h)
      exact ⟨Entity.traced_of_nodes_eq_nil rfl, .refl a⟩
    · cases h
  · exact hnamed h
  · exact hnamed h
  · exact hnamed h
  · obtain ⟨rfl, rfl⟩ := Prod.mk.inj (Except.ok.inj h)
    exact ⟨Entity.traced_of_nodes_eq_nil rfl, .refl a⟩
  · obtain ⟨rfl, rfl⟩ := Prod.mk.inj (Except.ok.inj h)
    exact ⟨Entity.traced_of_nodes_eq_nil rfl, .refl a⟩
  · split at h
    · rename_i l _
      obtain ⟨rfl, rfl⟩ := Prod.mk.inj (Except.ok.inj h)
      -- A literal is a new node without children.
      have hmake : Leaves (Arena.make {} (.literal l)) a fun n a' =>
          a.Later a' ∧ (Entity.node n).Traced given a' :=
        Node.leaves_make_traced fun _ c hc => by cases hc
      exact ⟨hmake.2, hmake.1⟩
    · cases h
  · cases h

/-- What is given for a parameter is traced. -/
theorem traced_of_argument (hp : p.Supplies given) {arg : Argument} (harg : arg.Supplied given)
    (h : p.argument a param type arg = .ok (e, a')) : e.Traced given a' ∧ a.Later a' := by
  -- Whatever the argument is, its type is checked at last.
  have haccepted {x : Entity × Arena} (hx : x.1.Traced given x.2 ∧ a.Later x.2)
      (h : (if type.accepts p.types x.1 = true then pure (x.1, x.2)
        else throw (.mismatch param x.1 type) : Except ArgumentError (Entity × Arena)) = .ok (e, a')) :
      e.Traced given a' ∧ a.Later a' := by
    split at h
    · obtain ⟨rfl, rfl⟩ := Prod.mk.inj (Except.pure_eq_ok.1 h)
      exact hx
    · cases h
  cases arg with
  | entity x => exact haccepted (x := (x, a)) ⟨Entity.traced_of_given harg, .refl a⟩ h
  | text s =>
    simp only [argument, Except.bind_eq_ok] at h
    obtain ⟨found, hfound, h⟩ := h
    exact haccepted (traced_of_resolveText hp hfound) h

end Program

namespace Table

variable {t t' : Table} {solved? : String → String → Option Relation}

/-- A table that takes its arguments: nothing was generated yet. -/
private structure Begun (given : Node → Prop) (t : Table) : Prop where
  program : t.program.Supplies given
  base : t.arena.base = t.program.idBase
  ordered : t.arena.Fits → t.arena.Ordered
  store : t.store.ValuesIn (Entity.Traced given t.arena)
  globals : t.globals.Traced given t.arena
  overlay : t.overlay = []
  generated : t.generated = []

/-- An argument of given nodes is taken. -/
private theorem Begun.bindArgument
    (hsolved : ∀ inst trait r, solved? inst trait = some r →
      ∀ u ∈ r.tuples.toList, ∀ e ∈ u.values, ∀ n ∈ e.nodes, given n)
    {p : ParamDecl TypeExpr} {arg : Argument} (ht : t.Begun given) (harg : arg.Supplied given)
    (h : bindArgument solved? t p arg = .ok t') : t'.Begun given := by
  -- an argument is a relation of another instance, or an entity
  obtain ⟨type, _, ⟨owner, params, r, rfl, hr, rfl⟩ | ⟨e, arena, he, rfl⟩⟩ := bindArgument_cases h
  · have hstore : Store.ValuesIn (Entity.Traced given t.arena) (t.store.put r) := by
      refine ht.store.set fun u hu e he => ?_
      obtain ⟨inst, trait, r', hr', v, hv, hvalues⟩ := Program.mem_of_relationArgument hr hu
      exact Entity.traced_of_given (hsolved inst trait r' hr' v hv e (hvalues ▸ he))
    exact { ht with store := hstore }
  · obtain ⟨he, hlater⟩ := Program.traced_of_argument ht.program harg he
    exact {
      program := ht.program
      base := hlater.base.trans ht.base
      ordered := fun hfits => hlater.ordered hfits (ht.ordered (hlater.fits hfits))
      store := fun n r hr u hu e he => (ht.store n r hr u hu e he).later hlater
      globals := (ht.globals.later hlater).bind he _
      overlay := ht.overlay
      generated := ht.generated }

/-- Declaring traits begins with the nodes of the program. -/
private theorem begun_of_declare {program : Program} {settings : Settings} {option : OptionDecl}
    {decls : List TraitDecl} {traits : DeclaredTraits} (hp : program.Supplies given)
    (hnodes : ∀ i n, program.node? i = some n → ∃ c ∈ program.classes.values, n ∈ c.preorder)
    (h : (start program settings option).declare decls = .ok (traits, t)) : t.Begun given := by
  obtain ⟨trace, hstart⟩ := exists_start program settings option
  have hstore (a : Arena) : t.store.ValuesIn (Entity.Traced given a) := valuesIn_of_declare
    (fun _ => Entity.traced_of_nodes_eq_nil rfl) (fun c hc n hn => Entity.traced_of_given fun m hm =>
      hp.classes c hc m (Node.mem_preorder_trans hn hm)) hnodes h
  obtain ⟨_, _, _, ht⟩ := declare_eq_ok h
  rw [hstart] at ht
  refine ⟨?_, ?_, fun _ => ?_, hstore _, ?_, ?_, ?_⟩ <;> rw [ht]
  · exact hp
  · exact fun k hk => absurd hk (Nat.not_lt_zero k)
  · exact Bindings.traced_empty

/-- When the program, the rules, the arguments and the relations of other instances hold given nodes
only, then all nodes of the constructed table come from given nodes. -/
theorem traced_of_construct {program : Program} {settings : Settings} {interface : Interface}
    {option : OptionDecl} {args : List Argument} (hp : program.Supplies given)
    (hnodes : ∀ i n, program.node? i = some n → ∃ c ∈ program.classes.values, n ∈ c.preorder)
    (hargs : ∀ arg ∈ args, arg.Supplied given)
    (hsolved : ∀ inst trait r, solved? inst trait = some r →
      ∀ u ∈ r.tuples.toList, ∀ e ∈ u.values, ∀ n ∈ e.nodes, given n)
    (h : construct program settings solved? interface option args = .ok t)
    (hrules : t.Supplied given) : t.Traced given := by
  obtain ⟨traits, t₁, t₂, hdeclare, hbind, hadd⟩ := exists_of_construct h
  obtain ⟨_, _, hfold⟩ := foldlM_of_bindArguments hbind
  -- arguments are bound one after the other, and then no more nodes are made
  have ht₂ : t₂.Begun given := Except.foldlM_ok (I := Begun given) hfold
    (begun_of_declare hp hnodes hdeclare) fun x hx t t' ht h =>
      ht.bindArgument hsolved (hargs x.2 (List.of_mem_zip hx).2) (Except.mapError_eq_ok.1 h)
  have hrealized := (constructed_of_construct h).1.notCopiedTo
  obtain ⟨copied, hcopied, harity, hempty⟩ := copiedTo_of_builtins program
  have hcopiedTo := find?_builtin_of_construct h hcopied
  obtain ⟨statements, rfl⟩ : ∃ statements, t = { t₂ with statements } :=
    ⟨_, (addStatements_eq_ok hadd).1⟩
  exact {
    program := ht₂.program
    base := ht₂.base
    ordered := ht₂.ordered
    rules := hrules
    realized := hrealized
    store := ⟨ht₂.store, copied, hcopiedTo, harity, fun u hu => by
      rw [hempty] at hu
      cases hu⟩
    globals := ht₂.globals
    overlay := by
      show t₂.overlay = t₂.generated.map Generated.entity
      rw [ht₂.overlay, ht₂.generated, List.map_nil]
    generated := fun g hg => by
      change g ∈ t₂.generated at hg
      rw [ht₂.generated] at hg
      cases hg
    once := by
      show (t₂.overlay.map Entity.nodeId?).Nodup
      rw [ht₂.overlay]
      exact List.nodup_nil }

/-! ### Solving -/

/-- A pair of the relation of copies is a node of the program and a node of a generated entity that was
copied from a given node of the same number. -/
private theorem Traced.exists_source (ht : t.Traced given) (hfits : t.arena.Fits)
    (hids : ∀ i n, t.program.node? i = some n → n.id = i) {r : Relation}
    (hr : t.store.find? BuiltinRelation.copiedTo = some r) {u : Tuple} (hu : u ∈ r.tuples.toList) :
    ∃ source copy o, u.values = [.node source, .node copy] ∧
      t.program.node? source.id = some source ∧ (∃ g ∈ t.generated, copy ∈ g.entity.nodes) ∧
        given o ∧ o.id = source.id ∧ t.arena.Link copy.id o.id ∧
          copy.shape = (o.remade 0).shape := by
  obtain ⟨r', hr', _, hpairs⟩ := ht.store.copiedTo
  obtain rfl := Option.some.inj (hr.symm.trans hr')
  obtain ⟨i, source, copy, hvalues, hsource, hlink, e, he, hcopy⟩ := hpairs u hu
  obtain rfl := hids i source hsource
  have hgiven : given source := ht.program.nodes _ _ hsource source source.mem_preorder_self
  -- Nodes of the program have numbers that the arena does not give out.
  have houtside {m : Node} (hm : m.id = source.id) (hin : t.arena.contains m.id = true) : False := by
    obtain ⟨place, hword, _⟩ := Arena.contains_iff.1 hin
    have hlt := UInt32.lt_iff_toNat_lt.1 (ht.program.below source hgiven)
    rw [hm, ht.base] at hword
    omega
  -- Copies are noted for generated entities, which make up the overlay.
  have hmade : ∃ g ∈ t.generated, copy ∈ g.entity.nodes := by
    rw [ht.overlay] at he
    obtain ⟨g, hg, rfl⟩ := List.mem_map.1 he
    exact ⟨g, hg, hcopy⟩
  have hcopyIn : Entity.node copy ∈ u.values := by
    rw [hvalues]
    exact List.mem_cons_of_mem _ (List.mem_singleton_self _)
  have htraced := ht.store.values _ r hr u hu _ hcopyIn hfits copy copy.mem_preorder_self
  cases htraced with
  | given h =>
    -- the number of a copy was given out
    have hin := (hlink hfits).contains
    obtain ⟨place, hword, _⟩ := Arena.contains_iff.1 hin
    have hlt := UInt32.lt_iff_toNat_lt.1 (ht.program.below copy h)
    rw [ht.base] at hword
    omega
  | made _ hnew => exact absurd ((hlink hfits).symm.trans hnew) (Option.some_ne_none _)
  | copied ho hcopied hshape =>
    rename_i o
    have hid : o.id = source.id := (hcopied.unique (hlink hfits)).symm
    refine ⟨source, copy, o, hvalues, hsource, hmade, ?_, hid, hcopied, hshape⟩
    exact ho.given_or_contains.resolve_right (houtside hid)

section

variable {program : Program} {settings : Settings} {interface : Interface} {option : OptionDecl}
  {args : List Argument} (hp : program.Supplies given)
  (hnodes : ∀ i n, program.node? i = some n → ∃ c ∈ program.classes.values, n ∈ c.preorder)
  (hargs : ∀ arg ∈ args, arg.Supplied given)
  (hsolved : ∀ inst trait r, solved? inst trait = some r →
    ∀ u ∈ r.tuples.toList, ∀ e ∈ u.values, ∀ n ∈ e.nodes, given n)
  (h : construct program settings solved? interface option args = .ok t) (hrules : t.Supplied given)
include hp hnodes hargs hsolved h hrules

/-- All nodes come from given ones, after any number of attempts to solve the table. -/
theorem traced_iterate_solve (n : Nat) : ((fun t => t.solve.2)^[n] t).Traced given :=
  have ht := traced_of_construct hp hnodes hargs hsolved h hrules
  (ht.iterate_solve n).traced ht

/-- After any number of attempts to solve the table, successful or not, every copy has a greater number
than the node it was copied from, and every chain of copies ends at a number that is not of a copy, as
long as numbers have not run out. -/
theorem chains_end_iterate_solve (n : Nat) {a : Arena} (ha : ((fun t => t.solve.2)^[n] t).arena = a)
    (hfits : a.Fits) : (∀ i j, a.Link i j → j.word.toNat < i.word.toNat) ∧
      ∀ i, ∃ k j, Steps a.Link k i j ∧ a.Uncopied j ∧ k ≤ a.size := by
  subst ha
  have hordered := (traced_iterate_solve hp hnodes hargs hsolved h hrules n).ordered hfits
  refine ⟨fun i j hlink => hordered.lt_of_link hlink, fun i => ?_⟩
  obtain ⟨k, j, hsteps, hj⟩ := hordered.exists_steps i
  exact ⟨k, j, hsteps, hj, hordered.steps_le_size hsteps⟩

/-- After any number of attempts to solve the table, successful or not, no generated entity is listed
twice, each was made by the table, and what it replaces is given or was made anew. -/
theorem generated_iterate_solve (n : Nat) {t' : Table} (ht' : (fun t => t.solve.2)^[n] t = t') :
    (t'.generated.map fun g => g.entity.nodeId?).Nodup ∧
      ∀ g ∈ t'.generated, ∃ root, g.Comes given t'.arena root := by
  have htraced := traced_iterate_solve hp hnodes hargs hsolved h hrules n
  subst ht'
  refine ⟨?_, htraced.generated⟩
  have honce := htraced.once
  rwa [htraced.overlay, List.map_map] at honce

/-- After any number of attempts to solve the table, successful or not, a tuple of the relation of
copies pairs a node of the program with a node of a generated entity, which was copied from a given node
that has the number of the first. -/
theorem copies_iterate_solve (hids : ∀ i n, program.node? i = some n → n.id = i) (n : Nat) {t' : Table}
    (ht' : (fun t => t.solve.2)^[n] t = t') (hfits : t'.arena.Fits) {r : Relation}
    (hr : t'.store.find? BuiltinRelation.copiedTo = some r) : ∀ u ∈ r.tuples.toList,
      ∃ source copy o, u.values = [.node source, .node copy] ∧
        program.node? source.id = some source ∧ (∃ g ∈ t'.generated, copy ∈ g.entity.nodes) ∧
          given o ∧ o.id = source.id ∧ t'.arena.Link copy.id o.id ∧
            copy.shape = (o.remade 0).shape := by
  have htraced := traced_iterate_solve hp hnodes hargs hsolved h hrules n
  have hprogram := ((sound_of_construct h).iterate_solve n).program_eq
  subst ht'
  intro u hu
  rw [← hprogram] at hids ⊢
  exact htraced.exists_source hfits hids hr hu

end

/-! ### Programs of classes -/

section

variable {classes : List Node} {free : UInt32} {program : Program}
  (hprogram : program = (Program.ofClasses classes).withIdBase free)
  (hread : ∀ c ∈ classes, ∀ n ∈ c.preorder, n.IsRead ∧ n.id.word < program.idBase)
  {settings : Settings} {interface : Interface} {option : OptionDecl} {args : List Argument}
  (hargs : ∀ arg ∈ args, arg.Supplied program.Offers)
  (hsolved : ∀ inst trait r, solved? inst trait = some r →
    ∀ u ∈ r.tuples.toList, ∀ e ∈ u.values, ∀ n ∈ e.nodes, program.Offers n)
  (h : construct program settings solved? interface option args = .ok t)
  (hrules : t.Supplied program.Offers)
include hprogram hread hargs hsolved h hrules

/-- When arguments, relations of other instances and rules hold nodes of the program only, a generated
entity replaces a node of the program or a node that was made anew, such as a literal argument. -/
theorem replaces_of_classes (n : Nat) {t' : Table} (ht' : (fun t => t.solve.2)^[n] t = t')
    (hfits : t'.arena.Fits) {g : Generated} (hg : g ∈ t'.generated) {i : NodeId}
    (hi : g.replaces = some i) : (∃ c ∈ program.classes.values, ∃ m ∈ c.preorder, m.id = i) ∨
      t'.arena.contains i = true ∧ t'.arena.source? i = none := by
  subst hprogram
  obtain ⟨root, hroot⟩ := (generated_iterate_solve (Program.supplies_offers hread)
    (fun _ _ hn => Program.mem_of_node? hn) hargs hsolved h hrules n ht').2 g hg
  -- What is replaced is where the copies of the entity come from.
  obtain ⟨k, o, _, rfl, ho⟩ := hroot.copied hfits i hi
  refine ho.imp_left fun hoffers => ?_
  obtain ⟨c, hc, m, hm, hid, _⟩ := hoffers.exists_id
  exact ⟨c, hc, m, hm, hid.symm⟩

/-- When moreover numbers are unique in the program, the nodes of a pair of the relation of copies have
the same shape, unless the copy is one of the receiver that was not written at the first node. -/
theorem copies_of_classes
    (hunique : ∀ c ∈ program.classes.values, ∀ n ∈ c.preorder, program.node? n.id = some n)
    (hcopyable : ∀ c ∈ program.classes.values, ∀ n ∈ c.preorder, n.Copyable)
    (n : Nat) {t' : Table} (ht' : (fun t => t.solve.2)^[n] t = t') (hfits : t'.arena.Fits)
    {r : Relation} (hr : t'.store.find? BuiltinRelation.copiedTo = some r) : ∀ u ∈ r.tuples.toList,
      ∃ source copy, u.values = [.node source, .node copy] ∧
        program.node? source.id = some source ∧ (∃ g ∈ t'.generated, copy ∈ g.entity.nodes) ∧
          (copy.shape = source.shape ∨
            ∃ o, Entity.node o = program.surroundings.implicitReceiver source ∧ copy.shape = o.shape) := by
  subst hprogram
  intro u hu
  obtain ⟨source, copy, o, hvalues, hsource, hmade, hoffers, hid, _, hshape⟩ :=
    copies_iterate_solve (Program.supplies_offers hread) (fun _ _ hn => Program.mem_of_node? hn) hargs
      hsolved h hrules (fun _ _ hn => Program.id_of_node? hn) n ht' hfits hr u hu
  refine ⟨source, copy, hvalues, hsource, hmade, ?_⟩
  obtain ⟨c, hc, m, hm, horigin⟩ := hoffers
  -- the receiver at a node has the number of the node, and the node is known by its number
  have hmid : m.id = o.id := by
    rcases horigin with rfl | hreceiver
    · rfl
    · obtain ⟨_, _, rfl⟩ := Surroundings.eq_make_of_implicitReceiver hreceiver.symm
      rfl
  have hsame : m = source := by
    have hfound := hunique c hc m hm
    rw [hmid, hid, hsource] at hfound
    exact (Option.some.inj hfound).symm
  subst hsame
  -- a copy of the node itself, or of the receiver at the node
  rcases horigin with rfl | hreceiver
  · left
    rw [hshape, Node.shape_remade 0 fun x hx => hcopyable c hc x (Node.mem_preorder_trans hm hx)]
  · right
    refine ⟨o, hreceiver, ?_⟩
    rw [hshape, Node.shape_remade 0 fun x hx => ?_]
    obtain ⟨type, isStatic, rfl⟩ := Surroundings.eq_make_of_implicitReceiver hreceiver.symm
    rw [Node.preorder_eq] at hx
    obtain rfl := List.mem_singleton.1 hx
    exact ⟨rfl, fun c hc => by cases hc⟩

end

end Table

end CodeRules
