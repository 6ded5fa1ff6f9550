import CodeRules.Proofs.Goal.Traced
import CodeRules.Proofs.Table.Guards
import CodeRules.Proofs.Table.Settling
import CodeRules.Proofs.Table.Walk

/-!
# Where the nodes of a table come from

In a table whose program and rules hold given nodes only, every node is given, or was made anew, or is a
copy of such a node (`Table.Traced`). Every step of solving keeps this, whether it succeeds or fails, and
so does any number of attempts to solve the table (`Table.Traced.iterate_solve`).
-/

namespace CodeRules

open Effect

variable {given : Node → Prop}

/-- The tuple pairs a node of the program with a node of a made entity that was copied from a node with
the same number. -/
def Tuple.IsCopy (p : Program) (a : Arena) (made : List Entity) (u : Tuple) : Prop :=
  ∃ i source copy, u.values = [.node source, .node copy] ∧ p.node? i = some source ∧
    (a.Fits → a.Link copy.id i) ∧ ∃ e ∈ made, copy ∈ e.nodes

/-- The relations hold traced entities, and the relation of copies holds copies of program nodes. -/
structure Store.Traced (given : Node → Prop) (p : Program) (a : Arena) (made : List Entity)
    (s : Store) : Prop where
  values : s.ValuesIn (Entity.Traced given a)
  copiedTo : ∃ r, s.find? BuiltinRelation.copiedTo = some r ∧ r.signature.arity = 2 ∧
    ∀ u ∈ r.tuples.toList, u.IsCopy p a made

namespace Store

variable {p : Program} {a a' : Arena} {made : List Entity} {s : Store} {n : String} {r : Relation}
  {u : Tuple}

/-- Nodes that are made later change nothing about the nodes that are there. -/
theorem Traced.later (h : s.Traced given p a made) (ha : a.Later a') : s.Traced given p a' made where
  values n r hr u hu e he := (h.values n r hr u hu e he).later ha
  copiedTo := by
    obtain ⟨r, hr, harity, hpairs⟩ := h.copiedTo
    refine ⟨r, hr, harity, fun u hu => ?_⟩
    obtain ⟨i, source, copy, hvalues, hsource, hlink, hmade⟩ := hpairs u hu
    exact ⟨i, source, copy, hvalues, hsource, fun hfits => ha.link (hlink (ha.fits hfits)), hmade⟩

/-- More entities were made. -/
theorem Traced.withMade (h : s.Traced given p a made) (e : Entity) :
    s.Traced given p a (made ++ [e]) where
  values := h.values
  copiedTo := by
    obtain ⟨r, hr, harity, hpairs⟩ := h.copiedTo
    refine ⟨r, hr, harity, fun u hu => ?_⟩
    obtain ⟨i, source, copy, hvalues, hsource, hlink, e, he, hcopy⟩ := hpairs u hu
    exact ⟨i, source, copy, hvalues, hsource, hlink, e, List.mem_append_left _ he, hcopy⟩

/-- A tuple of traced entities is added to a relation; where this is the relation of copies, the tuple
is such a pair. -/
theorem Traced.insert (hs : s.Traced given p a made) (hr : s.find? n = some r)
    (hu : ∀ e ∈ u.values, e.Traced given a)
    (hcopy : n = BuiltinRelation.copiedTo → u.IsCopy p a made) :
    Traced given p a made (Dict.set s n (r.insert u)) where
  values := hs.values.insert hr hu
  copiedTo := by
    obtain ⟨q, hq, harity, hpairs⟩ := hs.copiedTo
    rw [Dict.find?_set]
    split
    · rename_i heq
      subst heq
      obtain rfl := Option.some.inj (hr.symm.trans hq)
      refine ⟨_, rfl, harity, fun v hv => ?_⟩
      rcases Catalog.mem_of_mem_insert hv with rfl | hv
      · exact hcopy rfl
      · exact hpairs v hv
    · exact ⟨q, hq, harity, hpairs⟩

end Store

/-- All nodes that are written in the expression are given. -/
def Expr.Supplied (given : Node → Prop) (e : Expr) : Prop :=
  ∀ t ∈ e.terms, ∀ x ∈ t.written, ∀ n ∈ x.nodes, given n

/-- The generated entity is a traced node of the arena. It replaces nothing when it was made anew;
otherwise it replaces the first node of its chain of copies, which is given or was made anew. -/
structure Generated.Comes (given : Node → Prop) (a : Arena) (g : Generated) (root : Node) : Prop where
  entity : g.entity = .node root
  traced : (Entity.node root).Traced given a
  made : a.contains root.id = true
  anew : g.replaces = none → a.source? root.id = none
  copied : a.Fits → ∀ i, g.replaces = some i → ∃ k o, Steps a.Link (k + 1) root.id o.id ∧ o.id = i ∧
    (given o ∨ a.contains i = true ∧ a.source? i = none)

/-- Nodes that are made later do not change where an entity comes from. -/
theorem Generated.Comes.later {a a' : Arena} {g : Generated} {root : Node} (h : g.Comes given a root)
    (ha : a.Later a') : g.Comes given a' root where
  entity := h.entity
  traced := h.traced.later ha
  made := ha.contains h.made
  anew hnone := (ha.source?_eq h.made).trans (h.anew hnone)
  copied hfits i hi := by
    obtain ⟨k, o, hsteps, ho, hend⟩ := h.copied (ha.fits hfits) i hi
    refine ⟨k, o, hsteps.mono fun _ _ hlink => ha.link hlink, ho, hend.imp_right ?_⟩
    exact fun hmade => ⟨ha.contains hmade.1, (ha.source?_eq hmade.1).trans hmade.2⟩

/-- A number that was not given out has no source. -/
theorem Arena.source?_eq_none_of_not_contains {a : Arena} {i : NodeId} (h : a.contains i = false) :
    a.source? i = none := by
  rw [contains, Option.isSome_eq_false_iff, Option.isNone_iff_eq_none] at h
  simp [source?, get?, h]

/-- The origin of a traced node is given or was made anew. -/
theorem Arena.Traced.of_origin? {a : Arena} {n : Node} {i : NodeId} (ha : a.Ordered)
    (hgiven : ∀ n, given n → n.id.word < a.base) (h : a.Traced given n) (hi : a.origin? n.id = some i) :
    ∃ k o, Steps a.Link (k + 1) n.id o.id ∧ o.id = i ∧
      (given o ∨ a.contains i = true ∧ a.source? i = none) := by
  obtain ⟨m, o, hsteps, ho⟩ := h.exists_chain
  obtain ⟨k, hk, hchain, hend, _⟩ := ((origin?_ends_chain ha n.id).2.1 i).1 hi
  have hlast : a.Uncopied o.id := by
    rw [← source?_eq_none_iff]
    rcases ho with hgive | hmade
    · -- the numbers of given nodes were not given out
      refine source?_eq_none_of_not_contains (Bool.eq_false_iff.2 fun hin => ?_)
      obtain ⟨place, hword, _⟩ := contains_iff.1 hin
      have hlt := UInt32.lt_iff_toNat_lt.1 (hgiven o hgive)
      omega
    · exact hmade.2
  -- both chains come to their end
  have hsame : o.id = i := by
    rw [← follow_eq_of_steps hsteps hlast (Nat.le_max_left m k),
      ← follow_eq_of_steps hchain hend (Nat.le_max_right m k)]
  obtain ⟨k, rfl⟩ := Nat.exists_eq_succ_of_ne_zero (Nat.ne_zero_of_lt hk)
  exact ⟨k, o, hsame ▸ hchain, hsame, hsame ▸ ho⟩

namespace Table

/-! ### Traced tables -/

/-- All nodes that are written in the statements and guards are given. -/
structure Supplied (given : Node → Prop) (t : Table) : Prop where
  bodies : ∀ r ∈ t.statements, r.body.Supplied given
  requires : ∀ r ∈ t.statements, ∀ q ∈ r.requires, q.expr.Supplied given
  guards : ∀ g ∈ t.guards, ∀ q ∈ g.requires, q.expr.Supplied given

/-- All nodes of the table come from given nodes, and the generated entities are those that patterns
find, each listed once. -/
structure Traced (given : Node → Prop) (t : Table) : Prop where
  program : t.program.Supplies given
  base : t.arena.base = t.program.idBase
  ordered : t.arena.Fits → t.arena.Ordered
  rules : t.Supplied given
  realized : ∀ r ∈ t.statements, ∀ s ∈ r.signatures, s.name ≠ BuiltinRelation.copiedTo
  store : t.store.Traced given t.program t.arena t.overlay
  globals : t.globals.Traced given t.arena
  overlay : t.overlay = t.generated.map Generated.entity
  generated : ∀ g ∈ t.generated, ∃ root, g.Comes given t.arena root
  once : (t.overlay.map Entity.nodeId?).Nodup

/-- Nodes were made since, and if the table was traced before it is now. -/
structure Later (given : Node → Prop) (t t' : Table) : Prop where
  statements : t'.statements = t.statements
  arena : t.arena.Later t'.arena
  traced : t.Traced given → t'.Traced given

variable {t t' t'' : Table}

/-- A table that does not change. -/
theorem Later.refl (t : Table) : t.Later given t := ⟨rfl, .refl t.arena, fun h => h⟩

/-- One step after the other. -/
theorem Later.trans (h : t.Later given t') (h' : t'.Later given t'') : t.Later given t'' :=
  ⟨h'.statements.trans h.statements, h.arena.trans h'.arena, fun ht => h'.traced (h.traced ht)⟩

instance : Std.Refl (Later given) := ⟨Later.refl⟩

instance : IsTrans Table (Later given) := ⟨fun _ _ _ => Later.trans⟩

/-- Numbers were given out. -/
theorem Traced.withArena (h : t.Traced given) {a : Arena} (ha : t.arena.Later a) :
    { t with arena := a }.Traced given where
  program := h.program
  base := ha.base.trans h.base
  ordered hfits := ha.ordered hfits (h.ordered (ha.fits hfits))
  rules := ⟨h.rules.bodies, h.rules.requires, h.rules.guards⟩
  realized := h.realized
  store := h.store.later ha
  globals := h.globals.later ha
  overlay := h.overlay
  generated g hg := by
    obtain ⟨root, hroot⟩ := h.generated g hg
    exact ⟨root, hroot.later ha⟩
  once := h.once

/-- A step that only makes nodes. -/
theorem later_withArena (t : Table) {a : Arena} (ha : t.arena.Later a) :
    t.Later given { t with arena := a } := ⟨rfl, ha, fun h => h.withArena ha⟩

/-- A step that only adds to relations. -/
theorem later_withStore (t : Table) {store : Store}
    (h : t.Traced given → store.Traced given t.program t.arena t.overlay) :
    t.Later given { t with store } :=
  ⟨rfl, .refl _, fun ht => { ht with rules := { ht.rules with }, store := h ht }⟩

/-- A step that only binds variables. -/
theorem later_withGlobals (t : Table) {globals : Bindings}
    (h : t.Traced given → globals.Traced given t.arena) : t.Later given { t with globals } :=
  ⟨rfl, .refl _, fun ht => { ht with rules := { ht.rules with }, globals := h ht }⟩

/-- A step that is only recorded. -/
theorem later_withTrace (t : Table) (trace : Trace) : t.Later given { t with trace } :=
  ⟨rfl, .refl _, fun ht => { ht with rules := { ht.rules with } }⟩

end Table

/-- Variables take traced entities only. -/
theorem Bindings.Takes.traced {a : Arena} {entries : List (String × Entity)} {b b' : Bindings}
    (h : b.Takes entries b') (hb : b.Traced given a) (hentries : ∀ x ∈ entries, x.2.Traced given a) :
    b'.Traced given a := by
  induction h with
  | refl => exact hb
  | tail _ hbind ih =>
    obtain ⟨x, hx, hbind⟩ := hbind
    exact (Bindings.gathers_traced given a).bind? ih (hentries x hx) hbind

/-- Noting what the nodes of a made entity were copied from keeps the store traced. -/
theorem Store.NotesCopies.traced {t : Table} {root : Node} {l : List Replacement} {store : Store}
    (h : t.store.NotesCopies t.program root l store) (ht : t.Traced given)
    (hroot : (Entity.node root).Traced given t.arena)
    (hl : t.arena.Fits → ∀ x ∈ l, t.arena.Link x.copy x.source) :
    store.Traced given t.program t.arena (t.overlay ++ [.node root]) := by
  induction h with
  | refl => exact ht.store.withMade _
  | tail _ hnote ih =>
    obtain ⟨x, hx, source, copy, rel, pair, hsource, hcopy, hrel, hpair, rfl⟩ := hnote
    have hvalues : pair.values = [.node source, .node copy] := (Tuple.ofValues_eq_ok.1 hpair).2.1
    refine ih.insert hrel (fun e he => ?_) fun _ => ?_
    · rw [hvalues, List.mem_cons, List.mem_singleton] at he
      rcases he with rfl | rfl
      · exact Entity.traced_of_given (ht.program.nodes _ _ hsource)
      · -- the copy stands in the root
        exact hroot.of_subset fun n hn =>
          Node.mem_preorder_trans (List.mem_of_find?_eq_some hcopy) hn
    · refine ⟨x.source, source, copy, hvalues, hsource, fun hfits => ?_, .node root, ?_, ?_⟩
      · have hfound : root.preorder.find? (·.id == x.copy) = some copy := hcopy
        -- what is found has the number that was searched for
        have hid : copy.id = x.copy := by simpa using List.find?_some hfound
        exact hid ▸ hl hfits x hx
      · exact List.mem_append_right _ (List.mem_singleton_self _)
      · exact List.mem_of_find?_eq_some hcopy

namespace Running

variable {t : Table} {r : Realization}

/-! ### Single steps -/

/-- The goal of a statement spells out traced entities. -/
theorem writtenTraced_of_goal (ht : t.Traced given) (hr : r ∈ t.statements) {g : Goal}
    (hg : t.goal r = .ok g) : g.WrittenTraced given t.arena := by
  -- declaring the parameters binds no name to an entity
  have hbound (params : List Param) (s : Scope) :
      (params.foldl (fun s p => s.declare p.name p.type) s).bound = s.bound := by
    induction params generalizing s with
    | nil => rfl
    | cons p params ih => exact ih _
  refine Expr.writtenTraced_of_compile hg (fun u hu x hx => ?_) ?_
  · exact Entity.traced_of_given (ht.rules.bodies r hr u hu x hx)
  · rw [hbound]
    exact ht.globals.values

/-- Solving a goal in the world of the table finds traced entities. -/
theorem leads_solve (ht : t.Traced given) {g : Goal} {b : Bindings}
    (hg : g.WrittenTraced given t.arena) (hb : b.Traced given t.arena) :
    Leads Arena.Later (g.solve t.world b) t.arena fun s a => s.All fun c => c.Traced given a := by
  refine Goal.leads_traced ht.program ht.base (fun e he => ?_) ht.store.values hg hb
  change e ∈ t.overlay at he
  rw [ht.overlay] at he
  obtain ⟨made, hmade, rfl⟩ := List.mem_map.1 he
  obtain ⟨root, hroot⟩ := ht.generated made hmade
  exact hroot.entity ▸ hroot.traced

/-- The solutions of a goal bind traced entities. -/
theorem leads_solutions (ht : t.Traced given) {g : Goal} (hg : g.WrittenTraced given t.arena) :
    Leads (Table.Later given) (solutions g) t fun s t' => s.All fun c => c.Traced given t'.arena := by
  refine ends_solutions.2 ?_
  exact Ends.imp (leads_solve ht hg ht.globals) (fun _ _ h => ⟨t.later_withArena h.1, h.2⟩)
    fun _ _ h => ⟨t.later_withArena h.1, trivial⟩

/-- A solution of traced entities is realized. -/
theorem leads_realize {s : Signature} (hs : s.name ≠ BuiltinRelation.copiedTo) {b : Bindings}
    (hb : b.Traced given t.arena) :
    Leads (Table.Later given) (realize r b s) t
      fun o t' => ∀ u, o = some u → ∀ e ∈ u.values, e.Traced given t'.arena := by
  refine (ends_realize r b s t).imp (fun o t' h => ?_) fun f t' h => ?_
  · obtain ⟨u, rel, trace, hu, hrel, ho, rfl⟩ := h
    -- the values of the tuple are those of the solution
    have hvalues := Tuple.valuesIn_of_ofSolution hb.values hu
    have hstore : t.Later given { t with store := Dict.set t.store s.name (rel.insert u) } :=
      t.later_withStore fun ht => ht.store.insert hrel hvalues fun hcopies => absurd hcopies hs
    refine ⟨hstore.trans (Table.later_withTrace _ trace), fun v hv => ?_⟩
    rw [ho] at hv
    split at hv
    · cases hv
    · exact Option.some.inj hv ▸ hvalues
  · obtain ⟨rfl, _⟩ := h
    exact ⟨.refl t', trivial⟩

/-! ### Singletons -/

/-- A singleton takes a tuple of traced entities, and its variables take its values. -/
theorem leads_resolveSingleton {s : Signature} (hs : s.name ≠ BuiltinRelation.copiedTo)
    {found : Solutions} (hfound : found.All fun b => b.Traced given t.arena) :
    Leads (Table.Later given) (resolveSingleton r found s) t fun _ _ => True := by
  have hvalues {u : Tuple} (hu : IsAnswer t.program.types found s u) :
      ∀ e ∈ u.values, e.Traced given t.arena := by
    obtain ⟨b, hb, hu⟩ := hu.given
    exact Tuple.valuesIn_of_ofSolution (hfound b hb).values hu
  have hglobals {u : Tuple} (hu : IsAnswer t.program.types found s u) {globals : Bindings}
      (htakes : t.globals.Takes u.byName.toList globals) : t.Later given { t with globals } := by
    refine t.later_withGlobals fun ht => htakes.traced ht.globals fun x hx => ?_
    exact hvalues hu _ (List.of_mem_zip (Catalog.mem_of_mem_ofListLast hx)).2
  refine (ends_resolveSingleton r found s t).imp (fun _ t' h => ⟨?_, trivial⟩)
    fun f t' h => ⟨?_, trivial⟩
  -- the variables take the values of the tuple, and the relation the tuple
  · obtain ⟨u, rel, globals, trace, hu, hrel, _, htakes, _, rfl⟩ := h
    refine (hglobals hu htakes).trans ((Table.later_withStore _ fun ht => ?_).trans
      (Table.later_withTrace _ trace))
    exact ht.store.insert hrel (hvalues hu) fun hcopies => absurd hcopies hs
  · rcases h with ⟨rfl, _⟩ | ⟨_, u, globals, trace, hu, htakes, rfl⟩
    · exact .refl t'
    · -- some of the variables were bound before the failure
      exact (hglobals hu htakes).trans (Table.later_withTrace _ trace)

/-! ### Made nodes -/

/-- A generated entity is kept once, and its origin is known. -/
theorem leads_keepMade (ht : t.Traced given) {root : Node}
    (hroot : (Entity.node root).Traced given t.arena) (hmade : t.arena.contains root.id = true)
    (hnew : t.hasMade root.id = false) (s : Signature) {b : Bindings} (hb : b.Traced given t.arena)
    (host : Option CodeType) (param : String) :
    Leads (Table.Later given) (keepMade s b host param root) t fun _ _ => True := by
  have hlater : t.arena.Later (t.arena.meantFor root.id host) := by
    cases host with
    | none => exact .refl t.arena
    | some c => exact t.arena.later_setDeclaringType root.id c
  have ht₁ := ht.withArena hlater
  have hroot₁ := hroot.later hlater
  refine (ends_keepMade s b host param root t).imp (fun _ t' h => ⟨?_, trivial⟩) fun _ t' h => ?_
  · obtain ⟨arena, store, trace, rfl, hnotes, rfl⟩ := h
    refine ⟨rfl, hlater, fun _ => ?_⟩
    exact { ht₁ with
      rules := { ht₁.rules with }
      store := Store.NotesCopies.traced (t := { t with arena := t.arena.meantFor root.id host })
        hnotes ht₁ hroot₁ (hb.later hlater).linked
      overlay := by
        show t.overlay ++ [_] = (t.generated ++ [_]).map Generated.entity
        rw [List.map_append, ht.overlay]
        rfl
      -- the new entity comes from the origin of its root
      generated := fun g hg => by
        rcases List.mem_append.1 hg with hg | hg
        · exact ht₁.generated g hg
        · obtain rfl := List.mem_singleton.1 hg
          exact ⟨root, {
            entity := rfl
            traced := hroot₁
            made := hlater.contains hmade
            anew := Option.map_eq_none_iff.1
            copied := fun hfits i hi => (hroot₁ hfits root root.mem_preorder_self).of_origin?
              (ht₁.ordered hfits) (fun n hn => ht₁.base ▸ ht.program.below n hn) hi }⟩
      once := by
        show ((t.overlay ++ [Entity.node root]).map Entity.nodeId?).Nodup
        rw [List.map_append, List.nodup_append]
        refine ⟨ht.once, List.nodup_singleton _, fun x hx y hy heq => ?_⟩
        obtain rfl := List.mem_singleton.1 hy
        obtain ⟨e, he, rfl⟩ := List.mem_map.1 hx
        -- a node that was kept before is not kept again
        have hany : t.hasMade root.id = true := List.any_eq_true.2 ⟨e, he, beq_iff_eq.2 heq⟩
        rw [hnew] at hany
        cases hany }
  · -- a traced table has the relation of copies
    obtain ⟨rel, hrel, harity, _⟩ := ht.store.copiedTo
    exact absurd ⟨rel, hrel, harity⟩ h.2

/-! ### Statements and groups -/

/-- The steps of the statements of a traced table lead to later tables. -/
def tracedWalk (given : Node → Prop) : StatementWalk (Table.Later given) fun _ => True where
  Ready x t := t.Traced given ∧ x ∈ t.statements
  Fits _ g t := g.WrittenTraced given t.arena
  Found b t := b.Traced given t.arena
  Made u t := ∀ e ∈ u.values, e.Traced given t.arena
  ready_later h hx := ⟨h.traced hx.1, h.statements ▸ hx.2⟩
  fits_later h hg := hg.later h.arena
  found_later h hb := hb.later h.arena
  made_later h hu e he := (hu e he).later h.arena
  record t _ _ _ := t.later_withTrace _
  report _ := trivial
  goal hx hg := writtenTraced_of_goal hx.1 hx.2 hg
  solutions hx hg := leads_solutions hx.1 hg
  realize hx _ hs hb := leads_realize (hx.1.realized _ hx.2 _ hs) hb

/-- Running the statements of a traced table leads to later tables. -/
theorem tableWalk_later {t : Table} (ht : t.Traced given) :
    TableWalk (fun todo t' => t.Later given t' ∧ ∀ x ∈ todo, x ∈ t.statements)
      (fun _ t' => t.Later given t') := by
  refine (tracedWalk given).tableWalk (fun h hJ => hJ.trans h)
    (fun hJ hx => ⟨hJ.traced ht, hJ.statements ▸ hx⟩) (fun hJ hx hs _ hfound => ?_)
    fun hJ hb hu hmade hnew hroot => ?_
  · refine leads_resolveSingleton ((hJ.traced ht).realized _ ?_ _ hs) hfound
    exact hJ.statements ▸ hx
  · exact leads_keepMade (hJ.traced ht) (hu _ hroot) hmade hnew _ hb _ _

/-! ### Guards -/

/-- The names in a guard stand for traced entities. -/
private theorem traced_guardBindings (ht : t.Traced given) {u : Tuple}
    (hu : ∀ e ∈ u.values, e.Traced given t.arena) : (t.guardBindings u).Traced given t.arena := by
  have htuple : u.toBindings.Traced given t.arena :=
    List.foldlRecOn (motive := Bindings.Traced given t.arena) _ _ Bindings.traced_empty
      fun b hb entry hentry => hb.bind
        (hu _ (List.of_mem_zip (Catalog.mem_of_mem_ofListLast hentry)).2) _
  -- the variables of the table join the values of the tuple
  refine List.foldlRecOn (motive := Bindings.Traced given t.arena) _ _ htuple ?_
  intro b hb entry hentry
  dsimp only
  split
  · exact hb
  · exact hb.bind (ht.globals.values _ _ (Dict.find?_eq_some_iff.2 hentry)) _

/-- A check of a guard of traced entities leads to a later table, however it ends. -/
theorem later_checkGuard (ht : t.Traced given) {c : GuardCheck}
    (hrequire : c.require.expr.Supplied given)
    (htuple : ∀ e ∈ c.tuple.values, e.Traced given t.arena) :
    t.Later given ((checkGuard c).run.run t).2 := by
  have hb := traced_guardBindings ht htuple
  refine later_of_checkGuard (.refl t) fun g trace hg => ?_
  have hwritten : g.WrittenTraced given t.arena := Expr.writtenTraced_of_compile hg
    (fun u hu x hx => Entity.traced_of_given (hrequire u hu x hx)) hb.values
  have hholds : Leads Arena.Later (g.holds t.world (t.guardBindings c.tuple)) t.arena
      fun _ _ => True := leads_bind (leads_solve ht hwritten hb) fun _ _ _ _ => leads_pure trivial
  exact (t.later_withArena hholds.later).trans (Table.later_withTrace _ trace)

/-- The checks of the guards of a traced table lead to a later table. -/
theorem ends_checkGuards_later (ht : t.Traced given) :
    Ends checkGuards t (fun _ t' => t.Later given t') (fun _ t' => t.Later given t') := by
  have hchecks {q : Require} {span : Span} {name : String} (hq : q.expr.Supplied given) :
      ∀ c ∈ t.checksOf q span name, c.require.expr.Supplied given ∧
        ∀ e ∈ c.tuple.values, e.Traced given t.arena := by
    intro c hc
    obtain ⟨u, hu, rfl⟩ := List.mem_map.1 hc
    obtain ⟨rel, hrel, hu⟩ := List.mem_flatMap.1 hu
    exact ⟨hq, ht.store.values name rel (Option.mem_toList.1 hrel) u hu⟩
  -- a check belongs to a statement or to a guard of the traits
  have hall : ∀ c ∈ t.guardChecks, c.require.expr.Supplied given ∧
      ∀ e ∈ c.tuple.values, e.Traced given t.arena := by
    intro c hc
    rcases List.mem_append.1 hc with hc | hc
    · obtain ⟨r, hr, hc⟩ := List.mem_flatMap.1 hc
      obtain ⟨q, hq, hc⟩ := List.mem_flatMap.1 hc
      obtain ⟨name, _, hc⟩ := List.mem_flatMap.1 hc
      exact hchecks (ht.rules.requires r hr q hq) c hc
    · obtain ⟨g, hg, hc⟩ := List.mem_flatMap.1 hc
      obtain ⟨q, hq, hc⟩ := List.mem_flatMap.1 hc
      exact hchecks (ht.rules.guards g hg q hq) c hc
  refine ends_checkGuards_of_forall fun c hc t' h' => ?_
  -- earlier checks may have made nodes
  obtain ⟨hrequire, htuple⟩ := hall c hc
  exact later_checkGuard (h'.traced ht) hrequire fun e he => (htuple e he).later h'.arena

end Running

namespace Table

variable {t : Table}

/-! ### Tables -/

/-- Running a traced table leads to a later one, whether it succeeds or fails. -/
theorem ends_run_later (ht : t.Traced given) :
    Ends run t (fun _ t' => t.Later given t') (fun _ t' => t.Later given t') := by
  refine (Running.tableWalk_later ht).ends_run (fun _ t' h => h.1.statements) (fun t' h => ?_)
    (fun t' h => ?_) (fun _ => .refl t) fun _ => ⟨.refl t, fun _ hx => hx⟩
  · exact (Running.ends_checkGuards_later (h.1.traced ht)).imp
      (fun _ _ h' => ⟨h.1.trans h', h.2⟩) fun _ _ h' => h.1.trans h'
  · exact h.1.trans ⟨rfl, .refl _, fun ht => { ht with rules := { ht.rules with } }⟩

/-- Attempts to solve a table keep where nodes come from, whether they succeed or not. -/
theorem Traced.iterate_solve (ht : t.Traced given) (n : Nat) :
    t.Later given ((fun t => t.solve.2)^[n] t) :=
  iterate_solve_of_ends (J := t.Later given) (fun _ h => (ends_run_later (h.traced ht)).imp
    (fun _ _ h' => h.trans h') fun _ _ h' => h.trans h') (.refl t) n

end Table

end CodeRules
