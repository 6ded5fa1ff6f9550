import CodeRules.Proofs.Binding.Agreement
import CodeRules.Proofs.Effect
import CodeRules.Proofs.Goal.WellFormed
import CodeRules.Proofs.Relation.Store
import CodeRules.Proofs.Relation.Tuple
import CodeRules.Table.Run

/-!
# What running a statement changes

`Table.Follows` is the frame of a run: which relations and variables may be new afterwards, and that
relations only grow. Each operation on a table gets one lemma that says how it ends, also when it fails:
`Running.ends_realize`, `Running.ends_resolveSingleton` and `Running.ends_keepMade` for those that change
relations or variables.
-/

namespace CodeRules

open Effect

namespace Tuple

/-- The tuple of a solution holds the entities of the parameters, which are of the right kinds. -/
theorem ofSolution_eq_ok {types : TypeOracle} {s : Signature} {b : Bindings} {t : Tuple} :
    ofSolution types s b = .ok t ↔ (t.signature = s ∧ s.paramNames.map b.find? = t.values.map some ∧
      t.root = rootOf t.values) ∧
        ∀ x ∈ s.params.zip t.values, x.1.type.accepts types x.2 = true := by
  simp only [ofSolution, Except.bind_eq_ok, Except.mapError_eq_ok, ofBindings, ofLookup_eq_ok]
  constructor
  · rintro ⟨u, hu, h⟩
    split at h
    · simp at h
    · rename_i hfind
      simp only [Except.pure_eq_ok] at h
      subst h
      exact ⟨hu, by simpa using hfind⟩
  · rintro ⟨ht, hall⟩
    refine ⟨t, ht, ?_⟩
    rw [List.find?_eq_none.2 (by simpa using hall)]
    rfl

end Tuple

/-! ### Frames -/

/-- The first relation, if there is one, is part of the second, and has the same signature. -/
def Relation.Grows : Option Relation → Option Relation → Prop
  | some r, some r' => r.signature = r'.signature ∧ ∀ t ∈ r.tuples.toList, t ∈ r'.tuples.toList
  | none, none => True
  | _, _ => False

/-- A relation that stays the same has grown, by nothing. -/
theorem Relation.Grows.refl (r : Option Relation) : Grows r r := by
  cases r with
  | none => trivial
  | some r => exact ⟨rfl, fun _ h => h⟩

/-- A relation grows in several steps. -/
theorem Relation.Grows.trans {r₁ r₂ r₃ : Option Relation} (h : Grows r₁ r₂) (h' : Grows r₂ r₃) :
    Grows r₁ r₃ := by
  cases r₁ <;> cases r₂ <;> cases r₃ <;> try trivial
  exact ⟨h.1.trans h'.1, fun t ht => h'.2 t (h.2 t ht)⟩

namespace Table

/-- `t'` comes after `t` in a run that adds to the named relations and binds the given variables
only. -/
structure Follows (names vars : List String) (t t' : Table) : Prop where
  grows : ∀ n, Relation.Grows (t.store.find? n) (t'.store.find? n)
  relations : ∀ n, n ∉ names → t'.store.find? n = t.store.find? n
  globals : ∀ v, v ∉ vars → t'.globals.find? v = t.globals.find? v
  others : t' = { t with
    arena := t'.arena, trace := t'.trace, store := t'.store, globals := t'.globals,
    overlay := t'.overlay, generated := t'.generated }

namespace Follows

variable {names names' vars vars' : List String} {t t' t'' : Table}

/-- A run that leaves relations and variables alone. -/
theorem of_eq (hstore : t'.store = t.store) (hglobals : t'.globals = t.globals)
    (h : t' = { t with
      arena := t'.arena, trace := t'.trace, store := t'.store, globals := t'.globals,
      overlay := t'.overlay, generated := t'.generated }) : Follows names vars t t' :=
  ⟨fun n => by rw [hstore]; exact .refl _, fun n _ => by rw [hstore], fun v _ => by rw [hglobals], h⟩

/-- A run that does nothing. -/
theorem refl (t : Table) : Follows names vars t t := of_eq rfl rfl rfl

/-- One run after the other. -/
theorem trans (h : Follows names vars t t') (h' : Follows names vars t' t'') :
    Follows names vars t t'' where
  grows n := (h.grows n).trans (h'.grows n)
  relations n hn := by rw [h'.relations n hn, h.relations n hn]
  globals v hv := by rw [h'.globals v hv, h.globals v hv]
  others := by rw [h'.others, h.others]

/-- More relations and variables may have changed than did. -/
theorem mono (h : Follows names vars t t') (hnames : ∀ n ∈ names, n ∈ names')
    (hvars : ∀ v ∈ vars, v ∈ vars') : Follows names' vars' t t' where
  grows := h.grows
  relations n hn := h.relations n fun hmem => hn (hnames n hmem)
  globals v hv := h.globals v fun hmem => hv (hvars v hmem)
  others := h.others

/-- A run stays in its program. -/
theorem program (h : Follows names vars t t') : t'.program = t.program := by rw [h.others]

/-- A run keeps the statements of the table. -/
theorem statements (h : Follows names vars t t') : t'.statements = t.statements := by rw [h.others]

/-- A run keeps the settings of the table. -/
theorem settings (h : Follows names vars t t') : t'.settings = t.settings := by rw [h.others]

/-- A run keeps which singleton each variable belongs to. -/
theorem singletonOf (h : Follows names vars t t') : t'.singletonOf = t.singletonOf := by
  rw [h.others]

/-- Relations stay registered, under the same signatures. -/
theorem find? (h : Follows names vars t t') {n : String} {r : Relation}
    (hr : t.store.find? n = some r) :
    ∃ r', t'.store.find? n = some r' ∧ r'.signature = r.signature := by
  have hn := h.grows n
  rw [hr] at hn
  cases hr' : t'.store.find? n with
  | none =>
    rw [hr'] at hn
    exact hn.elim
  | some r' =>
    rw [hr'] at hn
    exact ⟨r', rfl, hn.1.symm⟩

end Follows

instance (names vars : List String) : Std.Refl (Follows names vars) := ⟨Follows.refl⟩

instance (names vars : List String) : IsTrans Table (Follows names vars) :=
  ⟨fun _ _ _ => Follows.trans⟩

/-- The frame lets goals stay well-formed. -/
theorem Follows.arity? {names vars : List String} {t t' : Table} (h : Follows names vars t t') :
    t'.store.arity? = t.store.arity? := by
  funext n
  have hn := h.grows n
  unfold Store.arity?
  cases hr : t.store.find? n with
  | none => cases hr' : t'.store.find? n <;> simp_all [Relation.Grows]
  | some r => cases hr' : t'.store.find? n <;> simp_all [Relation.Grows]

/-- A new tuple makes its relation grow, and no other. -/
theorem follows_set {t : Table} {name : String} {r : Relation}
    (hr : t.store.find? name = some r) (tuple : Tuple) :
    Follows [name] [] t { t with store := Dict.set t.store name (r.insert tuple) } where
  grows n := by
    rw [Dict.find?_set]
    split
    · rename_i e
      subst e
      rw [hr]
      exact ⟨rfl, fun u hu => Catalog.mem_insert_of_mem hu⟩
    · exact .refl _
  relations n hn := by
    rw [List.mem_singleton] at hn
    exact (Dict.find?_set ..).trans (if_neg hn)
  globals v _ := rfl
  others := rfl

end Table

namespace Bindings

variable {entries entries' : List (String × Entity)} {b b' : Bindings}

/-! ### Binding several names -/

/-- Some of the entries are bound, one after the other. -/
def Takes (entries : List (String × Entity)) : Bindings → Bindings → Prop :=
  Relation.ReflTransGen fun b b' => ∃ x ∈ entries, b.bind? x.1 x.2 = some b'

/-- The entries are for different names, which are unbound. -/
def Lacks (b : Bindings) (entries : List (String × Entity)) : Prop :=
  (entries.map Prod.fst).Nodup ∧ ∀ x ∈ entries, b.find? x.1 = none

/-- Binding one of the entries leaves the names of the others unbound. -/
theorem Lacks.of_bind? {x : String × Entity} (h : b.Lacks (x :: entries))
    (hbind : b.bind? x.1 x.2 = some b') : b'.Lacks entries := by
  obtain ⟨hx, hnodup⟩ := List.nodup_cons.1 h.1
  refine ⟨hnodup, fun y hy => ?_⟩
  have hne : y.1 ≠ x.1 := fun heq => hx (heq ▸ List.mem_map_of_mem hy)
  rw [find?_of_bind? hbind hne]
  exact h.2 y (List.mem_cons_of_mem _ hy)

namespace Takes

/-- More entries may be bound than were. -/
theorem mono (h : b.Takes entries b') (hsub : ∀ x ∈ entries, x ∈ entries') :
    b.Takes entries' b' :=
  Relation.ReflTransGen.mono (fun _ _ ⟨x, hx, hbind⟩ => ⟨x, hsub x hx, hbind⟩) _ _ h

/-- Only the names of the entries are bound. -/
theorem find?_of_not_mem (h : b.Takes entries b') {v : String} (hv : v ∉ entries.map Prod.fst) :
    b'.find? v = b.find? v := by
  induction h with
  | refl => rfl
  | tail _ hbind ih =>
    obtain ⟨x, hx, hbind⟩ := hbind
    have hne : v ≠ x.1 := fun heq => hv (heq ▸ List.mem_map_of_mem hx)
    exact (find?_of_bind? hbind hne).trans ih

/-- Values of a tuple are bound to its parameters only. -/
theorem find?_of_not_mem_paramNames {u : Tuple} (h : b.Takes u.byName.toList b') {v : String}
    (hv : v ∉ u.signature.paramNames) : b'.find? v = b.find? v := by
  refine h.find?_of_not_mem fun hmem => hv ?_
  obtain ⟨x, hx, rfl⟩ := List.mem_map.1 hmem
  exact Tuple.mem_paramNames_of_mem_byName hx

/-- Binding names leaves the result of a generation alone. -/
theorem result_eq (h : b.Takes entries b') : b'.result = b.result := by
  induction h with
  | refl => rfl
  | tail _ hbind ih =>
    obtain ⟨_, _, hbind⟩ := hbind
    exact (result_of_bind? hbind).trans ih

/-- A name stands for what it stood for before, or for the entity of an entry. -/
theorem find?_eq_some (h : b.Takes entries b') {v : String} {e : Entity}
    (he : b'.find? v = some e) : b.find? v = some e ∨ (v, e) ∈ entries := by
  induction h generalizing e with
  | refl => exact .inl he
  | @tail first last _ hbind ih =>
    obtain ⟨x, hx, hbind⟩ := hbind
    rw [find?_bind?_eq hbind] at he
    split at he
    · rename_i hself
      obtain ⟨rfl, _⟩ := hself
      cases hfree : first.find? x.1 with
      | none =>
        -- the last entry that was bound is for this name
        rw [hfree] at he
        obtain rfl := Option.some.inj he
        exact .inr hx
      | some e' =>
        rw [hfree] at he
        exact ih (hfree.trans he)
    · exact ih he

/-- Names that are bound already stay as they are. -/
theorem eq_of_bound (h : b.Takes entries b') (hbound : ∀ x ∈ entries, b.find? x.1 ≠ none) :
    b' = b := by
  induction h with
  | refl => rfl
  | tail _ hbind ih =>
    obtain ⟨x, hx, hbind⟩ := hbind
    subst ih
    obtain ⟨e, he⟩ := Option.ne_none_iff_exists'.1 (hbound x hx)
    -- an entity of the same shape is not bound again
    unfold bind? at hbind
    split at hbind
    · exact (Option.some.inj hbind).symm
    · rw [he] at hbind
      dsimp only at hbind
      split at hbind
      · exact (Option.some.inj hbind).symm
      · cases hbind

end Takes

end Bindings

namespace Store

variable {p : Program} {root : Node} {l : List Replacement}

/-! ### Noting copies -/

/-- The pair of a program node and its copy in the root is added to the relation of copies. -/
def NotesCopy (p : Program) (root : Node) (x : Replacement) (s s' : Store) : Prop :=
  ∃ source copy rel pair, p.node? x.source = some source ∧ root.find? x.copy = some copy ∧
    s.find? BuiltinRelation.copiedTo = some rel ∧
    Tuple.ofValues rel.signature [.node source, .node copy] = .ok pair ∧
    s' = Dict.set s BuiltinRelation.copiedTo (rel.insert pair)

/-- Some of the copies are noted, one after the other. -/
def NotesCopies (p : Program) (root : Node) (l : List Replacement) : Store → Store → Prop :=
  Relation.ReflTransGen fun s s' => ∃ x ∈ l, s.NotesCopy p root x s'

/-- Noting copies adds to the relation of copies only. -/
theorem NotesCopies.follows {t : Table} {store : Store}
    (h : t.store.NotesCopies p root l store) :
    t.Follows [BuiltinRelation.copiedTo] [] { t with store } := by
  induction h with
  | refl => exact .refl t
  | @tail store _ _ hnote ih =>
    obtain ⟨_, _, _, _, rel, pair, _, _, hrel, _, rfl⟩ := hnote
    exact ih.trans ({ t with store }.follows_set hrel pair)

end Store

/-- What the arena says of a node that is meant for a type, if it is meant for one. -/
def Arena.meantFor (a : Arena) (i : NodeId) : Option CodeType → Arena
  | none => a
  | some c => a.setDeclaringType i c

namespace Running

variable {α : Type} {t : Table} {E : Failure → Table → Prop}

/-! ### Outcomes -/

/-- What does not hold is reported to the user. -/
theorem ends_orReport {ε : Type} {diagnostic : ε → Diagnostic} {x : Except ε α}
    {Q : α → Table → Prop} :
    Ends (orReport diagnostic x) t Q E ↔ match x with
      | .ok a => Q a t
      | .error e => E (.user [diagnostic e]) t := by
  cases x <;> exact Iff.rfl

/-- What no rule can cause is a defect. -/
theorem ends_orDefect {x : Except Defect α} {Q : α → Table → Prop} :
    Ends (orDefect x) t Q E ↔ match x with
      | .ok a => Q a t
      | .error d => E (.defect d) t := by
  cases x <;> exact Iff.rfl

/-- Recording an event changes the trace only. -/
@[simp] theorem ends_record {action : TraceAction} {relation detail : String}
    {Q : Unit → Table → Prop} :
    Ends (record action relation detail) t Q E ↔ Q () (t.record action relation detail) := Iff.rfl

/-- Solving changes nothing but the arena, also when it fails. -/
theorem run_solving (x : World → Solving α) (t : Table) : (solving x).run.run t =
    (((x t.world).run.run t.arena).1, { t with arena := ((x t.world).run.run t.arena).2 }) := by
  rw [solving, run_bind]
  show StateT.run (ExceptT.run _) t = _
  rcases (x t.world).run.run t.arena with ⟨_ | _, arena⟩ <;> rfl

/-- A goal is solved in the world that the table shows, with the arena of the table. -/
theorem ends_solving {x : World → Solving α} {Q : α → Table → Prop} :
    Ends (solving x) t Q E ↔ Ends (x t.world) t.arena (fun a arena => Q a { t with arena })
      (fun f arena => E f { t with arena }) := by
  unfold Ends
  rw [run_solving]
  rcases (x t.world).run.run t.arena with ⟨_ | _, arena⟩ <;> rfl

/-! ### Tuples -/

/-- The goal of a statement is compiled against the table as it is. -/
theorem ends_goal {r : Realization} {Q : Goal → Table → Prop} :
    Ends (goal r) t Q E ↔ match t.goal r with
      | .ok g => Q g t
      | .error e => E (.user [e.diagnostic]) t := by
  show Ends (get >>= _) t Q E ↔ _
  rw [ends_bind, ends_get, ends_orReport]
  cases t.goal r <;> exact Iff.rfl

/-- A tuple that does not fit its trait is reported at the place of the statement. -/
theorem ends_tuple {r : Realization} {s : Signature} {b : Bindings} {Q : Tuple → Table → Prop} :
    Ends (tuple r s b) t Q E ↔ match Tuple.ofSolution t.program.types s b with
      | .ok u => Q u t
      | .error e => E (.user [e.diagnostic (t.placeOf r)]) t := by
  show Ends (get >>= _) t Q E ↔ _
  rw [ends_bind, ends_get, ends_orReport]
  cases Tuple.ofSolution t.program.types s b <;> exact Iff.rfl

/-- Solving a goal starts from the variables of the table, and changes nothing but the arena. -/
theorem ends_solutions {g : Goal} {Q : Solutions → Table → Prop} :
    Ends (solutions g) t Q E ↔ Ends (g.solve t.world t.globals) t.arena
      (fun found arena => Q found { t with arena }) (fun f arena => E f { t with arena }) := by
  show Ends (get >>= _) t Q E ↔ _
  rw [ends_bind, ends_get, ends_solving]

/-- A tuple is added to a relation that is registered. -/
theorem ends_add {name : String} {u : Tuple} {Q : Bool → Table → Prop} :
    Ends (add name u) t Q E ↔ match t.store.find? name with
      | some r => Q (!r.contains u) { t with store := Dict.set t.store name (r.insert u) }
      | none => E (.defect (.unregisteredRelation name)) t := by
  show Ends (get >>= _) t Q E ↔ _
  rw [ends_bind, ends_get, ends_bind, ends_orDefect, Store.add]
  cases t.store.find? name <;> exact Iff.rfl

/-- A solution gives a tuple, which its relation holds afterwards. Nothing changes when the solution
gives none, or when there is no such relation. -/
theorem ends_realize (r : Realization) (b : Bindings) (s : Signature) (t : Table) :
    Ends (realize r b s) t
      (fun o t' => ∃ u rel trace, Tuple.ofSolution t.program.types s b = .ok u ∧
        t.store.find? s.name = some rel ∧ o = (if rel.contains u then none else some u) ∧
        t' = { t with store := Dict.set t.store s.name (rel.insert u), trace })
      (fun f t' => t' = t ∧ (f.IsUser ∨
        t.store.find? s.name = none ∧ f = .defect (.unregisteredRelation s.name))) := by
  rw [realize, ends_bind, ends_tuple]
  split
  · rename_i u hu
    rw [ends_bind, ends_add]
    split
    · rename_i rel hrel
      -- whether the tuple is new decides what the trace says
      cases hnew : rel.contains u with
      | true => exact ⟨u, rel, t.trace, hu, hrel, by rw [hnew]; rfl, rfl⟩
      | false =>
        rw [Bool.not_false, if_pos rfl, ends_bind, ends_record, ends_pure]
        exact ⟨u, rel, _, hu, hrel, by rw [hnew]; rfl, rfl⟩
    · exact ⟨rfl, .inr ⟨‹_›, rfl⟩⟩
  · exact ⟨rfl, .inl rfl⟩

/-! ### Singletons -/

/-- A variable that stands for something else is a defect. -/
theorem ends_bindVariable {name : String} {e : Entity} {Q : Unit → Table → Prop} :
    Ends (bindVariable name e) t Q E ↔ match t.globals.bind? name e with
      | some globals => Q () { t with globals }
      | none => E (.defect (.singletonVariableBound name)) t := by
  show Ends (get >>= _) t Q E ↔ _
  rw [ends_bind, ends_get]
  cases t.globals.bind? name e <;> exact Iff.rfl

/-- Entries for different names that are unbound are all bound. Otherwise some of them may be. -/
theorem ends_bindVariables (entries : List (String × Entity)) (t : Table) :
    Ends (entries.forM fun x => bindVariable x.1 x.2) t
      (fun _ t' => ∃ globals, t.globals.Takes entries globals ∧ t' = { t with globals } ∧
        (t.globals.Lacks entries → wildcard ∉ entries.map Prod.fst →
          ∀ x ∈ entries, globals.find? x.1 = some x.2))
      (fun _ t' => ∃ globals, t.globals.Takes entries globals ∧ t' = { t with globals } ∧
        ¬ t.globals.Lacks entries) := by
  induction entries generalizing t with
  | nil => exact ⟨t.globals, .refl, rfl, fun _ _ x hx => absurd hx List.not_mem_nil⟩
  | cons x entries ih =>
    show Ends (bindVariable x.1 x.2 >>= fun _ => entries.forM _) t _ _
    rw [ends_bind, ends_bindVariable]
    cases hbind : t.globals.bind? x.1 x.2 with
    | none =>
      -- a name that is unbound can be bound
      refine ⟨t.globals, .refl, rfl, fun hlacks => ?_⟩
      obtain ⟨globals, hglobals⟩ :=
        Bindings.bind?_of_find?_eq_none (hlacks.2 x (List.mem_cons_self ..)) x.2
      rw [hbind] at hglobals
      cases hglobals
    | some first =>
      -- the entries that are left are unbound as long as all were
      have htail (h : t.globals.Lacks (x :: entries)) : first.Lacks entries := h.of_bind? hbind
      have htakes {globals : Bindings} (h : first.Takes entries globals) :
          t.globals.Takes (x :: entries) globals :=
        .head ⟨x, List.mem_cons_self .., hbind⟩ (h.mono fun _ => List.mem_cons_of_mem _)
      refine (ih { t with globals := first }).imp (fun _ t' ht' => ?_) fun _ t' ht' => ?_
      · obtain ⟨globals, hrest, rfl, hall⟩ := ht'
        refine ⟨globals, htakes hrest, rfl, fun hlacks hwildcard => ?_⟩
        obtain ⟨hne, hwildcard⟩ := not_or.1 (fun hmem => hwildcard (List.mem_cons.2 hmem))
        have hx := (List.nodup_cons.1 hlacks.1).1
        refine List.forall_mem_cons.2 ⟨?_, hall (htail hlacks) hwildcard⟩
        -- the entries that are left are for other names
        rw [hrest.find?_of_not_mem hx]
        have hself := Bindings.find?_bind_self (Ne.symm hne) (hlacks.2 x (List.mem_cons_self ..)) x.2
        rwa [Bindings.bind, hbind] at hself
      · obtain ⟨globals, hrest, rfl, hnot⟩ := ht'
        exact ⟨globals, htakes hrest, rfl, fun hlacks => hnot (htail hlacks)⟩

/-- A singleton that has no tuple yet, and whose variables are unbound. -/
structure Pending (t : Table) (s : Signature) : Prop where
  empty : ∃ rel, t.store.find? s.name = some rel ∧ rel.tuples = ∅
  unbound : ∀ p ∈ s.paramNames, t.globals.find? p = none

/-- The parameters of a pending singleton can take their values. -/
theorem Pending.lacks {u : Tuple} (h : Pending t u.signature) :
    t.globals.Lacks u.byName.toList :=
  ⟨Dict.nodup_keys u.byName, fun _ hx => h.unbound _ (Tuple.mem_paramNames_of_mem_byName hx)⟩

/-- The tuple that all solutions give for a singleton. -/
structure IsAnswer (types : TypeOracle) (found : Solutions) (s : Signature) (u : Tuple) : Prop where
  given : ∃ b ∈ found.toList, Tuple.ofSolution types s b = .ok u
  only : ∀ b ∈ found.toList, ∃ w, Tuple.ofSolution types s b = .ok w ∧ w.shape = u.shape

/-- The tuple is one of the singleton. -/
theorem IsAnswer.signature {types : TypeOracle} {found : Solutions} {s : Signature} {u : Tuple}
    (h : IsAnswer types found s u) : u.signature = s := by
  obtain ⟨b, _, hu⟩ := h.given
  exact (Tuple.ofSolution_eq_ok.1 hu).1.1

/-- Solutions give their tuples one after the other, as long as each of them gives one. -/
private theorem ends_tuples (r : Realization) (found : Solutions) (s : Signature) (t : Table) :
    Ends (found.toList.mapM (tuple r s)) t
      (fun us t' => t' = t ∧ List.Forall₂ (fun b u => Tuple.ofSolution t.program.types s b = .ok u)
        found.toList us)
      (fun f t' => t' = t ∧ f.IsUser) := by
  refine (ends_mapM_still (N := fun _ f => f.IsUser) fun b _ => ?_).imp (fun _ _ h => h)
    fun _ _ h => ⟨h.1, h.2.choose_spec.2⟩
  rw [ends_tuple]
  split
  · exact ⟨rfl, ‹_›⟩
  · exact ⟨rfl, rfl⟩

/-- A singleton without a tuple takes the one that all solutions give, and its variables the values.
What happens to a singleton that has a tuple, or whose variables are bound, ends in a defect. -/
theorem ends_resolveSingleton (r : Realization) (found : Solutions) (s : Signature) (t : Table) :
    Ends (resolveSingleton r found s) t
      (fun _ t' => ∃ u rel globals trace, IsAnswer t.program.types found s u ∧
        t.store.find? s.name = some rel ∧ rel.tuples.toList = [] ∧
        t.globals.Takes u.byName.toList globals ∧
        (t.globals.Lacks u.byName.toList → wildcard ∉ s.paramNames →
          ∀ x ∈ u.byName.toList, globals.find? x.1 = some x.2) ∧
        t' = { t with store := Dict.set t.store s.name (rel.insert u), globals, trace })
      (fun f t' => t' = t ∧ f.IsUser ∨ ¬ Pending t s ∧ ∃ u globals trace,
        IsAnswer t.program.types found s u ∧ t.globals.Takes u.byName.toList globals ∧
        t' = { t with globals, trace }) := by
  rw [resolveSingleton, ends_bind]
  refine (ends_tuples r found s t).imp (fun us t' hus => ?_) fun f t' hf => .inl hf
  obtain ⟨rfl, hus⟩ := hus
  dsimp only
  split
  · rename_i u hu
    have hanswer : IsAnswer t'.program.types found s u := by
      refine ⟨?_, fun b hb => ?_⟩
      -- the tuple is one that a solution gave
      · have hmem : u ∈ us :=
          Catalog.mem_of_mem_ofListLast (by rw [hu]; exact List.mem_singleton_self u)
        exact hus.exists_left hmem
      · -- the catalog of all tuples holds one only
        obtain ⟨w, hw, hbw⟩ := hus.exists_right hb
        have hcontains : (Catalog.ofListLast us : TupleSet).contains w.shape = true :=
          Catalog.contains_ofListLast.2 ⟨w, hw, rfl⟩
        obtain ⟨v, hv, hshape⟩ := Catalog.contains_iff.1 hcontains
        rw [hu, List.mem_singleton] at hv
        exact ⟨w, hbw, hv ▸ hshape.symm⟩
    obtain rfl := hanswer.signature
    have hkeys : ∀ x ∈ u.byName.toList.map Prod.fst, x ∈ u.signature.paramNames := by
      intro x hx
      obtain ⟨y, hy, rfl⟩ := List.mem_map.1 hx
      exact Tuple.mem_paramNames_of_mem_byName hy
    rw [ends_bind]
    -- the variables are bound before the tuple is added, so a failure may leave them bound
    refine (ends_bindVariables u.byName.toList t').imp (fun _ t₁ h₁ => ?_) fun f t₁ h₁ => ?_
    · obtain ⟨globals, htakes, rfl, hall⟩ := h₁
      rw [ends_bind, ends_record, ends_bind, ends_get, ends_bind, ends_orDefect, Store.addSingleton]
      simp only [Table.record]
      cases hrel : t'.store.find? u.signature.name with
      | none =>
        -- the relation is not registered
        refine .inr ⟨fun hpending => ?_, u, globals, _, hanswer, htakes, rfl⟩
        obtain ⟨rel, hsome, _⟩ := hpending.empty
        rw [hrel] at hsome
        cases hsome
      | some rel =>
        dsimp only
        cases hempty : rel.tuples.isEmpty with
        | true =>
          exact ⟨u, rel, globals, _, hanswer, rfl, Catalog.isEmpty_iff.1 hempty, htakes,
            fun hlacks hwildcard => hall hlacks fun hmem => hwildcard (hkeys _ hmem), rfl⟩
        | false =>
          -- the relation has a tuple already
          refine .inr ⟨fun hpending => ?_, u, globals, _, hanswer, htakes, rfl⟩
          obtain ⟨rel', hsome, hnone⟩ := hpending.empty
          obtain rfl := Option.some.inj (hrel.symm.trans hsome)
          rw [hnone] at hempty
          cases hempty
    · -- a variable is bound already
      obtain ⟨globals, htakes, rfl, hnot⟩ := h₁
      exact .inr ⟨fun hpending => hnot hpending.lacks, u, globals, _, hanswer, htakes, rfl⟩
  · -- there is no tuple, or there are several
    exact .inl ⟨rfl, rfl⟩

/-! ### Made nodes -/

/-- The relation of copies holds pairs. -/
def HasCopies (t : Table) : Prop :=
  ∃ rel, t.store.find? BuiltinRelation.copiedTo = some rel ∧ rel.signature.arity = 2

/-- The relation of copies stays registered. -/
theorem HasCopies.follows {names vars : List String} (h : HasCopies t) {t' : Table}
    (hf : t.Follows names vars t') : HasCopies t' := by
  obtain ⟨rel, hrel, harity⟩ := h
  obtain ⟨rel', hrel', hs⟩ := hf.find? hrel
  exact ⟨rel', hrel', by rw [hs, harity]⟩

/-- A copy is noted, unless its nodes are unknown. -/
private theorem ends_noteCopy (root : Node) (x : Replacement) (t : Table) :
    Ends (noteCopy root x) t
      (fun _ t' => ∃ store, (store = t.store ∨ t.store.NotesCopy t.program root x store) ∧
        t' = { t with store })
      (fun _ t' => t' = t ∧ ¬ HasCopies t) := by
  rw [noteCopy, ends_bind, ends_get]
  split
  · rename_i source copy rel hsource hcopy hrel
    have hrel : t.store.find? BuiltinRelation.copiedTo = some rel := hrel
    split
    · rename_i pair hpair
      show Ends ((fun _ => PUnit.unit) <$> add _ pair) t _ _
      rw [ends_map, ends_add, hrel]
      exact ⟨_, .inr ⟨source, copy, rel, pair, hsource, hcopy, hrel, hpair, rfl⟩, rfl⟩
    · rename_i e hpair
      refine ⟨rfl, fun hcopies => ?_⟩
      -- a pair fits the relation of copies, if that is what is registered
      obtain ⟨rel', hrel', harity⟩ := hcopies
      obtain rfl := Option.some.inj (hrel.symm.trans hrel')
      simp only [Tuple.ofValues, List.length_cons, List.length_nil, harity] at hpair
      cases hpair
  · exact ⟨t.store, .inl rfl, rfl⟩

/-- Copies are noted one after the other. -/
private theorem ends_noteCopies (root : Node) (l : List Replacement) (t : Table) :
    Ends (l.forM (noteCopy root)) t
      (fun _ t' => ∃ store, t.store.NotesCopies t.program root l store ∧ t' = { t with store })
      (fun _ t' => (∃ store, t.store.NotesCopies t.program root l store ∧ t' = { t with store }) ∧
        ¬ HasCopies t) := by
  refine ends_forM_of_forall (I := fun t' => ∃ store,
    t.store.NotesCopies t.program root l store ∧ t' = { t with store }) (fun x hx t' ht' => ?_)
    ⟨t.store, .refl, rfl⟩
  obtain ⟨store, hstore, rfl⟩ := ht'
  refine (ends_noteCopy root x _).imp (fun _ t₁ h₁ => ?_) fun _ t₁ h₁ => ?_
  · obtain ⟨store', hsame | hnote, rfl⟩ := h₁
    · exact ⟨store', hsame ▸ hstore, rfl⟩
    · exact ⟨store', hstore.tail ⟨x, hx, hnote⟩, rfl⟩
  · obtain ⟨rfl, hnot⟩ := h₁
    exact ⟨⟨store, hstore, rfl⟩, fun hcopies => hnot (hcopies.follows hstore.follows)⟩

/-- Keeping a made node gives it the type that it is meant for, notes what its nodes were copied from,
and lists it once. -/
theorem ends_keepMade (s : Signature) (b : Bindings) (host : Option CodeType) (param : String)
    (root : Node) (t : Table) :
    Ends (keepMade s b host param root) t
      (fun _ t' => ∃ arena store trace, arena = t.arena.meantFor root.id host ∧
        t.store.NotesCopies t.program root b.replacements.toList store ∧
        t' = { t with
          arena, store, trace
          overlay := t.overlay ++ [.node root]
          generated := t.generated ++
            [⟨s.name, param, .node root, host, arena.origin? root.id⟩] })
      (fun _ t' => (∃ arena store, arena = t.arena.meantFor root.id host ∧
        t.store.NotesCopies t.program root b.replacements.toList store ∧
        t' = { t with arena, store }) ∧ ¬ HasCopies t) := by
  -- what follows does not depend on whether there is such a type
  have hrest (arena : Arena) : Ends (do
      b.replacements.toList.forM (noteCopy root)
      let made : Generated := ⟨s.name, param, .node root, host, (← get).arena.origin? root.id⟩
      modify fun t => { t with overlay := t.overlay ++ [made.entity] }
      record .generated s.name s!"{param} = {made.entity}"
      modify fun t => { t with generated := t.generated ++ [made] } : Running Unit)
      { t with arena }
      (fun _ t' => ∃ store trace,
        t.store.NotesCopies t.program root b.replacements.toList store ∧
        t' = { t with
          arena, store, trace
          overlay := t.overlay ++ [.node root]
          generated := t.generated ++
            [⟨s.name, param, .node root, host, arena.origin? root.id⟩] })
      (fun _ t' => (∃ store, t.store.NotesCopies t.program root b.replacements.toList store ∧
        t' = { t with arena, store }) ∧ ¬ HasCopies t) := by
    rw [ends_bind]
    refine (ends_noteCopies root b.replacements.toList { t with arena }).mono fun _ t₁ h₁ => ?_
    obtain ⟨store, hstore, rfl⟩ := h₁
    simp only [ends_bind, ends_get, ends_modify, ends_record]
    exact ⟨store, _, hstore, rfl⟩
  unfold keepMade
  cases host with
  | none =>
    refine (hrest t.arena).imp (fun _ t' h => ?_) fun _ t' h => ?_
    · obtain ⟨store, trace, h⟩ := h
      exact ⟨t.arena, store, trace, rfl, h⟩
    · obtain ⟨⟨store, h⟩, hnot⟩ := h
      exact ⟨⟨t.arena, store, rfl, h⟩, hnot⟩
  | some c =>
    refine (hrest (t.arena.setDeclaringType root.id c)).imp (fun _ t' h => ?_) fun _ t' h => ?_
    · obtain ⟨store, trace, h⟩ := h
      exact ⟨_, store, trace, rfl, h⟩
    · obtain ⟨⟨store, h⟩, hnot⟩ := h
      exact ⟨⟨_, store, rfl, h⟩, hnot⟩

end Running

end CodeRules
