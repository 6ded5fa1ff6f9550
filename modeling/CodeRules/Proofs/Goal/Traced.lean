import CodeRules.Proofs.Fragment.Traced
import CodeRules.Proofs.Goal.Mention
import CodeRules.Proofs.Goal.Values
import CodeRules.Proofs.Goal.WellFormed
import CodeRules.Proofs.Program.Builtins

/-!
# Where the nodes in answers come from

When the nodes of the program, of the relations and of the rules are given, every node that a goal finds
or makes is given, or was made anew, or is a copy of such a node (`Goal.leads_traced`).
-/

namespace CodeRules

open Effect

/-! ### What stands in rules -/

namespace Expr

mutual

/-- The terms that stand in an expression. -/
def terms : Expr → List Term
  | and items | or items => termsAll items
  | not body | .exists _ _ body => terms body
  | implies left right | iff left right | .forall _ _ left right => terms left ++ terms right
  | trait _ _ args => args
  | .matches _ subject _ => [subject]
  | eq _ left right | ne _ left right => [left, right]
  | true | false => []

/-- The terms that stand in several expressions. -/
def termsAll : List Expr → List Term
  | [] => []
  | e :: es => terms e ++ termsAll es

end

/-- The terms of several expressions are those of each of them. -/
theorem termsAll_eq_flatMap (es : List Expr) : termsAll es = es.flatMap terms := by
  induction es with
  | nil => rfl
  | cons e es ih => rw [termsAll, ih, List.flatMap_cons]

/-- Each term of the goal comes from a term of the expression. -/
private def Compiles (s : Scope) (e : Expr) (g : Goal) : Prop :=
  ∀ u ∈ g.terms, ∃ t ∈ e.terms, ∃ inner : Scope, inner.bound = s.bound ∧ t.compile inner = .ok u

/-- Goals have the terms of their expressions, one by one. -/
private theorem compiles_all {s : Scope} {es : List Expr} {gs : List Goal}
    (h : List.Forall₂ (Compiles s) es gs) : ∀ u ∈ Goal.termsAll gs, ∃ t ∈ termsAll es,
      ∃ inner : Scope, inner.bound = s.bound ∧ t.compile inner = .ok u := by
  intro u hu
  rw [Goal.termsAll_eq_flatMap] at hu
  obtain ⟨g, hg, hu⟩ := List.mem_flatMap.1 hu
  obtain ⟨e, he, hcompiles⟩ := h.exists_left hg
  obtain ⟨t, ht, hinner⟩ := hcompiles u hu
  rw [termsAll_eq_flatMap]
  exact ⟨t, List.mem_flatMap.2 ⟨e, he, ht⟩, hinner⟩

/-- Two goals have the terms of their two expressions. -/
private theorem Compiles.both {s : Scope} {e e' : Expr} {g g' : Goal} (h : Compiles s e g)
    (h' : Compiles s e' g') : ∀ u ∈ g.terms ++ g'.terms, ∃ t ∈ e.terms ++ e'.terms,
      ∃ inner : Scope, inner.bound = s.bound ∧ t.compile inner = .ok u := by
  intro u hu
  rcases List.mem_append.1 hu with hu | hu
  · obtain ⟨t, ht, hinner⟩ := h u hu
    exact ⟨t, List.mem_append_left _ ht, hinner⟩
  · obtain ⟨t, ht, hinner⟩ := h' u hu
    exact ⟨t, List.mem_append_right _ ht, hinner⟩

/-- Two compiled terms come from the two terms. -/
private theorem compiles_pair {s : Scope} {t t' : Term} {u u' : GoalTerm} (h : t.compile s = .ok u)
    (h' : t'.compile s = .ok u') : ∀ v ∈ [u, u'], ∃ x ∈ [t, t'], ∃ inner : Scope,
      inner.bound = s.bound ∧ x.compile inner = .ok v := by
  intro v hv
  rcases List.mem_cons.1 hv with rfl | hv
  · exact ⟨t, List.mem_cons_self .., s, rfl, h⟩
  · obtain rfl := List.mem_singleton.1 hv
    exact ⟨t', List.mem_cons_of_mem _ (List.mem_singleton_self t'), s, rfl, h'⟩

/-- The terms of a goal come from the terms of its expression, with the same entities known. -/
theorem exists_term_of_compile {store : Store} {s : Scope} {e : Expr} {g : Goal}
    (h : e.compile store s = .ok g) : ∀ u ∈ g.terms, ∃ t ∈ e.terms, ∃ inner : Scope,
      inner.bound = s.bound ∧ t.compile inner = .ok u := by
  apply compile_induction (P := Compiles) (h := h)
  case true | false => exact fun _ _ hu => by cases hu
  case and | or => exact fun _ _ _ hgs => compiles_all hgs
  case not => exact fun _ _ _ ih => ih
  case implies | iff => exact fun _ _ _ _ _ ih ih' => ih.both ih'
  -- binders are declared, which does not change what is bound
  case exists_ =>
    intro s span binders inner e g hinner ih
    unfold Compiles at ih
    rwa [Scope.bound_declareAll hinner] at ih
  case forall_ =>
    intro s span binders inner e e' g g' hinner ih ih'
    unfold Compiles at ih ih'
    rw [Scope.bound_declareAll hinner] at ih ih'
    exact Compiles.both ih ih'
  case trait =>
    intro s span name args us _ hus u hu
    obtain ⟨t, ht, htu⟩ := (Term.compileAll_eq_ok.1 hus).exists_left hu
    exact ⟨t, ht, s, rfl, htu⟩
  case matches_ =>
    intro s span t u p f hu _ v hv
    obtain rfl := List.mem_singleton.1 hv
    exact ⟨t, List.mem_singleton_self t, s, rfl, hu⟩
  case eq | ne => exact fun _ _ _ _ _ _ => compiles_pair

end Expr

/-- The entities that are written in a term, also in a pattern. -/
def Term.written : Term → List Entity
  | pattern p => p.entities
  | t => t.entities

/-- The entities that a term spells out, also in a pattern. -/
def GoalTerm.written : GoalTerm → List Entity
  | pattern f => f.constants
  | t => t.constants

/-- What a compiled term spells out is written in it or known in the scope. -/
theorem Term.mem_written_of_compile {s : Scope} {t : Term} {u : GoalTerm} (h : t.compile s = .ok u)
    {e : Entity} (he : e ∈ u.written) : e ∈ t.written ∨ ∃ name, s.bound.find? name = some e := by
  -- a term that is no pattern spells out its constants only
  have hplain (hu : u.isPattern = false) (hwritten : t.written = t.entities) :
      e ∈ t.written ∨ ∃ name, s.bound.find? name = some e := by
    rw [hwritten]
    refine mem_constants_of_compile h ?_
    cases u with
    | pattern f => cases hu
    | _ => exact he
  cases t with
  | pattern p =>
    simp only [compile, Except.bind_eq_ok, Except.pure_eq_ok] at h
    obtain ⟨f, hf, rfl⟩ := h
    rw [Pattern.compileIn, Except.mapError_eq_ok] at hf
    exact Pattern.mem_constants_of_compile hf he
  | _ => exact hplain ((isPattern_of_compile h).trans rfl) rfl

/-! ### Programs -/

/-- The program holds given nodes only, and their numbers lie below those that are given out. -/
structure Program.Supplies (given : Node → Prop) (p : Program) : Prop where
  below : ∀ n, given n → n.id.word < p.idBase
  enclosing : ∀ i : NodeId, p.idBase ≤ i.word → p.enclosing.find? i = none
  receiver : ∀ n, given n → ∀ m ∈ (p.surroundings.implicitReceiver n).nodes, given m
  nodes : ∀ i n, p.node? i = some n → ∀ m ∈ n.preorder, given m
  classes : ∀ c ∈ p.classes.values, ∀ n ∈ c.preorder, given n
  entities : ∀ e ∈ p.entities, ∀ n ∈ e.nodes, given n

variable {given : Node → Prop} {a : Arena}

/-- Recognizing traced entities finds traced entities. -/
theorem Program.Supplies.closes_traced {p : Program} (hp : p.Supplies given) (ha : a.base = p.idBase) :
    p.surroundings.Closes (Entity.Traced given a) where
  empty := Entity.traced_of_nodes_eq_nil rfl
  item {items e} h he := h.of_subset fun n hn => by
    rw [Entity.nodes, Entity.nodesAll_eq_flatMap]
    exact List.mem_flatMap.2 ⟨e, he, hn⟩
  slot {n e} h he := h.of_subset fun m hm => by
    obtain ⟨c, hc, hm⟩ := NodeKind.nodes_of_mem_slots he hm
    exact Node.mem_preorder_of_child hc hm
  receiver {n} hn := by
    intro hfits m hm
    -- the receiver that a given node is called on stands in the program
    rcases (hn hfits n n.mem_preorder_self).given_or_contains with hgiven | hmade
    · exact .given (hp.receiver n hgiven m hm)
    · -- made nodes stand nowhere
      obtain ⟨place, hword, _⟩ := Arena.contains_iff.1 hmade
      have hid : p.idBase ≤ n.id.word := by
        rw [UInt32.le_iff_toNat_le, ← ha]
        omega
      have hnone : p.surroundings.enclosing? n.id = none := hp.enclosing _ hid
      rw [Surroundings.implicitReceiver, hnone] at hm
      cases hm

namespace World

variable {w : World}

/-- Evaluating terms does not lead out of the traced entities. -/
theorem closes_traced (hp : w.program.Supplies given) (ha : a.base = w.program.idBase)
    (hmade : ∀ e ∈ w.overlay, e.Traced given a) : w.Closes a (Entity.Traced given a) where
  toCloses := hp.closes_traced ha
  call {func e v} _ h := by
    have hmap {α : Type} {o : Option α} {f : α → Entity} (hf : ∀ x, (f x).nodes = [])
        (h : o.map f = some v) : v.Traced given a := by
      obtain ⟨x, _, rfl⟩ := Option.map_eq_some_iff.1 h
      exact Entity.traced_of_nodes_eq_nil (hf x)
    -- only declarations are nodes, and they stand in classes of the program
    cases func with
    | declarationOf =>
      cases e with
      | type t =>
        obtain ⟨c, hc, rfl⟩ := Option.map_eq_some_iff.1 h
        unfold Program.declarationOf? at hc
        split at hc
        · exact Entity.traced_of_given (hp.classes c (ClassTable.mem_values_of_class? hc))
        · cases hc
      | _ => cases h
    | _ => exact hmap (fun _ => rfl) h
  known e he := Entity.traced_of_given (hp.entities e he)
  made := hmade

/-- The relations hold traced entities, as do the bindings that are put together from such. -/
theorem tracks_traced (hp : w.program.Supplies given) (ha : a.base = w.program.idBase)
    (hmade : ∀ e ∈ w.overlay, e.Traced given a) (hstore : w.store.ValuesIn (Entity.Traced given a)) :
    w.Tracks Arena.Later (fun a => Entity.Traced given a) (fun b a => b.Traced given a) a where
  closes _ h := closes_traced hp (h.base.trans ha) fun e he => (hmade e he).later h
  store := hstore
  grows _ _ _ h he := he.later h
  gathers := Bindings.gathers_traced given
  values _ _ hb := hb.values
  erase _ names _ hb := hb.erase names
  later _ _ _ h hb := hb.later h

/-- What a pattern generates is traced. -/
theorem leads_generateInto (hp : w.program.Supplies given) (ha : a.base = w.program.idBase)
    {span : Span} {name : String} {type : ParamType} {f : Fragment} {input : Bindings}
    (hf : ∀ e ∈ f.constants, e.Traced given a) (hinput : input.Traced given a) :
    Leads Arena.Later (w.generateInto span name type f input) a fun b a' => b.Traced given a' := by
  have hlinked : Workshop.Linked { arena := a } := fun _ r hr => by cases hr
  refine leads_bind (P := fun made a' => made.Traced given a' ∧
    ∀ e ∈ made.result, e.Traced given a') ?_ fun made a' _ hmade => ?_
  · rw [LeadsOr, Solving.ends_generate]
    exact (Fragment.leads_instantiate (w := { arena := a }) (fun n hn => ha ▸ hp.below n hn) hinput hf
      hlinked).imp (fun _ _ h => ⟨h.1.arena, h.2⟩) fun _ _ h => ⟨h.1.arena, trivial⟩
  · split
    · exact leads_throw trivial
    · rename_i e he
      split
      · exact leads_pure (hmade.1.withoutResult.bind (hmade.2 e he) name)
      · exact leads_throw trivial

end World

namespace Goal

variable {w : World} {g : Goal} {b : Bindings}

/-- All entities that stand in the terms of the goal are traced. -/
def WrittenTraced (given : Node → Prop) (a : Arena) (g : Goal) : Prop :=
  ∀ t ∈ g.terms, ∀ e ∈ t.written, e.Traced given a

/-- What is traced in an arena is traced later on. -/
theorem WrittenTraced.later {a' : Arena} (h : g.WrittenTraced given a) (ha : a.Later a') :
    g.WrittenTraced given a' := fun t ht e he => (h t ht e he).later ha

/-- Solving a goal gives out numbers for traced nodes only, and the solutions hold traced entities. -/
theorem leads_traced (hp : w.program.Supplies given) (ha : a.base = w.program.idBase)
    (hmade : ∀ e ∈ w.overlay, e.Traced given a) (hstore : w.store.ValuesIn (Entity.Traced given a))
    (hg : g.WrittenTraced given a) (hb : b.Traced given a) :
    Leads Arena.Later (g.solve w b) a fun s a' => s.All fun c => c.Traced given a' := by
  refine leads_solve (World.tracks_traced hp ha hmade hstore) (fun t ht e he => ?_)
    (fun _ a' ha' span name type f input hf hinput => ?_) hb
  · cases t with
    | pattern f => cases he
    | _ => exact hg _ ht e he
  · exact World.leads_generateInto hp (ha'.base.trans ha)
      (fun e he => (hg _ hf e he).later ha') hinput

end Goal

/-- The goal of an expression spells out what is written in the expression or known in the scope. -/
theorem Expr.writtenTraced_of_compile {store : Store} {s : Scope} {e : Expr} {g : Goal}
    (h : e.compile store s = .ok g) (hterms : ∀ t ∈ e.terms, ∀ x ∈ t.written, x.Traced given a)
    (hbound : s.bound.ValuesIn (Entity.Traced given a)) : g.WrittenTraced given a := by
  intro u hu x hx
  obtain ⟨t, ht, inner, hinner, htu⟩ := exists_term_of_compile h u hu
  rcases Term.mem_written_of_compile htu hx with hx | ⟨name, hx⟩
  · exact hterms t ht x hx
  · exact hbound name x (hinner ▸ hx)

end CodeRules
