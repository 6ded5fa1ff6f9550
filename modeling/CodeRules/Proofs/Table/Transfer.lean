import CodeRules.Proofs.Goal.Frame
import CodeRules.Proofs.Goal.Scope
import CodeRules.Proofs.Table.Conclusions

/-!
# One statement in two tables

What a solution of a statement gives in one table, some solution gives in another table in which the
relations that the statement reads hold at least as much, and the same where they are tested
(`Table.exists_solution`). Of the globals only the variables of the body and of the realized traits matter
(`Tuple.shape_eq_of_agreeOn`).
-/

namespace CodeRules

variable {base : UInt32} {V : String → Prop}

namespace Table

variable {t t' : Table} {r : Realization} {g g' : Goal}

/-- The names that are such as `V` says stand for the same in both tables, up to normal forms. -/
structure GlobalsAgreeOn (base : UInt32) (V : String → Prop) (t t' : Table) : Prop where
  vars : ∀ n, V n →
    (t'.globals.find? n).map (Entity.normal base) = (t.globals.find? n).map (Entity.normal base)
  result : t.globals.result = none
  result' : t'.globals.result = none

/-- Up to normal forms, the globals of both tables agree on the names. -/
theorem GlobalsAgreeOn.agreeOn (h : GlobalsAgreeOn base V t t') :
    (t.globals.normal base).AgreeOn (.identity V) (t'.globals.normal base) := by
  constructor
  · rintro n _ ⟨rfl, hn⟩
    rw [Bindings.find?_normal, Bindings.find?_normal, h.vars n hn]
  · show t.globals.result.map _ = t'.globals.result.map _
    rw [h.result, h.result']

/-- The scope of the body of a statement. -/
private def scopeOf (globals : Bindings) (params : List Param) : Scope :=
  params.foldl (fun s p => s.declare p.name p.type) { bound := globals }

/-- Globals that agree give scopes that are alike, since parameters hide the same globals in both. -/
private theorem alikeOn_scopeOf {globals globals' : Bindings}
    (h : ∀ n, V n → (globals'.find? n).map (Entity.normal base) =
      (globals.find? n).map (Entity.normal base)) (params : List Param) :
    (scopeOf globals params).AlikeOn base (.identity V) (scopeOf globals' params) := by
  have hfold (s s' : Scope) (hs : s.AlikeOn base (.identity V) s') :
      (params.foldl (fun s p => s.declare p.name p.type) s).AlikeOn base (.identity V)
        (params.foldl (fun s p => s.declare p.name p.type) s') := by
    induction params generalizing s s' with
    | nil => exact hs
    | cons p params ih =>
      refine ih _ _ ((hs.declare p.name p.name (.refl p.type)).mono fun n m hn => ?_)
      rw [Pairing.under_identity]
      exact ⟨hn.1, .inl hn.2⟩
  refine hfold _ _ ?_
  rintro n _ ⟨rfl, hn⟩
  have heq := h n hn
  unfold Scope.lookup
  dsimp only
  -- bound to equal entities in both, or unbound in both
  generalize globals.find? n = x at heq
  generalize globals'.find? n = y at heq
  match x, y, heq with
  | none, none, _ => exact .unknown
  | some e, some e', he => exact .bound (Option.some.inj he)

/-- The goals of a statement in both tables are variants, whose free variables are those of the
body. -/
theorem variant_of_goal (harity : t'.store.arity? = t.store.arity?)
    (hglobals : GlobalsAgreeOn base V t t') (hV : Mention.VarsIn V r.body.references)
    (hg : t.goal r = .ok g) (hg' : t'.goal r = .ok g') : g.Variant base (.identity V) g' := by
  have hs := alikeOn_scopeOf hglobals.vars (r.signatures.flatMap Signature.params)
  have hbody : r.body.Variant (.identity V) r.body := .refl (fun n hn => by cases hn) hV
  obtain ⟨k, hk, hvariant⟩ := hbody.exists_compile (Pairing.proper_identity V) hs hg
  have hg' : r.body.compile t'.store (scopeOf t'.globals (r.signatures.flatMap Signature.params)) =
      .ok g' := hg'
  rw [Expr.compile_congr harity, hk] at hg'
  exact Except.ok.inj hg' ▸ hvariant

/-- Everything that a statement reads in the first table is there in the second one, and what it tests
is the same. -/
structure ReadsWithin (r : Realization) (t t' : Table) : Prop where
  signatures : ∀ n, t'.store.signature? n = t.store.signature? n
  includes : ∀ n tested, Mention.trait n tested ∈ r.body.references → t.store.Includes t'.store n
  tested : ∀ n, Mention.trait n true ∈ r.body.references → t'.store.Includes t.store n

/-- A solution of a statement in one table has a counterpart in another table where it reads at least
as much. -/
theorem exists_solution (ht : t.Uniform base) (ht' : t'.Uniform base)
    (hbody : ∀ x ∈ r.body.entities, x.Uniform base) (hg : t.goal r = .ok g)
    (hg' : t'.goal r = .ok g') (hprogram : t'.program = t.program) (hoverlay : t'.overlay = t.overlay)
    (hglobals : GlobalsAgreeOn base V t t') (hV : Mention.VarsIn V r.body.references)
    (hreads : ReadsWithin r t t') {c : Bindings}
    (hc : g.Solution base t.world (t.globals.normal base) c) :
    ∃ c', g'.Solution base t'.world (t'.globals.normal base) c' ∧ c.AgreeOn (.identity V) c' ∧
      (t.globals.normal base).ExtendedBy V c ∧ (t'.globals.normal base).ExtendedBy V c' := by
  have huniform := ht.goal hbody hg
  have huniform' := ht'.goal hbody hg'
  have harity := funext fun n => Store.arity?_eq (hreads.signatures n)
  have hvariant := variant_of_goal harity hglobals hV hg hg'
  have hfree := hvariant.forall₂_free
  -- first the larger relations, and then the other globals and the other goal
  have hview (n : String) (tested : Bool) (hn : Mention.trait n tested ∈ r.body.references)
      (hback : t'.store.Includes t.store n) : t'.store.view base n = t.store.view base n :=
    (hreads.includes n tested hn).view_eq ht.store ht'.store (hreads.signatures n) hback
  have hgrown : g.Solution base { t.world with store := t'.store } (t.globals.normal base) c := by
    refine Goal.Solution.grows (fun n hn => ?_) (fun n hn => ?_) (fun n hn => ?_) hc
    · have hmention := Expr.references_of_mem_tested hg hn
      exact hview n true hmention (hreads.tested n hmention)
    · exact Store.arity?_eq (hreads.signatures n)
    · obtain ⟨tested, hmention⟩ := Expr.references_of_mem_relations hg hn
      exact (hreads.includes n tested hmention).grows ht.store ht'.store
  have hworld : ({ t.world with store := t'.store } : World) = t'.world := by
    rw [world, world, hprogram, hoverlay]
  rw [hworld] at hgrown
  obtain ⟨c', hc', hagree⟩ := (hvariant.matching ht'.world ht'.store (Pairing.proper_identity V) huniform
    huniform' ht.globals.isNormal ht'.globals.isNormal hglobals.agreeOn).forth c hgrown
  -- outside the body nothing is bound in either table
  refine ⟨c', hc', hagree, ?_, ?_⟩
  · exact Goal.Solution.extendedBy ht'.world ht'.store huniform
      (fun n hn => (hfree.exists_right hn).elim fun _ hm => hm.2.2) ht.globals.isNormal hgrown
  · exact Goal.Solution.extendedBy ht'.world ht'.store huniform'
      (fun n hn => (hfree.exists_left hn).elim fun _ hm => hm.2.1 ▸ hm.2.2) ht'.globals.isNormal hc'

end Table

namespace Tuple

variable {types types' : TypeOracle} {s : Signature} {b b' c c' : Bindings} {u u' : Tuple}

/-- Solutions that agree on the variables of the body give equal tuples, if the other parameters stand
for the same before. -/
theorem shape_eq_of_agreeOn (hu : ofSolution types s c = .ok u) (hu' : ofSolution types' s c' = .ok u')
    (hagree : c.AgreeOn (.identity V) c') (hc : b.ExtendedBy V c) (hc' : b'.ExtendedBy V c')
    (hothers : ∀ p ∈ s.paramNames, ∀ e e', b.find? p = some e → b'.find? p = some e' → e = e') :
    u.shape = u'.shape := by
  obtain ⟨⟨rfl, hvalues, hroot⟩, _⟩ := ofSolution_eq_ok.1 hu
  obtain ⟨⟨hs', hvalues', hroot'⟩, _⟩ := ofSolution_eq_ok.1 hu'
  have hbound (p : String) (hp : p ∈ u.signature.paramNames) : c.find? p = c'.find? p := by
    -- a parameter that the body does not mention keeps what it stood for before
    by_cases hV : V p
    · exact hagree.vars p p ⟨rfl, hV⟩
    · obtain ⟨e, _, he⟩ := List.mem_map.1 (hvalues ▸ List.mem_map_of_mem hp)
      obtain ⟨e', _, he'⟩ := List.mem_map.1 (hvalues' ▸ List.mem_map_of_mem hp)
      have hb := (hc.others p hV).symm.trans he.symm
      have hb' := (hc'.others p hV).symm.trans he'.symm
      rw [← he, ← he', hothers p hp e e' hb hb']
  have hsame : u.values = u'.values := by
    refine List.map_injective_iff.2 (Option.some_injective _) ?_
    rw [← hvalues, ← hvalues']
    exact List.map_congr_left hbound
  rw [shape, shape, hs', hsame]

end Tuple

end CodeRules
