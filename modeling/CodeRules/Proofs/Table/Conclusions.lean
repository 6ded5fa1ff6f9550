import CodeRules.Proofs.Goal.Growth
import CodeRules.Proofs.Table.Run

/-!
# What statements conclude

The conclusions of a statement are the tuples that the solutions of its body give for the traits that
it realizes. `Realization.Settled` says, up to the numbers of made nodes, that all conclusions of a
statement are in the store already, and `Running.derive` computes the conclusions without storing
them. Both agree (`Running.settled_of_derive`, `Running.ends_derive`).
-/

namespace CodeRules

open Effect

variable {base : UInt32}

/-! ### Tuples of solutions -/

/-- The tuple is in the relation of its trait. -/
def Store.holds (s : Store) (u : Tuple) : Bool := (s.find? u.signature.name).any (·.contains u)

namespace Tuple

variable {p : Program} {s : Signature} {b : Bindings} {t u : Tuple}

/-- Equal tuples are of one trait. -/
theorem name_eq_of_shape (h : t.shape = u.shape) : t.signature.name = u.signature.name := by
  simp only [shape, Shape.seq.injEq, List.cons.injEq, Shape.text.injEq] at h
  exact h.1

/-- A store holds equal tuples alike. -/
theorem holds_congr (h : t.shape = u.shape) (store : Store) : store.holds t = store.holds u := by
  simp only [Store.holds, name_eq_of_shape h, Relation.contains, h]

/-- The tuple with the normal forms of its values. -/
def normal (base : UInt32) (t : Tuple) : Tuple where
  signature := t.signature
  values := t.values.map (Entity.normal base)
  root := rootOf (t.values.map (Entity.normal base))
  complete := by rw [List.length_map, t.complete]

/-- A tuple is equal to its normal form. -/
@[simp] theorem shape_normal (t : Tuple) : (t.normal base).shape = t.shape := by
  simp only [shape, normal, List.map_map]
  refine congrArg Shape.seq (congrArg₂ List.cons rfl (congrArg₂ List.cons ?_ (congrArg₂ List.cons ?_ rfl)))
  · exact congrArg Shape.seq (List.map_congr_left fun e _ => e.shape_normal base)
  · exact congrArg Shape.seq (List.map_congr_left fun e _ => by
      rw [Function.comp_apply, e.locations_normal base])

/-- The values of the tuple of a solution are bound in the solution. -/
theorem uniform_of_ofSolution (hb : b.Uniform base) (h : ofSolution p.types s b = .ok t) :
    ∀ e ∈ t.values, e.Uniform base := by
  intro e he
  obtain ⟨⟨_, hvalues, _⟩, _⟩ := ofSolution_eq_ok.1 h
  have hmem : some e ∈ s.paramNames.map b.find? := by
    rw [hvalues]
    exact List.mem_map_of_mem he
  obtain ⟨name, _, hname⟩ := List.mem_map.1 hmem
  exact hb.vars name e hname

/-- The normal form of bindings is looked up by taking normal forms. -/
private theorem map_find?_normal (names : List String) (b : Bindings) :
    names.map (b.normal base).find? = (names.map b.find?).map (Option.map (Entity.normal base)) := by
  rw [List.map_map]
  exact List.map_congr_left fun name _ => b.find?_normal base name

/-- The normal form of a solution gives the normal form of its tuple. -/
theorem ofSolution_normal (hp : p.Below base) (hb : b.Uniform base)
    (h : ofSolution p.types s b = .ok t) :
    ofSolution p.types s (b.normal base) = .ok (t.normal base) := by
  have huniform := uniform_of_ofSolution hb h
  obtain ⟨⟨hs, hvalues, _⟩, haccepts⟩ := ofSolution_eq_ok.1 h
  refine ofSolution_eq_ok.2 ⟨⟨hs, ?_, rfl⟩, ?_⟩
  · rw [map_find?_normal, hvalues, normal, List.map_map, List.map_map]
    rfl
  · intro x hx
    rw [normal, List.zip_map_right, List.mem_map] at hx
    obtain ⟨y, hy, rfl⟩ := hx
    rw [Prod.map_fst, Prod.map_snd, hp.accepts_normal (huniform _ (List.of_mem_zip hy).2)]
    exact haccepts y hy

end Tuple

/-! ### Uniform tables -/

/-- Whatever goals of the table may meet is uniform, and no made node is meant for a type. -/
structure Table.Uniform (base : UInt32) (t : Table) : Prop where
  world : t.world.Uniform base
  store : t.store.Uniform base
  globals : t.globals.Uniform base
  arena : t.arena.Undeclared base

/-- Numbers for made nodes have not run out. -/
def Table.Fits (base : UInt32) (t : Table) : Prop := base.toNat + t.arena.size ≤ UInt32.size

namespace Table

variable {t t' : Table} {r : Realization} {g : Goal}

/-- The trace does not count. -/
theorem Uniform.of_trace (h : t.Uniform base) (ht' : t' = { t with trace := t'.trace }) :
    t'.Uniform base := by
  rw [ht']
  exact ⟨h.world, h.store, h.globals, h.arena⟩

/-- Goals of uniform statements are uniform. -/
theorem Uniform.goal (h : t.Uniform base) (hbody : ∀ x ∈ r.body.entities, x.Uniform base)
    (hg : t.goal r = .ok g) : g.Uniform base := by
  refine Expr.compile_uniform hg hbody fun name x hx => h.globals.vars name x ?_
  -- Declaring parameters binds nothing besides the variables of the table.
  have hbound (params : List Param) (s : Scope) :
      (params.foldl (fun s p => s.declare p.name p.type) s).bound = s.bound := by
    induction params generalizing s with
    | nil => rfl
    | cons p params ih => exact ih _
  rwa [hbound] at hx

/-- The goal of a statement depends on the signatures of relations only. -/
theorem goal_congr {store : Store} (h : store.arity? = t.store.arity?) :
    ({ t with store } : Table).goal r = t.goal r := Expr.compile_congr h r.body _

end Table

namespace Realization

/-- A goal can be solved, and what its solutions give for the traits of the statement is in the
store. -/
def Settled (base : UInt32) (w : World) (input : Bindings) (r : Realization) (g : Goal) : Prop :=
  ∃ s, g.answers base w input = some s ∧ ∀ b ∈ s.toList, ∀ sig ∈ r.signatures,
    ∃ u, Tuple.ofSolution w.program.types sig b = .ok u ∧ w.store.holds u = true

end Realization

namespace Running

variable {t t' : Table} {r : Realization} {g : Goal} {found : Solutions}

/-- The conclusions of a statement from the table as it is. -/
def derive (r : Realization) : Running (List Tuple) := do
  let g ← goal r
  let found ← solutions g
  let tuples ← found.toList.mapM fun b => r.signatures.mapM fun s => tuple r s b
  return tuples.flatten

/-- Solving changes nothing but the arena. -/
theorem gives_solutions (h : Gives (solutions g) t found t') :
    ∃ a, Gives (g.solve t.world t.globals) t.arena found a ∧ t' = { t with arena := a } := by
  have hends : Ends (solutions g) t (fun found t' =>
      ∃ a, Gives (g.solve t.world t.globals) t.arena found a ∧ t' = { t with arena := a })
      (fun _ _ => True) := by
    rw [ends_solutions]
    exact ends_of_gives fun found a h => ⟨a, h, rfl⟩
  exact hends.gives h

/-- Compiling a statement changes nothing, and gives its goal. -/
theorem goal_of_gives (h : Gives (goal r) t g t') : t' = t ∧ t.goal r = .ok g := by
  have hends : Ends (goal r) t (fun g t' => t' = t ∧ t.goal r = .ok g) (fun _ _ => True) := by
    rw [ends_goal]
    split
    · exact ⟨rfl, ‹_›⟩
    · trivial
  exact hends.gives h

/-- Solutions give tuples for all traits of the statement, or one of them gives none. -/
theorem ends_tuples_all (r : Realization) (found : Solutions) (t : Table) :
    Ends (found.toList.mapM fun b => r.signatures.mapM fun s => tuple r s b) t
      (fun uss t' => t' = t ∧ List.Forall₂ (fun b us => List.Forall₂
        (fun s u => Tuple.ofSolution t.program.types s b = .ok u) r.signatures us) found.toList uss)
      (fun _ t' => t' = t ∧ ∃ b ∈ found.toList, ∃ s ∈ r.signatures, ∀ u,
        Tuple.ofSolution t.program.types s b ≠ .ok u) := by
  -- A row fails for one of the signatures, and the whole for one of the rows.
  refine ends_mapM_still (N := fun b _ => ∃ s ∈ r.signatures, ∀ u,
    Tuple.ofSolution t.program.types s b ≠ .ok u) fun b _ => ?_
  refine ends_mapM_still (N := fun s _ => ∀ u, Tuple.ofSolution t.program.types s b ≠ .ok u)
    fun s _ => ?_
  rw [ends_tuple]
  split
  · exact ⟨rfl, ‹_›⟩
  · rename_i e he
    refine ⟨rfl, fun u hu => ?_⟩
    rw [he] at hu
    cases hu

/-- Deriving solves the goal of the statement and takes the tuples that the solutions give. -/
theorem ends_derive_iff (hg : t.goal r = .ok g) {Q : List Tuple → Table → Prop}
    {E : Failure → Table → Prop} :
    Ends (derive r) t Q E ↔ Ends (g.solve t.world t.globals) t.arena
      (fun found arena => Ends (found.toList.mapM fun b => r.signatures.mapM fun s => tuple r s b)
        { t with arena } (fun uss t' => Q uss.flatten t') E)
      (fun f arena => E f { t with arena }) := by
  rw [derive, ends_bind, ends_goal, hg]
  dsimp only
  rw [ends_bind, ends_solutions]
  simp only [ends_bind, ends_pure]

/-- A statement is settled in a table that holds what it derives. -/
theorem settled_of_derive (ht : t.Uniform base) (hbody : ∀ x ∈ r.body.entities, x.Uniform base)
    {us : List Tuple} (h : Gives (derive r) t us t') (hfits : t'.Fits base)
    (hheld : ∀ u ∈ us, t.store.holds u = true) :
    ∃ g, t.goal r = .ok g ∧ r.Settled base t.world (t.globals.normal base) g := by
  simp only [derive, gives_bind, gives_pure] at h
  obtain ⟨g, t₀, hgoal, found, t₁, hfound, uss, t₂, huss, rfl, rfl⟩ := h
  obtain ⟨rfl, hg⟩ := goal_of_gives hgoal
  obtain ⟨a, hsolve, rfl⟩ := gives_solutions hfound
  obtain ⟨rfl, htuples⟩ := (ends_tuples_all r found _).gives huss
  -- The answers are the normal forms of the solutions that were found.
  obtain ⟨huniform, hanswers⟩ := Goal.answers_of_gives ht.world ht.store (ht.goal hbody hg) ht.globals
    ht.arena hsolve hfits
  refine ⟨g, hg, _, hanswers, fun b hb s hs => ?_⟩
  obtain ⟨c, hc, rfl⟩ := List.mem_map.1 hb
  obtain ⟨us, hus, hmatch⟩ := htuples.exists_right hc
  obtain ⟨u, hu, htuple⟩ := hmatch.exists_right hs
  refine ⟨u.normal base, Tuple.ofSolution_normal ht.world.program (huniform c hc) htuple, ?_⟩
  rw [Tuple.holds_congr u.shape_normal]
  exact hheld u (List.mem_flatten_of_mem hus hu)

end Running

end CodeRules
