import CodeRules.Proofs.Goal.Monotone
import CodeRules.Proofs.Goal.Parallel
import CodeRules.Proofs.Statement.Reads
import CodeRules.Proofs.Table.Conclusions

/-!
# What fixpoints leave closed

`Table.Adds` is the frame of a run of plain statements, and `Table.Gains` says which tuples may be new.
A pass solves the goal of each statement and stores what the solutions give. Unless the relations that
the goal asks change later, the table is closed under the statement from then on (`Table.Closed`).

A table that is closed under a statement holds all that the statement derives (`Running.ends_derive`),
whatever its relations hold: from twin arenas a goal has solutions that give equal tuples. So a group that
was run to its end is closed (`Running.fixpoint_closed`).
-/

namespace CodeRules

open Effect

/-! ### Tuples of solutions -/

/-- Bindings that are the same after blurring give equal tuples. -/
theorem Tuple.exists_ofSolution_of_blur {p : Program} {s : Signature} {b b' : Bindings} {u : Tuple}
    {first : Nat} (hp : p.UnknownFrom first)
    (hb : b.relabel (.blur first) = b'.relabel (.blur first))
    (h : ofSolution p.types s b = .ok u) :
    ∃ v, ofSolution p.types s b' = .ok v ∧ v.shape = u.shape := by
  obtain ⟨⟨rfl, hvalues, _⟩, haccepts⟩ := ofSolution_eq_ok.1 h
  -- every parameter is bound to something that is the same after blurring
  have hfind : (u.signature.paramNames.map b'.find?).map (Option.map (Entity.relabel (.blur first))) =
      u.values.map fun e => some (e.relabel (.blur first)) := by
    have hnames : u.signature.paramNames.map (b'.relabel (.blur first)).find? =
        u.signature.paramNames.map (b.relabel (.blur first)).find? := by rw [hb]
    calc _ = u.signature.paramNames.map (b'.relabel (.blur first)).find? := by
          simp [List.map_map, Function.comp_def]
      _ = (u.signature.paramNames.map b.find?).map (Option.map (Entity.relabel (.blur first))) := by
          rw [hnames]
          simp [List.map_map, Function.comp_def]
      _ = _ := by simp [hvalues, List.map_map, Function.comp_def]
  obtain ⟨values, hbound, hsame⟩ := List.exists_eq_map_some hfind
  have hlength : values.length = u.signature.arity := by
    rw [← u.complete, ← List.length_map (f := Entity.relabel (.blur first)), hsame, List.length_map]
  refine ⟨⟨u.signature, values, rootOf values, hlength⟩,
    ofSolution_eq_ok.2 ⟨⟨rfl, hbound, rfl⟩, ?_⟩, ?_⟩
  · -- a parameter takes both values or none
    intro x hx
    have hzip := List.mem_map_of_mem (f := Prod.map id (Entity.relabel (.blur first))) hx
    rw [← List.zip_map_right, hsame, List.zip_map_right, List.mem_map] at hzip
    obtain ⟨y, hy, hxy⟩ := hzip
    obtain ⟨hparam, hvalue⟩ := Prod.mk.inj hxy
    rw [← show y.1 = x.1 from hparam, ← hp.accepts_eq y.1.type hvalue]
    exact haccepts y hy
  -- the tuples are compared by shapes and locations, and blurring keeps both
  · have hshapes : values.map Entity.shape = u.values.map Entity.shape := by
      have h := congrArg (List.map Entity.shape) hsame
      simpa [List.map_map, Function.comp_def] using h
    have hlocations : values.map Entity.locations = u.values.map Entity.locations := by
      have h := congrArg (List.map Entity.locations) hsame
      simpa [List.map_map, Function.comp_def] using h
    have hids := congrArg (List.map Entity.idsShape) hlocations
    rw [List.map_map, List.map_map] at hids
    rw [shape, shape, hshapes]
    exact congrArg (fun ids => Shape.seq [_, _, .seq ids]) hids

/-! ### Frames of plain statements -/

namespace Table

/-- `t'` comes after `t` in a run of plain statements for the named relations. -/
structure Adds (names : List String) (t t' : Table) : Prop extends Follows names [] t t' where
  globals_eq : t'.globals = t.globals
  overlay_eq : t'.overlay = t.overlay
  grown : t.arena.Grown t'.arena

/-- `t'` comes after `t`, and the new tuples are such as `C` says. -/
structure Gains (names : List String) (C : Tuple → Prop) (t t' : Table) : Prop
    extends Adds names t t' where
  only : ∀ n rel', t'.store.find? n = some rel' → ∀ u ∈ rel'.tuples.toList,
    (∃ rel, t.store.find? n = some rel ∧ u ∈ rel.tuples.toList) ∨ C u ∧ u.signature.name = n

variable {names names' : List String} {C : Tuple → Prop} {t t' t'' : Table}

namespace Adds

/-- Nothing was run. -/
theorem refl (t : Table) : t.Adds names t := ⟨.refl t, rfl, rfl, .refl t.arena⟩

/-- Only the trace is new. -/
theorem of_trace (h : t' = { t with trace := t'.trace }) : t.Adds names t' := by
  refine ⟨.of_eq ?_ ?_ ?_, ?_, ?_, ?_⟩ <;> rw [h]
  exact .refl t.arena

/-- One run after the other. -/
theorem trans (h : t.Adds names t') (h' : t'.Adds names t'') : t.Adds names t'' where
  toFollows := h.toFollows.trans h'.toFollows
  globals_eq := h'.globals_eq.trans h.globals_eq
  overlay_eq := h'.overlay_eq.trans h.overlay_eq
  grown := h.grown.trans h'.grown

instance : Std.Refl (Adds names) := ⟨refl⟩

instance : IsTrans Table (Adds names) := ⟨fun _ _ _ => trans⟩

/-- More relations may be named. -/
theorem mono (h : t.Adds names t') (hnames : ∀ n ∈ names, n ∈ names') :
    t.Adds names' t' := ⟨h.toFollows.mono hnames fun _ hv => hv, h.globals_eq, h.overlay_eq, h.grown⟩

/-- A table that fits in the end fitted before. -/
theorem fits (h : t.Adds names t') (ht' : t'.Fits base) : t.Fits base :=
  Nat.le_trans (Nat.add_le_add_left h.grown.size_le _) ht'

/-- The program and the overlay are as uniform as before. -/
theorem world_uniform (h : t.Adds names t') (ht : t.world.Uniform base) :
    t'.world.Uniform base where
  program := by
    show t'.program.Below base
    rw [h.program]
    exact ht.program
  overlay := by
    show ∀ e ∈ t'.overlay, e.Uniform base
    rw [h.overlay_eq]
    exact ht.overlay

/-- Goals stay the same. -/
theorem goal_eq (h : t.Adds names t') (r : Realization) : t'.goal r = t.goal r := by
  simp only [goal, h.globals_eq]
  exact Expr.compile_congr h.arity? r.body _

/-- Only the relations of the world change. -/
theorem world_eq (h : t.Adds names t') : t'.world = { t.world with store := t'.store } := by
  rw [world, world, h.program, h.overlay_eq]

end Adds

namespace Gains

/-- Nothing is new. -/
theorem refl (t : Table) : t.Gains names C t :=
  ⟨.refl t, fun _ rel' hrel' _ hu => .inl ⟨rel', hrel', hu⟩⟩

/-- What is new in the end is new in the first run or in the second one. -/
theorem trans (h : t.Gains names C t') (h' : t'.Gains names C t'') :
    t.Gains names C t'' where
  toAdds := h.toAdds.trans h'.toAdds
  only n rel' hrel' u hu := by
    rcases h'.only n rel' hrel' u hu with ⟨rel, hrel, hu⟩ | hC
    · exact h.only n rel hrel u hu
    · exact .inr hC

instance : Std.Refl (Gains names C) := ⟨refl⟩

instance : IsTrans Table (Gains names C) := ⟨fun _ _ _ => trans⟩

/-- Uniform tuples keep a table uniform. -/
theorem uniform (h : t.Gains names C t') (ht : t.Uniform base)
    (hC : ∀ u, C u → ∀ e ∈ u.values, e.Uniform base) : t'.Uniform base where
  world := h.world_uniform ht.world
  store n rel' hrel' u hu := by
    rcases h.only n rel' hrel' u hu with ⟨rel, hrel, hu⟩ | ⟨hu, _⟩
    · exact ht.store n rel hrel u hu
    · exact hC u hu
  globals := by
    rw [h.globals_eq]
    exact ht.globals
  arena := h.grown.undeclared ht.arena

end Gains

/-- Relations that grow hold what they held. -/
theorem Follows.holds {vars : List String} (h : t.Follows names vars t') {u : Tuple}
    (hu : t.store.holds u = true) : t'.store.holds u = true := by
  obtain ⟨rel, hrel, hcontains⟩ := (Option.any_eq_true ..).1 hu
  have hgrows := h.grows u.signature.name
  rw [hrel] at hgrows
  -- A relation that there was is there still.
  cases hrel' : t'.store.find? u.signature.name with
  | none =>
    rw [hrel'] at hgrows
    exact hgrows.elim
  | some rel' =>
    rw [hrel'] at hgrows
    obtain ⟨v, hv, hshape⟩ := Catalog.contains_iff.1 hcontains
    rw [Store.holds, hrel']
    exact Catalog.contains_iff.2 ⟨v, hgrows.2 v hv, hshape⟩

/-- The table holds what the solutions give for the traits of the statement. -/
def HoldsFor (t : Table) (r : Realization) (found : Solutions) : Prop :=
  ∀ b ∈ found.toList, ∀ s ∈ r.signatures, ∃ u,
    Tuple.ofSolution t.program.types s b = .ok u ∧ t.store.holds u = true

/-- What a table holds for a statement is held by those that come after it. -/
theorem HoldsFor.follows {vars : List String} {r : Realization} {found : Solutions}
    (hheld : t.HoldsFor r found) (h : t.Follows names vars t') : t'.HoldsFor r found :=
  fun b hb s hs => (hheld b hb s hs).imp fun _ hu => ⟨h.program ▸ hu.1, h.holds hu.2⟩

/-- From an arena that came after `start` the goal has solutions in the world of the table, which holds
what they give. -/
def Closed (start : Arena) (t : Table) (r : Realization) (g : Goal) : Prop :=
  ∃ found a a', start.Grown a ∧ Gives (g.solve t.world t.globals) a found a' ∧ a'.Grown t.arena ∧
    t.HoldsFor r found

/-- A table that is closed since some time is closed since any time before. -/
theorem Closed.since {start start' : Arena} {r : Realization} {g : Goal}
    (h : t.Closed start' r g) (hstart : start.Grown start') : t.Closed start r g := by
  obtain ⟨found, a, a', ha, hrest⟩ := h
  exact ⟨found, a, a', hstart.trans ha, hrest⟩

end Table

namespace Running

variable {t t' : Table} {r : Realization} {g : Goal} {s : Signature} {b : Bindings}

/-! ### Running plain statements -/

/-- What a statement concludes from solutions. -/
def Concluded (types : TypeOracle) (r : Realization) (found : Solutions) (u : Tuple) : Prop :=
  ∃ b ∈ found.toList, ∃ s ∈ r.signatures, Tuple.ofSolution types s b = .ok u

/-- Realizing a solution for a trait adds the tuple that it gives, unless its relation holds it. -/
theorem gains_of_realize {o : Option Tuple} {found : Solutions} (h : Gives (realize r b s) t o t')
    (hb : b ∈ found.toList) (hs : s ∈ r.signatures) :
    t.Gains r.names (Concluded t.program.types r found) t' ∧
      (∃ u, Tuple.ofSolution t'.program.types s b = .ok u ∧ t'.store.holds u = true) ∧
      t'.arena = t.arena ∧ (o.isSome = false → t'.store = t.store) := by
  obtain ⟨u, rel, trace, hu, hrel, ho, rfl⟩ := (ends_realize r b s t).gives h
  have hname : u.signature.name = s.name := by rw [(Tuple.ofSolution_eq_ok.1 hu).1.1]
  -- The tuple is stored first, and the trace is written after that.
  have hfollows := (t.follows_set hrel u).trans (.of_eq rfl rfl rfl : Table.Follows [s.name] []
    { t with store := Dict.set t.store s.name (rel.insert u) }
    { t with store := Dict.set t.store s.name (rel.insert u), trace })
  have hnames : ∀ n ∈ [s.name], n ∈ r.names := fun n hn =>
    List.mem_singleton.1 hn ▸ List.mem_map_of_mem hs
  refine ⟨⟨⟨hfollows.mono hnames fun _ hv => hv, rfl, rfl, .refl t.arena⟩, ?_⟩, ⟨u, hu, ?_⟩, rfl, ?_⟩
  · intro n rel' hrel' v hv
    rw [Dict.find?_set] at hrel'
    split at hrel'
    · rename_i hn
      obtain rfl := Option.some.inj hrel'
      -- The new tuple, or one that was there.
      rcases Catalog.mem_of_mem_insert hv with rfl | hv
      · exact .inr ⟨⟨b, hb, s, hs, hu⟩, by rw [hname, hn]⟩
      · exact .inl ⟨rel, by rw [hn, hrel], hv⟩
    · exact .inl ⟨rel', hrel', hv⟩
  · rw [Store.holds, hname, Dict.find?_set, if_pos rfl]
    exact Catalog.contains_insert.2 (.inl rfl)
  · intro hnone
    -- no tuple is given back only where the relation held it
    have hold : rel.contains u = true := by
      cases hnew : rel.contains u with
      | true => rfl
      | false =>
        rw [ho, hnew] at hnone
        cases hnone
    refine Dict.ext_find? fun n => ?_
    rw [Dict.find?_set]
    split
    · rename_i hn
      rw [hn, hrel, Relation.insert, Catalog.insert_of_contains hold]
    · rfl

/-- Realizing solutions for all traits of a statement adds what they give. -/
private theorem gains_of_mapM_realize {found : Solutions} {added : List (List (Option Tuple))}
    (h : Gives (found.toList.mapM fun b => r.signatures.mapM (realize r b)) t added t') :
    t.Gains r.names (Concluded t.program.types r found) t' ∧ t'.HoldsFor r found ∧
      t'.arena = t.arena ∧ ((∀ o ∈ added.flatten, o.isSome = false) → t'.store = t.store) := by
  -- what is held after a step stays held in those that follow
  have hlater {b : Bindings} {s : Signature} {t₁ t₂ : Table}
      (h : t₁.Gains r.names (Concluded t.program.types r found) t₂)
      (hu : ∃ u, Tuple.ofSolution t₁.program.types s b = .ok u ∧ t₁.store.holds u = true) :
      ∃ u, Tuple.ofSolution t₂.program.types s b = .ok u ∧ t₂.store.holds u = true :=
    hu.imp fun u hu => ⟨h.program ▸ hu.1, h.toFollows.holds hu.2⟩
  have hall := h.forall₂ (r := Table.Gains r.names (Concluded t.program.types r found))
    (P := fun b _ t₁ => ∀ s ∈ r.signatures, ∃ u,
      Tuple.ofSolution t₁.program.types s b = .ok u ∧ t₁.store.holds u = true)
    (fun b _ _ _ hgains hheld s hs => hlater hgains (hheld s hs)) fun b hb t₁ ht₁ os t₂ hos => by
      have hrow := hos.forall₂ (r := Table.Gains r.names (Concluded t.program.types r found))
        (P := fun s _ t₁ => ∃ u,
          Tuple.ofSolution t₁.program.types s b = .ok u ∧ t₁.store.holds u = true)
        (fun s _ _ _ hgains => hlater hgains) fun s hs t₂ ht₂ o t₃ ho => by
          obtain ⟨hgains, hheld, _⟩ := gains_of_realize ho hb hs
          rw [ht₂.program, ht₁.program] at hgains
          exact ⟨hgains, hheld⟩
      refine ⟨hrow.1, fun s hs => ?_⟩
      obtain ⟨_, _, hheld⟩ := hrow.2.exists_right hs
      exact hheld
  refine ⟨hall.1, fun b hb s hs => ?_, ?_, fun hnone => ?_⟩
  · obtain ⟨_, _, hheld⟩ := hall.2.exists_right hb
    exact hheld s hs
  -- Storing does not give out numbers.
  · exact h.mapM_eq (v := Table.arena) (Q := fun _ => True) (fun b hb _ _ _ hos _ =>
      hos.mapM_eq (v := Table.arena) (Q := fun _ => True) (fun s hs _ _ _ ho _ =>
        (gains_of_realize ho hb hs).2.2.1) fun _ _ => trivial) fun _ _ => trivial
  -- If no tuple is new, no step changes the store.
  · refine h.mapM_eq (v := Table.store) (Q := fun os => ∀ o ∈ os, o.isSome = false)
      (fun b hb _ _ _ hos hQ => hos.mapM_eq (v := Table.store) (Q := fun o => o.isSome = false)
        (fun s hs _ _ _ ho hQ => (gains_of_realize ho hb hs).2.2.2 hQ) hQ) fun os hos o ho => ?_
    exact hnone o (List.mem_flatten_of_mem hos ho)

/-- One run of a plain statement solves its goal, which gives out numbers, and adds what the solutions
give. It adds nothing if the table holds it all. -/
theorem gives_runPlain {k : Nat} (h : Gives (runPlain r g) t k t') :
    ∃ found, Gives (g.solve t.world t.globals) t.arena found t'.arena ∧
      t.Gains r.names (Concluded t.program.types r found) t' ∧ t'.HoldsFor r found ∧
      (k = 0 → t'.store = t.store) := by
  simp only [runPlain, gives_bind, gives_pure] at h
  obtain ⟨found, t₁, hfound, added, t₂, hadded, rfl, rfl⟩ := h
  obtain ⟨a, hsolve, rfl⟩ := gives_solutions hfound
  obtain ⟨hgains, hheld, harena, hnone⟩ := gains_of_mapM_realize hadded
  -- Solving changes nothing but the arena.
  have hstart : t.Gains r.names (Concluded t.program.types r found) { t with arena := a } :=
    ⟨⟨.of_eq rfl rfl rfl, rfl, rfl, g.grown_of_gives hsolve⟩,
      fun _ rel hrel _ hu => .inl ⟨rel, hrel, hu⟩⟩
  refine ⟨found, harena ▸ hsolve, hstart.trans hgains, hheld, fun hzero => hnone fun o ho => ?_⟩
  have hcount := List.countP_eq_zero.1 hzero o ho
  simpa using hcount

/-! ### Passes -/

variable {members : List (Realization × Goal)} {names : List String} {isRecursive : Bool}
  {label : String} {pass left : Nat}

/-- A pass is a run of plain statements. -/
theorem adds_of_pass {ks : List Nat} (hnames : ∀ m ∈ members, ∀ n ∈ m.1.names, n ∈ names)
    (h : Gives (members.mapM fun m => runPlain m.1 m.2) t ks t') : t.Adds names t' :=
  (h.forall₂ (r := Table.Adds names) (P := fun _ _ _ => True) (fun _ _ _ _ _ h => h)
    fun m hm _ _ _ _ hk => by
      obtain ⟨_, _, hgains, _⟩ := gives_runPlain hk
      exact ⟨hgains.toAdds.mono (hnames m hm), trivial⟩).1

/-- A pass that adds nothing leaves the table closed under its statements, and so does a pass of
statements that do not ask what is realized in it. -/
theorem closed_of_pass {ks : List Nat} (hnames : ∀ m ∈ members, ∀ n ∈ m.1.names, n ∈ names)
    (h : Gives (members.mapM fun m => runPlain m.1 m.2) t ks t')
    (hlast : (∀ k ∈ ks, k = 0) ∨ ∀ m ∈ members, ∀ n ∈ m.2.relations, n ∉ names) :
    ∀ m ∈ members, t'.Closed t.arena m.1 m.2 := by
  intro m hm
  -- The statement is run between those before it and those after it.
  obtain ⟨before, after, k, ks₁, ks₂, t₁, t₂, rfl, rfl, hbefore, hk, hafter⟩ := h.mapM_mem hm
  have hadds₁ := adds_of_pass (fun m' h' => hnames m' (List.mem_append_left _ h')) hbefore
  have hadds₃ := adds_of_pass
    (fun m' h' => hnames m' (List.mem_append_right _ (List.mem_cons_of_mem _ h'))) hafter
  obtain ⟨found, hsolve, hgains, hheld, hzero⟩ := gives_runPlain hk
  have hadds₂ : t₁.Adds names t' := (hgains.toAdds.mono (hnames m hm)).trans hadds₃
  -- what the goal asks does not change any more
  have hsame : ∀ n ∈ m.2.relations, t'.store.find? n = t₁.store.find? n := by
    rcases hlast with hidle | hforeign
    · have hrest : t'.store = t₂.store := hafter.mapM_eq (v := Table.store) (Q := (· = 0))
        (fun _ _ _ _ _ hk' h0 => (gives_runPlain hk').choose_spec.2.2.2 h0)
        fun k' h' => hidle k' (List.mem_append_right _ (List.mem_cons_of_mem _ h'))
      have hthis := hzero (hidle k (List.mem_append_right _ (List.mem_cons_self ..)))
      rw [hrest, hthis]
      exact fun _ _ => rfl
    · exact fun n hn => hadds₂.relations n (hforeign m hm n hn)
  refine ⟨found, t₁.arena, t₂.arena, hadds₁.grown, ?_, hadds₃.grown, hheld.follows hadds₃.toFollows⟩
  have hcongr := Goal.solve_congr (w := t₁.world) hsame t₁.globals
  rw [hadds₂.world_eq, hadds₂.globals_eq, hcongr]
  exact hsolve

/-- Passes that end well are a pass that is the last one, or one that others follow. -/
theorem gives_runPasses
    (h : Gives (runPasses members isRecursive label pass left) t () t') :
    ∃ left' ks t₁ t₂, left = left' + 1 ∧ Gives (members.mapM fun m => runPlain m.1 m.2) t ks t₁ ∧
      t₂ = { t₁ with trace := t₂.trace } ∧
      (t₂ = t' ∧ ((∀ k ∈ ks, k = 0) ∨ isRecursive = false) ∨
        Gives (runPasses members isRecursive label (pass + 1) left') t₂ () t') := by
  cases left with
  | zero => exact (gives_throw.1 h).elim
  | succ left =>
    simp only [runPasses, gives_bind] at h
    obtain ⟨ks, t₁, hks, _, t₂, hrecord, h⟩ := h
    refine ⟨left, ks, t₁, t₂, rfl, hks, ?_, ?_⟩
    -- Only a line of the trace is written.
    · have hends : Ends (record .fixpointPass label
          s!"pass {pass + 1}: {ks.foldl (· + ·) 0} new tuples") t₁
          (fun _ t₂ => t₂ = { t₁ with trace := t₂.trace }) (fun _ _ => True) := rfl
      exact hends.gives hrecord
    · split at h
      · exact .inr h
      · rename_i hlast
        obtain ⟨-, rfl⟩ := gives_pure.1 h
        refine .inl ⟨rfl, ?_⟩
        -- No pass follows if the sum of the new tuples is zero, and then each of the numbers is.
        rw [not_and_or, not_ne_iff, Bool.not_eq_true, ← List.sum_eq_foldl,
          List.sum_eq_zero_iff_forall_eq_nat] at hlast
        exact hlast

/-- Passes that end well are a run of plain statements. -/
theorem adds_of_runPasses (hnames : ∀ m ∈ members, ∀ n ∈ m.1.names, n ∈ names)
    (h : Gives (runPasses members isRecursive label pass left) t () t') : t.Adds names t' := by
  induction left generalizing t pass with
  | zero => exact (gives_throw.1 h).elim
  | succ left ih =>
    obtain ⟨_, ks, t₁, t₂, hleft, hks, ht₂, hrest⟩ := gives_runPasses h
    obtain rfl := Nat.succ.inj hleft
    have hstep := (adds_of_pass hnames hks).trans (.of_trace ht₂)
    rcases hrest with ⟨rfl, _⟩ | hrest
    · exact hstep
    · exact hstep.trans (ih hrest)

/-- Passes that end well leave the table closed under all statements, as long as the statements of a group
that is not recursive do not ask what is realized in it. -/
theorem closed_of_runPasses (hnames : ∀ m ∈ members, ∀ n ∈ m.1.names, n ∈ names)
    (hforeign : isRecursive = false → ∀ m ∈ members, ∀ n ∈ m.2.relations, n ∉ names)
    (h : Gives (runPasses members isRecursive label pass left) t () t') :
    ∀ m ∈ members, t'.Closed t.arena m.1 m.2 := by
  induction left generalizing t pass with
  | zero => exact (gives_throw.1 h).elim
  | succ left ih =>
    obtain ⟨_, ks, t₁, t₂, hleft, hks, ht₂, hrest⟩ := gives_runPasses h
    obtain rfl := Nat.succ.inj hleft
    rcases hrest with ⟨rfl, hlast⟩ | hrest
    · have hclosed := closed_of_pass hnames hks (hlast.imp_right hforeign)
      rw [ht₂]
      exact hclosed
    · -- what is closed since a later pass is closed since the first one
      have hgrown := ((adds_of_pass hnames hks).trans (.of_trace ht₂)).grown
      exact fun m hm => (ih hrest m hm).since hgrown

/-! ### Deriving -/

/-- A table that is closed under a statement holds all that the statement derives. Nothing but numbers can
run out. -/
theorem ends_derive {start : Arena}
    (hprogram : t.program.UnknownFrom (start.base.toNat + start.size)) (hg : t.goal r = .ok g)
    (h : t.Closed start r g) :
    Ends (derive r) t (fun us t' => t'.Fits t.arena.base → ∀ u ∈ us, t.store.holds u = true)
      (fun _ t' => ¬ t'.Fits t.arena.base) := by
  obtain ⟨found, a, a', hstart, hsolve, hgrown, hheld⟩ := h
  have hknown : t.program.UnknownFrom (a.base.toNat + a.size) := by
    refine hprogram.mono ?_
    rw [hstart.extends.base]
    exact Nat.add_le_add_left hstart.size_le _
  -- the arena of the table is a twin of the one in which the goal was solved
  have htwin := a.twin_self.grow_right ((g.grown_of_gives hsolve).trans hgrown)
  have hsolved := (g.ends_solve_of_twin hknown hsolve htwin).and
    (g.ends_solve_grown t.world t.globals t.arena)
  -- Numbers run out for the table when they do for its arena.
  have hfits_iff {a₂ : Arena} (h : t.arena.Grown a₂) :
      ({ t with arena := a₂ } : Table).Fits t.arena.base ↔ a₂.Fits := by
    rw [Table.Fits, Arena.Fits, h.extends.base]
  rw [ends_derive_iff hg]
  refine hsolved.imp (fun found' a₂ h => ?_) fun _ a₂ h hfits => h.1 ((hfits_iff h.2).1 hfits)
  obtain ⟨hsame, hgrown'⟩ := h
  have hmatch (hfits : a₂.Fits) (b : Bindings) (hb : b ∈ found'.toList) (s : Signature)
      (hs : s ∈ r.signatures) :
      ∃ u, Tuple.ofSolution t.program.types s b = .ok u ∧ t.store.holds u = true := by
    -- A solution has one among those of the pass that blurs to the same, and gives an equal tuple.
    have hlists : found'.toList.map (Bindings.relabel (.blur _)) =
        found.toList.map (Bindings.relabel (.blur _)) := congrArg Catalog.toList (hsame hfits).symm
    have hmem := List.mem_map_of_mem (f := Bindings.relabel (.blur (a.base.toNat + a.size))) hb
    rw [hlists, List.mem_map] at hmem
    obtain ⟨c, hc, hcb⟩ := hmem
    obtain ⟨u, hu, hholds⟩ := hheld c hc s hs
    obtain ⟨v, hv, hshape⟩ := Tuple.exists_ofSolution_of_blur hknown hcb hu
    exact ⟨v, hv, (Tuple.holds_congr hshape t.store).trans hholds⟩
  refine (ends_tuples_all r found' { t with arena := a₂ }).imp (fun uss t' h => ?_) fun _ t' h => ?_
  · obtain ⟨rfl, htuples⟩ := h
    intro hfits u hu
    obtain ⟨us, hus, hu⟩ := List.mem_flatten.1 hu
    obtain ⟨b, hb, hrow⟩ := htuples.exists_left hus
    obtain ⟨s, hs, hgiven⟩ := hrow.exists_left hu
    obtain ⟨v, hv, hholds⟩ := hmatch ((hfits_iff hgrown').1 hfits) b hb s hs
    obtain rfl := Except.ok.inj (hgiven.symm.trans hv)
    exact hholds
  · obtain ⟨rfl, b, hb, s, hs, hnone⟩ := h
    intro hfits
    -- A solution that gives no tuple would contradict what the other one gives.
    obtain ⟨v, hv, _⟩ := hmatch ((hfits_iff hgrown').1 hfits) b hb s hs
    exact hnone v hv

/-! ### Groups -/

/-- The statements with their goals. -/
abbrev GoalsOf (t : Table) (rs : List Realization) (members : List (Realization × Goal)) : Prop :=
  List.Forall₂ (fun r m => m.1 = r ∧ t.goal r = .ok m.2) rs members

/-- A fixpoint compiles its statements first and then runs them in passes. -/
theorem gives_runFixpoint {rs : List Realization}
    (h : Gives (runFixpoint rs isRecursive label) t () t') :
    ∃ members, GoalsOf t rs members ∧
      Gives (runPasses members isRecursive label 0 t.settings.maxPasses) t () t' := by
  simp only [runFixpoint, gives_bind, gives_get] at h
  obtain ⟨members, t₁, hmembers, _, _, ⟨rfl, rfl⟩, h⟩ := h
  have hall := hmembers.forall₂ (r := Eq)
    (P := fun r m t => m.1 = r ∧ t.goal r = .ok m.2) (fun _ _ _ _ h => h ▸ id)
    fun r _ t _ m t' hm => by
      simp only [gives_bind, gives_pure] at hm
      obtain ⟨g, t₂, hg, rfl, rfl⟩ := hm
      obtain ⟨rfl, hg⟩ := goal_of_gives hg
      exact ⟨rfl, rfl, hg⟩
  obtain ⟨rfl, hall⟩ := hall
  exact ⟨members, hall, h⟩

section

variable {c : RelationContext} {statements : List Realization} {schedule : Schedule}
  {steps part : List Planned}

/-- The relations that the statements of a part realize. -/
def partNames (part : List Planned) : List String := part.flatMap fun s => s.statement.names

/-- Each goal is that of a step of the part. -/
theorem GoalsOf.exists_planned {m : Realization × Goal}
    (h : GoalsOf t (part.map Planned.statement) members) (hm : m ∈ members) :
    ∃ s ∈ part, m.1 = s.statement ∧ t.goal s.statement = .ok m.2 := by
  obtain ⟨r, hr, rfl, hgoal⟩ := h.exists_left hm
  obtain ⟨s, hs, hr⟩ := List.mem_map.1 hr
  exact ⟨s, hs, hr.symm, hr ▸ hgoal⟩

/-- What the statements of a part realize is named by the part. -/
theorem GoalsOf.realizes (h : GoalsOf t (part.map Planned.statement) members) :
    ∀ m ∈ members, ∀ n ∈ m.1.names, n ∈ partNames part := by
  intro m hm n hn
  obtain ⟨s, hs, hms, _⟩ := h.exists_planned hm
  exact List.mem_flatMap.2 ⟨s, hs, hms ▸ hn⟩

/-- A relation that a fixpoint realizes is plain and not complete. -/
theorem open_of_mem_partNames (harr : schedule.Arranges c statements steps)
    (hpart : part ∈ Schedule.partition steps) (hchecked : ∀ r ∈ statements, r.Checked)
    (hopen : ∀ r ∈ statements, r.OpenIn c) (hplain : ∀ s ∈ part, s.statement.isPlain = true)
    {n : String} (hn : n ∈ partNames part) :
    ∃ s ∈ part, n ∈ s.statement.names ∧ (c.open? n).any (·.flags.isPlain) = true := by
  obtain ⟨s, hs, hn⟩ := List.mem_flatMap.1 hn
  have hmem := harr.statement_mem hpart hs
  obtain ⟨sig, hsig, hflags⟩ := (hchecked _ hmem).signatures_of_isPlain (hplain s hs)
  refine ⟨s, hs, hn, ?_⟩
  obtain ⟨sig', hsig', rfl⟩ := Realization.mem_names_iff.1 hn
  rw [(hopen _ hmem).open?_eq (hchecked _ hmem) hsig', Option.any_some]
  rw [hsig, List.mem_singleton] at hsig'
  rw [hsig', hflags]

variable (harr : schedule.Arranges c statements steps) (hpart : part ∈ Schedule.partition steps)
  (hchecked : ∀ r ∈ statements, r.Checked) (hopen : ∀ r ∈ statements, r.OpenIn c)
  (hplain : ∀ s ∈ part, s.statement.isPlain = true)
include harr hpart hchecked hopen hplain

/-- The goals of a fixpoint do not test what it realizes. -/
theorem not_mem_partNames_of_tested (hgoals : GoalsOf t (part.map Planned.statement) members) :
    ∀ m ∈ members, ∀ n ∈ m.2.tested, n ∉ partNames part := by
  intro m hm n hn hnames
  obtain ⟨s, hs, _, hg⟩ := hgoals.exists_planned hm
  obtain ⟨u, hu, hreal, hany⟩ := open_of_mem_partNames harr hpart hchecked hopen hplain hnames
  refine harr.not_tested hpart hs hu hreal ?_ (Expr.references_of_mem_tested hg hn)
  obtain ⟨sig, hsig, _⟩ := (Option.any_eq_true ..).1 hany
  rw [hsig]
  rfl

/-- The goals of a fixpoint that is not recursive do not ask what it realizes. -/
theorem not_mem_partNames_of_relations (hgoals : GoalsOf t (part.map Planned.statement) members)
    (hrec : (Planned.group part).isRecursive = false) :
    ∀ m ∈ members, ∀ n ∈ m.2.relations, n ∉ partNames part := by
  intro m hm n hn hnames
  obtain ⟨s, hs, _, hg⟩ := hgoals.exists_planned hm
  obtain ⟨u, hu, hreal, hany⟩ := open_of_mem_partNames harr hpart hchecked hopen hplain hnames
  obtain ⟨tested, hmention⟩ := Expr.references_of_mem_relations hg hn
  cases tested with
  | true =>
    refine harr.not_tested hpart hs hu hreal ?_ hmention
    obtain ⟨sig, hsig, _⟩ := (Option.any_eq_true ..).1 hany
    rw [hsig]
    rfl
  | false =>
    rw [harr.isRecursive_of_reads hpart hs (hplain s hs) hu hreal hany hmention] at hrec
    cases hrec

end

/-- A scheduled group of plain statements that was run to its end holds all conclusions of its
statements, also when it is not recursive and was run once. It does not matter what its relations hold, as
long as the program knows no number that is yet to be given out, and numbers do not run out. -/
theorem fixpoint_closed {c : RelationContext} {statements : List Realization} {schedule : Schedule}
    {group : Group} (hprogram : t.program.UnknownFrom (t.arena.base.toNat + t.arena.size))
    (hchecked : ∀ r ∈ statements, r.Checked) (hopen : ∀ r ∈ statements, r.OpenIn c)
    (hschedule : Schedule.ofStatements c statements = .ok schedule) (hgroup : group ∈ schedule.groups)
    (hkind : group.kind = .fixpoint)
    (hrun : Gives (runFixpoint (group.statements.filterMap (statements[·]?)) group.isRecursive label)
      t () t') :
    ∀ r ∈ group.statements.filterMap (statements[·]?),
      Ends (derive r) t' (fun us t'' => t''.Fits t.arena.base → ∀ u ∈ us, t'.store.holds u = true)
        (fun _ t'' => ¬ t''.Fits t.arena.base) := by
  obtain ⟨steps, harr⟩ := Schedule.exists_arranges hschedule
  rw [harr.groups] at hgroup
  obtain ⟨part, hpart, rfl⟩ := List.mem_map.1 hgroup
  rw [harr.filterMap_group hpart] at hrun ⊢
  obtain ⟨members, hgoals, hrun⟩ := gives_runFixpoint hrun
  have hplain := Planned.isPlain_of_kind hkind
  intro r hr
  -- the goal that the fixpoint runs is the one that is compiled now, because relations keep their arities
  obtain ⟨m, hm, rfl, hgoal⟩ := hgoals.exists_right hr
  have hadds := adds_of_runPasses hgoals.realizes hrun
  have hclosed := closed_of_runPasses hgoals.realizes
    (not_mem_partNames_of_relations harr hpart hchecked hopen hplain hgoals) hrun
  rw [← hadds.grown.extends.base]
  refine ends_derive ?_ ((hadds.goal_eq _).trans hgoal) (hclosed m hm)
  rw [hadds.program]
  exact hprogram

end Running

end CodeRules
