import CodeRules.Goal.Solve
import CodeRules.Proofs.Effect
import CodeRules.Proofs.Order.Catalog

/-!
# What solving yields

Rules for the ways in which goals are solved: when every solution that is found for a part satisfies
`P`, so does every solution of the whole. `I` is what the arena has to satisfy, and satisfies
afterwards. Where nodes are made, `P` may depend on the arena, and holds in later ones (`Leads`).
-/

namespace CodeRules

open Effect

namespace Solutions

variable {P : Bindings → Prop} {s t : Solutions}

/-- Every solution of the set satisfies `P`. -/
def All (P : Bindings → Prop) (s : Solutions) : Prop := ∀ b ∈ s.toList, P b

/-- No solutions need to satisfy anything. -/
theorem all_empty : All P ∅ := fun _ hb => absurd hb List.not_mem_nil

/-- The only solution satisfies `P`. -/
theorem all_singleton {b : Bindings} (h : P b) : All P (Catalog.singleton b) := fun _ hc =>
  List.mem_singleton.1 hc ▸ h

/-- One more solution satisfies `P`. -/
theorem All.insert {b : Bindings} (hs : s.All P) (h : P b) : All P (Catalog.insert s b) := fun c hc =>
  (Catalog.mem_of_mem_insert hc).elim (fun heq => heq ▸ h) (hs c)

/-- Solutions that are taken together satisfy `P` when they do apart. -/
theorem All.union (hs : s.All P) (ht : t.All P) : All P (Catalog.union s t) := fun c hc =>
  (Catalog.mem_of_mem_union hc).elim (hs c) (ht c)

/-- A test gives its input back, or nothing. -/
theorem all_test {q : Bool} {b : Bindings} (h : P b) : All P (test q b) := by
  cases q with
  | false => exact all_empty
  | true => exact all_singleton h

/-- What is found satisfies `P`. -/
theorem all_ofOption {o : Option Bindings} (h : ∀ b, o = some b → P b) : All P (ofOption o) := by
  cases o with
  | none => exact all_empty
  | some b => exact all_singleton (h b rfl)

/-- A test gives no solution, or the bindings themselves. -/
theorem test_eq (q : Bool) (b : Bindings) : test q b = ∅ ∨ test q b = Catalog.singleton b := by
  cases q with
  | false => exact .inl rfl
  | true => exact .inr rfl

end Solutions

namespace Solving

variable {I : Arena → Prop} {α : Type} {P : Bindings → Prop}

/-- A question keeps the arena as it is. -/
theorem yields_ask {span : Span} {question : Arena → Except EvalError α} {Q : α → Prop}
    (h : ∀ a, I a → ∀ x, question a = .ok x → Q x) : Yields I (ask span question) Q := by
  refine yields_bind yields_get fun a ha => ?_
  cases hq : question a with
  | error e => exact yields_throw
  | ok x => exact yields_pure (h a ha x hq)

/-- A question that always has an answer is answered. -/
theorem returns_ask {span : Span} {question : Arena → Except EvalError α} {Q : α → Prop}
    (h : ∀ a, ∃ x, question a = .ok x ∧ Q x) : Returns (ask span question) Q := by
  intro a
  obtain ⟨x, hx, hQ⟩ := h a
  show Ends (get >>= _) a _ _
  rw [ends_bind, ends_get, hx]
  exact ⟨hQ, rfl⟩

/-- What is found for the elements of a list is collected. -/
theorem yields_collect {f : α → Solving (Option Bindings)} {l : List α}
    (h : ∀ x ∈ l, Yields I (f x) fun o => ∀ b, o = some b → P b) :
    Yields I (collect f l) (Solutions.All P) := by
  refine yields_foldlM (fun x hx s hs => yields_bind (h x hx) fun o ho => yields_pure ?_)
    Solutions.all_empty
  cases o with
  | none => exact hs
  | some b => exact hs.insert (ho b rfl)

/-- What is found for some bindings is taken together. -/
theorem yields_joinAll {f : Bindings → Solving Solutions} {s : Solutions}
    (h : ∀ b ∈ s.toList, Yields I (f b) (Solutions.All P)) :
    Yields I (joinAll f s) (Solutions.All P) :=
  yields_foldlM (fun b hb _ hout => yields_bind (h b hb) fun _ hr => yields_pure (hout.union hr))
    Solutions.all_empty

/-! ### Growing arenas -/

section

variable {r : Arena → Arena → Prop} [Std.Refl r] {a : Arena} {P : Bindings → Arena → Prop}

/-- A question does not change the arena. -/
theorem leads_ask {span : Span} {question : Arena → Except EvalError α} {Q : α → Arena → Prop}
    (h : ∀ x, question a = .ok x → Q x a) : Leads r (ask span question) a Q := by
  show Ends (get >>= _) a _ _
  rw [ends_bind, ends_get]
  cases hq : question a with
  | error e => exact ⟨Std.Refl.refl a, trivial⟩
  | ok x => exact ⟨Std.Refl.refl a, h x hq⟩

variable [IsTrans Arena r] (hP : ∀ b a a', r a a' → P b a → P b a')
include hP

/-- While the arena grows, what was found before still satisfies `P`. -/
theorem leads_collect {f : α → Solving (Option Bindings)} {l : List α}
    (h : ∀ x ∈ l, ∀ a', r a a' → Leads r (f x) a' fun o a'' => ∀ b, o = some b → P b a'') :
    Leads r (collect f l) a fun s a' => s.All (P · a') := by
  refine leads_foldlM (fun x hx s a' ha' hs => ?_) Solutions.all_empty
  refine leads_bind (h x hx a' ha') fun o a'' ha'' ho => leads_pure ?_
  have hs : s.All (P · a'') := fun b hb => hP b a' a'' ha'' (hs b hb)
  cases o with
  | none => exact hs
  | some b => exact hs.insert (ho b rfl)

/-- Joined solutions are found in growing arenas. -/
theorem leads_joinAll {f : Bindings → Solving Solutions} {s : Solutions} (hs : s.All (P · a))
    (h : ∀ b a', r a a' → P b a' → Leads r (f b) a' fun s a'' => s.All (P · a'')) :
    Leads r (joinAll f s) a fun s a' => s.All (P · a') := by
  refine leads_foldlM (fun b hb out a' ha' hout => ?_) Solutions.all_empty
  refine leads_bind (h b a' ha' (hP b a a' ha' (hs b hb))) fun next a'' ha'' hnext => leads_pure ?_
  have hout : out.All (P · a'') := fun c hc => hP c a' a'' ha'' (hout c hc)
  exact hout.union hnext

/-- A universal test may leave the arena grown. -/
theorem leads_everywhere {f : Bindings → Solving Solutions} {l : List Bindings}
    (hl : ∀ b ∈ l, P b a)
    (h : ∀ b a', r a a' → P b a' → Leads r (f b) a' fun s a'' => s.All (P · a'')) :
    Leads r (everywhere f l) a fun _ _ => True := by
  induction l generalizing a with
  | nil => exact leads_pure trivial
  | cons b l ih =>
    refine leads_bind (h b a (Std.Refl.refl a) (hl b (List.mem_cons_self ..))) fun s a' ha' _ => ?_
    by_cases hs : s.isEmpty = true
    · simp only [hs, ↓reduceIte]
      exact leads_pure trivial
    · simp only [hs, Bool.false_eq_true, ↓reduceIte]
      exact ih (fun c hc => hP c a a' ha' (hl c (List.mem_cons_of_mem _ hc)))
        fun c a'' ha'' hc => h c a'' (IsTrans.trans _ _ _ ha' ha'') hc

end

end Solving

namespace Goal

variable {w : World} {I : Arena → Prop} {P : Bindings → Prop} {gs : List Goal}

/-- The solutions of a conjunction are found goal by goal. -/
theorem yields_solveAnd (h : ∀ g ∈ gs, ∀ b, P b → Yields I (g.solve w b) (Solutions.All P))
    {current : Solutions} (hcurrent : current.All P) :
    Yields I (solveAnd w gs current) (Solutions.All P) := by
  induction gs generalizing current with
  | nil => exact yields_pure hcurrent
  | cons g gs ih =>
    refine yields_bind (Solving.yields_joinAll fun b hb =>
      h g (List.mem_cons_self ..) b (hcurrent b hb)) fun next hnext => ?_
    split
    · exact yields_pure hnext
    · exact ih (fun k hk => h k (List.mem_cons_of_mem _ hk)) hnext

/-- The solutions of a disjunction are found for one of its goals. -/
theorem yields_solveOr {input : Bindings}
    (h : ∀ g ∈ gs, Yields I (g.solve w input) (Solutions.All P)) :
    Yields I (solveOr w gs input) (Solutions.All P) := by
  induction gs with
  | nil => exact yields_pure Solutions.all_empty
  | cons g gs ih =>
    exact yields_bind (h g (List.mem_cons_self ..)) fun first hfirst =>
      yields_bind (ih fun k hk => h k (List.mem_cons_of_mem _ hk)) fun rest hrest =>
        yields_pure (hfirst.union hrest)

section

variable {r : Arena → Arena → Prop} [Std.Refl r] [IsTrans Arena r] {a : Arena}
  {P : Bindings → Arena → Prop} (hP : ∀ b a a', r a a' → P b a → P b a')
include hP

/-- The solutions of a conjunction are found in growing arenas. -/
theorem leads_solveAnd
    (h : ∀ g ∈ gs, ∀ b a', r a a' → P b a' → Leads r (g.solve w b) a' fun s a'' => s.All (P · a''))
    {current : Solutions} (hcurrent : current.All (P · a)) :
    Leads r (solveAnd w gs current) a fun s a' => s.All (P · a') := by
  induction gs generalizing a current with
  | nil => exact leads_pure hcurrent
  | cons g gs ih =>
    refine leads_bind (Solving.leads_joinAll hP hcurrent fun b a' ha' hb =>
      h g (List.mem_cons_self ..) b a' ha' hb) fun next a' ha' hnext => ?_
    split
    · exact leads_pure hnext
    · exact ih (fun k hk b a'' ha'' => h k (List.mem_cons_of_mem _ hk) b a''
        (IsTrans.trans _ _ _ ha' ha'')) hnext

/-- The solutions of a disjunction are found in growing arenas. -/
theorem leads_solveOr {input : Bindings} (hinput : P input a)
    (h : ∀ g ∈ gs, ∀ a', r a a' → P input a' →
      Leads r (g.solve w input) a' fun s a'' => s.All (P · a'')) :
    Leads r (solveOr w gs input) a fun s a' => s.All (P · a') := by
  induction gs generalizing a with
  | nil => exact leads_pure Solutions.all_empty
  | cons g gs ih =>
    refine leads_bind (h g (List.mem_cons_self ..) a (Std.Refl.refl a) hinput)
      fun first a' ha' hfirst => ?_
    refine leads_bind (ih (hP input a a' ha' hinput) fun k hk a'' ha'' =>
      h k (List.mem_cons_of_mem _ hk) a'' (IsTrans.trans _ _ _ ha' ha'')) fun rest a'' ha'' hrest =>
        leads_pure ?_
    have hfirst : first.All (P · a'') := fun b hb => hP b a' a'' ha'' (hfirst b hb)
    exact hfirst.union hrest

end

end Goal

end CodeRules
