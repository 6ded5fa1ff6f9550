import CodeRules.Proofs.Fragment.Exact

/-!
# Assignments

An assignment gives a shape to every name. Under an assignment a fragment describes an entity when it
recognizes the entity and its variables stand for what the assignment says. What a fragment finds is
merged from its parts on the way, but what it describes is known from the children one by one
(`Fragment.describes_composite_iff`), so fragments can be compared child by child.
-/

namespace CodeRules

/-- A shape for every name. -/
abbrev Assignment := String → Shape

namespace Bindings

variable {b c : Bindings} {σ τ : Assignment} {parts : List Bindings} {n : String}

/-- All variables stand for what the assignment says. -/
def Follows (b : Bindings) (σ : Assignment) : Prop := ∀ n k, b.outline n = some k → σ n = k

/-- The assignment that says what the bindings say, and otherwise what `τ` says. -/
def completed (b : Bindings) (τ : Assignment) : Assignment := fun n => (b.outline n).getD (τ n)

/-- Bindings follow the assignment that they complete. -/
theorem follows_completed (b : Bindings) (τ : Assignment) : b.Follows (b.completed τ) := by
  intro n k hk
  rw [completed, hk, Option.getD_some]

/-- For an unbound variable the given assignment is asked. -/
theorem completed_of_not_binds (h : ¬ b.binds n = true) (τ : Assignment) : b.completed τ n = τ n := by
  rw [completed, outline_eq_none_iff.2 h, Option.getD_none]

/-- A bound variable stands for what the assignment says. -/
theorem Follows.outline_eq (h : b.Follows σ) (hn : b.binds n = true) : b.outline n = some (σ n) := by
  obtain ⟨k, hk⟩ := binds_iff_outline.1 hn
  rw [hk, h n k hk]

/-- Only the bound variables matter. -/
theorem Follows.congr (h : b.Follows σ) (hτ : ∀ n, b.binds n = true → τ n = σ n) : b.Follows τ :=
  fun n k hk => (hτ n (binds_iff_outline.2 ⟨k, hk⟩)).trans (h n k hk)

/-- Bindings that follow one assignment unify. -/
theorem Follows.unifies (hb : b.Follows σ) (hc : c.Follows σ) : b.Unifies c :=
  unifies_iff.2 fun n k k' hk hk' => (hb n k hk).symm.trans (hc n k' hk')

/-- United bindings follow an assignment when all parts do. -/
theorem Unites.follows_iff (h : c.Unites parts) : c.Follows σ ↔ ∀ p ∈ parts, p.Follows σ := by
  constructor
  · intro hc p hp n k hk
    exact hc n k (h.outline_eq_some_iff.2 ⟨p, hp, hk⟩)
  · intro hparts n k hk
    obtain ⟨p, hp, hk⟩ := h.outline_eq_some_iff.1 hk
    exact hparts p hp n k hk

/-- Bindings without variables follow every assignment. -/
theorem follows_of_not_binds (h : ∀ n, ¬ b.binds n = true) (σ : Assignment) : b.Follows σ :=
  fun n k hk => absurd (binds_iff_outline.2 ⟨k, hk⟩) (h n)

/-- Bindings of several parts unify when they follow one assignment. -/
theorem pairwise_unifies_of_follows (h : ∀ p ∈ parts, p.Follows σ) : parts.Pairwise Unifies :=
  List.pairwise_of_forall_mem_list fun p hp q hq => (h p hp).unifies (h q hq)

end Bindings

namespace Fragment

/-- The fragment recognizes the entity, and its variables stand for what the assignment says. -/
def Describes (s : Surroundings) (σ : Assignment) (f : Fragment) (e : Entity) : Prop :=
  ∃ b, f.recognize s e = .ok (some b) ∧ b.Follows σ

variable {s : Surroundings} {f : Fragment} {fs : List Fragment} {e : Entity} {es : List Entity}
  {b : Bindings} {σ τ : Assignment}

/-- What is recognized is described under some assignment. -/
theorem describes_of_recognize (h : f.recognize s e = .ok (some b)) (τ : Assignment) :
    f.Describes s (b.completed τ) e := ⟨b, h, b.follows_completed τ⟩

/-- What is found follows the assignments under which the entity is described. -/
theorem Describes.follows (h : f.Describes s σ e) (hb : f.recognize s e = .ok (some b)) :
    b.Follows σ := by
  obtain ⟨c, hc, hσ⟩ := h
  obtain rfl := Option.some.inj (Except.ok.inj (hb.symm.trans hc))
  exact hσ

/-- Only the variables of the fragment matter. -/
theorem Describes.congr (hwf : f.WellFormed) (h : f.Describes s σ e)
    (hτ : ∀ n ∈ f.occurrences, τ n = σ n) : f.Describes s τ e := by
  obtain ⟨b, hb, hσ⟩ := h
  exact ⟨b, hb, hσ.congr fun n hn => hτ n ((bindsExactly_of_recognize hwf hb n).1 hn)⟩

/-! ### Single fragments -/

/-- The wildcard describes every entity. -/
theorem describes_wildcard : wildcard.Describes s σ e :=
  ⟨_, rfl, Bindings.follows_of_not_binds (Bindings.not_binds_ofResult e) σ⟩

/-- A constant describes the entities of its shape. -/
theorem describes_resolved_iff {known : Entity} :
    (resolved known).Describes s σ e ↔ known.shape = e.shape := by
  constructor
  · rintro ⟨b, hb, _⟩
    rw [recognize] at hb
    split at hb
    · exact Entity.sameShape_iff.1 ‹_›
    · cases hb
  · intro hshape
    refine ⟨.ofResult e, ?_, Bindings.follows_of_not_binds (Bindings.not_binds_ofResult e) σ⟩
    rw [recognize, if_pos (Entity.sameShape_iff.2 hshape)]

/-- A variable describes what its type accepts, when the assignment gives it that shape. -/
theorem describes_var_iff {name : String} (hname : name ≠ CodeRules.wildcard) {type : ParamType} :
    (var name type).Describes s σ e ↔ type.accepts s.types e = true ∧ σ name = e.shape := by
  -- a variable binds its own name only
  have houtline (n : String) : ((Bindings.ofResult e).bind name e).outline n =
      if n = name then some e.shape else none := Bindings.outline_bind hname rfl e n
  constructor
  · rintro ⟨b, hb, hσ⟩
    rw [recognize, recognizeVar] at hb
    split at hb
    · obtain rfl := Option.some.inj (Except.ok.inj hb)
      exact ⟨‹_›, hσ name e.shape (by rw [houtline, if_pos rfl])⟩
    · cases hb
  · rintro ⟨haccepts, hshape⟩
    refine ⟨_, by rw [recognize, recognizeVar, if_pos haccepts], fun n k hk => ?_⟩
    rw [houtline] at hk
    split at hk
    · rename_i hn
      rw [hn, hshape]
      exact Option.some.inj hk
    · cases hk

/-! ### Fragments with parts -/

/-- The children describe the parts when each finds something that follows the assignment. -/
theorem forall₂_describes_iff : List.Forall₂ (Describes s σ) fs es ↔
    ∃ found, PairsFind s fs es found ∧ ∀ b ∈ found, b.Follows σ := by
  constructor
  · intro h
    induction h with
    | nil => exact ⟨[], .nil, by simp⟩
    | cons hfe _ ih =>
      obtain ⟨b, hb, hσ⟩ := hfe
      obtain ⟨found, hfound, hall⟩ := ih
      exact ⟨b :: found, .cons hb hfound, List.forall_mem_cons.2 ⟨hσ, hall⟩⟩
  · rintro ⟨found, hfound, hall⟩
    induction hfound with
    | nil => exact .nil
    | cons hb _ ih =>
      obtain ⟨hσ, hall⟩ := List.forall_mem_cons.1 hall
      exact .cons ⟨_, hb, hσ⟩ (ih hall)

/-- An entity is described when its parts are described by the children, all under the same
assignment. -/
theorem describes_composite_iff (hf : f.isComposite = true) (hwf : f.WellFormed) :
    f.Describes s σ e ↔ ∃ es, f.partsOf? s e = some es ∧
      List.Forall₂ (Describes s σ) f.children es := by
  constructor
  · rintro ⟨b, hb, hσ⟩
    -- the parts that unite to the bindings follow the assignment with them
    obtain ⟨es, found, hes, hfound, hunites⟩ := exists_parts hf hwf hb
    exact ⟨es, hes, forall₂_describes_iff.2 ⟨found, hfound, hunites.follows_iff.1 hσ⟩⟩
  · rintro ⟨es, hes, h⟩
    -- and back: what follows one assignment unifies, so it can be united
    obtain ⟨found, hfound, hall⟩ := forall₂_describes_iff.1 h
    obtain ⟨b, hb⟩ := exists_recognize_of_parts hf hwf hes hfound
      (Bindings.pairwise_unifies_of_follows hall)
    obtain ⟨es', found', hes', hfound', hunites⟩ := exists_parts hf hwf hb
    obtain rfl := Option.some.inj (hes.symm.trans hes')
    obtain rfl := hfound.unique hfound'
    exact ⟨b, hb, hunites.follows_iff.2 hall⟩

end Fragment

end CodeRules
