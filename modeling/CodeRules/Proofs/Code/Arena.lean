import CodeRules.Code.Provenance
import CodeRules.Proofs.Effect

/-!
# Arenas that stay intact

An arena is `Arena.Intact` as long as its numbers have not run out and no made node is meant for a
type. Numbers are only ever given out, so an arena that is intact in the end was intact on the way.
`Computes` describes computations whose outcome is known as long as the arena stays intact.
-/

namespace CodeRules

open Effect

namespace Arena

/-- Numbers start from `base`, and no made node is meant for a type. -/
structure Undeclared (base : UInt32) (a : Arena) : Prop where
  base_eq : a.base = base
  undeclared : ∀ r ∈ a.records, r.declaringType = none

/-- Numbers start from `base` and have not run out, and no made node is meant for a type. -/
structure Intact (base : UInt32) (a : Arena) : Prop extends Undeclared base a where
  fits : base.toNat + a.size ≤ UInt32.size

/-- An arena that may have given out more numbers than another one, for no type. -/
structure KeptBy (base : UInt32) (a a' : Arena) : Prop where
  grows : a.size ≤ a'.size
  undeclared_iff : a'.Undeclared base ↔ a.Undeclared base

variable {base : UInt32} {a a' a'' : Arena}

/-- An arena keeps itself. -/
theorem KeptBy.refl (base : UInt32) (a : Arena) : a.KeptBy base a := ⟨Nat.le_refl _, Iff.rfl⟩

/-- An arena that is kept twice is kept. -/
theorem KeptBy.trans (h : a.KeptBy base a') (h' : a'.KeptBy base a'') : a.KeptBy base a'' :=
  ⟨Nat.le_trans h.grows h'.grows, h'.undeclared_iff.trans h.undeclared_iff⟩

/-- An arena was intact if it still is after more numbers were given out. -/
theorem KeptBy.intact (h : a.KeptBy base a') (ha' : a'.Intact base) : a.Intact base where
  toUndeclared := h.undeclared_iff.1 ha'.toUndeclared
  fits := Nat.le_trans (Nat.add_le_add_left h.grows _) ha'.fits

instance : Std.Refl (KeptBy base) := ⟨KeptBy.refl base⟩

instance : IsTrans Arena (KeptBy base) := ⟨fun _ _ _ => KeptBy.trans⟩

/-- The arena that has given out no number. -/
def unused (base : UInt32) : Arena := { base }

/-- All numbers are left in an arena that has given out none. -/
theorem intact_unused : (unused base).Intact base where
  base_eq := rfl
  undeclared r hr := by simp [unused] at hr
  fits := by
    have := base.toNat_lt_size
    simp only [unused, size, List.size_toArray, List.length_nil]
    omega

/-- No made node is meant for a type. -/
theorem Intact.declaringType_get? (h : a.Intact base) (i : NodeId) :
    (a.get? i).bind Provenance.declaringType = none := by
  unfold get?
  cases a.index? i with
  | none => rfl
  | some k =>
    show (a.records[k]?).bind Provenance.declaringType = none
    cases hr : a.records[k]? with
    | none => rfl
    | some r => exact h.undeclared r (Array.mem_of_getElem? hr)

/-- Giving out a number for no type keeps the arena, and the number is that of a made node. -/
theorem keptBy_alloc (base : UInt32) (a : Arena) {p : Provenance} (hp : p.declaringType = none) :
    a.KeptBy base (a.alloc p).2 ∧ ((a.alloc p).2.Intact base → base ≤ (a.alloc p).1.word) := by
  have hsize : (a.alloc p).2.size = a.size + 1 := by simp [alloc, size]
  constructor
  · refine ⟨hsize ▸ Nat.le_succ _, fun h => ⟨h.base_eq, fun r hr => ?_⟩,
      fun h => ⟨h.base_eq, fun r hr => ?_⟩⟩
    · exact h.undeclared r (Array.mem_push.2 (.inl hr))
    -- a record was there before, or is the new one
    · rcases Array.mem_push.1 hr with hr | rfl
      · exact h.undeclared r hr
      · exact hp
  · intro h
    have hbase : a.base = base := h.base_eq
    have hfits := h.fits
    rw [hsize, UInt32.size] at hfits
    -- the sum does not wrap round
    have hof : (UInt32.ofNat a.size).toNat = a.size := by
      rw [UInt32.toNat_ofNat']
      omega
    show base ≤ a.base + UInt32.ofNat a.size
    rw [hbase, UInt32.le_iff_toNat_le, UInt32.toNat_add, hof, Nat.mod_eq_of_lt (by omega)]
    omega

end Arena

/-! ### Computations over an arena -/

/-- Whatever happens the arena is kept. When it is intact in the end and `H` holds, a result is as
promised and has the given normal form, and after a failure there is none. -/
def Computes {ε σ α β : Type} (arena : σ → Arena) (base : UInt32) (H : Prop)
    (x : ExceptT ε (StateM σ) α) (P : α → Prop) (normal : α → β) (v : Option β) : Prop :=
  ∀ s, Ends x s
    (fun r s' => (arena s).KeptBy base (arena s') ∧
      (H → (arena s').Intact base → P r ∧ v = some (normal r)))
    (fun _ s' => (arena s).KeptBy base (arena s') ∧ (H → (arena s').Intact base → v = none))

section

variable {ε σ α β γ δ : Type} {arena : σ → Arena} {base : UInt32} {H H' : Prop}
  {x : ExceptT ε (StateM σ) α} {P P' : α → Prop} {normal : α → β} {v : Option β}

/-- What is promised may be weakened, and what is assumed strengthened. -/
theorem Computes.imp (h : Computes arena base H x P normal v) (hH : H' → H)
    (hP : ∀ r, H' → P r → P' r) : Computes arena base H' x P' normal v := by
  intro s
  have hends := h s
  refine hends.imp (fun r s' hr => ⟨hr.1, fun h' hs => ?_⟩) fun _ s' hr => ⟨hr.1, fun h' => hr.2 (hH h')⟩
  obtain ⟨hp, hv⟩ := hr.2 (hH h') hs
  exact ⟨hP r h' hp, hv⟩

/-- What is promised under some assumption is promised under any that implies it. -/
theorem Computes.given (h : Computes arena base H x P normal v) (hH : H' → H) :
    Computes arena base H' x P normal v := h.imp hH fun _ _ hr => hr

/-- The value may be replaced by an equal one. -/
theorem Computes.congr {v' : Option β} (h : Computes arena base H x P normal v) (hv : H → v' = v) :
    Computes arena base H x P normal v' := by
  intro s
  have hends := h s
  exact hends.imp (fun _ _ hr => ⟨hr.1, fun h' hs => by rw [hv h']; exact hr.2 h' hs⟩)
    fun _ _ hr => ⟨hr.1, fun h' hs => by rw [hv h']; exact hr.2 h' hs⟩

/-- A value computes itself. -/
theorem computes_pure {r : α} (h : H → P r ∧ v = some (normal r)) :
    Computes arena base H (pure r : ExceptT ε (StateM σ) α) P normal v :=
  fun s => ⟨.refl base (arena s), fun hH _ => h hH⟩

/-- A failure computes nothing. -/
theorem computes_throw {e : ε} (h : H → v = none) :
    Computes arena base H (throw e : ExceptT ε (StateM σ) α) P normal v :=
  fun s => ⟨.refl base (arena s), fun hH _ => h hH⟩

/-- Two steps compute the value of the second one on that of the first. -/
theorem computes_bind {f : α → ExceptT ε (StateM σ) γ} {Q : γ → Prop} {normal' : γ → δ}
    {g : β → Option δ} (hx : Computes arena base H x P normal v)
    (hf : ∀ r, Computes arena base (H ∧ P r) (f r) Q normal' (g (normal r))) :
    Computes arena base H (x >>= f) Q normal' (v.bind g) := by
  intro s
  rw [ends_bind]
  have hstart := hx s
  refine hstart.imp (fun r s₁ h₁ => ?_) fun _ _ h₁ => ⟨h₁.1, fun h hs => by rw [h₁.2 h hs]; rfl⟩
  obtain ⟨hkept, hr⟩ := h₁
  have hrest := hf r s₁
  -- the arena after the first step is intact if the last one is
  refine hrest.imp (fun c s₂ h₂ => ?_) fun _ s₂ h₂ => ?_
  · refine ⟨hkept.trans h₂.1, fun h hs => ?_⟩
    obtain ⟨hP, rfl⟩ := hr h (h₂.1.intact hs)
    exact h₂.2 ⟨h, hP⟩ hs
  · refine ⟨hkept.trans h₂.1, fun h hs => ?_⟩
    obtain ⟨hP, rfl⟩ := hr h (h₂.1.intact hs)
    exact h₂.2 ⟨h, hP⟩ hs

end

end CodeRules
