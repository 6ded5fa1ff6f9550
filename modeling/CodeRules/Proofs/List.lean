import Mathlib.Algebra.GroupWithZero.Nat
import Mathlib.Data.List.Forall2
import Mathlib.Data.List.Nodup

/-!
# Lists

Lemmas on lists that are not about any one part of the library: lists that match element by element,
lists that are built by `flatMap` and `filterMap`, numbers of elements, and comparisons.
-/

namespace List

variable {α β γ : Type*} {R : α → β → Prop} {l : List α} {m : List β}

/-- Elements that match under one relation match under another one that follows from it. -/
theorem Forall₂.imp_of_mem {S : α → β → Prop} (h : Forall₂ R l m)
    (hi : ∀ a ∈ l, ∀ b ∈ m, R a b → S a b) : Forall₂ S l m := by
  induction h with
  | nil => exact .nil
  | cons hab _ ih =>
    refine .cons (hi _ (mem_cons_self ..) _ (mem_cons_self ..) hab) (ih fun a ha b hb => ?_)
    exact hi a (mem_cons_of_mem _ ha) b (mem_cons_of_mem _ hb)

/-- When two lists match a third one, their elements match it in pairs. -/
theorem Forall₂.with_zip {S : γ → β → Prop} {k : List γ} (h : Forall₂ R l m) (hk : Forall₂ S k m) :
    Forall₂ (fun a b => R a b ∧ ∃ c, (c, a) ∈ k.zip l ∧ S c b) l m := by
  induction h generalizing k with
  | nil => exact .nil
  -- the third list starts with a match of the first element as well
  | cons hab _ ih =>
    obtain - | ⟨hcb, hk⟩ := hk
    refine .cons ⟨hab, _, mem_cons_self .., hcb⟩ ((ih hk).imp ?_)
    rintro a b ⟨hab, c, hc, hcb⟩
    exact ⟨hab, c, mem_cons_of_mem _ hc, hcb⟩

/-- Every element of a matching list has a match. -/
theorem Forall₂.exists_left (h : Forall₂ R l m) {b : β} (hb : b ∈ m) : ∃ a ∈ l, R a b := by
  induction h with
  | nil => exact absurd hb not_mem_nil
  | @cons a c _ _ hac _ ih =>
    rcases mem_cons.1 hb with rfl | hb
    · exact ⟨a, mem_cons_self .., hac⟩
    · obtain ⟨d, hd, hdb⟩ := ih hb
      exact ⟨d, mem_cons_of_mem _ hd, hdb⟩

/-- Every element of a list that matches another one has a match there. -/
theorem Forall₂.exists_right (h : Forall₂ R l m) {a : α} (ha : a ∈ l) : ∃ b ∈ m, R a b := by
  induction h with
  | nil => exact absurd ha not_mem_nil
  | @cons c b _ _ hcb _ ih =>
    rcases mem_cons.1 ha with rfl | ha
    · exact ⟨b, mem_cons_self .., hcb⟩
    · obtain ⟨d, hd, had⟩ := ih ha
      exact ⟨d, mem_cons_of_mem _ hd, had⟩

/-- What the elements of one list match is matched by the elements of another one in their places. -/
theorem Forall₂.of_forall_imp {S : α → γ → Prop} {T : β → γ → Prop} {k : List γ}
    (h : Forall₂ (fun a b => ∀ c, S a c → T b c) l m) (hk : Forall₂ S l k) : Forall₂ T m k := by
  induction h generalizing k with
  | nil =>
    cases hk
    exact .nil
  | cons hab _ ih =>
    cases hk with
    | cons hac hk => exact .cons (hab _ hac) (ih hk)

/-- What holds between the elements of one list holds between their matches. -/
theorem Forall₂.pairwise {S : α → α → Prop} {T : β → β → Prop} (h : Forall₂ R l m)
    (hl : l.Pairwise S) (hST : ∀ a b a' b', R a b → R a' b' → S a a' → T b b') : m.Pairwise T := by
  induction h with
  | nil => exact .nil
  | @cons a b _ _ hab h ih =>
    obtain ⟨ha, hl⟩ := pairwise_cons.1 hl
    refine pairwise_cons.2 ⟨fun b' hb' => ?_, ih hl⟩
    obtain ⟨a', ha', hab'⟩ := h.exists_left hb'
    exact hST a b a' b' hab hab' (ha a' ha')

/-- Matching lists have the same image when matching elements have. -/
theorem Forall₂.map_eq {f : α → γ} {g : β → γ} (h : Forall₂ R l m)
    (hfg : ∀ a b, R a b → f a = g b) : l.map f = m.map g := by
  induction h with
  | nil => rfl
  | cons hab _ ih => rw [map_cons, map_cons, hfg _ _ hab, ih]

/-- Where every element of a list has a partner there is a list of partners. -/
theorem exists_forall₂ (h : ∀ a ∈ l, ∃ b, R a b) : ∃ m, Forall₂ R l m := by
  induction l with
  | nil => exact ⟨[], .nil⟩
  | cons a l ih =>
    obtain ⟨b, hb⟩ := h a (mem_cons_self ..)
    obtain ⟨m, hm⟩ := ih fun x hx => h x (mem_cons_of_mem _ hx)
    exact ⟨b :: m, .cons hb hm⟩

/-- Lists with the same image match element by element. -/
theorem forall₂_of_map_eq {f : α → γ} {g : β → γ} (h : l.map f = m.map g) {P : α → Prop}
    {Q : β → Prop} (hP : ∀ a ∈ l, P a) (hQ : ∀ b ∈ m, Q b) :
    Forall₂ (fun a b => P a ∧ Q b ∧ f a = g b) l m := by
  induction l generalizing m with
  | nil =>
    rw [map_nil, eq_comm, map_eq_nil_iff] at h
    exact h ▸ .nil
  | cons a l ih =>
    -- the lists are taken apart together, for their images are equal
    cases m with
    | nil => cases h
    | cons b m =>
      rw [map_cons, map_cons, cons.injEq] at h
      refine .cons ⟨hP a (mem_cons_self ..), hQ b (mem_cons_self ..), h.1⟩ (ih h.2 ?_ ?_)
      · exact fun c hc => hP c (mem_cons_of_mem _ hc)
      · exact fun c hc => hQ c (mem_cons_of_mem _ hc)

/-- Options whose images under `f` are all there are all there themselves. -/
theorem exists_eq_map_some {l : List (Option α)} {m : List α} {f : α → β}
    (h : l.map (Option.map f) = m.map fun a => some (f a)) :
    ∃ k : List α, l = k.map some ∧ k.map f = m.map f := by
  induction m generalizing l with
  | nil => exact ⟨[], map_eq_nil_iff.1 h, rfl⟩
  | cons a m ih =>
    cases l with
    -- the image of no element is the image of one
    | nil => cases h
    | cons o l =>
      rw [map_cons, map_cons, cons.injEq] at h
      obtain ⟨b, rfl, hb⟩ := Option.map_eq_some_iff.1 h.1
      obtain ⟨k, rfl, hk⟩ := ih h.2
      exact ⟨b :: k, rfl, congrArg₂ List.cons hb hk⟩

/-- Looking up every place of a list in turn gives the list. -/
theorem filterMap_getElem?_range (l : List α) : (range l.length).filterMap (l[·]?) = l := by
  induction l with
  | nil => rfl
  | cons a l ih =>
    rw [length_cons, range_succ_eq_map, filterMap_cons, getElem?_cons_zero, filterMap_map]
    exact congrArg (a :: ·) ih

/-- When the parts `f` of elements can be split off one after the other, and with them `g` is known,
then `g` of all elements is known from all parts. -/
theorem map_eq_map_of_flatMap_append {σ δ : Type*} {l m : List α} {s : α → σ} {f : α → List γ}
    {g : α → δ} {r r' : List γ} (hs : l.map s = m.map s)
    (hf : l.flatMap f ++ r = m.flatMap f ++ r')
    (h : ∀ a ∈ l, ∀ b r r', s a = s b → f a ++ r = f b ++ r' → g a = g b ∧ r = r') :
    l.map g = m.map g ∧ r = r' := by
  induction l generalizing m with
  | nil =>
    cases m with
    | nil => exact ⟨rfl, hf⟩
    | cons b m => cases hs
  | cons a l ih =>
    cases m with
    | nil => cases hs
    | cons b m =>
      rw [map_cons, map_cons, cons.injEq] at hs
      rw [flatMap_cons, flatMap_cons, append_assoc, append_assoc] at hf
      -- the part of the first element is split off on both sides, which leaves what follows
      obtain ⟨hab, hrest⟩ := h a (mem_cons_self ..) b _ _ hs.1 hf
      obtain ⟨hlm, hr⟩ := ih hs.2 hrest fun c hc => h c (mem_cons_of_mem _ hc)
      exact ⟨by rw [map_cons, map_cons, hab, hlm], hr⟩

/-- Fewer elements count when one of them counts no longer and no other one counts in its place. -/
theorem countP_lt_countP {p q : α → Bool} {l : List α} {a : α} (ha : a ∈ l) (hp : p a = false)
    (hq : q a = true) (h : ∀ x, p x = true → q x = true) : l.countP p < l.countP q := by
  -- the element that counts no longer stands between two parts that count no more than before
  obtain ⟨l₁, l₂, rfl⟩ := append_of_mem ha
  rw [countP_append, countP_append, countP_cons_of_neg (by simp [hp]), countP_cons_of_pos hq]
  have hleft := countP_mono_left (l := l₁) fun x _ => h x
  have hright := countP_mono_left (l := l₂) fun x _ => h x
  omega

/-- The number of elements that count is a sum of ones. -/
theorem countP_eq_sum (p : α → Bool) (l : List α) :
    l.countP p = (l.map fun a => if p a then 1 else 0).sum := by
  induction l with
  | nil => rfl
  | cons a l ih => rw [countP_cons, ih, map_cons, sum_cons, Nat.add_comm]

/-- Images of lists are compared element by element. -/
theorem compare_map [Ord β] (f : α → β) (l m : List α) :
    compare (l.map f) (m.map f) = List.compareLex (fun a b => compare (f a) (f b)) l m := by
  induction l generalizing m with
  | nil => cases m <;> rfl
  | cons a l ih =>
    cases m with
    | nil => rfl
    | cons b m => rw [map_cons, map_cons, List.compare_cons_cons, ih, List.compareLex_cons_cons]

end List
