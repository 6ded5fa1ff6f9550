import CodeRules.Proofs.Fragment.Assignment
import CodeRules.Proofs.Fragment.Blank

/-!
# Pieces of fragments with open parts

When parts of a fragment are replaced by the wildcard, each of its pieces describes its part under an
assignment of its own, which differs from a common one in loose variables. As long as the loose variables
of a piece occur in no other piece, there is one assignment for all (`Fragment.Piece.HoldsNear.append`).
-/

namespace CodeRules

namespace Fragment

variable {s : Surroundings} {access access' rest rest' : Option Fragment} {e : Entity}
  {es left : List Entity} {σ τ : Assignment} {n : String}

/-- A piece of a fragment: its variables, those of them that may stand for something else, and the
assignments under which it describes its part. -/
structure Piece where
  names : List String
  loose : String → Prop
  holds : Assignment → Prop
  congr : ∀ σ τ : Assignment, holds σ → (∀ n ∈ names, τ n = σ n) → holds τ

namespace Piece

variable {p q : Piece}

/-- The piece describes its part under an assignment that differs in loose variables only. -/
def HoldsNear (p : Piece) (σ : Assignment) : Prop :=
  ∃ τ, (∀ n, ¬ p.loose n → τ n = σ n) ∧ p.holds τ

/-- Two pieces as one. -/
def append (p q : Piece) : Piece where
  names := p.names ++ q.names
  loose n := p.loose n ∨ q.loose n
  holds τ := p.holds τ ∧ q.holds τ
  congr σ τ h hτ := ⟨p.congr σ τ h.1 fun n hn => hτ n (List.mem_append_left _ hn),
    q.congr σ τ h.2 fun n hn => hτ n (List.mem_append_right _ hn)⟩

/-- Among the names the loose variables of the piece occur in the piece only. -/
def Alone (p : Piece) (names : List String) : Prop :=
  ∀ n, p.loose n → names.count n ≤ p.names.count n

/-- Two pieces as one are alone where each of them is. -/
theorem Alone.append {names : List String} (hp : p.Alone names) (hq : q.Alone names) :
    (p.append q).Alone names := by
  intro n hn
  show names.count n ≤ (p.names ++ q.names).count n
  rw [List.count_append]
  rcases hn with hn | hn
  · exact (hp n hn).trans (Nat.le_add_right ..)
  · exact (hq n hn).trans (Nat.le_add_left ..)

/-- A piece that is alone among names is alone among some of them. -/
theorem Alone.of_sublist {names names' : List String} (h : p.Alone names)
    (hsub : names'.Sublist names) : p.Alone names' :=
  fun n hn => (hsub.count_le n).trans (h n hn)

/-- Pieces describe their parts together when the loose variables of each do not occur in the other. -/
theorem HoldsNear.append (hp : p.HoldsNear σ) (hq : q.HoldsNear σ)
    (halone : p.Alone (p.append q).names) (halone' : q.Alone (p.append q).names) :
    (p.append q).HoldsNear σ := by
  classical
  have hcount (n : String) : (p.append q).names.count n = p.names.count n + q.names.count n :=
    List.count_append
  -- a loose variable of one piece already makes up its whole count there
  have hpq {n : String} (hn : p.loose n) : n ∉ q.names := by
    have hle := halone n hn
    rw [hcount] at hle
    exact List.count_eq_zero.1 (by omega)
  have hqp {n : String} (hn : q.loose n) : n ∉ p.names := by
    have hle := halone' n hn
    rw [hcount] at hle
    exact List.count_eq_zero.1 (by omega)
  obtain ⟨τ₁, hτ₁, hholds₁⟩ := hp
  obtain ⟨τ₂, hτ₂, hholds₂⟩ := hq
  -- the loose variables of the first piece stand for what it needs, all others for what the second needs
  let τ : Assignment := fun n => if p.loose n then τ₁ n else τ₂ n
  have hloose {n : String} (hn : p.loose n) : τ n = τ₁ n := if_pos hn
  have hother {n : String} (hn : ¬ p.loose n) : τ n = τ₂ n := if_neg hn
  refine ⟨τ, fun n hn => ?_, p.congr τ₁ τ hholds₁ fun n hn => ?_, q.congr τ₂ τ hholds₂ fun n hn => ?_⟩
  · rw [hother fun h => hn (.inl h), hτ₂ n fun h => hn (.inr h)]
  · by_cases h : p.loose n
    · exact hloose h
    · rw [hother h, hτ₁ n h, hτ₂ n fun h => hqp h hn]
  · exact hother fun h => hpq h hn

/-- Fragments for the parts of an entity, as a piece. -/
def ofChildren (s : Surroundings) (fs gs : List Fragment) (es : List Entity)
    (hgs : ∀ g ∈ gs, g.WellFormed) : Piece where
  names := gs.flatMap occurrences
  loose n := ∃ y ∈ fs.zip gs, Loose y.1 y.2 n
  holds τ := List.Forall₂ (Describes s τ) gs es
  congr _ _ h hτ := h.imp_of_mem fun g hg _ _ hge =>
    hge.congr (hgs g hg) fun n hn => hτ n (List.mem_flatMap.2 ⟨g, hg, hn⟩)

/-- Children are alone where each of them is. -/
theorem alone_ofChildren {fs gs : List Fragment} {hgs : ∀ g ∈ gs, g.WellFormed}
    {names : List String} (h : ∀ y ∈ fs.zip gs, ∀ n, Loose y.1 y.2 n →
      names.count n ≤ y.2.occurrences.count n) : (ofChildren s fs gs es hgs).Alone names :=
  fun n ⟨y, hy, hn⟩ => (h y hy n hn).trans (count_le_count_flatMap (List.of_mem_zip hy).2 n)

/-- What each of several fragments describes on its own they describe together. -/
theorem holdsNear_ofChildren {fs gs : List Fragment} (hlength : gs.length = fs.length)
    (hgs : ∀ g ∈ gs, g.WellFormed) (hes : List.Forall₂ (Describes s σ) fs es)
    (h : ∀ y ∈ fs.zip gs, ∀ e, y.1.Describes s σ e →
      ∃ τ, (∀ n, ¬ Loose y.1 y.2 n → τ n = σ n) ∧ y.2.Describes s τ e)
    (hapart : ∀ y ∈ fs.zip gs, ∀ n, Loose y.1 y.2 n →
      (gs.flatMap occurrences).count n ≤ y.2.occurrences.count n) :
    (ofChildren s fs gs es hgs).HoldsNear σ := by
  induction hes generalizing gs with
  | nil =>
    obtain rfl := List.length_eq_zero_iff.1 hlength
    exact ⟨σ, fun _ _ => rfl, .nil⟩
  | @cons f e fs es hfe hes ih =>
    cases gs with
    | nil => cases hlength
    | cons g gs =>
      rw [List.zip_cons_cons, List.forall_mem_cons] at h hapart
      -- the first child is a piece of its own, and the others are one by hypothesis
      let head : Piece := ⟨g.occurrences, Loose f g, fun τ => g.Describes s τ e,
        fun σ τ h hτ => h.congr (hgs g (List.mem_cons_self ..)) hτ⟩
      have hrest := fun x hx => hgs x (List.mem_cons_of_mem g hx)
      have htail := ih (Nat.succ.inj hlength) hrest h.2 fun y hy n hn =>
        ((List.sublist_append_right ..).count_le n).trans (hapart.2 y hy n hn)
      have hhead : head.HoldsNear σ := h.1 e hfe
      obtain ⟨τ, hτ, hg, hall⟩ := hhead.append htail hapart.1 (alone_ofChildren hapart.2)
      refine ⟨τ, fun n hn => hτ n fun hloose => hn ?_, .cons hg hall⟩
      rcases hloose with hloose | ⟨y, hy, hloose⟩
      · exact ⟨(f, g), List.mem_cons_self .., hloose⟩
      · exact ⟨y, List.mem_cons_of_mem _ hy, hloose⟩

/-- The access slot of a modifier set with the access specifier or its absence, as a piece. -/
def ofAccess (s : Surroundings) (access access' : Option Fragment) (specifier : Option Entity)
    (hwf : ∀ f ∈ access', f.WellFormed) : Piece where
  names := occurrencesOpt access'
  loose n := ∃ y ∈ access.toList.zip access'.toList, Loose y.1 y.2 n
  holds τ := ∃ a, AccessFinds s access' specifier a ∧ a.Follows τ
  congr _ _ := fun ⟨a, ha, hσ⟩ hτ => ⟨a, ha, hσ.congr fun n hn => hτ n ((ha.binds_iff hwf
    fun f hf _ _ => bindsExactly_of_recognize (hwf f hf)).1 hn)⟩

/-- The remainder of a modifier set with the items that are left, as a piece. -/
def ofRest (s : Surroundings) (rest : Option Fragment) (left : List Entity)
    (hwf : ∀ f ∈ rest, f.WellFormed) : Piece where
  names := occurrencesOpt rest
  loose _ := False
  holds τ := ∃ r, RestFinds s rest left r ∧ r.Follows τ
  congr _ _ := fun ⟨r, hr, hσ⟩ hτ => ⟨r, hr, hσ.congr fun n hn => hτ n ((hr.binds_iff hwf
    fun f hf _ _ => bindsExactly_of_recognize (hwf f hf)).1 hn)⟩

/-- What the access slot finds with open parts is near what it found before. -/
theorem holdsNear_ofAccess {specifier : Option Entity} {a : Bindings}
    (haccess : access'.isSome = access.isSome) (hwf : ∀ f ∈ access', f.WellFormed)
    (hblanks : ∀ y ∈ access.toList.zip access'.toList, y.1.Blanks y.2)
    (h : ∀ y ∈ access.toList.zip access'.toList, ∀ e, y.1.Describes s σ e →
      ∃ τ, (∀ n, ¬ Loose y.1 y.2 n → τ n = σ n) ∧ y.2.Describes s τ e)
    (ha : AccessFinds s access specifier a) (hσ : a.Follows σ) :
    (ofAccess s access access' specifier hwf).HoldsNear σ := by
  cases access with
  | none =>
    obtain rfl : access' = none := Option.isSome_eq_false_iff.1 haccess |> Option.isNone_iff_eq_none.1
    exact ⟨σ, fun _ _ => rfl, a, ha, hσ⟩
  | some f =>
    obtain ⟨g, rfl⟩ := Option.isSome_iff_exists.1 haccess
    have hmem : (f, g) ∈ (some f).toList.zip (some g).toList := List.mem_singleton_self _
    have hfg : f.Blanks g := hblanks (f, g) hmem
    have hloose {τ : Assignment} (hτ : ∀ n, ¬ Loose f g n → τ n = σ n) (n : String)
        (hn : ¬ (ofAccess s (some f) (some g) specifier hwf).loose n) : τ n = σ n :=
      hτ n fun h => hn ⟨(f, g), hmem, h⟩
    cases ha with
    | @specifier _ e _ hb =>
      obtain ⟨τ, hτ, a', ha', hfollows⟩ := h (f, g) hmem e ⟨a, hb, hσ⟩
      exact ⟨τ, hloose hτ, a', .specifier ha', hfollows⟩
    -- a variable for a missing specifier is kept, or becomes the wildcard, which takes the absence
    | unbound name type =>
      rcases hfg.eq_of_var_left with rfl | rfl
      · exact ⟨σ, fun _ _ => rfl, _, .unbound name type, hσ⟩
      · exact ⟨σ, fun _ _ => rfl, _, .absence (fun _ _ h => by cases h) rfl,
          Bindings.follows_of_not_binds (Bindings.not_binds_ofResult _) σ⟩
    | absence hvar hb =>
      obtain ⟨τ, hτ, a', ha', hfollows⟩ := h (f, g) hmem .empty ⟨a, hb, hσ⟩
      refine ⟨τ, hloose hτ, a', .absence (fun name type hg => ?_) ha', hfollows⟩
      subst hg
      exact hvar name type hfg.eq_of_var_right

/-- What the remainder takes with open parts is near what it took before. -/
theorem holdsNear_ofRest {r : Bindings} (hrest : rest'.isSome = rest.isSome)
    (hwf : ∀ f ∈ rest', f.WellFormed) (hremainder : ∀ f ∈ rest, f.isRemainder = true)
    (hblanks : ∀ y ∈ rest.toList.zip rest'.toList, y.1.Blanks y.2)
    (hr : RestFinds s rest left r) (hσ : r.Follows σ) : (ofRest s rest' left hwf).HoldsNear σ := by
  have hkept (h : rest' = rest) : (ofRest s rest' left hwf).HoldsNear σ :=
    ⟨σ, fun _ _ => rfl, r, h ▸ hr, hσ⟩
  cases rest with
  | none => exact hkept (Option.isSome_eq_false_iff.1 hrest |> Option.isNone_iff_eq_none.1)
  | some f =>
    obtain ⟨g, rfl⟩ := Option.isSome_iff_exists.1 hrest
    have hfg : f.Blanks g := hblanks (f, g) (List.mem_singleton_self _)
    rcases hfg.eq_of_isRemainder (hremainder f rfl) with rfl | rfl
    · exact hkept rfl
    · exact ⟨σ, fun _ _ => rfl, .empty, .anything left,
        Bindings.follows_of_not_binds Bindings.not_binds_empty σ⟩

end Piece

end Fragment

end CodeRules
