import CodeRules.Proofs.Fragment.ModifierSearch
import CodeRules.Proofs.Fragment.Piece

/-!
# What is recognized with open parts

A fragment describes more when some of its parts are replaced by the wildcard, but modifier sets are
searched on their own, and the first division of the items that is found is kept. When a part of a
modifier set is replaced another division may come first, with other entities for the variables of the
set, and nothing is tried again when they do not suit the fragments around it. So what was recognized is
still recognized as long as such variables occur nowhere else (`Pattern.exists_recognize_of_blanks`);
otherwise it may be lost (`TwoSets.not_forall_recognize_of_blanks`).
-/

namespace CodeRules

namespace Fragment

variable {s : Surroundings} {f g : Fragment} {access access' rest rest' : Option Fragment}
  {fixed fixed' : List Fragment} {e : Entity} {es items : List Entity} {b c : Bindings}
  {σ τ : Assignment} {n : String}

/-! ### Modifier sets -/

/-- The items of a modifier set that is described are divided under the assignment. -/
theorem Describes.exists_division (hwf : (unordered access fixed rest).WellFormed)
    (h : (unordered access fixed rest).Describes s σ e) : ∃ items,
      ∃ d : Division s access fixed rest items, e.items? = some items ∧ ∀ p ∈ d.parts, p.Follows σ := by
  obtain ⟨b, hb, hσ⟩ := h
  obtain ⟨items, hitems⟩ := exists_items_of_recognize hb
  obtain ⟨d, hunites⟩ := Fragment.exists_division hwf hitems hb
  exact ⟨items, d, hitems, hunites.follows_iff.1 hσ⟩

/-- What a modifier set finds in the end says about the variables of the access slot what the access
slot found. -/
theorem outline_eq_of_accessFinds (hwf : (unordered access fixed rest).WellFormed)
    (hitems : e.items? = some items) (hc : (unordered access fixed rest).recognize s e = .ok (some c))
    {a : Bindings} (ha : AccessFinds s access (items.filter Entity.isAccessSpecifier).head? a)
    (hσ : a.Follows σ) (hn : n ∈ occurrencesOpt access) : c.outline n = some (σ n) := by
  obtain ⟨d, hunites⟩ := Fragment.exists_division hwf hitems hc
  cases hwf with
  | unordered haccess =>
  obtain rfl := ha.unique d.accessFinds
  have hbinds := (ha.binds_iff haccess fun f hf _ _ => bindsExactly_of_recognize (haccess f hf)).2 hn
  exact hunites.outline_eq_some_iff.2 ⟨d.accessFound, List.mem_cons_self .., hσ.outline_eq hbinds⟩

/-- The children of a modifier set describe its parts together; then the items are divided, perhaps in
another way, and this changes nothing but the variables that depend on it. -/
private theorem exists_describes_redivided (hg : (unordered access' fixed' rest').WellFormed)
    (hredivides : Redivides f (unordered access' fixed' rest') (unordered access' fixed' rest'))
    (hitems : e.items? = some items) (d : Division s access' fixed' rest' items)
    (hd : ∀ p ∈ d.parts, p.Follows τ) : ∃ τ',
      (∀ n, ¬ Loose f (unordered access' fixed' rest') n → τ' n = τ n) ∧
        (unordered access' fixed' rest').Describes s τ' e := by
  classical
  obtain ⟨c, hc⟩ := d.exists_recognize hg hitems
  -- the variables of the set stand for what is found now, all others for what they stood for
  let τ' : Assignment := fun n =>
    if n ∈ (unordered access' fixed' rest').dividedNames then c.completed τ n else τ n
  refine ⟨τ', fun n hn => if_neg fun hdivided => hn ⟨_, hredivides, hdivided⟩, c, hc, fun n k hk => ?_⟩
  by_cases hn : n ∈ (unordered access' fixed' rest').dividedNames
  · exact (if_pos hn).trans (c.follows_completed τ n k hk)
  · -- the access slot has found it, and takes the same in any division
    have hocc : n ∈ (unordered access' fixed' rest').occurrences :=
      (bindsExactly_of_recognize hg hc n).1 (Bindings.binds_iff_outline.2 ⟨k, hk⟩)
    have haccess : n ∈ occurrencesOpt access' := by
      by_contra hnot
      refine hn (List.mem_filter.2 ⟨?_, by simpa using hnot⟩)
      simpa [occurrences, hnot] using hocc
    have hfound := outline_eq_of_accessFinds hg hitems hc d.accessFinds
      (hd _ (List.mem_cons_self ..)) haccess
    exact (if_neg hn).trans (Option.some.inj (hfound.symm.trans hk))

/-- A modifier set is recognized by first looking at the access specifier and then searching a division
of the other items. -/
private theorem recognize_unordered_iff (hitems : e.items? = some items)
    (hone : (items.filter Entity.isAccessSpecifier).length ≤ 1) :
    (unordered access fixed rest).recognize s e = .ok (some b) ↔ ∃ mid,
      recognizeAccess s access ((items.filter Entity.isAccessSpecifier).head?.getD .empty)
        (.ofResult e) = .ok (some mid) ∧
      recognizeSet s fixed rest (items.filter (!·.isAccessSpecifier)) mid = .ok (some b) := by
  simp only [recognize, hitems, gt_iff_lt, Nat.not_lt.2 hone, if_false]
  constructor
  · intro h
    obtain ⟨o, ho, h⟩ := Except.bind_eq_ok.1 h
    cases o with
    | none => cases h
    | some mid => exact ⟨mid, ho, h⟩
  · rintro ⟨mid, hmid, h⟩
    -- the search goes on from what the access slot has bound
    rw [hmid]
    exact h

/-- The access slot binds no other variables than its own. -/
private theorem outline_eq_none_of_recognizeAccess {specifier : Option Entity} {mid : Bindings}
    (hspecifier : ∀ x ∈ specifier, x.isAccessSpecifier = true) (hwf : ∀ f ∈ access, f.WellFormed)
    (hmid : recognizeAccess s access (specifier.getD .empty) (.ofResult e) = .ok (some mid))
    (hn : n ∉ occurrencesOpt access) : mid.outline n = none := by
  obtain ⟨a, ha, hunites⟩ := exists_accessFinds hspecifier hmid
  have hexact := ha.binds_iff (n := n) hwf fun f hf _ _ => bindsExactly_of_recognize (hwf f hf)
  refine Bindings.outline_eq_none_iff.2 fun hbinds => hn (hexact.1 ?_)
  obtain ⟨p, hp, hpn⟩ := hunites.binds_iff.1 hbinds
  -- what the access slot starts from binds nothing, and what it finds its own variables
  rcases List.mem_cons.1 hp with rfl | hp
  · exact absurd hpn (Bindings.not_binds_ofResult e n)
  · exact List.mem_singleton.1 hp ▸ hpn

/-- When only the access slot is replaced and its variables do not occur in the set again, the items are
divided as before. -/
private theorem exists_describes_access (hf : (unordered access fixed rest).WellFormed)
    (hg : (unordered access' fixed rest).WellFormed)
    (hunshared : ∀ n ∈ occurrencesOpt access, n ∉ occurrencesAll fixed ++ occurrencesOpt rest)
    (hnames : ∀ n ∈ occurrencesOpt access', n ∈ occurrencesOpt access)
    (hitems : e.items? = some items) (d : Division s access fixed rest items)
    (hb : (unordered access fixed rest).recognize s e = .ok (some b)) (hσ : b.Follows σ)
    {a' : Bindings} (ha' : AccessFinds s access' (items.filter Entity.isAccessSpecifier).head? a')
    (hτ : a'.Follows τ) : ∃ τ' : Assignment, (∀ n ∈ occurrencesOpt access', τ' n = τ n) ∧
      (∀ n ∉ occurrencesOpt access', τ' n = σ n) ∧ (unordered access' fixed rest).Describes s τ' e := by
  classical
  have hspecifier (x : Entity) (hx : x ∈ (items.filter Entity.isAccessSpecifier).head?) :
      x.isAccessSpecifier = true := isAccessSpecifier_of_mem_head? hx
  obtain ⟨mid, hmid, hset⟩ := (recognize_unordered_iff hitems d.atMostOne).1 hb
  obtain ⟨mid', hmid'⟩ := ha'.exists_recognizeAccess (b := .ofResult e) hspecifier
    (Bindings.unifies_of_find?_eq_none fun _ => rfl)
  cases hf with
  | unordered haccess hfixed hrest hremainder =>
  cases id hg with
  | unordered haccess' =>
  let V : String → Prop := (· ∈ occurrencesAll fixed ++ occurrencesOpt rest)
  -- neither access slot binds a variable of the rest of the set
  have hagree : Bindings.AgreeByShape V mid mid' := by
    intro n hn
    rw [outline_eq_none_of_recognizeAccess hspecifier haccess hmid fun h => hunshared n h hn,
      outline_eq_none_of_recognizeAccess hspecifier haccess' hmid' fun h =>
        hunshared n (hnames n h) hn]
  have hset' := agree_recognizeSet (s := s) hfixed hrest hremainder
    (V := V) (fun f hf n hn => List.mem_append_left _ (by
      rw [occurrencesAll_eq_flatMap]
      exact List.mem_flatMap.2 ⟨f, hf, hn⟩)) (fun n hn => List.mem_append_right _ hn)
    (items.filter (!·.isAccessSpecifier)) hagree
  -- from bindings that agree the search ends in the same way
  rw [hset] at hset'
  generalize hout : recognizeSet s fixed rest (items.filter (!·.isAccessSpecifier)) mid' = out at hset'
  cases hset' with
  | @found _ c hbc =>
  have hc := (recognize_unordered_iff hitems d.atMostOne).2 ⟨mid', hmid', hout⟩
  let τ' : Assignment := fun n => if n ∈ occurrencesOpt access' then τ n else σ n
  refine ⟨τ', fun n hn => if_pos hn, fun n hn => if_neg hn, c, hc, fun n k hk => ?_⟩
  by_cases hn : n ∈ occurrencesOpt access'
  -- a variable of the new access slot stands for what this has found
  · have hfound := outline_eq_of_accessFinds hg hitems hc ha' hτ hn
    exact (if_pos hn).trans (Option.some.inj (hfound.symm.trans hk))
  -- any other variable was found by the search, which ended as before
  · have hocc : n ∈ (unordered access' fixed rest).occurrences :=
      (bindsExactly_of_recognize hg hc n).1 (Bindings.binds_iff_outline.2 ⟨k, hk⟩)
    have hV : V n := by simpa [V, occurrences, hn] using hocc
    exact (if_neg hn).trans (hσ n k ((hbc n hV).trans hk))

/-! ### What is described with open parts -/

/-- Only the receiver of a call may be seen in another way, and then by the wildcard. -/
private theorem exists_partsOf?_of_blanks (hform : SameForm f g)
    (hchildren : ∀ y ∈ f.children.zip g.children, y.1.Blanks y.2) (hes : f.partsOf? s e = some es)
    (h : List.Forall₂ (Describes s τ) g.children es) :
    ∃ es', g.partsOf? s e = some es' ∧ List.Forall₂ (Describes s τ) g.children es' := by
  by_cases hhead : g.children.head?.map isEmpty = f.children.head?.map isEmpty
  · exact ⟨es, (hform.partsOf?_eq hhead).trans hes, h⟩
  -- the receiver is seen in one way and not in the other, all other slots are the same
  · obtain ⟨es', hes', hlength, htail⟩ := hform.exists_partsOf? hes
    refine ⟨es', hes', ?_⟩
    have hsame := hform.length_children
    revert hchildren hhead hsame h
    generalize f.children = fs
    generalize g.children = gs
    intro hchildren h hhead hsame
    cases h with
    | nil =>
      obtain rfl := List.length_eq_zero_iff.1 hlength
      exact .nil
    | @cons g e gs es _ hrest =>
      cases fs with
      | nil => cases hsame
      | cons f fs =>
        obtain ⟨e', rfl⟩ : ∃ e', es' = e' :: es := by
          cases es' with
          | nil => cases hlength
          | cons e' es' => exact ⟨e', congrArg (e' :: ·) htail⟩
        -- the first child was replaced by the wildcard, which takes any receiver
        rcases (hchildren (f, g) (List.mem_cons_self ..)).isEmpty_eq with rfl | hempty
        · exact .cons describes_wildcard hrest
        · exact absurd (congrArg some hempty) hhead

section

variable (hsome : access'.isSome = access.isSome) (hlength : fixed'.length = fixed.length)
  (hrest : rest'.isSome = rest.isSome) (hf : (unordered access fixed rest).WellFormed)
  (hapart : LooseApart (unordered access fixed rest) (unordered access' fixed' rest'))
  (hchildren : ∀ y ∈ (unordered access fixed rest).children.zip
    (unordered access' fixed' rest').children, y.1.Blanks y.2 ∧ ∀ e, y.1.Describes s σ e →
      ∃ τ, (∀ n, ¬ Loose y.1 y.2 n → τ n = σ n) ∧ y.2.Describes s τ e)

include hsome hlength hrest hf hapart hchildren

/-- The children describe what they described in the division, under one assignment. -/
private theorem exists_division_near (hg : (unordered access' fixed' rest').WellFormed)
    (d : Division s access fixed rest items) (hd : ∀ p ∈ d.parts, p.Follows σ) :
    ∃ τ, ∃ d' : Division s access' fixed' rest' items,
      (∀ n, ¬ Loose (unordered access fixed rest) (unordered access' fixed' rest') n → τ n = σ n) ∧
        ∀ p ∈ d'.parts, p.Follows τ := by
  simp only [Division.parts, List.forall_mem_cons, List.forall_mem_append, List.not_mem_nil,
    IsEmpty.forall_iff, implies_true, and_true] at hd
  obtain ⟨hda, hdf, hdr⟩ := hd
  have hzip {y : Fragment × Fragment} : y ∈ (unordered access fixed rest).children.zip
        (unordered access' fixed' rest').children ↔ y ∈ access.toList.zip access'.toList ∨
      y ∈ fixed.zip fixed' ∨ y ∈ rest.toList.zip rest'.toList :=
    mem_children_zip_unordered hsome hlength
  have hcount {y : Fragment × Fragment} (hy : y ∈ (unordered access fixed rest).children.zip
    (unordered access' fixed' rest').children) := (hapart.of_mem_zip hy).2
  have hnames : (unordered access' fixed' rest').occurrences =
      occurrencesOpt access' ++ fixed'.flatMap occurrences ++ occurrencesOpt rest' := by
    rw [occurrences, occurrencesAll_eq_flatMap]
  rw [hnames] at hcount
  cases hf with
  | unordered _ _ _ hremainder =>
  cases hg with
  | unordered hwfa hwff hwfr =>
  -- the access slot, the fixed fragments and the remainder are three pieces of the set
  let accessPiece := Piece.ofAccess s access access' (items.filter Entity.isAccessSpecifier).head? hwfa
  let fixedPiece := Piece.ofChildren s fixed fixed' d.chosen hwff
  let restPiece := Piece.ofRest s rest' d.left hwfr
  have hnearAccess : accessPiece.HoldsNear σ := Piece.holdsNear_ofAccess hsome hwfa
    (fun y hy => (hchildren y (hzip.2 (.inl hy))).1) (fun y hy => (hchildren y (hzip.2 (.inl hy))).2)
    d.accessFinds hda
  have hnearFixed : fixedPiece.HoldsNear σ := Piece.holdsNear_ofChildren hlength hwff
    (forall₂_describes_iff.2 ⟨d.fixedFound, d.pairsFind, hdf⟩)
    (fun y hy => (hchildren y (hzip.2 (.inr (.inl hy)))).2) fun y hy n hn =>
      (((List.sublist_append_right ..).trans (List.sublist_append_left ..)).count_le n).trans
        (hcount (hzip.2 (.inr (.inl hy))) n hn)
  have hnearRest : restPiece.HoldsNear σ := Piece.holdsNear_ofRest hrest hwfr hremainder
    (fun y hy => (hchildren y (hzip.2 (.inr (.inr hy)))).1) d.restFinds hdr
  have haloneAccess : accessPiece.Alone ((accessPiece.append fixedPiece).append restPiece).names := by
    rintro n ⟨y, hy, hn⟩
    have hle := hcount (hzip.2 (.inl hy)) n hn
    obtain rfl : access' = some y.2 := Option.mem_toList.1 (List.of_mem_zip hy).2
    exact hle
  have haloneFixed : fixedPiece.Alone ((accessPiece.append fixedPiece).append restPiece).names :=
    Piece.alone_ofChildren fun y hy n hn => hcount (hzip.2 (.inr (.inl hy))) n hn
  -- no loose variable of one piece occurs in another, so one assignment serves all three
  obtain ⟨τ, hτ, ⟨⟨a, ha, hτa⟩, hall⟩, r, hr, hτr⟩ := (hnearAccess.append hnearFixed
    (haloneAccess.of_sublist (List.sublist_append_left ..))
    (haloneFixed.of_sublist (List.sublist_append_left ..))).append hnearRest
    (haloneAccess.append haloneFixed) fun n hn => hn.elim
  obtain ⟨found, hfound, hτf⟩ := forall₂_describes_iff.1 hall
  have hparts : ∀ p ∈ a :: (found ++ [r]), p.Follows τ := by
    simp only [List.forall_mem_cons, List.forall_mem_append, List.not_mem_nil, IsEmpty.forall_iff,
      implies_true, and_true]
    exact ⟨hτa, hτf, hτr⟩
  refine ⟨τ, ⟨d.chosen, d.left, a, found, r, d.atMostOne, ha, d.perm, hfound, hr,
    Bindings.pairwise_unifies_of_follows hparts⟩, fun n hn => hτ n fun hloose => hn ?_, hparts⟩
  rcases hloose with (⟨y, hy, hloose⟩ | ⟨y, hy, hloose⟩) | hloose
  · exact loose_of_mem_zip (hzip.2 (.inl hy)) hloose
  · exact loose_of_mem_zip (hzip.2 (.inr (.inl hy))) hloose
  · exact hloose.elim

/-- What a modifier set describes it describes with open parts, when this holds of its children. -/
private theorem exists_describes_unordered (hdesc : (unordered access fixed rest).Describes s σ e) :
    ∃ τ, (∀ n, ¬ Loose (unordered access fixed rest) (unordered access' fixed' rest') n → τ n = σ n) ∧
      (unordered access' fixed' rest').Describes s τ e := by
  have hblanks := Blanks.unordered hsome hlength hrest fun y hy => (hchildren y hy).1
  have hg := hblanks.wellFormed hf
  obtain ⟨items, d, hitems, hd⟩ := hdesc.exists_division hf
  obtain ⟨τ, d', hτ, hd'⟩ := exists_division_near hsome hlength hrest hf hapart hchildren hg d hd
  by_cases hdiv : fixed' ≠ fixed ∨ rest' ≠ rest ∨ access' ≠ access ∧
      ∃ n ∈ occurrencesOpt access, n ∈ occurrencesAll fixed ++ occurrencesOpt rest
  -- a part of the set was replaced, so another division may be found first
  · obtain ⟨τ', hτ', hdesc'⟩ := exists_describes_redivided hg (.here hdiv) hitems d' hd'
    exact ⟨τ', fun n hn => (hτ' n hn).trans (hτ n hn), hdesc'⟩
  -- only the access slot was replaced, or nothing at all
  · simp only [not_or, not_and, not_exists, not_ne_iff] at hdiv
    obtain ⟨rfl, rfl, hunshared⟩ := hdiv
    by_cases hsame : access' = access
    · subst hsame
      exact ⟨σ, fun _ _ => rfl, hdesc⟩
    · obtain ⟨b, hb, hσ⟩ := hdesc
      have hnames (n : String) (hn : n ∈ occurrencesOpt access') : n ∈ occurrencesOpt access := by
        cases access' with
        | none => cases hn
        | some g =>
          obtain ⟨f, rfl⟩ := Option.isSome_iff_exists.1 hsome.symm
          exact (hchildren (f, g) (List.mem_cons_self ..)).1.mem_occurrences hn
      obtain ⟨τ', hnames', hothers, hdesc'⟩ := exists_describes_access hf hg (hunshared hsame) hnames
        hitems d hb hσ d'.accessFinds (hd' _ (List.mem_cons_self ..))
      refine ⟨τ', fun n hn => ?_, hdesc'⟩
      by_cases hmem : n ∈ occurrencesOpt access'
      · rw [hnames' n hmem, hτ n hn]
      · exact hothers n hmem

end

/-- What a fragment describes it describes with open parts, under an assignment that differs in loose
variables only. -/
theorem Blanks.exists_describes (h : f.Blanks g) (hf : f.WellFormed) (hapart : LooseApart f g)
    (hdesc : f.Describes s σ e) :
    ∃ τ, (∀ n, ¬ Loose f g n → τ n = σ n) ∧ g.Describes s τ e := by
  induction h generalizing e with
  -- what is kept is described by the same values
  | keep => exact ⟨σ, fun _ _ => rfl, hdesc⟩
  | blank => exact ⟨σ, fun _ _ => rfl, describes_wildcard⟩
  -- the parts choose their new values apart from each other
  | @composite f g hform hchildren ih =>
    have hg := (Blanks.composite hform hchildren).wellFormed hf
    obtain ⟨es, hes, hall⟩ := (describes_composite_iff hform.isComposite_left hf).1 hdesc
    obtain ⟨τ, hτ, hholds⟩ := Piece.holdsNear_ofChildren hform.length_children hg.children hall
      (fun y hy e hye => ih y hy (hf.children y.1 (List.of_mem_zip hy).1) (hapart.of_mem_zip hy).1 hye)
      fun y hy n hn => by
        rw [← occurrences_eq_flatMap_children (ne_var_of_isComposite hform.isComposite_right)]
        exact (hapart.of_mem_zip hy).2 n hn
    refine ⟨τ, fun n hn => hτ n fun ⟨y, hy, hloose⟩ => hn (loose_of_mem_zip hy hloose), ?_⟩
    exact (describes_composite_iff hform.isComposite_right hg).2
      (exists_partsOf?_of_blanks hform hchildren hes hholds)
  | @unordered access access' rest rest' fixed fixed' haccess hfixed hrest hchildren ih =>
    exact exists_describes_unordered haccess hfixed hrest hf hapart (fun y hy => ⟨hchildren y hy,
      fun e => ih y hy (hf.children y.1 (List.of_mem_zip hy).1) (hapart.of_mem_zip hy).1⟩) hdesc

end Fragment

/-- What a pattern recognizes is still recognized when the wildcard takes the place of some parts, as
long as the variables of the modifier sets that this changes occur nowhere else. -/
theorem Pattern.exists_recognize_of_blanks {scope : Scope} {p : Pattern} {f g : Fragment}
    (h : p.compile scope = .ok f) (hblanks : f.Blanks g) (hapart : Fragment.LooseApart f g)
    (s : Surroundings) (e : Entity) (hf : ∃ b, f.recognize s e = .ok (some b)) :
    ∃ c, g.recognize s e = .ok (some c) := by
  obtain ⟨b, hb⟩ := hf
  obtain ⟨τ, -, c, hc, -⟩ := hblanks.exists_describes (compile_wellFormed h) hapart
    (Fragment.describes_of_recognize hb fun _ => .seq [])
  exact ⟨c, hc⟩

/-! ### Two lists of modifiers -/

namespace TwoSets

/-- A list of two modifier sets: `final` and something else, and one modifier. -/
def pattern (first second : String) : Pattern :=
  .list .synthetic [.modifierSet .synthetic [.resolved .synthetic (.modifier .final),
    .var .synthetic first], .modifierSet .synthetic [.var .synthetic second]]

/-- The fragment of the pattern with `item` in the place of `final`. -/
def fragment (item : Fragment) (first second : String) : Fragment :=
  .ordered [.unordered none [item] (some (.var first .any)),
    .unordered none [] (some (.var second .any))]

def modifiers : Entity :=
  .list [.list [.modifier .static, .modifier .final], .list [.modifier .static]]

theorem blanks (first second : String) :
    (fragment (.resolved (.modifier .final)) first second).Blanks
      (fragment .wildcard first second) := by
  refine .composite (.ordered rfl) ?_
  simp only [fragment, Fragment.children, List.zip_cons_cons, List.zip_nil_left, List.forall_mem_cons]
  refine ⟨.unordered rfl rfl rfl ?_, .keep _, by simp⟩
  simp [Fragment.children, Fragment.Blanks.keep, Fragment.Blanks.blank]

/-- With different variables the modifiers are recognized with either item. -/
theorem exists_recognize_modifiers :
    (pattern "m" "k").compile {} = .ok (fragment (.resolved (.modifier .final)) "m" "k") ∧
      ∃ c, (fragment .wildcard "m" "k").recognize .none modifiers = .ok (some c) := by
  have hcompile : (pattern "m" "k").compile {} =
      .ok (fragment (.resolved (.modifier .final)) "m" "k") := rfl
  have hapart : Fragment.LooseApart (fragment (.resolved (.modifier .final)) "m" "k")
      (fragment .wildcard "m" "k") := by
    intro u hu n hn
    cases hu with
    | inside hy hu =>
    simp only [fragment, Fragment.children, List.zip_cons_cons, List.zip_nil_left, List.mem_cons,
      List.not_mem_nil, or_false] at hy
    rcases hy with rfl | rfl
    · cases hu with
      | here =>
        -- the variable of the first set occurs once
        obtain rfl : n = "m" := by
          simpa [Fragment.dividedNames, Fragment.occurrencesAll, Fragment.occurrencesOpt,
            Fragment.occurrences] using hn
        rfl
      | inside hy hu =>
        simp only [Fragment.children, Option.toList_none, Option.toList_some, List.nil_append,
          List.cons_append, List.zip_cons_cons, List.zip_nil_left, List.mem_cons, List.not_mem_nil,
          or_false] at hy
        rcases hy with rfl | rfl
        · cases hu with
          | inside hy => cases hy
        · exact absurd rfl hu.ne
    · exact absurd rfl hu.ne
  have hsome : (((fragment (.resolved (.modifier .final)) "m" "k").recognize .none
      modifiers).toOption.join).isSome = true := by decide +kernel
  -- the fragment without blanks recognizes the modifiers
  obtain ⟨found, hfound⟩ := (Pattern.compile_wellFormed hcompile).recognize_eq_ok .none modifiers
  rw [hfound] at hsome
  obtain ⟨b, rfl⟩ := Option.isSome_iff_exists.1 hsome
  exact ⟨hcompile, Pattern.exists_recognize_of_blanks hcompile (blanks "m" "k") hapart .none modifiers
    ⟨b, hfound⟩⟩

/-- With the same variable twice the modifiers are not recognized any more: the wildcard takes `static`,
which was for the variable. -/
theorem not_forall_recognize_of_blanks :
    ¬ ∀ (scope : Scope) (p : Pattern) (f g : Fragment), p.compile scope = .ok f → f.Blanks g →
      ∀ (s : Surroundings) (e : Entity), (∃ b, f.recognize s e = .ok (some b)) →
        ∃ c, g.recognize s e = .ok (some c) := by
  intro h
  have hcompile : (pattern "m" "m").compile {} =
      .ok (fragment (.resolved (.modifier .final)) "m" "m") := rfl
  have hsome : (((fragment (.resolved (.modifier .final)) "m" "m").recognize .none
      modifiers).toOption.join).isSome = true := by decide +kernel
  have hnone : (((fragment .wildcard "m" "m").recognize .none
      modifiers).toOption.join).isSome = false := by decide +kernel
  obtain ⟨found, hfound⟩ := (Pattern.compile_wellFormed hcompile).recognize_eq_ok .none modifiers
  rw [hfound] at hsome
  obtain ⟨b, rfl⟩ := Option.isSome_iff_exists.1 hsome
  obtain ⟨c, hc⟩ := h {} _ _ _ hcompile (blanks "m" "m") .none modifiers ⟨b, hfound⟩
  rw [hc] at hnone
  cases hnone

end TwoSets

end CodeRules
