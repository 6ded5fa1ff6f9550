/-!
# Catalogs

A catalog is a finite collection kept in the strictly increasing order of its entries' keys, so
no two entries share a key. With an entry as its own key it is a set, with a name beside each
entry it is a dictionary.

Two ways of adding an entry differ only when its key is taken: `insert` keeps the entry that
was there, `replace` puts the new one in its place. Main statements: both keep the order (the
proof field `increasing`), and `get?_insert` and `get?_replace` say what a look-up finds.
-/

namespace CodeRules

universe u v

/-- A finite collection in the strictly increasing order of `key`. -/
structure Catalog {α : Type u} {κ : Type v} [Ord κ] (key : α → κ) where
  /-- The entries in order. -/
  toList : List α
  increasing : toList.Pairwise fun a b => compare (key a) (key b) = .lt

namespace Catalog

variable {α : Type u} {κ : Type v} [Ord κ] {key : α → κ}

/-- Two catalogs with the same entries in the same order are equal. -/
@[ext] theorem ext : ∀ {s t : Catalog key}, s.toList = t.toList → s = t
  | ⟨_, _⟩, ⟨_, _⟩, rfl => rfl

/-- The catalog with no entry. -/
def empty : Catalog key := ⟨[], .nil⟩

instance : EmptyCollection (Catalog key) := ⟨empty⟩
instance : Inhabited (Catalog key) := ⟨empty⟩

/-- The catalog with one entry. -/
def singleton (a : α) : Catalog key := ⟨[a], List.pairwise_singleton _ a⟩

/-- The number of entries. -/
def size (s : Catalog key) : Nat := s.toList.length

/-- Whether there is no entry. -/
def isEmpty (s : Catalog key) : Bool := s.toList.isEmpty

/-- The entry with key `k`. -/
def get? (s : Catalog key) (k : κ) : Option α :=
  s.toList.find? fun a => compare k (key a) == .eq

/-- Whether some entry has key `k`. -/
def contains (s : Catalog key) (k : κ) : Bool := (s.get? k).isSome

/-- Put `a` where its key belongs; `choose` says what stays when the key is taken. -/
def place (key : α → κ) (choose : α → α → α) (a : α) : List α → List α
  | [] => [a]
  | b :: l =>
    match compare (key a) (key b) with
    | .lt => a :: b :: l
    | .eq => choose b a :: l
    | .gt => b :: place key choose a l

private theorem mem_place {choose : α → α → α} {a x : α} {l : List α}
    (h : x ∈ place key choose a l) :
    x = a ∨ x ∈ l ∨ ∃ b ∈ l, compare (key a) (key b) = .eq ∧ x = choose b a := by
  induction l with
  | nil => simp_all [place]
  | cons b l ih =>
    simp only [place] at h
    split at h
    · simp only [List.mem_cons] at h ⊢
      rcases h with h | h | h <;> simp [h]
    · rename_i e
      simp only [List.mem_cons] at h
      rcases h with h | h
      · exact .inr (.inr ⟨b, by simp, e, h⟩)
      · exact .inr (.inl (by simp [h]))
    · simp only [List.mem_cons] at h
      rcases h with h | h
      · exact .inr (.inl (by simp [h]))
      · rcases ih h with h | h | ⟨c, hc, e, h⟩
        · exact .inl h
        · exact .inr (.inl (by simp [h]))
        · exact .inr (.inr ⟨c, by simp [hc], e, h⟩)

private theorem pairwise_place [Std.TransOrd κ] [Std.LawfulEqOrd κ] {choose : α → α → α} {a : α}
    (hc : ∀ b, key b = key a → key (choose b a) = key a) {l : List α}
    (h : l.Pairwise fun a b => compare (key a) (key b) = .lt) :
    (place key choose a l).Pairwise fun a b => compare (key a) (key b) = .lt := by
  induction l with
  | nil => simp [place]
  | cons b l ih =>
    obtain ⟨hb, hl⟩ := List.pairwise_cons.1 h
    simp only [place]
    split
    -- `a` goes before `b`, hence before all that comes after `b`
    · rename_i hab
      refine List.pairwise_cons.2 ⟨fun c hmem => ?_, h⟩
      rcases List.mem_cons.1 hmem with rfl | hmem
      · exact hab
      · exact Std.TransCmp.lt_trans hab (hb c hmem)
    -- what stays has the key of `b`
    · rename_i hab
      have e := hc b (Std.LawfulEqOrd.eq_of_compare hab).symm
      refine List.pairwise_cons.2 ⟨fun c hmem => ?_, hl⟩
      rw [e, Std.LawfulEqOrd.eq_of_compare hab]
      exact hb c hmem
    -- `b` stays in front of whatever is placed further on
    · rename_i hab
      refine List.pairwise_cons.2 ⟨fun c hmem => ?_, ih hl⟩
      have hba : compare (key b) (key a) = .lt := Std.OrientedCmp.lt_of_gt hab
      rcases mem_place hmem with rfl | hmem | ⟨d, _, hd, rfl⟩
      · exact hba
      · exact hb c hmem
      · rw [hc d (Std.LawfulEqOrd.eq_of_compare hd).symm]
        exact hba

variable [Std.TransOrd κ] [Std.LawfulEqOrd κ]

/-- Add `a` unless its key is taken. -/
def insert (s : Catalog key) (a : α) : Catalog key where
  toList := place key (fun old _ => old) a s.toList
  increasing := pairwise_place (fun _ h => h) s.increasing

/-- Add `a`, in place of the entry that had its key. -/
def replace (s : Catalog key) (a : α) : Catalog key where
  toList := place key (fun _ new => new) a s.toList
  increasing := pairwise_place (fun _ _ => rfl) s.increasing

/-- Only the entries that satisfy `p`. -/
def filter (p : α → Bool) (s : Catalog key) : Catalog key where
  toList := s.toList.filter p
  increasing := s.increasing.sublist List.filter_sublist

/-- Insert every entry of `l` in turn: of several entries with one key the first stays. -/
def insertAll (s : Catalog key) (l : List α) : Catalog key := l.foldl insert s

/-- Replace by every entry of `l` in turn: of several entries with one key the last stays. -/
def replaceAll (s : Catalog key) (l : List α) : Catalog key := l.foldl replace s

/-- The entries of `l`, the first of those that share a key. -/
def ofListFirst (l : List α) : Catalog key := insertAll empty l

/-- The entries of `l`, the last of those that share a key. -/
def ofListLast (l : List α) : Catalog key := replaceAll empty l

/-- The entries of both, those of `s` where they share a key. -/
def union (s t : Catalog key) : Catalog key := s.insertAll t.toList

/-! ## Look-ups -/

private theorem find?_place (choose : α → α → α) (a : α)
    (hc : ∀ b, key b = key a → key (choose b a) = key a) (k : κ) {l : List α}
    (h : l.Pairwise fun a b => compare (key a) (key b) = .lt) :
    (place key choose a l).find? (fun x => compare k (key x) == .eq) =
      if compare k (key a) = .eq then
        some (((l.find? fun x => compare (key a) (key x) == .eq).map fun b => choose b a).getD a)
      else l.find? fun x => compare k (key x) == .eq := by
  induction l with
  | nil => by_cases hk : compare k (key a) = .eq <;> simp [place, hk]
  | cons b l ih =>
    obtain ⟨hb, hl⟩ := List.pairwise_cons.1 h
    by_cases hk : compare k (key a) = .eq
    -- the key of `a` is looked up
    · obtain rfl := Std.LawfulEqOrd.eq_of_compare hk
      simp only [place]
      split
      · rename_i hab
        have hnone : (l.find? fun x => compare (key a) (key x) == .eq) = none := by
          simp only [List.find?_eq_none]
          intro c hmem
          simp [Std.TransCmp.lt_trans hab (hb c hmem)]
        -- no entry had the key, since all of them come after `a`
        simp [hab, hnone]
      · rename_i hab
        simp [hab, hc b (Std.LawfulEqOrd.eq_of_compare hab).symm]
      · rename_i hab
        simpa [hab] using ih hl
    -- another key is looked up, so neither `a` nor what it took the place of is found
    · simp only [place]
      split
      · simp [hk]
      · rename_i hab
        have e := Std.LawfulEqOrd.eq_of_compare hab
        have hkc : compare k (key (choose b a)) ≠ .eq := by rwa [hc b e.symm]
        have hkb : compare k (key b) ≠ .eq := by rwa [← e]
        simp [hk, hkc, hkb]
      · by_cases hkb : compare k (key b) = .eq
        · simp [hk, hkb]
        · simpa [hk, hkb] using ih hl

/-- A look-up after `insert` finds what was there, else the new entry under its key. -/
theorem get?_insert (s : Catalog key) (a : α) (k : κ) :
    (s.insert a).get? k =
      if compare k (key a) = .eq then some ((s.get? (key a)).getD a) else s.get? k := by
  have := find?_place (fun old (_ : α) => old) a (fun _ h => h) k s.increasing
  simpa [get?, insert] using this

/-- A look-up after `replace` finds the new entry under its key. -/
theorem get?_replace (s : Catalog key) (a : α) (k : κ) :
    (s.replace a).get? k = if compare k (key a) = .eq then some a else s.get? k := by
  have := find?_place (fun _ new => new) a (fun _ _ => rfl) k s.increasing
  simp only [get?, replace, this]
  split
  · cases s.toList.find? _ <;> rfl
  · rfl

end Catalog

/-- A dictionary from keys of type `κ` to values of type `ν`. -/
abbrev Dict (κ : Type) [Ord κ] (ν : Type) := Catalog (Prod.fst : κ × ν → κ)

namespace Dict

variable {κ ν : Type} [Ord κ]

/-- The value under `k`. -/
def find? (m : Dict κ ν) (k : κ) : Option ν := (Catalog.get? m k).map Prod.snd

/-- The keys that have a value. -/
def keys (m : Dict κ ν) : List κ := (Catalog.toList m).map Prod.fst

/-- The values, in the order of their keys. -/
def values (m : Dict κ ν) : List ν := (Catalog.toList m).map Prod.snd

variable [Std.TransOrd κ] [Std.LawfulEqOrd κ]

/-- Put `v` under `k`, in place of what was there. -/
def set (m : Dict κ ν) (k : κ) (v : ν) : Dict κ ν := Catalog.replace m (k, v)

/-- Change the value under `k`, where an absent one counts as `absent`. -/
def update (m : Dict κ ν) (k : κ) (absent : ν) (f : ν → ν) : Dict κ ν :=
  m.set k (f ((m.find? k).getD absent))

/-- The value under a key is the one that was put there last. -/
theorem find?_set [DecidableEq κ] (m : Dict κ ν) (k l : κ) (v : ν) :
    (m.set k v).find? l = if l = k then some v else m.find? l := by
  simp only [find?, set, Catalog.get?_replace, Std.LawfulEqOrd.compare_eq_iff_eq]
  split <;> rfl

end Dict

/-- A set of names, listed in the order of their characters. -/
abbrev NameSet := Catalog (id : String → String)

/-- A dictionary from names. -/
abbrev NameMap (ν : Type) := Dict String ν

end CodeRules
