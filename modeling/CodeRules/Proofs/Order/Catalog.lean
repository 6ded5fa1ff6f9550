import CodeRules.Order.Catalog
import Mathlib.Data.List.Sort

/-!
# The theory of catalogs

What is in a catalog is known from its look-ups: `get?_eq_some_iff` reads a look-up as membership,
and `ext_get?` says that catalogs with the same look-ups are equal. Everything else about the ways
of building a catalog is a look-up or a membership lemma.
-/

namespace CodeRules

universe u v

namespace Catalog

variable {α : Type u} {κ : Type v} [Ord κ] {key : α → κ}

@[simp] theorem toList_empty : (∅ : Catalog key).toList = [] := rfl

@[simp] theorem toList_singleton (a : α) : (singleton a : Catalog key).toList = [a] := rfl

/-- A catalog is empty if its list is. -/
theorem isEmpty_iff {s : Catalog key} : s.isEmpty = true ↔ s.toList = [] := by
  simp [isEmpty]

/-- A catalog that is not empty has an entry. -/
theorem isEmpty_eq_false_iff {s : Catalog key} : s.isEmpty = false ↔ ∃ a, a ∈ s.toList := by
  rw [Bool.eq_false_iff, Ne, isEmpty_iff, List.eq_nil_iff_forall_not_mem]
  simp only [not_forall, not_not]

/-- Filtering keeps the entries that the predicate holds for. -/
theorem mem_filter {s : Catalog key} {p : α → Bool} {a : α} :
    a ∈ (s.filter p).toList ↔ a ∈ s.toList ∧ p a = true := List.mem_filter

/-! ### Look-ups and members -/

variable [Std.LawfulEqOrd κ]

/-- Entries with one key are equal. -/
theorem eq_of_key_eq {s : Catalog key} {a b : α} (ha : a ∈ s.toList) (hb : b ∈ s.toList)
    (h : key a = key b) : a = b := by
  -- The list is sorted by keys without repetition, so of two different entries one has the smaller key.
  have hinj : ∀ ⦃x⦄, x ∈ s.toList → ∀ ⦃y⦄, y ∈ s.toList → (key x = key y → x = y) := by
    refine List.Pairwise.forall_of_forall_of_flip (fun x _ _ => rfl) ?_ ?_
    · refine s.increasing.imp fun hlt e => ?_
      rw [e, Std.ReflOrd.compare_self] at hlt
      cases hlt
    · refine s.increasing.imp fun hlt e => ?_
      rw [e, Std.ReflOrd.compare_self] at hlt
      cases hlt
  exact hinj ha hb h

/-- A look-up finds the entry with the key. -/
theorem get?_eq_some_iff {s : Catalog key} {k : κ} {a : α} :
    s.get? k = some a ↔ a ∈ s.toList ∧ key a = k := by
  constructor
  · intro h
    have hk := List.find?_some h
    simp only [beq_iff_eq, Std.LawfulEqOrd.compare_eq_iff_eq] at hk
    exact ⟨List.mem_of_find?_eq_some h, hk.symm⟩
  · rintro ⟨ha, rfl⟩
    cases h : s.get? (key a) with
    | none =>
      have := List.find?_eq_none.1 h a ha
      simp at this
    | some b =>
      have hk := List.find?_some h
      simp only [beq_iff_eq, Std.LawfulEqOrd.compare_eq_iff_eq] at hk
      rw [eq_of_key_eq ha (List.mem_of_find?_eq_some h) hk]

/-- Each entry is found by its key. -/
theorem get?_key {s : Catalog key} {a : α} (ha : a ∈ s.toList) : s.get? (key a) = some a :=
  get?_eq_some_iff.2 ⟨ha, rfl⟩

/-- Nothing is found when no entry has the key. -/
theorem get?_eq_none_iff {s : Catalog key} {k : κ} :
    s.get? k = none ↔ ∀ a ∈ s.toList, key a ≠ k := by
  rw [Option.eq_none_iff_forall_not_mem]
  constructor
  · intro h a ha e
    exact h a (get?_eq_some_iff.2 ⟨ha, e⟩)
  · intro h a ha
    exact h a (get?_eq_some_iff.1 ha).1 (get?_eq_some_iff.1 ha).2

/-- A key is contained when an entry has it. -/
theorem contains_iff {s : Catalog key} {k : κ} :
    s.contains k = true ↔ ∃ a ∈ s.toList, key a = k := by
  simp only [contains, Option.isSome_iff_exists, get?_eq_some_iff]

/-- Where the key tells entries apart, an entry is in a catalog when its key is. -/
theorem contains_key_iff (hkey : Function.Injective key) {s : Catalog key} {a : α} :
    s.contains (key a) = true ↔ a ∈ s.toList := by
  refine contains_iff.trans ⟨?_, fun h => ⟨a, h, rfl⟩⟩
  rintro ⟨b, hb, heq⟩
  exact hkey heq ▸ hb

variable [Std.TransOrd κ]

/-- Catalogs with the same entries are equal. -/
theorem ext_mem {s t : Catalog key} (h : ∀ a, a ∈ s.toList ↔ a ∈ t.toList) : s = t := by
  have : Std.Irrefl fun a b : α => compare (key a) (key b) = .lt :=
    -- A strict order has at most one sorted list of given elements.
    ⟨fun a h => by rw [Std.ReflOrd.compare_self] at h; cases h⟩
  have : Std.Antisymm fun a b : α => compare (key a) (key b) = .lt :=
    ⟨fun a b hab hba => by
      rw [Std.OrientedOrd.eq_swap, hba] at hab
      cases hab⟩
  exact Catalog.ext (s.increasing.eq_of_mem_iff t.increasing h)

/-- Catalogs that contain the same keys list the same keys. -/
theorem map_key_eq {s t : Catalog key} (h : ∀ k, s.contains k = true ↔ t.contains k = true) :
    s.toList.map key = t.toList.map key := by
  -- The keys of a catalog are a catalog themselves, of entries that are their own keys.
  have hkeys (c : Catalog key) : ∃ d : Catalog (id : κ → κ), d.toList = c.toList.map key :=
    ⟨⟨c.toList.map key, List.pairwise_map.2 c.increasing⟩, rfl⟩
  obtain ⟨d, hd⟩ := hkeys s
  obtain ⟨d', hd'⟩ := hkeys t
  rw [← hd, ← hd']
  refine congrArg toList (ext_mem fun k => ?_)
  rw [hd, hd', List.mem_map, List.mem_map, ← contains_iff, ← contains_iff]
  exact h k

/-- Catalogs with the same look-ups are equal. -/
theorem ext_get? {s t : Catalog key} (h : ∀ k, s.get? k = t.get? k) : s = t := by
  refine ext_mem fun a => ?_
  have hiff (c : Catalog key) : a ∈ c.toList ↔ c.get? (key a) = some a := by
    simp [get?_eq_some_iff]
  rw [hiff, hiff, h]

/-! ### Adding entries -/

/-- An entry of a catalog that one was added to is the new one or was there. -/
theorem mem_of_mem_insert {s : Catalog key} {a b : α} (h : b ∈ (s.insert a).toList) :
    b = a ∨ b ∈ s.toList := by
  have := get?_key h
  rw [get?_insert] at this
  split at this
  · cases hs : s.get? (key a) with
    | none => rw [hs] at this; exact .inl (Option.some.inj this).symm
    | some c =>
      rw [hs] at this
      exact .inr (Option.some.inj this ▸ (get?_eq_some_iff.1 hs).1)
  · exact .inr (get?_eq_some_iff.1 this).1

/-- No entry is lost when one is added. -/
theorem mem_insert_of_mem {s : Catalog key} {a b : α} (h : b ∈ s.toList) :
    b ∈ (s.insert a).toList := by
  refine (get?_eq_some_iff (k := key b)).1 ?_ |>.1
  rw [get?_insert]
  split
  · rename_i e
    have e : key b = key a := Std.LawfulEqOrd.eq_of_compare e
    rw [← e, get?_key h]
    rfl
  · exact get?_key h

/-- A catalog that an entry was added to contains the key of the entry and the keys it did. -/
theorem contains_insert {s : Catalog key} {a : α} {k : κ} :
    (s.insert a).contains k = true ↔ k = key a ∨ s.contains k = true := by
  simp only [contains, get?_insert]
  by_cases h : compare k (key a) = .eq
  · simp [Std.LawfulEqOrd.eq_of_compare h]
  · have hne : k ≠ key a := by rintro rfl; simp at h
    simp [h, hne]

/-- Adding an entry whose key is taken changes nothing. -/
theorem insert_of_contains {s : Catalog key} {a : α} (h : s.contains (key a) = true) :
    s.insert a = s := by
  refine ext_get? fun k => ?_
  rw [get?_insert]
  split
  · rename_i e
    obtain rfl := Std.LawfulEqOrd.eq_of_compare e
    obtain ⟨b, hb⟩ := Option.isSome_iff_exists.1 h
    rw [hb]; rfl
  · rfl

/-- An entry of a catalog that one was put into is the new one or was there. -/
theorem mem_of_mem_replace {s : Catalog key} {a b : α} (h : b ∈ (s.replace a).toList) :
    b = a ∨ b ∈ s.toList := by
  have := get?_key h
  rw [get?_replace] at this
  split at this
  · exact .inl (Option.some.inj this).symm
  · exact .inr (get?_eq_some_iff.1 this).1

/-! ### Adding many entries -/

/-- The first of the entries is added first. -/
theorem insertAll_cons (s : Catalog key) (a : α) (l : List α) :
    s.insertAll (a :: l) = (s.insert a).insertAll l := rfl

/-- An entry of a catalog that several were added to is one of them or was there. -/
theorem mem_of_mem_insertAll {s : Catalog key} {l : List α} {b : α}
    (h : b ∈ (s.insertAll l).toList) : b ∈ s.toList ∨ b ∈ l := by
  induction l generalizing s with
  | nil => exact .inl h
  | cons a l ih =>
    rcases ih h with h | h
    · rcases mem_of_mem_insert h with rfl | h
      · exact .inr (List.mem_cons_self ..)
      · exact .inl h
    · exact .inr (List.mem_cons_of_mem _ h)

/-- A catalog that several entries were added to contains their keys and the keys it did. -/
theorem contains_insertAll {s : Catalog key} {l : List α} {k : κ} :
    (s.insertAll l).contains k = true ↔ s.contains k = true ∨ ∃ a ∈ l, key a = k := by
  induction l generalizing s with
  | nil => simp [insertAll]
  | cons a l ih =>
    rw [insertAll_cons, ih, contains_insert]
    simp only [List.mem_cons, exists_eq_or_imp]
    rw [or_comm (a := k = key a), or_assoc, eq_comm (a := k)]

/-- The entries of a catalog that was made from a list come from the list. -/
theorem mem_of_mem_ofListFirst {l : List α} {a : α}
    (h : a ∈ (ofListFirst l : Catalog key).toList) : a ∈ l := by
  rcases mem_of_mem_insertAll h with h | h
  · cases h
  · exact h

/-- A catalog that was made from a list contains the keys in the list. -/
theorem contains_ofListFirst {l : List α} {k : κ} :
    (ofListFirst l : Catalog key).contains k = true ↔ ∃ a ∈ l, key a = k := by
  rw [ofListFirst, contains_insertAll]
  have : (empty : Catalog key).contains k = false := rfl
  simp [this]

/-- Adding the entries of a catalog in turn gives the catalog. -/
theorem ofListFirst_toList (s : Catalog key) : ofListFirst s.toList = s := by
  -- The entry that is found under the key has the key of the other one, and both are in the catalog.
  refine ext_mem fun a => ⟨mem_of_mem_ofListFirst, fun ha => ?_⟩
  have hcontains : (ofListFirst s.toList : Catalog key).contains (key a) = true :=
    contains_ofListFirst.2 ⟨a, ha, rfl⟩
  obtain ⟨b, hb, hkey⟩ := contains_iff.1 hcontains
  exact eq_of_key_eq ha (mem_of_mem_ofListFirst hb) hkey.symm ▸ hb

/-- An entry of a catalog that several were put into is one of them or was there. -/
theorem mem_of_mem_replaceAll {s : Catalog key} {l : List α} {b : α}
    (h : b ∈ (s.replaceAll l).toList) : b ∈ s.toList ∨ b ∈ l := by
  induction l generalizing s with
  | nil => exact .inl h
  | cons a l ih =>
    rcases ih (s := s.replace a) h with h | h
    · rcases mem_of_mem_replace h with rfl | h
      · exact .inr (List.mem_cons_self ..)
      · exact .inl h
    · exact .inr (List.mem_cons_of_mem _ h)

/-- The entries of a catalog in which later ones take the place come from the list as well. -/
theorem mem_of_mem_ofListLast {l : List α} {a : α}
    (h : a ∈ (ofListLast l : Catalog key).toList) : a ∈ l := by
  rcases mem_of_mem_replaceAll h with h | h
  · cases h
  · exact h

/-- A catalog that an entry was put into contains the key of the entry and the keys it did. -/
theorem contains_replace {s : Catalog key} {a : α} {k : κ} :
    (s.replace a).contains k = true ↔ k = key a ∨ s.contains k = true := by
  simp only [contains, get?_replace]
  by_cases h : compare k (key a) = .eq
  · simp [Std.LawfulEqOrd.eq_of_compare h]
  · have hne : k ≠ key a := by rintro rfl; simp at h
    simp [h, hne]

/-- A catalog that several entries were put into contains their keys and the keys it did. -/
theorem contains_replaceAll {s : Catalog key} {l : List α} {k : κ} :
    (s.replaceAll l).contains k = true ↔ s.contains k = true ∨ ∃ a ∈ l, key a = k := by
  induction l generalizing s with
  | nil => simp [replaceAll]
  | cons a l ih =>
    rw [show s.replaceAll (a :: l) = (s.replace a).replaceAll l from rfl, ih, contains_replace]
    simp only [List.mem_cons, exists_eq_or_imp]
    rw [or_comm (a := k = key a), or_assoc, eq_comm (a := k)]

/-- Whether the first or the last entry for a key counts, the same keys are contained. -/
theorem contains_ofListLast {l : List α} {k : κ} :
    (ofListLast l : Catalog key).contains k = true ↔ ∃ a ∈ l, key a = k := by
  rw [ofListLast, contains_replaceAll]
  have : (empty : Catalog key).contains k = false := rfl
  simp [this]

/-- Of entries with different keys none takes the place of another. -/
theorem get?_ofListLast {l : List α} {a : α} (ha : a ∈ l)
    (h : ∀ b ∈ l, key b = key a → b = a) :
    (ofListLast l : Catalog key).get? (key a) = some a := by
  obtain ⟨b, hb, e⟩ := contains_iff.1 ((contains_ofListLast (k := key a)).2 ⟨a, ha, rfl⟩)
  rw [← e, get?_key hb, h b (mem_of_mem_ofListLast hb) e]

/-! ### Unions -/

/-- An entry of a union comes from one of the catalogs. -/
theorem mem_of_mem_union {s t : Catalog key} {a : α} (h : a ∈ (s.union t).toList) :
    a ∈ s.toList ∨ a ∈ t.toList := mem_of_mem_insertAll h

/-- A union contains the keys of both catalogs. -/
theorem contains_union {s t : Catalog key} {k : κ} :
    (s.union t).contains k = true ↔ s.contains k = true ∨ t.contains k = true := by
  rw [union, contains_insertAll, contains_iff (s := t)]

/-- Where the key tells entries apart, a union has the entries of both catalogs. -/
theorem mem_union_iff (hkey : Function.Injective key) {s t : Catalog key} {a : α} :
    a ∈ (s.union t).toList ↔ a ∈ s.toList ∨ a ∈ t.toList := by
  rw [← contains_key_iff hkey, contains_union, contains_key_iff hkey, contains_key_iff hkey]

/-- Nothing is added by what is there. -/
theorem insertAll_of_subset {s : Catalog key} {l : List α} (h : ∀ a ∈ l, a ∈ s.toList) :
    s.insertAll l = s := by
  induction l with
  | nil => rfl
  | cons a l ih =>
    have ha : s.contains (key a) = true := contains_iff.2 ⟨a, h a (List.mem_cons_self ..), rfl⟩
    rw [insertAll_cons, insert_of_contains ha]
    exact ih fun b hb => h b (List.mem_cons_of_mem _ hb)

@[simp] theorem union_self (s : Catalog key) : s.union s = s := insertAll_of_subset fun _ h => h

/-- A union is not empty when one of the catalogs is not. -/
theorem isEmpty_union_eq_false_iff {s t : Catalog key} :
    (s.union t).isEmpty = false ↔ s.isEmpty = false ∨ t.isEmpty = false := by
  simp only [isEmpty_eq_false_iff]
  constructor
  · rintro ⟨a, ha⟩
    exact (mem_of_mem_union ha).imp (fun h => ⟨a, h⟩) fun h => ⟨a, h⟩
  · intro h
    -- The entry itself may have been left out for one with its key, so a key is what is known to be there.
    have hkey : ∃ k, (s.union t).contains k = true := by
      rcases h with ⟨a, ha⟩ | ⟨a, ha⟩
      · exact ⟨key a, contains_union.2 (.inl (contains_iff.2 ⟨a, ha, rfl⟩))⟩
      · exact ⟨key a, contains_union.2 (.inr (contains_iff.2 ⟨a, ha, rfl⟩))⟩
    obtain ⟨k, hk⟩ := hkey
    obtain ⟨a, ha, _⟩ := contains_iff.1 hk
    exact ⟨a, ha⟩

@[simp] theorem empty_union (s : Catalog key) : (∅ : Catalog key).union s = s := by
  refine ext_mem fun a => ⟨fun h => (mem_of_mem_union h).resolve_left List.not_mem_nil, fun h => ?_⟩
  have hcontains : ((∅ : Catalog key).union s).contains (key a) = true :=
    contains_union.2 (.inr (contains_iff.2 ⟨a, h, rfl⟩))
  obtain ⟨b, hb, hkey⟩ := contains_iff.1 hcontains
  -- The entry that is found under the key comes from the second catalog, where each key comes once.
  have hmem := (mem_of_mem_union hb).resolve_left List.not_mem_nil
  exact eq_of_key_eq hmem h hkey ▸ hb

end Catalog

namespace Catalog

variable {α : Type u} {κ : Type v} [Ord κ] {key : α → κ}

/-! ### Changing entries -/

/-- Change every entry without changing its key. -/
def mapEntries (f : α → α) (hf : ∀ a, key (f a) = key a) (s : Catalog key) : Catalog key where
  toList := s.toList.map f
  increasing := List.pairwise_map.2 (s.increasing.imp fun h => by rwa [hf, hf])

section

variable {f : α → α} {hf : ∀ a, key (f a) = key a}

@[simp] theorem toList_mapEntries (s : Catalog key) :
    (s.mapEntries f hf).toList = s.toList.map f := rfl

@[simp] theorem isEmpty_mapEntries (s : Catalog key) :
    (s.mapEntries f hf).isEmpty = s.isEmpty := by
  simp [isEmpty]

/-- Looking up a changed catalog finds the changed entry. -/
theorem get?_mapEntries (s : Catalog key) (k : κ) :
    (s.mapEntries f hf).get? k = (s.get? k).map f := by
  simp only [get?, toList_mapEntries, List.find?_map]
  congr 2
  funext a
  simp [hf]

/-- An entry is put in the same place before and after the change, as the keys stay. -/
private theorem map_place (hf : ∀ a, key (f a) = key a) (choose : α → α → α)
    (hc : ∀ b a, f (choose b a) = choose (f b) (f a)) (a : α) (l : List α) :
    (place key choose a l).map f = place key choose (f a) (l.map f) := by
  induction l with
  | nil => rfl
  | cons b l ih =>
    simp only [place, List.map_cons, hf]
    split
    · rfl
    · rw [List.map_cons, hc]
    · rw [List.map_cons, ih]

/-- Changes that the predicate does not notice may come before the filter or after it. -/
theorem mapEntries_filter (s : Catalog key) {p : α → Bool} (hp : ∀ a, p (f a) = p a) :
    (s.filter p).mapEntries f hf = (s.mapEntries f hf).filter p := by
  refine Catalog.ext ?_
  show (s.toList.filter p).map f = (s.toList.map f).filter p
  rw [List.filter_map]
  congr 2
  funext a
  exact (hp a).symm

variable [Std.TransOrd κ] [Std.LawfulEqOrd κ]

/-- Adding the changed entry to the changed catalog. -/
theorem mapEntries_insert (s : Catalog key) (a : α) :
    (s.insert a).mapEntries f hf = (s.mapEntries f hf).insert (f a) :=
  Catalog.ext (map_place hf (fun old _ => old) (fun _ _ => rfl) a s.toList)

/-- Putting the changed entry into the changed catalog. -/
theorem mapEntries_replace (s : Catalog key) (a : α) :
    (s.replace a).mapEntries f hf = (s.mapEntries f hf).replace (f a) :=
  Catalog.ext (map_place hf (fun _ new => new) (fun _ _ => rfl) a s.toList)

/-- Adding the changed entries to the changed catalog. -/
theorem mapEntries_insertAll (s : Catalog key) (l : List α) :
    (s.insertAll l).mapEntries f hf = (s.mapEntries f hf).insertAll (l.map f) := by
  induction l generalizing s with
  | nil => rfl
  | cons a l ih => rw [insertAll_cons, ih, List.map_cons, insertAll_cons, mapEntries_insert]

/-- Making a catalog of the changed entries. -/
theorem mapEntries_ofListFirst (l : List α) :
    (ofListFirst l : Catalog key).mapEntries f hf = ofListFirst (l.map f) := mapEntries_insertAll _ l

/-- The union of changed catalogs. -/
theorem mapEntries_union (s t : Catalog key) :
    (s.union t).mapEntries f hf = (s.mapEntries f hf).union (t.mapEntries f hf) :=
  mapEntries_insertAll s t.toList

end

end Catalog

/-! ### Sets of names -/

namespace NameSet

/-- A set contains its names. -/
theorem contains_iff {s : NameSet} {n : String} : Catalog.contains s n = true ↔ n ∈ s.toList := by
  simp [Catalog.contains_iff]

/-- The set of the names in a list. -/
theorem mem_ofListFirst {l : List String} {n : String} :
    n ∈ (Catalog.ofListFirst l : NameSet).toList ↔ n ∈ l := by
  rw [← contains_iff, Catalog.contains_ofListFirst]
  simp

/-- Adding a name to a set. -/
theorem mem_insert {s : NameSet} {m n : String} :
    n ∈ (Catalog.insert s m).toList ↔ n = m ∨ n ∈ s.toList := by
  rw [← contains_iff, Catalog.contains_insert, contains_iff]
  rfl

/-- Adding names to a set. -/
theorem mem_insertAll {s : NameSet} {l : List String} {n : String} :
    n ∈ (Catalog.insertAll s l).toList ↔ n ∈ s.toList ∨ n ∈ l := by
  rw [← contains_iff, Catalog.contains_insertAll, contains_iff]
  simp

/-- The union of sets of names. -/
theorem mem_union {s t : NameSet} {n : String} :
    n ∈ (Catalog.union s t).toList ↔ n ∈ s.toList ∨ n ∈ t.toList := mem_insertAll

end NameSet

/-! ### Dictionaries -/

namespace Dict

variable {κ ν : Type} [Ord κ]

@[simp] theorem find?_empty (k : κ) : (∅ : Dict κ ν).find? k = none := rfl

/-- Change every value. -/
def mapValues (f : ν → ν) (m : Dict κ ν) : Dict κ ν :=
  Catalog.mapEntries (fun x => (x.1, f x.2)) (fun _ => rfl) m

/-- No entry is lost by changing values. -/
theorem size_mapValues (f : ν → ν) (m : Dict κ ν) :
    Catalog.size (m.mapValues f) = Catalog.size m := List.length_map _

/-- Choosing entries by their keys does not depend on the values. -/
theorem mapValues_filter (f : ν → ν) (m : Dict κ ν) (p : κ → Bool) :
    mapValues f (Catalog.filter (fun x => p x.1) m) =
      Catalog.filter (fun x => p x.1) (m.mapValues f) := Catalog.mapEntries_filter m fun _ => rfl

/-- Looking up a changed dictionary finds the changed value. -/
theorem find?_mapValues (f : ν → ν) (m : Dict κ ν) (k : κ) : (m.mapValues f).find? k = (m.find? k).map f := by
  rw [find?, mapValues, Catalog.get?_mapEntries, find?, Option.map_map, Option.map_map]
  rfl

variable [Std.LawfulEqOrd κ]

/-- A value is found under a key when the dictionary has the entry. -/
theorem find?_eq_some_iff {m : Dict κ ν} {k : κ} {v : ν} :
    m.find? k = some v ↔ (k, v) ∈ m.toList := by
  simp only [find?, Option.map_eq_some_iff, Catalog.get?_eq_some_iff, Prod.exists]
  constructor
  · rintro ⟨_, _, ⟨h, rfl⟩, rfl⟩
    exact h
  · intro h
    exact ⟨k, v, ⟨h, rfl⟩, rfl⟩

/-- Nothing is found under what is not a key. -/
theorem find?_eq_none_iff {m : Dict κ ν} {k : κ} : m.find? k = none ↔ k ∉ m.keys := by
  simp only [find?, Option.map_eq_none_iff, Catalog.get?_eq_none_iff, keys, List.mem_map, not_exists,
    not_and]

/-- Something is found under each key. -/
theorem isSome_find?_iff {m : Dict κ ν} {k : κ} : (m.find? k).isSome = true ↔ k ∈ m.keys := by
  rw [← not_iff_not, Bool.not_eq_true, Option.isSome_eq_false_iff, Option.isNone_iff_eq_none,
    find?_eq_none_iff]

/-- A value stands under the key that it was put under. -/
theorem mem_values_iff {m : Dict κ ν} {v : ν} : v ∈ m.values ↔ ∃ k, m.find? k = some v := by
  simp only [values, List.mem_map, Prod.exists, exists_eq_right, find?_eq_some_iff]

/-- No key comes twice. -/
theorem nodup_keys (m : Dict κ ν) : m.keys.Nodup := by
  refine List.pairwise_map.2 (m.increasing.imp fun {a b} hlt e => ?_)
  rw [e, Std.ReflOrd.compare_self] at hlt
  cases hlt

variable [Std.TransOrd κ]

/-- Dictionaries with the same values under the same keys are equal. -/
theorem ext_find? {m n : Dict κ ν} (h : ∀ k, m.find? k = n.find? k) : m = n := by
  refine Catalog.ext_mem fun x => ?_
  rw [← Prod.mk.eta (p := x), ← find?_eq_some_iff, ← find?_eq_some_iff, h]

/-- A look-up in a dictionary that a value was put in unless its key was taken. -/
theorem find?_insert [DecidableEq κ] (m : Dict κ ν) (k l : κ) (v : ν) :
    find? (Catalog.insert m (k, v)) l = if l = k then some ((m.find? k).getD v) else m.find? l := by
  simp only [find?, Catalog.get?_insert, Std.LawfulEqOrd.compare_eq_iff_eq]
  split
  · cases Catalog.get? m k <;> rfl
  · rfl

/-- Putting the changed value into the changed dictionary. -/
theorem mapValues_set (f : ν → ν) (m : Dict κ ν) (k : κ) (v : ν) :
    (m.set k v).mapValues f = (m.mapValues f).set k (f v) := Catalog.mapEntries_replace m (k, v)

end Dict

end CodeRules
