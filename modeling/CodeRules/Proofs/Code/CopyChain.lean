import CodeRules.Proofs.Code.Fresh
import CodeRules.Proofs.Order.Depth

/-!
# Chains of copies

Copies of copies form a chain. When every copy has a greater number than the node it was copied
from, numbers go down along the chain, so it has no more links than the arena has records
(`Arena.Ordered.steps_le_size`), and `Arena.origin?` gives the node where it ends
(`Arena.origin?_ends_chain`).
-/

namespace CodeRules.Arena

/-- Every copy has a greater number than the node it was copied from. -/
def Ordered (a : Arena) : Prop :=
  ∀ k, (h : k < a.records.size) → ∀ j ∈ a.records[k].copiedFrom, j.word < (a.idAt k).word

instance (a : Arena) : Decidable a.Ordered :=
  inferInstanceAs (Decidable (∀ k, (h : k < a.records.size) →
    ∀ j ∈ a.records[k].copiedFrom, j.word < (a.idAt k).word))

/-- The arena did not give this number out, or gave it to a node that is no copy. -/
def Uncopied (a : Arena) (i : NodeId) : Prop :=
  a.contains i = false ∨ ∃ p, a.get? i = some p ∧ p.copiedFrom = none

/-- The node of the first number was copied from that of the second. -/
def Link (a : Arena) (i j : NodeId) : Prop := a.source? i = some j

variable {a : Arena} {i j k : NodeId} {m n : Nat}

/-! ### Links -/

/-- A number stands as far behind the base as its record is from the first one. -/
theorem index?_eq_some_iff {place : Nat} :
    a.index? i = some place ↔ i.word.toNat = a.base.toNat + place ∧ place < a.size := by
  rw [index?, Option.ite_none_right_eq_some, Option.some.injEq, UInt32.le_iff_toNat_le]
  constructor
  · rintro ⟨⟨hle, hsize⟩, rfl⟩
    -- the number lies behind the base, so subtracting the base does not wrap round
    refine ⟨?_, hsize⟩
    rw [UInt32.toNat_sub_of_le _ _ (UInt32.le_iff_toNat_le.2 hle)]
    omega
  · rintro ⟨hword, hsize⟩
    have hle : a.base.toNat ≤ i.word.toNat := by omega
    rw [UInt32.toNat_sub_of_le _ _ (UInt32.le_iff_toNat_le.2 hle)]
    exact ⟨⟨hle, by omega⟩, by omega⟩

/-- Numbers without a link are those outside the arena and those of nodes that are no copies. -/
theorem source?_eq_none_iff : a.source? i = none ↔ a.Uncopied i := by
  rw [source?, Uncopied, contains, get?]
  cases hindex : a.index? i with
  | none => simp
  | some place =>
    have hplace : place < a.records.size := (index?_eq_some_iff.1 hindex).2
    have hrecord : a.records[place]? = some a.records[place] := Array.getElem?_eq_getElem hplace
    simp [hrecord]

instance (a : Arena) (i : NodeId) : Decidable (a.Uncopied i) :=
  decidable_of_iff _ source?_eq_none_iff

namespace Link

/-- A node that was copied from another one is a copy. -/
theorem not_uncopied (h : a.Link i j) : ¬ a.Uncopied i := by
  rw [← source?_eq_none_iff, show a.source? i = some j from h]
  exact Option.some_ne_none j

/-- A node is a copy of one node only. -/
theorem unique (h : a.Link i j) (h' : a.Link i k) : k = j :=
  Option.some.inj (h'.symm.trans h)

/-- A link stands in the record of the copy. -/
theorem exists_record (h : a.Link i j) : ∃ place, ∃ hplace : place < a.records.size,
    i.word.toNat = a.base.toNat + place ∧ a.records[place].copiedFrom = some j := by
  rw [Link, source?, get?] at h
  cases hindex : a.index? i with
  | none => simp [hindex] at h
  | some place =>
    obtain ⟨hword, hplace⟩ := index?_eq_some_iff.1 hindex
    have hrecord : a.records[place]? = some a.records[place] := Array.getElem?_eq_getElem hplace
    exact ⟨place, hplace, hword, by simpa [hindex, hrecord] using h⟩

end Link

/-- Links lead to smaller numbers. -/
theorem Ordered.lt_of_link (ha : a.Ordered) (h : a.Link i j) : j.word.toNat < i.word.toNat := by
  obtain ⟨place, hplace, hword, hcopied⟩ := h.exists_record
  have hlt := ha place hplace j hcopied
  -- the number of the copy is below the limit, so its place is known
  have hbound : a.base.toNat + place < UInt32.size := hword ▸ i.word.toNat_lt_size
  rwa [UInt32.lt_iff_toNat_lt, toNat_idAt hbound, ← hword] at hlt

/-! ### Chains -/

namespace Ordered

/-- A chain goes down through the numbers of the arena, and only its end may lie below them. -/
private theorem steps_le (ha : a.Ordered) (h : Steps a.Link n i j) :
    n ≤ i.word.toNat + 1 - a.base.toNat ∧ n ≤ a.size := by
  induction h with
  | refl => omega
  | head hlink _ ih =>
    -- the first node has a record, and the rest of the chain starts below it
    obtain ⟨place, hplace, hword, -⟩ := hlink.exists_record
    have hlt := ha.lt_of_link hlink
    rw [size] at ih ⊢
    omega

/-- A chain has at most as many links as the arena has records. -/
theorem steps_le_size (ha : a.Ordered) (h : Steps a.Link n i j) : n ≤ a.size := (ha.steps_le h).2

/-- Every chain comes to an end. -/
theorem exists_steps (ha : a.Ordered) (i : NodeId) : ∃ n j, Steps a.Link n i j ∧ a.Uncopied j := by
  -- every link goes down to a smaller number
  induction hword : i.word.toNat using Nat.strongRecOn generalizing i with
  | ind word ih =>
    cases hsource : a.source? i with
    | none => exact ⟨0, i, .refl i, source?_eq_none_iff.1 hsource⟩
    | some k =>
      have hlink : a.Link i k := hsource
      obtain ⟨n, j, hsteps, hj⟩ := ih _ (hword ▸ ha.lt_of_link hlink) k rfl
      exact ⟨n + 1, j, .head hlink hsteps, hj⟩

end Ordered

/-- Before its end, a chain passes copies only. -/
theorem not_uncopied_of_steps (h : Steps a.Link n i j) (h' : Steps a.Link m i k) (hmn : m < n) :
    ¬ a.Uncopied k := by
  induction h' generalizing n with
  | refl i =>
    obtain ⟨n, rfl⟩ := Nat.exists_eq_succ_of_ne_zero (Nat.ne_zero_of_lt hmn)
    obtain ⟨_, hlink, -⟩ := h.cases_succ
    exact hlink.not_uncopied
  | head hlink _ ih =>
    obtain ⟨n, rfl⟩ := Nat.exists_eq_succ_of_ne_zero (Nat.ne_zero_of_lt hmn)
    obtain ⟨_, hlink', hrest⟩ := h.cases_succ
    -- a node is a copy of one node only, so both chains go the same way
    obtain rfl := hlink.unique hlink'
    exact ih hrest (Nat.lt_of_succ_lt_succ hmn)

/-- Following copies comes to the end of a chain when it may go far enough. -/
theorem follow_eq_of_steps (h : Steps a.Link n i j) (hj : a.Uncopied j) (hnm : n ≤ m) :
    a.follow m i = j := by
  -- how far following may go is met by the length of the chain
  induction h generalizing m with
  | refl i =>
    cases m with
    | zero => rfl
    | succ m => rw [follow, source?_eq_none_iff.2 hj]
  | head hlink _ ih =>
    obtain ⟨m, rfl⟩ := Nat.exists_eq_succ_of_ne_zero (Nat.ne_zero_of_lt hnm)
    rw [follow, show a.source? _ = some _ from hlink]
    exact ih hj (Nat.le_of_succ_le_succ hnm)

/-- When every copy has a greater number than the node it was copied from, chains of copies are
finite. A number that is not of a copy has no origin; the origin of a copy is the last number of the
chain that starts from it, which is the first one reached that is not of a copy. -/
theorem origin?_ends_chain (ha : a.Ordered) (i : NodeId) :
    (a.origin? i = none ↔ a.Uncopied i) ∧
      (∀ j, a.origin? i = some j ↔ ∃ n, 0 < n ∧ Steps a.Link n i j ∧ a.Uncopied j ∧
        ∀ m k, m < n → Steps a.Link m i k → ¬ a.Uncopied k) ∧
      ∀ n j, Steps a.Link n i j → n ≤ a.size := by
  refine ⟨?_, fun j => ⟨fun horigin => ?_, ?_⟩, fun n j => ha.steps_le_size⟩
  · rw [origin?, Option.map_eq_none_iff, source?_eq_none_iff]
  -- the origin of a copy is found by following the chain behind the first link
  · obtain ⟨k, hlink, hfollow⟩ := Option.map_eq_some_iff.1 horigin
    obtain ⟨n, l, hsteps, hl⟩ := ha.exists_steps k
    have hchain : Steps a.Link (n + 1) i l := .head hlink hsteps
    have hend : a.follow a.size k = l := follow_eq_of_steps hsteps hl (ha.steps_le_size hsteps)
    obtain rfl : l = j := hend.symm.trans hfollow
    exact ⟨n + 1, n.succ_pos, hchain, hl, fun m k hm h => not_uncopied_of_steps hchain h hm⟩
  · rintro ⟨n, hn, hchain, hj, -⟩
    obtain ⟨n, rfl⟩ := Nat.exists_eq_succ_of_ne_zero (Nat.ne_zero_of_lt hn)
    obtain ⟨k, hlink, hsteps⟩ := hchain.cases_succ
    rw [origin?, show a.source? i = some k from hlink, Option.map_some,
      follow_eq_of_steps hsteps hj (ha.steps_le_size hsteps)]

namespace TwoChains

/-- Node 10 is a copy of a node of the program and node 11 one of node 10; node 12 was made anew,
and node 13 is a copy of it. -/
def arena : Arena where
  base := 10
  records := #[{ copiedFrom := some ⟨3⟩ }, { copiedFrom := some ⟨10⟩ }, {},
    { copiedFrom := some ⟨12⟩ }]

/-- One chain ends outside the arena, the other one at a node that was made. -/
theorem origin?_ends_chain_both : arena.Ordered ∧ arena.origin? ⟨11⟩ = some ⟨3⟩ ∧
    arena.origin? ⟨13⟩ = some ⟨12⟩ ∧ arena.origin? ⟨12⟩ = none := by
  have ha : arena.Ordered := by decide +kernel
  have hpast : Steps arena.Link 2 ⟨11⟩ ⟨3⟩ := .head rfl (.head rfl (.refl _))
  have hmade : Steps arena.Link 1 ⟨13⟩ ⟨12⟩ := .head rfl (.refl _)
  refine ⟨ha, ?_, ?_, ?_⟩
  · exact ((origin?_ends_chain ha ⟨11⟩).2.1 ⟨3⟩).2 ⟨2, by decide, hpast, by decide +kernel,
      fun m k hm hsteps => not_uncopied_of_steps hpast hsteps hm⟩
  · exact ((origin?_ends_chain ha ⟨13⟩).2.1 ⟨12⟩).2 ⟨1, by decide, hmade, by decide +kernel,
      fun m k hm hsteps => not_uncopied_of_steps hmade hsteps hm⟩
  · exact (origin?_ends_chain ha ⟨12⟩).1.2 (by decide +kernel)

end TwoChains

end CodeRules.Arena
