import CodeRules.Proofs.List
import CodeRules.Proofs.Relation.Proper
import CodeRules.Table.Argument
import Mathlib.Data.List.TakeDrop

/-!
# Relations as arguments

The tuples of a relation that is given as an argument become tuples for the signature of the parameter
(`Program.argumentTuple_eq_ok`). Tuples for one signature are ordered by their values alone, so a new
signature for all of them changes neither their order nor their number
(`Program.forall₂_of_relationArgument`).
-/

namespace CodeRules

/-- A text is cut at its first dot. -/
theorem Text.splitFirstDot?_append {before : String} (h : '.' ∉ before.toList) (after : String) :
    splitFirstDot? (before ++ "." ++ after) = some (before, after) := by
  have hall : ∀ c ∈ before.toList, decide (c ≠ '.') = true := fun c hc =>
    decide_eq_true fun heq => h (heq ▸ hc)
  -- The characters before the first dot are those of the first part, which has none.
  have hspan : (before ++ "." ++ after).toList.span (· ≠ '.') =
      (before.toList, '.' :: after.toList) := by
    rw [List.span_eq_takeWhile_dropWhile, String.toList_append, String.toList_append,
      List.append_assoc, List.takeWhile_append_of_pos hall, List.dropWhile_append_of_pos hall]
    simp
  rw [splitFirstDot?, hspan]
  simp

namespace Tuple

variable {u v u' v' : Tuple}

/-- The same values and the same root. -/
structure SameFact (u v : Tuple) : Prop where
  values : v.values = u.values
  root : v.root = u.root

/-- Tuples of one trait are ordered by their values. -/
private theorem compare_shape (h : u.signature.name = v.signature.name) :
    compare u.shape v.shape = Shape.compareAll
      [.seq (u.values.map Entity.shape), .seq (u.values.map fun e => Entity.idsShape e.locations)]
      [.seq (v.values.map Entity.shape), .seq (v.values.map fun e => Entity.idsShape e.locations)] := by
  rw [shape, shape, h]
  show (compare v.signature.name v.signature.name).then _ = _
  rw [Std.ReflOrd.compare_self]
  rfl

/-- The same facts of another trait have the same order. -/
theorem SameFact.compare_shape (hu : u.SameFact u') (hv : v.SameFact v')
    (h : u.signature.name = v.signature.name) (h' : u'.signature.name = v'.signature.name) :
    compare u'.shape v'.shape = compare u.shape v.shape := by
  rw [Tuple.compare_shape h, Tuple.compare_shape h', hu.values, hv.values]

end Tuple

namespace Program

variable {p : Program} {s : Signature} {text : String} {u v : Tuple} {r r' : Relation}
  {solved? : String → String → Option Relation}

/-- Whether an argument's tuple has values that the parameters of a signature take. -/
def Takes (p : Program) (s : Signature) (u : Tuple) : Prop :=
  ∀ x ∈ s.params.zip u.values, x.1.type.accepts p.types x.2 = true

/-- A tuple that is given keeps its values and root. -/
theorem argumentTuple_eq_ok :
    p.argumentTuple s text u = .ok v ↔ v.signature = s ∧ u.SameFact v ∧ p.Takes s u := by
  simp only [argumentTuple, Except.bind_eq_ok, Except.mapError_eq_ok, Tuple.retarget,
    Except.map_eq_ok, Tuple.ofValues_eq_ok]
  constructor
  -- The tuple is made for the signature with the old root, and its values are checked after that.
  · rintro ⟨w, ⟨x, ⟨hs, hvalues, _⟩, rfl⟩, h⟩
    split at h
    · simp at h
    · rename_i hfind
      obtain rfl := Except.pure_eq_ok.1 h
      refine ⟨hs, ⟨hvalues, rfl⟩, fun y hy => ?_⟩
      rw [← hvalues] at hy
      simpa using List.find?_eq_none.1 hfind y hy
  · rintro ⟨hs, hfact, htakes⟩
    refine ⟨v, ⟨⟨s, u.values, Tuple.rootOf u.values, ?_⟩, ⟨rfl, rfl, rfl⟩, ?_⟩, ?_⟩
    · rw [← hfact.values, ← hs]
      exact v.complete
    · exact Tuple.ext' hs.symm hfact.values.symm hfact.root.symm
    · split
      · rename_i hfind
        have hmem := List.mem_of_find?_eq_some hfind
        rw [hfact.values] at hmem
        simpa [htakes _ hmem] using List.find?_some hfind
      · rfl

/-- A relation that is given has the tuples of a relation of another instance with as many
parameters. -/
theorem relationArgument_eq_ok {arg : Argument} :
    p.relationArgument solved? s arg = .ok r' ↔ ∃ text inst trait r us,
      arg = .text text ∧ Text.splitFirstDot? text = some (inst, trait) ∧
        solved? inst trait = some r ∧ r.signature.arity = s.arity ∧
          List.Forall₂ (fun u v => p.argumentTuple s text u = .ok v) r.tuples.toList us ∧
            r' = ⟨s, Catalog.ofListFirst us, true, true⟩ := by
  constructor
  · intro h
    cases arg with
    | entity e => cases h
    | text text =>
      simp only [relationArgument] at h
      -- the text names a relation of an instance
      split at h
      · cases h
      · rename_i inst trait hsplit
        split at h
        -- the instance was solved and has the relation, whose arity fits
        · cases h
        · rename_i r hr
          split at h
          · cases h
          · rename_i harity
            simp only [Except.bind_eq_ok, Except.pure_eq_ok, Except.mapM_eq_ok] at h
            obtain ⟨us, hus, rfl⟩ := h
            exact ⟨text, inst, trait, r, us, rfl, hsplit, hr, not_not.1 harity, hus, rfl⟩
  · rintro ⟨text, inst, trait, r, us, rfl, hsplit, hr, harity, hus, rfl⟩
    simp only [relationArgument, hsplit, hr]
    rw [if_neg (not_not.2 harity), Except.mapM_eq_ok.2 hus]
    rfl

variable {inst trait : String} (hsplit : Text.splitFirstDot? text = some (inst, trait))
  (hr : solved? inst trait = some r) (hsigned : r.Signed)
include hsplit hr hsigned

/-- Given tuples keep their order, and none is lost. -/
theorem forall₂_of_relationArgument (h : p.relationArgument solved? s (.text text) = .ok r') :
    r'.signature = s ∧ r'.Signed ∧ List.Forall₂ Tuple.SameFact r.tuples.toList r'.tuples.toList := by
  obtain ⟨_, _, _, q, us, ⟨⟩, hsplit', hq, harity, hus, rfl⟩ := relationArgument_eq_ok.1 h
  obtain ⟨rfl, rfl⟩ := Prod.mk.inj (Option.some.inj (hsplit.symm.trans hsplit'))
  obtain rfl := Option.some.inj (hr.symm.trans hq)
  have hfacts : List.Forall₂ (fun u v => u.signature = r.signature ∧ v.signature = s ∧ u.SameFact v)
      r.tuples.toList us := hus.imp_of_mem fun u hu v _ huv =>
    have hv := argumentTuple_eq_ok.1 huv
    ⟨hsigned u hu, hv.1, hv.2.1⟩
  -- the given tuples are in order already, so none is moved or dropped when the set is made
  have hincreasing : us.Pairwise fun u v => compare u.shape v.shape = .lt := by
    refine hfacts.pairwise r.tuples.increasing fun u u' v v' hu hv hlt => ?_
    rw [hu.2.2.compare_shape hv.2.2 (by rw [hu.1, hv.1]) (by rw [hu.2.1, hv.2.1])]
    exact hlt
  have htuples : (Catalog.ofListFirst us : TupleSet).toList = us :=
    congrArg Catalog.toList (Catalog.ofListFirst_toList ⟨us, hincreasing⟩)
  refine ⟨rfl, fun v hv => ?_, ?_⟩
  · obtain ⟨u, _, hu⟩ := hfacts.exists_left (htuples ▸ hv)
    exact hu.2.1
  · rw [htuples]
    exact hfacts.imp fun _ _ h => h.2.2

/-- A relation can be given when it has as many parameters and they take all of its values. -/
theorem exists_relationArgument_iff :
    (∃ r', p.relationArgument solved? s (.text text) = .ok r') ↔
      r.signature.arity = s.arity ∧ ∀ u ∈ r.tuples.toList, p.Takes s u := by
  constructor
  · rintro ⟨r', h⟩
    obtain ⟨_, _, _, q, us, ⟨⟩, hsplit', hq, harity, hus, rfl⟩ := relationArgument_eq_ok.1 h
    obtain ⟨rfl, rfl⟩ := Prod.mk.inj (Option.some.inj (hsplit.symm.trans hsplit'))
    obtain rfl := Option.some.inj (hr.symm.trans hq)
    refine ⟨harity, fun u hu => ?_⟩
    obtain ⟨v, _, hv⟩ := hus.exists_right hu
    exact (argumentTuple_eq_ok.1 hv).2.2
  · rintro ⟨harity, htakes⟩
    -- Each tuple can be given on its own.
    have hgiven : ∀ u ∈ r.tuples.toList, ∃ v, p.argumentTuple s text u = .ok v := fun u hu =>
      have hcomplete : u.values.length = s.arity := by rw [u.complete, hsigned u hu, harity]
      ⟨⟨s, u.values, u.root, hcomplete⟩, argumentTuple_eq_ok.2 ⟨rfl, ⟨rfl, rfl⟩, htakes u hu⟩⟩
    obtain ⟨us, hus⟩ := List.exists_forall₂ hgiven
    exact ⟨_, relationArgument_eq_ok.2 ⟨text, inst, trait, r, us, rfl, hsplit, hr, harity, hus, rfl⟩⟩

end Program

end CodeRules
