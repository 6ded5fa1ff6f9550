import CodeRules.Proofs.Program.Builtins
import Mathlib.Data.List.Nodup
import Mathlib.Data.List.Perm.Subperm
import Mathlib.Data.List.TakeDrop
import Mathlib.Data.List.TakeWhile
import Mathlib.Logic.Relation

/-!
# Inheritance

Going from a class to its superclass may run in a circle, so the chain of a class ends where a class
would come up again. Main statements:

* `ClassTable.chainFrom_eq_chain`: that is the only reason to end besides a missing superclass; the
  bound on the steps is never met,
* `ClassTable.mem_chain_iff`: a chain lists what can be reached over superclasses,
* `Program.isSubtype_preorder`: types are preordered by what they inherit from.
-/

namespace CodeRules

namespace Text

/-- A name without a dot is its own last part. -/
theorem afterLastDot_eq_self {s : String} (h : '.' ∉ s.toList) : afterLastDot s = s := by
  -- Without a dot the first part of the reversed name is all of it, so there is no dot to split at.
  have hall : s.toList.reverse.span (· ≠ '.') = (s.toList.reverse, []) := by
    rw [List.span_eq_takeWhile_dropWhile]
    have hne : ∀ c ∈ s.toList.reverse, (decide (c ≠ '.')) = true := by
      intro c hc
      rw [decide_eq_true_iff]
      rintro rfl
      exact h (List.mem_reverse.1 hc)
    rw [List.takeWhile_eq_self_iff.2 hne, List.dropWhile_eq_nil_iff.2 hne]
  have hsplit : splitLastDot? s = none := by
    unfold splitLastDot?
    rw [hall]
  rw [afterLastDot, hsplit]

end Text

/-! ### Tables of classes -/

namespace ClassTable

variable {t : ClassTable} {given : List Node} {c d : Node}

/-- One class is the other one, or inherits from it over superclasses that belong to the program. -/
def Inherits (t : ClassTable) : Node → Node → Prop :=
  Relation.ReflTransGen fun c d => t.superclass? c = some d

/-- Each class stands under its name. -/
def Named (t : ClassTable) : Prop := ∀ name c, t.find? name = some c → c.name? = some name

/-- Classes with one number are one class. -/
def Distinct (t : ClassTable) : Prop := ∀ c ∈ t.values, ∀ d ∈ t.values, c.id = d.id → c = d

/-- Classes are put into a table under their names. -/
theorem named_ofNodes (given : List Node) : (ofNodes given).Named := by
  unfold ofNodes
  refine List.foldlRecOn (motive := Named) _ _ (fun name c hc => by cases hc) ?_
  intro t ht n _
  split
  · rename_i s _ _ _ _ hkind
    intro name c hc
    rw [Dict.find?_set] at hc
    split at hc
    · rename_i heq
      rw [← Option.some.inj hc, Node.name?, hkind, heq, NodeKind.name?]
    · exact ht name c hc
  · exact ht

/-- Nodes that were given with different numbers are told apart in the table. -/
theorem distinct_ofNodes (h : (given.map Node.id).Nodup) : (ofNodes given).Distinct :=
  fun _ hc _ hd => List.inj_on_of_nodup_map h (mem_of_mem_values_ofNodes hc)
    (mem_of_mem_values_ofNodes hd)

/-- A class of the table is found by its name. -/
theorem Named.find?_eq_some (h : t.Named) {name : String} (hc : c ∈ t.values)
    (hname : c.name? = some name) : t.find? name = some c := by
  obtain ⟨key, hkey⟩ := Dict.mem_values_iff.1 hc
  rw [h key c hkey] at hname
  exact Option.some.inj hname ▸ hkey

/-- A superclass that is found is in the table. -/
theorem mem_values_of_superclass? (h : t.superclass? c = some d) : d ∈ t.values := by
  unfold superclass? at h
  split at h
  · exact mem_values_of_class? h
  · cases h

/-- What a class of the table inherits from is in the table. -/
theorem Inherits.mem_values (h : t.Inherits c d) (hc : c ∈ t.values) : d ∈ t.values := by
  -- only the last step matters: it leads to a superclass, which was looked up in the table
  cases h with
  | refl => exact hc
  | tail _ hsuper => exact mem_values_of_superclass? hsuper

/-! ### Chains -/

/-- Numbers of different classes of the table, those that a walk went through. -/
structure Visited (t : ClassTable) (seen : List NodeId) : Prop where
  nodup : seen.Nodup
  subset : seen ⊆ t.values.map Node.id

/-- In the beginning no class was visited. -/
theorem visited_nil : t.Visited [] := ⟨.nil, List.nil_subset _⟩

/-- A class that was not visited may be visited next. -/
theorem Visited.cons {seen : List NodeId} (h : t.Visited seen) (hc : c ∈ t.values)
    (hnew : c.id ∉ seen) : t.Visited (c.id :: seen) where
  nodup := List.nodup_cons.2 ⟨hnew, h.nodup⟩
  subset := List.cons_subset.2 ⟨List.mem_map_of_mem hc, h.subset⟩

/-- A walk that went through as many classes as there are went through each of them. -/
theorem Visited.mem_of_size_le {seen : List NodeId} (h : t.Visited seen)
    (hsize : Catalog.size t ≤ seen.length) (hc : c ∈ t.values) : c.id ∈ seen := by
  -- The numbers that were seen are different, are numbers of classes, and are as many as there are classes;
  -- so they are all of them.
  have hlen : (t.values.map Node.id).length ≤ seen.length := by
    rw [List.length_map, Dict.values, List.length_map]
    exact hsize
  have hperm := (List.subperm_of_subset h.nodup h.subset).perm_of_length_le hlen
  exact hperm.mem_iff.2 (List.mem_map_of_mem hc)

/-- The walk ends at a class that was seen. -/
theorem chainFrom_of_mem {seen : List NodeId} (h : c.id ∈ seen) (steps : Nat) :
    t.chainFrom steps seen (some c) = [] := by
  cases steps with
  | zero => rfl
  | succ steps => rw [chainFrom, if_pos (List.contains_iff_mem.2 h)]

/-- The walk ends where there is no superclass. -/
theorem chainFrom_none (steps : Nat) (seen : List NodeId) : t.chainFrom steps seen none = [] := by
  cases steps <;> rfl

/-- A class that was not seen is listed, and the walk goes on from its superclass. -/
theorem chainFrom_succ {seen : List NodeId} (h : c.id ∉ seen) (steps : Nat) :
    t.chainFrom (steps + 1) seen (some c) =
      c :: t.chainFrom steps (c.id :: seen) (t.superclass? c) := by
  rw [chainFrom, if_neg (mt List.contains_iff_mem.1 h)]

/-- With steps for all classes that were not seen, it does not matter how many steps there are. -/
theorem chainFrom_eq {seen : List NodeId} (hseen : t.Visited seen) {steps steps' : Nat}
    (h : Catalog.size t ≤ seen.length + steps) (h' : Catalog.size t ≤ seen.length + steps')
    {current : Option Node} (hcurrent : ∀ c, current = some c → c ∈ t.values) :
    t.chainFrom steps seen current = t.chainFrom steps' seen current := by
  -- The induction is on the steps of one walk; the other one has steps left as long as a class is left that
  -- was not seen.
  induction steps generalizing seen steps' current with
  | zero =>
    cases current with
    | none => rw [chainFrom_none, chainFrom_none]
    | some c =>
      have hmem := hseen.mem_of_size_le h (hcurrent c rfl)
      rw [chainFrom_of_mem hmem, chainFrom_of_mem hmem]
  | succ steps ih =>
    cases current with
    | none => rw [chainFrom_none, chainFrom_none]
    | some c =>
      by_cases hmem : c.id ∈ seen
      · rw [chainFrom_of_mem hmem, chainFrom_of_mem hmem]
      · cases steps' with
        | zero => exact absurd (hseen.mem_of_size_le h' (hcurrent c rfl)) hmem
        | succ steps' =>
          rw [chainFrom_succ hmem, chainFrom_succ hmem]
          refine congrArg (c :: ·) (ih (hseen.cons (hcurrent c rfl) hmem) ?_ ?_ ?_)
          · rw [List.length_cons]; omega
          · rw [List.length_cons]; omega
          · exact fun d hd => mem_values_of_superclass? hd

/-- The bound on the steps never ends a chain. -/
theorem chainFrom_eq_chain {steps : Nat} (h : Catalog.size t ≤ steps) (name : String) :
    t.chainFrom steps [] (t.class? name) = t.chain name :=
  chainFrom_eq visited_nil (by simpa using h) (by simp) fun _ => mem_values_of_class?

/-- No class comes up twice, nor does one that was seen before. -/
theorem nodup_chainFrom (steps : Nat) (seen : List NodeId) (current : Option Node) :
    ((t.chainFrom steps seen current).map Node.id).Nodup ∧
      ∀ c ∈ t.chainFrom steps seen current, c.id ∉ seen := by
  induction steps generalizing seen current with
  | zero => exact ⟨.nil, fun c hc => by cases hc⟩
  | succ steps ih =>
    cases current with
    | none => exact ⟨.nil, fun c hc => by cases hc⟩
    | some c =>
      by_cases hmem : c.id ∈ seen
      · rw [chainFrom_of_mem hmem]
        exact ⟨.nil, fun c hc => by cases hc⟩
      · obtain ⟨hnodup, hnew⟩ := ih (c.id :: seen) (t.superclass? c)
        rw [chainFrom_succ hmem, List.map_cons, List.nodup_cons]
        -- The rest of the walk meets no class that was seen, and the first class counts as seen there.
        refine ⟨⟨fun hc => ?_, hnodup⟩, List.forall_mem_cons.2 ⟨hmem, fun d hd hseen => ?_⟩⟩
        · obtain ⟨d, hd, heq⟩ := List.mem_map.1 hc
          exact hnew d hd (heq ▸ List.mem_cons_self ..)
        · exact hnew d hd (List.mem_cons_of_mem _ hseen)

/-- A walk meets only what can be reached over superclasses. -/
theorem inherits_of_mem_chainFrom {steps : Nat} {seen : List NodeId}
    (h : d ∈ t.chainFrom steps seen (some c)) : t.Inherits c d := by
  induction steps generalizing seen c with
  | zero => cases h
  | succ steps ih =>
    -- a class that was seen ends the chain
    by_cases hmem : c.id ∈ seen
    · rw [chainFrom_of_mem hmem] at h
      cases h
    · rw [chainFrom_succ hmem, List.mem_cons] at h
      rcases h with rfl | h
      · exact .refl
      · cases hsuper : t.superclass? c with
        | none =>
          rw [hsuper, chainFrom_none] at h
          cases h
        | some e =>
          rw [hsuper] at h
          exact .head hsuper (ih h)

/-- With enough steps, a walk leaves out a superclass only where it was seen before. -/
theorem mem_chainFrom_of_superclass? (ht : t.Distinct) {steps : Nat} {seen : List NodeId}
    (hseen : t.Visited seen) (hsteps : Catalog.size t ≤ seen.length + steps) {b : Node}
    (hb : b ∈ t.values) (hc : c ∈ t.chainFrom steps seen (some b)) (h : t.superclass? c = some d) :
    d ∈ t.chainFrom steps seen (some b) ∨ d.id ∈ seen := by
  -- The induction is on the walk: either its first class is the one whose superclass is asked for, or that
  -- class comes later in the walk.
  induction steps generalizing seen b with
  | zero => cases hc
  | succ steps ih =>
    have hd : d ∈ t.values := mem_values_of_superclass? h
    by_cases hmem : b.id ∈ seen
    · rw [chainFrom_of_mem hmem] at hc
      cases hc
    have hnext := hseen.cons hb hmem
    have hrest : Catalog.size t ≤ (b.id :: seen).length + steps := by
      rw [List.length_cons]
      omega
    -- what was seen after the first class is that class, or was seen before it
    have hfirst (hid : d.id ∈ b.id :: seen) :
        d ∈ t.chainFrom (steps + 1) seen (some b) ∨ d.id ∈ seen := by
      rcases List.mem_cons.1 hid with hid | hid
      · rw [chainFrom_succ hmem, ht d hd b hb hid]
        exact .inl (List.mem_cons_self ..)
      · exact .inr hid
    have htail (hrest : d ∈ t.chainFrom steps (b.id :: seen) (t.superclass? b)) :
        d ∈ t.chainFrom (steps + 1) seen (some b) := by
      rw [chainFrom_succ hmem]
      exact List.mem_cons_of_mem _ hrest
    rw [chainFrom_succ hmem, List.mem_cons] at hc
    rcases hc with rfl | hc
    · by_cases hid : d.id ∈ c.id :: seen
      · exact hfirst hid
      · cases steps with
        | zero => exact absurd (hnext.mem_of_size_le hrest hd) hid
        | succ steps =>
          refine .inl (htail ?_)
          rw [h, chainFrom_succ hid]
          exact List.mem_cons_self ..
    · cases hsuper : t.superclass? b with
      | none =>
        rw [hsuper, chainFrom_none] at hc
        cases hc
      | some e =>
        rw [hsuper] at hc htail
        exact (ih hnext hrest (mem_values_of_superclass? hsuper) hc).elim (.inl ∘ htail) hfirst

/-- The chain of a name lists the class with that name and all that it inherits from. -/
theorem mem_chain_iff (ht : t.Distinct) {name : String} :
    d ∈ t.chain name ↔ ∃ c, t.class? name = some c ∧ t.Inherits c d := by
  rw [chain]
  cases hclass : t.class? name with
  | none => simp [chainFrom_none]
  | some c =>
    have hc : c ∈ t.values := mem_values_of_class? hclass
    have hsteps : Catalog.size t ≤ ([] : List NodeId).length + Catalog.size t := by simp
    constructor
    · exact fun h => ⟨c, rfl, inherits_of_mem_chainFrom h⟩
    · rintro ⟨b, hb, h⟩
      obtain rfl := Option.some.inj hb
      -- The induction is on the superclasses: the chain starts with the class, and has the superclass of
      -- each class it has.
      induction h with
      | refl =>
        obtain ⟨k, hk⟩ : ∃ k, Catalog.size t = k + 1 := by
          refine Nat.exists_eq_succ_of_ne_zero fun hzero => ?_
          have hmem := visited_nil.mem_of_size_le (t := t) (by simp [hzero]) hc
          cases hmem
        rw [hk, chainFrom_succ List.not_mem_nil]
        exact List.mem_cons_self ..
      | tail _ hsuper ih =>
        refine (mem_chainFrom_of_superclass? ht visited_nil hsteps hc ih hsuper).resolve_right ?_
        exact List.not_mem_nil

/-! ### Subtypes -/

/-- The class has the full or the simple name of the type. -/
def Matches (type : CodeType) (c : Node) : Prop :=
  c.name? = some type.baseName ∨ type.simpleName?.isSome ∧ c.name? = type.simpleName?

/-- A subtype is the type itself, one of a type that is called `Object`, or one whose class inherits from a
class that has the name of the type. -/
theorem isSubtype_iff (ht : t.Distinct) {sub sup : CodeType} :
    t.isSubtype sub sup = true ↔ sub = sup ∨ sup.simpleName? = some "Object" ∨
      ∃ c d, t.class? sub.baseName = some c ∧ t.Inherits c d ∧ Matches sup d := by
  simp only [isSubtype, Bool.or_eq_true, beq_iff_eq, List.any_eq_true, Bool.and_eq_true,
    mem_chain_iff ht, or_assoc]
  refine or_congr_right (or_congr_right ⟨?_, ?_⟩)
  · rintro ⟨d, ⟨c, hc, hcd⟩, hd⟩
    exact ⟨c, d, hc, hcd, hd⟩
  · rintro ⟨c, d, hc, hcd, hd⟩
    exact ⟨d, ⟨c, hc, hcd⟩, hd⟩

/-- Where no class has a qualified name, a class that a type names is found by the name of the type. -/
theorem class?_of_matches (ht : t.Named) (hdot : ∀ c ∈ t.values, ∀ s, c.name? = some s → '.' ∉ s.toList)
    {type : CodeType} (hc : c ∈ t.values) (h : Matches type c) : t.class? type.baseName = some c := by
  rcases h with h | ⟨hsome, h⟩
  · rw [class?, ht.find?_eq_some hc h]
    rfl
  · cases type with
    | named s args =>
      rw [CodeType.simpleName?] at h
      have hlast := ht.find?_eq_some hc h
      show t.class? s = some c
      rw [class?]
      cases hfull : t.find? s with
      | none => exact hlast
      | some d =>
        -- a full name that is found has no dot, so it is the simple name
        have hs := hdot d (Dict.mem_values_iff.2 ⟨s, hfull⟩) s (ht s d hfull)
        rw [Text.afterLastDot_eq_self hs, hfull] at hlast
        exact hlast
    | _ => cases hsome

/-- Where no class is called `Object` or has a qualified name, no class is found for such a type. -/
theorem class?_of_object (ht : t.Named) (hdot : ∀ c ∈ t.values, ∀ s, c.name? = some s → '.' ∉ s.toList)
    (hobject : ∀ c ∈ t.values, c.name? ≠ some "Object") {type : CodeType}
    (h : type.simpleName? = some "Object") : t.class? type.baseName = none := by
  -- only named types have a simple name
  cases type with
  | named s args =>
    rw [CodeType.simpleName?, Option.some.injEq] at h
    rw [Option.eq_none_iff_forall_ne_some]
    intro c hc
    have hmem : c ∈ t.values := mem_values_of_class? hc
    refine hobject c hmem ?_
    rw [CodeType.baseName, class?, h] at hc
    -- found under its full name, or under the simple one
    cases hfull : t.find? s with
    | none =>
      rw [hfull] at hc
      exact ht _ _ hc
    | some d =>
      rw [hfull] at hc
      obtain rfl := Option.some.inj hc
      have hname := ht s d hfull
      rw [← h, Text.afterLastDot_eq_self (hdot d hmem s hname)]
      exact hname
  | _ => cases h

/-- Subtypes of subtypes are subtypes, where no class is called `Object` or has a qualified name. -/
theorem isSubtype_trans (hnamed : t.Named) (hdistinct : t.Distinct)
    (hdot : ∀ c ∈ t.values, ∀ s, c.name? = some s → '.' ∉ s.toList)
    (hobject : ∀ c ∈ t.values, c.name? ≠ some "Object") {sub mid sup : CodeType}
    (h : t.isSubtype sub mid = true) (h' : t.isSubtype mid sup = true) :
    t.isSubtype sub sup = true := by
  rcases (isSubtype_iff hdistinct).1 h' with rfl | hsup | ⟨c', e, hc', hce, he⟩
  · exact h
  · exact (isSubtype_iff hdistinct).2 (.inr (.inl hsup))
  · rcases (isSubtype_iff hdistinct).1 h with rfl | hmid | ⟨c, d, hc, hcd, hd⟩
    · exact h'
    · rw [class?_of_object hnamed hdot hobject hmid] at hc'
      cases hc'
    · -- the class that the first walk ends at is where the second one starts
      have hmem := hcd.mem_values (mem_values_of_class? hc)
      rw [class?_of_matches hnamed hdot hmem hd] at hc'
      obtain rfl := Option.some.inj hc'
      exact (isSubtype_iff hdistinct).2 (.inr (.inr ⟨c, e, hc, hcd.trans hce, he⟩))

end ClassTable

namespace Program

/-- For classes with different numbers, none of them `Object` or with a qualified name, being a subtype
is reflexive and transitive on all types. The walk over superclasses goes through each class at most
once, meets exactly the classes inherited from, and comes to its end however many steps it may take:
beyond the number of classes more steps change nothing. -/
theorem isSubtype_preorder (given : List Node) (hids : (given.map Node.id).Nodup)
    (hdot : ∀ c ∈ given, ∀ s, c.name? = some s → '.' ∉ s.toList)
    (hobject : ∀ c ∈ given, c.name? ≠ some "Object") :
    (∀ t, (ofClasses given).types.isSubtype t t = true) ∧
    (∀ t u v, (ofClasses given).types.isSubtype t u = true →
      (ofClasses given).types.isSubtype u v = true → (ofClasses given).types.isSubtype t v = true) ∧
    ∀ name, (((ofClasses given).classes.chain name).map Node.id).Nodup ∧
      (∀ d, d ∈ (ofClasses given).classes.chain name ↔
        ∃ c, (ofClasses given).findDeclaration? name = some c ∧
          (ofClasses given).classes.Inherits c d) ∧
      ∀ steps, (ofClasses given).classes.size ≤ steps →
        (ofClasses given).classes.chainFrom steps [] ((ofClasses given).findDeclaration? name) =
          (ofClasses given).classes.chain name := by
  have hnamed := ClassTable.named_ofNodes given
  have hdistinct := ClassTable.distinct_ofNodes hids
  have hgiven {c : Node} : c ∈ (ofClasses given).classes.values → c ∈ given :=
    ClassTable.mem_of_mem_values_ofNodes
  refine ⟨fun t => ?_, fun t u v => ?_, fun name => ⟨?_, fun d => ?_, fun steps hsteps => ?_⟩⟩
  -- equal types are subtypes, and chains of subtypes are put together
  · exact (ClassTable.isSubtype_iff hdistinct).2 (.inl rfl)
  · exact ClassTable.isSubtype_trans hnamed hdistinct (fun c hc => hdot c (hgiven hc))
      fun c hc => hobject c (hgiven hc)
  -- no class is twice in a chain, which holds all superclasses and needs no more steps than there are
  -- classes
  · exact (ClassTable.nodup_chainFrom _ _ _).1
  · exact ClassTable.mem_chain_iff hdistinct
  · exact ClassTable.chainFrom_eq_chain hsteps name

namespace Circle

/-- A class without members. -/
def emptyClass (id : UInt32) (name superclass : String) : Node :=
  ⟨⟨id⟩, ⟨0, id, id⟩, .classDecl name [] [] (some (.named superclass [])) []⟩

/-- Two classes that inherit from each other, one of them by its qualified name, and one below. -/
def classes : List Node := [emptyClass 1 "A" "lib.B", emptyClass 2 "B" "A", emptyClass 3 "C" "B"]

/-- The class below is a subtype of both, and its chain goes round the circle once. -/
theorem isSubtype_preorder_circle :
    (ofClasses classes).types.isSubtype (.named "C" []) (.named "lib.B" [.void]) = true ∧
    (ofClasses classes).types.isSubtype (.named "lib.B" [.void]) (.named "A" []) = true ∧
    (ofClasses classes).types.isSubtype (.named "C" []) (.named "A" []) = true ∧
    ((ofClasses classes).classes.chain "C").map Node.name? = [some "C", some "B", some "A"] := by
  have hnames : ∀ c ∈ classes, c.name? ∈ [some "A", some "B", some "C"] := by decide
  obtain ⟨_, htrans, _⟩ := isSubtype_preorder classes (by decide)
    (fun c hc s hs => by
      have hs := hs ▸ hnames c hc
      simp only [List.mem_cons, Option.some.injEq, List.not_mem_nil, or_false] at hs
      rcases hs with rfl | rfl | rfl <;> decide)
    (fun c hc hobject => by
      have := hobject ▸ hnames c hc
      simp at this)
  have hsub : (ofClasses classes).types.isSubtype (.named "C" []) (.named "lib.B" [.void]) = true :=
    rfl
  have hsup : (ofClasses classes).types.isSubtype (.named "lib.B" [.void]) (.named "A" []) = true :=
    rfl
  exact ⟨hsub, hsup, htrans _ _ _ hsub hsup, rfl⟩

end Circle

end Program

end CodeRules
