import CodeRules.Proofs.Code.Fresh
import CodeRules.Proofs.Fragment.Generated

/-!
# Generated nodes are new

Every node of a generated entity gets its number while the entity is generated, and no two nodes get
the same one, however often a variable occurs (`Fragment.generate_fresh`). `Generating.Makes` says so
for a part of a run: what was made before stays beside what the part makes.
-/

namespace CodeRules

open Effect

/-! ### Computations that make nodes -/

namespace Generating

variable {α β : Type} {x : Generating α} {f : α → Generating β} {old : List Node}
  {nodes nodes' : α → List Node} {later : β → List Node}

/-- Whatever happens the arena is extended. When the nodes of `old` were made after `a`, the nodes of
a result were made after `a` as well. -/
def Makes (old : List Node) (x : Generating α) (nodes : α → List Node) : Prop :=
  ∀ (a : Arena) (w : Workshop), a.Extends w.arena → a.Fresh w.arena old →
    Ends x w (fun r w' => w.arena.Extends w'.arena ∧ a.Fresh w'.arena (nodes r))
      (fun _ w' => w.arena.Extends w'.arena)

theorem Makes.given (h : Makes old x nodes) {more : List Node} (hold : old.Subperm more) :
    Makes more x nodes := fun a w ha hmore => h a w ha (hmore.subperm hold)

/-- A value that is built of old nodes makes none. -/
theorem makes_pure {r : α} (h : (nodes r).Subperm old) : Makes old (pure r) nodes :=
  fun _ w _ hold => ⟨.refl w.arena, hold.subperm h⟩

/-- A failure makes nothing. -/
theorem makes_throw {e : GenerateError} : Makes old (throw e : Generating α) nodes :=
  fun _ w _ _ => .refl w.arena

/-- Two steps make what the second one makes of the first. -/
theorem makes_bind (hx : Makes old x nodes) (hf : ∀ r, Makes (nodes r) (f r) later) :
    Makes old (x >>= f) later := by
  intro a w ha hold
  rw [ends_bind]
  refine (hx a w ha hold).mono fun r w₁ hr => ?_
  exact (hf r a w₁ (ha.trans hr.1) hr.2).imp (fun _ _ h => ⟨hr.1.trans h.1, h.2⟩)
    fun _ _ h => hr.1.trans h

/-- What was made before stays beside what is made. -/
theorem Makes.frame (h : Makes [] x nodes) (old : List Node) :
    Makes old x fun r => old ++ nodes r := by
  intro a w ha hold
  exact (h w.arena w (.refl _) Arena.fresh_nil).mono fun _ _ hr =>
    ⟨hr.1, hold.append hr.2 ha hr.1⟩

/-- The nodes of a copy are new. -/
theorem makes_copy (e : Entity) : Makes [] (copy e) Entity.nodes := by
  intro a w ha _
  obtain ⟨hgrows, hfresh⟩ := e.leaves_copy_fresh w.arena
  exact ⟨hgrows, Arena.fresh_nil.append hfresh ha hgrows⟩

/-- A node that is built is new, and the nodes below it are those of its slots. -/
theorem makes_build (tag : Tag) (slots : List Entity) :
    Makes (slots.flatMap Entity.nodes) (build tag slots) Entity.nodes := by
  unfold build
  split
  · rename_i kind hkind
    intro a w ha hold
    exact Node.leaves_make_fresh ha
      (hold.subperm (NodeKind.children_sublist_of_ofSlots hkind).subperm) {}
  · exact makes_throw
  · exact makes_throw

end Generating

/-! ### Fragments -/

namespace Fragment

open Generating

variable {types : TypeOracle} {b : Bindings}

/-- A variable generates a copy of what it stands for. -/
private theorem makes_generateVar (name : String) (type : ParamType) :
    Makes [] (generateVar types b name type) Entity.nodes := by
  unfold generateVar
  split
  · exact makes_throw
  · exact makes_copy .empty
  · split
    · exact makes_copy _
    · exact makes_throw

/-- An access to a field is built of its parts. -/
private theorem makes_generateAccess (receiver field : Entity) :
    Makes (receiver.nodes ++ field.nodes) (generateAccess receiver field) Entity.nodes := by
  unfold generateAccess
  split
  · rename_i name
    split
    · exact (makes_build .name [.name name]).given List.nil_subperm
    · have hslots : [receiver, Entity.name name].flatMap Entity.nodes =
          receiver.nodes ++ (Entity.value (.name name)).nodes := by simp [Entity.name]
      exact hslots ▸ makes_build .fieldAccess [receiver, .name name]
  · exact makes_throw

/-- Several fragments generate new nodes, one after the other. -/
private theorem makes_generateAll {fs : List Fragment}
    (h : ∀ f ∈ fs, Makes [] (f.generate types b) Entity.nodes) :
    Makes [] (generateAll types b fs) (List.flatMap Entity.nodes) := by
  induction fs with
  | nil => exact makes_pure (List.Subperm.refl _)
  | cons f fs ih =>
    rw [generateAll]
    refine makes_bind (h f (List.mem_cons_self ..)) fun e => ?_
    refine makes_bind ((ih fun g hg => h g (List.mem_cons_of_mem _ hg)).frame e.nodes) fun es => ?_
    exact makes_pure (List.Subperm.refl _)

/-- A fragment that may be missing generates new nodes or none. -/
private theorem makes_generateOpt {o : Option Fragment}
    (h : ∀ f ∈ o, Makes [] (f.generate types b) Entity.nodes) :
    Makes [] (generateOpt types b o) (List.flatMap Entity.nodes) := by
  cases o with
  | none => exact makes_pure (List.Subperm.refl _)
  | some f =>
    rw [generateOpt]
    refine makes_bind (h f rfl) fun e => makes_pure ?_
    rw [List.flatMap_cons, List.flatMap_nil, List.append_nil]

/-- The nodes of what a fragment generates are new. -/
theorem makes_generate (f : Fragment) : Makes [] (f.generate types b) Entity.nodes := by
  induction f using Fragment.induction with
  | wildcard => exact makes_throw
  | empty => exact makes_pure (List.Subperm.refl _)
  | resolved e => exact makes_copy e
  | var name type => exact makes_generateVar name type
  | ordered items ih =>
    rw [generate]
    refine makes_bind (makes_generateAll ih) fun es => makes_pure ?_
    rw [Entity.nodes, Entity.nodesAll_eq_flatMap]
  -- each group of parts makes nodes after those before it, so the groups are apart
  | unordered access fixed rest iha ihf ihr =>
    rw [generate]
    refine makes_bind (makes_generateOpt iha) fun first => ?_
    refine makes_bind ((makes_generateAll ihf).frame _) fun middle => ?_
    refine makes_bind ((makes_generateOpt ihr).frame _) fun last => makes_pure ?_
    rw [← List.flatMap_append, ← List.flatMap_append]
    exact (Entity.nodes_ofSetParts_sublist _).subperm
  | node tag slots ih =>
    rw [generate]
    exact makes_bind (makes_generateAll ih) fun es => makes_build tag es
  | fieldAccess receiver field asTarget ihr ihf =>
    rw [generate]
    refine makes_bind ihr fun owner => ?_
    exact makes_bind (ihf.frame owner.nodes) fun name => makes_generateAccess owner name
  | fieldAssign target value iht ihv =>
    rw [generate]
    refine makes_bind iht fun left => makes_bind (ihv.frame left.nodes) fun right => ?_
    have hslots : [left, right].flatMap Entity.nodes = left.nodes ++ right.nodes := by simp
    exact hslots ▸ makes_build .assign [left, right]

/-- However generating ends, the records of the nodes that were made before stay as they are. The nodes
of a generated entity lie in no file. As long as numbers do not run out they have different ones, all
given out by this run: none is that of a node below the base or of a node that was made before. -/
theorem generate_fresh (types : TypeOracle) (b : Bindings) (f : Fragment) (w : Workshop) :
    Ends (f.generate types b) w
      (fun e w' =>
        (w'.arena.base = w.arena.base ∧ w.arena.records.toList <+: w'.arena.records.toList) ∧
        (∀ n ∈ e.nodes, n.span = .synthetic) ∧
        (w'.arena.base.toNat + w'.arena.size ≤ UInt32.size → e.ids.Nodup ∧ ∀ i ∈ e.ids,
          (w.arena.base.toNat + w.arena.size ≤ i.word.toNat ∧
            i.word.toNat < w.arena.base.toNat + w'.arena.size) ∧
          ¬i.word < w.arena.base ∧ w.arena.contains i = false))
      fun _ w' =>
        w'.arena.base = w.arena.base ∧ w.arena.records.toList <+: w'.arena.records.toList := by
  have hmakes : Makes [] (f.generate types b) Entity.nodes := makes_generate f
  refine (hmakes w.arena w (.refl _) Arena.fresh_nil).imp (fun e w' he => ?_) fun _ w' h => ⟨h.base, h.records⟩
  -- the run as a whole starts from the arena itself, with no old nodes
  obtain ⟨hgrows, hfresh⟩ := he
  refine ⟨⟨hgrows.base, hgrows.records⟩, hfresh.synthetic, fun hfits => ⟨hfresh.nodup hfits, ?_⟩⟩
  intro i hi
  obtain ⟨n, hn, rfl⟩ := List.mem_map.1 hi
  obtain ⟨hafter, hbefore⟩ := hfresh.allocated hfits n hn
  rw [hgrows.base] at hbefore
  refine ⟨⟨hafter, hbefore⟩, fun hbelow => ?_, Arena.contains_eq_false hafter⟩
  rw [UInt32.lt_iff_toNat_lt] at hbelow
  omega

end Fragment

/-! ### A variable that occurs twice -/

namespace Twice

/-- A statement of a program. -/
def statement : Node := ⟨⟨1⟩, ⟨0, 0, 5⟩, .exprStmt ⟨⟨2⟩, ⟨0, 0, 4⟩, .this⟩⟩

/-- A list of two copies of what a variable stands for, and of a node that is built around a third. -/
def fragment : Fragment :=
  .ordered [.var "s" .any, .var "s" .any, .node .block [.ordered [.var "s" .any]]]

/-- The variable stands for the statement. -/
def bindings : Bindings := Bindings.empty.bind "s" (.node statement)

/-- One node was made before. -/
def before : Workshop := { arena := { base := 5, records := #[{}] } }

/-- The run. -/
def generating : Generating Entity := fragment.generate (Program.ofClasses []).types bindings

/-- All seven nodes are new. -/
theorem generate_fresh_twice : ∃ e w', Gives generating before e w' ∧ e.ids.length = 7 ∧
    (w'.arena.base.toNat + w'.arena.size ≤ UInt32.size) ∧ e.ids.Nodup ∧
      ∀ i ∈ e.ids, 6 ≤ i.word.toNat ∧ i.word.toNat < 13 := by
  have hgives : Gives generating before
      ((generating.run.run before).1.toOption.getD .empty) (generating.run.run before).2 :=
    gives_getD (by decide +kernel)
  have hfits : (generating.run.run before).2.arena.base.toNat +
      (generating.run.run before).2.arena.size ≤ UInt32.size := by decide +kernel
  obtain ⟨_, _, hnumbers⟩ := (Fragment.generate_fresh _ _ _ _).gives hgives
  obtain ⟨hnodup, hall⟩ := hnumbers hfits
  refine ⟨_, _, hgives, by decide +kernel, hfits, hnodup, fun i hi => ?_⟩
  have hsize : (generating.run.run before).2.arena.size = 8 := by decide +kernel
  have hbounds := (hall i hi).1
  rw [hsize] at hbounds
  exact hbounds

end Twice

end CodeRules
