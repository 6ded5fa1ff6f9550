import CodeRules.Proofs.Code.Arena
import CodeRules.Proofs.Goal.WellFormed
import CodeRules.Proofs.Goal.Yields
import Mathlib.Logic.Function.Basic

/-!
# Candidates for a subject

A fragment that describes an unbound variable is tried on the candidates only, which the program
lists by the tags of nodes and by categories. `World.searchMatches` tries it on all entities instead.

An entity of the variable's type is a candidate unless the tags of the fragment's root rule it out
(`World.mem_candidates_iff`), and then the fragment does not recognize it
(`Fragment.allowsRoot_of_recognize`). The one exception is `this`, which also recognizes a receiver
that was never written; programs do not contain any.

What the program lists are buckets that are filled entity by entity (`Program.candidates_eq_bucket`).

Candidates are not tried in the order of the entities: for a field, the bare names come after all
accesses with a receiver. So the solutions are compared as sets.
-/

namespace CodeRules

open Effect

/-! ### Roots -/

namespace Fragment

variable {f : Fragment} {s : Surroundings} {e : Entity}

/-- The tags of the fragment's root leave it open that the fragment recognizes the entity. -/
def AllowsRoot (f : Fragment) (e : Entity) : Prop :=
  f.rootTags = [] ∨ ∃ n, e.node? = some n ∧ n.tag ∈ f.rootTags

/-- The fragment of a field is recognized in the two kinds of nodes that read a field. -/
private theorem tag_mem_of_fieldParts? {n : Node} {parts : Entity × Entity}
    (h : fieldParts? s n = some parts) : n.tag ∈ [Tag.fieldAccess, Tag.name] := by
  unfold fieldParts? at h
  split at h
  · rename_i hkind
    simp [Node.tag, hkind, NodeKind.tag]
  · rename_i hkind
    simp [Node.tag, hkind, NodeKind.tag]
  · cases h

/-- What a fragment recognizes has a root that the tags allow. -/
theorem allowsRoot_of_recognize {b : Bindings}
    (he : ∀ n ∈ e.node?, n.kind.isImplicitReceiver = false)
    (h : f.recognize s e = .ok (some b)) : f.AllowsRoot e := by
  cases f with
  -- apart from an implicit receiver, only nodes with the tag of the pattern are recognized
  | node tag slots =>
    rw [recognize] at h
    split at h
    · cases h
    split at h
    · cases h
    rename_i n hn
    refine .inr ⟨n, hn, ?_⟩
    split at h
    · rename_i hkind _
      have hwritten := he n hn
      rw [hkind] at hwritten
      cases hwritten
    · split at h
      · rename_i htag
        exact List.mem_singleton.2 htag
      · cases h
  -- an access to a field is written as a field access or as a name
  | fieldAccess receiver field asTarget =>
    rw [recognize] at h
    split at h
    · cases h
    rename_i n hn
    refine .inr ⟨n, hn, ?_⟩
    split at h
    · cases h
    split at h
    · cases h
    · rename_i hparts
      exact tag_mem_of_fieldParts? hparts
  -- and an assignment to a field as an assignment
  | fieldAssign target value =>
    rw [recognize] at h
    split at h
    · rename_i hkind
      obtain ⟨n, hn, hkind⟩ := Option.map_eq_some_iff.1 hkind
      exact .inr ⟨n, hn, by simp [rootTags, Node.tag, hkind, NodeKind.tag]⟩
    · cases h
  | _ => exact .inl rfl

end Fragment

/-! ### Buckets -/

/-- Entities in buckets, one for each category and one for each tag of nodes. -/
structure Buckets where
  category : Category → List Entity := fun _ => []
  tag : Tag → List Entity := fun _ => []

namespace Buckets

variable {b : Buckets} {e : Entity} {c : Category} {tag : Tag}

/-- Put an entity at the end of the bucket of a category if it belongs to it. -/
def pushTo (e : Entity) (buckets : Category → List Entity) (c : Category) : Category → List Entity :=
  if c.accepts e then Function.update buckets c (buckets c ++ [e]) else buckets

/-- Put an entity at the end of the bucket of each category that it belongs to. -/
def pushValue (b : Buckets) (e : Entity) : Buckets :=
  { b with category := Category.all.foldl (pushTo e) b.category }

/-- Put an entity at the end of its buckets. A node also goes into the bucket of its tag. -/
def push (b : Buckets) (e : Entity) : Buckets :=
  match e with
  | .node n => { b with tag := Function.update b.tag n.tag (b.tag n.tag ++ [e]) }.pushValue e
  | _ => b.pushValue e

/-- Going through different categories changes the buckets of those that are gone through. -/
private theorem foldl_pushTo {cs : List Category} (hcs : cs.Nodup) (e : Entity)
    (buckets : Category → List Entity) (c : Category) : cs.foldl (pushTo e) buckets c =
      buckets c ++ if c ∈ cs then [e].filter c.accepts else [] := by
  induction cs generalizing buckets with
  | nil => simp
  | cons d cs ih =>
    obtain ⟨hd, hcs⟩ := List.nodup_cons.1 hcs
    rw [List.foldl_cons, ih hcs, pushTo]
    by_cases hc : c = d
    · -- the turn of this category: it does not come up again
      -- each category takes the entity at most once
      subst hc
      rw [if_neg hd, if_pos List.mem_cons_self, List.append_nil, List.filter_cons]
      split <;> simp
    · have hmem : c ∈ d :: cs ↔ c ∈ cs := by simp [hc]
      simp only [hmem]
      split
      · rw [Function.update_of_ne hc]
      · rfl

/-- The buckets of the categories that an entity belongs to get it as their last. -/
theorem category_push (b : Buckets) (e : Entity) (c : Category) :
    (b.push e).category c = b.category c ++ [e].filter c.accepts := by
  have hmem : c ∈ Category.all := by cases c <;> decide
  have hpush := foldl_pushTo (by decide : Category.all.Nodup) e b.category c
  rw [if_pos hmem] at hpush
  cases e <;> exact hpush

/-- The bucket of its tag gets a node as its last. -/
theorem tag_push (b : Buckets) (e : Entity) (tag : Tag) : (b.push e).tag tag = b.tag tag ++
    [e].filter fun | .node n => n.tag == tag | _ => false := by
  cases e with
  | node n =>
    show Function.update b.tag n.tag _ tag = _
    by_cases htag : n.tag = tag
    · subst htag
      simp
    · rw [Function.update_of_ne (Ne.symm htag)]
      simp [htag]
  | _ => exact (List.append_nil _).symm

end Buckets

namespace Program

/-- The entities of a program in their buckets. -/
def buckets (p : Program) : Buckets := p.entities.foldl Buckets.push {}

/-- What the program lists for a category or a tag is the bucket that is filled entity by entity. -/
theorem candidates_eq_bucket (p : Program) (c : Category) (tag : Tag) :
    p.collection c = p.buckets.category c ∧ p.candidates c (some tag) = p.buckets.tag tag := by
  have hfilled (es : List Entity) (b : Buckets) :
      (es.foldl Buckets.push b).category c = b.category c ++ es.filter c.accepts ∧
        (es.foldl Buckets.push b).tag tag = b.tag tag ++
          es.filter fun | .node n => n.tag == tag | _ => false := by
    induction es generalizing b with
    | nil => simp
    | cons e es ih =>
      obtain ⟨hcategory, htag⟩ := ih (b.push e)
      rw [List.foldl_cons, hcategory, htag, b.category_push, b.tag_push, List.append_assoc,
        List.append_assoc, ← List.filter_append, ← List.filter_append]
      exact ⟨rfl, rfl⟩
  obtain ⟨hcategory, htag⟩ := hfilled p.entities {}
  exact ⟨hcategory.symm, htag.symm⟩

end Program

/-! ### Searching everything -/

namespace Program

variable {p : Program} {given : List Node} {free : UInt32}

theorem mem_candidates_tag {c : Category} {tag : Tag} {e : Entity} :
    e ∈ p.candidates c (some tag) ↔ e ∈ p.entities ∧ ∃ n, e.node? = some n ∧ n.tag = tag := by
  rw [candidates, List.mem_filter]
  refine and_congr_right fun _ => ?_
  cases e <;> simp [Entity.node?]

/-- The nodes among the entities of a program are those of its classes. -/
theorem mem_preorder_of_mem_entities {e : Entity} {n : Node}
    (he : e ∈ ((ofClasses given).withIdBase free).entities) (hn : e.node? = some n) :
    ∃ c ∈ (ofClasses given).classes.values, n ∈ c.preorder := by
  rcases List.mem_append.1 he with he | he
  · rcases List.mem_append.1 he with he | he
    · obtain ⟨m, hm, rfl⟩ := List.mem_map.1 he
      obtain rfl := Option.some.inj hn
      exact List.mem_flatMap.1 hm
    · obtain ⟨t, _, rfl⟩ := List.mem_map.1 he
      cases hn
  · obtain ⟨s, _, rfl⟩ := List.mem_map.1 he
    cases hn

end Program

namespace World

variable {w : World} {type : ParamType} {f : Fragment} {e : Entity}

/-- All entities, those of the program and then those that were made. -/
def entities (w : World) : List Entity := w.program.collection .any ++ w.overlay

/-- The bindings under which a fragment describes a variable of a type that stands for one of the
entities. -/
def searchMatches (w : World) (span : Span) (name : String) (type : ParamType) (f : Fragment)
    (input : Bindings) : Solving Solutions :=
  let find (e : Entity) : Solving (Option Bindings) :=
    Solving.ask span fun _ => w.matchInto f e input
  Solving.collect (fun e => return (← find e).bind fun b => b.bind? name e)
    (w.entities.filter (type.accepts w.program.types))

theorem mem_entities : e ∈ w.entities ↔ e ∈ w.program.entities ∨ e ∈ w.overlay := by
  simp [entities, Program.collection]

/-- The candidates are the entities of the type that the root tags of the fragment allow. -/
theorem mem_candidates_iff : e ∈ w.candidates type f ↔
    e ∈ w.entities ∧ type.accepts w.program.types e = true ∧ f.AllowsRoot e := by
  -- the known entities are looked up by category and root tags
  have hknown : e ∈ (if f.rootTags.isEmpty then w.program.candidates type.toCategory none
        else f.rootTags.flatMap fun t => w.program.candidates type.toCategory (some t)) ↔
      e ∈ w.program.entities ∧ (f.rootTags = [] → type.toCategory.accepts e = true) ∧
        f.AllowsRoot e := by
    cases htags : f.rootTags with
    | nil => simp [Fragment.AllowsRoot, htags, Program.candidates, Program.collection]
    | cons t ts =>
      simp only [List.isEmpty_cons, Bool.false_eq_true, ↓reduceIte, List.mem_flatMap,
        Program.mem_candidates_tag, Fragment.AllowsRoot, htags, reduceCtorEq, false_implies,
        true_and, false_or]
      grind
  -- and those that were made are filtered
  have hmade : (type.toCategory.accepts e && (f.rootTags.isEmpty ||
        e.node?.any fun n => f.rootTags.contains n.tag)) = true ↔
      type.toCategory.accepts e = true ∧ f.AllowsRoot e := by
    simp [Fragment.AllowsRoot, Option.any_eq_true]
  rw [candidates, List.mem_filter, List.mem_append, hknown, List.mem_filter, hmade, mem_entities]
  have hcategory : type.accepts w.program.types e = true → type.toCategory.accepts e = true :=
    ParamType.toCategory_accepts
  tauto

end World

/-! ### Solutions -/

namespace Solving

/-- When nothing fails and no node is made, what is found is collected. -/
theorem returns_collect_filterMap {α : Type} {f : α → Solving (Option Bindings)}
    {g : α → Option Bindings} (h : ∀ x, Returns (f x) (· = g x)) (l : List α) :
    Returns (collect f l) (· = Catalog.ofListFirst (l.filterMap g)) := by
  have hfold (out : Solutions) : Returns
      (l.foldlM (fun out x => return (← f x).elim out out.insert) out : Solving Solutions)
      (· = out.insertAll (l.filterMap g)) := by
    induction l generalizing out with
    | nil => exact returns_pure rfl
    | cons x l ih =>
      rw [List.foldlM_cons]
      refine returns_bind (returns_bind (h x) fun o ho => returns_pure (P := (· = (g x).elim out
        out.insert)) (by rw [ho])) fun out' hout' => (ih out').mono fun t ht => ?_
      rw [ht, hout', List.filterMap_cons]
      cases g x <;> rfl
  exact hfold ∅

end Solving

/-- Sets that are collected from lists with the same elements are the same. -/
theorem Solutions.same_ofListFirst {l l' : List Bindings} (h : ∀ b, b ∈ l ↔ b ∈ l') :
    Solutions.same (Catalog.ofListFirst l) (Catalog.ofListFirst l') = true := by
  refine decide_eq_true (Catalog.map_key_eq fun k => ?_)
  simp [Catalog.contains_ofListFirst, h]

namespace World

/-- The bindings that are found for one entity, which becomes what the variable stands for. -/
def found? (w : World) (name : String) (f : Fragment) (input : Bindings) (e : Entity) :
    Option Bindings :=
  (w.matchInto f e input).toOption.join.bind fun b => b.bind? name e

variable {w : World} {name : String} {f : Fragment} {input : Bindings}

/-- A well-formed fragment can be tried on every entity. -/
theorem returns_find (hf : f.WellFormed) (w : World) (span : Span) (name : String)
    (input : Bindings) (e : Entity) :
    Returns (do return (← Solving.ask span fun _ => w.matchInto f e input).bind fun b => b.bind? name e)
      (· = w.found? name f input e) := by
  obtain ⟨found, hfound⟩ := matchInto_eq_ok (w := w) hf e input
  refine returns_bind (Solving.returns_ask fun _ => ⟨_, hfound, rfl⟩) fun o ho => returns_pure ?_
  rw [found?, hfound, ho]
  rfl

/-- Bindings are found for entities that the fragment recognizes. -/
theorem exists_recognize_of_found? {e : Entity} {b : Bindings} (h : w.found? name f input e = some b) :
    ∃ m, f.recognize w.program.surroundings e = .ok (some m) := by
  obtain ⟨c, hc, -⟩ := Option.bind_eq_some_iff.1 h
  rw [matchInto] at hc
  split at hc
  · cases hc
  · rename_i m hm
    have hc : (m.bind fun m => m.withoutResult.consistentMerge? input) = some c := hc
    obtain ⟨m', rfl, -⟩ := Option.bind_eq_some_iff.1 hc
    exact ⟨m', hm⟩

/-- Trying the candidates only finds what trying every entity of the type finds. -/
theorem solveMatches_same_search {scope : Scope} {p : Pattern} (hcompile : p.compile scope = .ok f)
    {given : List Node} {free : UInt32}
    (hprogram : w.program = (Program.ofClasses given).withIdBase free)
    (hwritten : ∀ c ∈ w.program.classes.values, ∀ n ∈ c.preorder, n.kind.isImplicitReceiver = false)
    (hoverlay : ∀ e ∈ w.overlay, ∀ n ∈ e.node?, n.kind.isImplicitReceiver = false)
    (hinput : input.find? name = none) (type : ParamType) (span : Span) (a : Arena) :
    ∃ s t, Gives (w.solveMatches span (.var name type) f input) a s a ∧
      Gives (w.searchMatches span name type f input) a t a ∧ s.same t = true := by
  have hfind := returns_find (Pattern.compile_wellFormed hcompile) w span name input
  -- a program that was read has no implicit receivers among its nodes
  have hroots : ∀ e ∈ w.entities, ∀ n ∈ e.node?, n.kind.isImplicitReceiver = false := by
    intro e he n hn
    rcases mem_entities.1 he with he | he
    · rw [hprogram] at he hwritten
      obtain ⟨c, hc, hn⟩ := Program.mem_preorder_of_mem_entities he hn
      exact hwritten c hc n hn
    · exact hoverlay e he n hn
  -- both ways test their candidates one by one
  have hfast : Returns (w.solveMatches span (.var name type) f input)
      (· = Catalog.ofListFirst ((w.candidates type f).filterMap (w.found? name f input))) := by
    have hvalue (a : Arena) : w.valueOf a input (.var name type) = .ok none := by
      rw [valueOf, hinput]
    refine returns_bind (Solving.returns_ask fun a => ⟨_, hvalue a, rfl⟩) fun o ho => ?_
    obtain rfl := ho
    exact Solving.returns_collect_filterMap hfind _
  have hslow : Returns (w.searchMatches span name type f input)
      (· = Catalog.ofListFirst ((w.entities.filter (type.accepts w.program.types)).filterMap
        (w.found? name f input))) := Solving.returns_collect_filterMap hfind _
  obtain ⟨s, hs, rfl⟩ := hfast.exists_gives a
  obtain ⟨t, ht, rfl⟩ := hslow.exists_gives a
  refine ⟨_, _, hs, ht, Solutions.same_ofListFirst fun b => ?_⟩
  -- a solution comes from some candidate, which has the right root because the pattern recognized it
  rw [List.mem_filterMap, List.mem_filterMap]
  refine exists_congr fun e => and_congr_left fun hb => ?_
  obtain ⟨m, hm⟩ := exists_recognize_of_found? hb
  rw [mem_candidates_iff, List.mem_filter]
  refine and_congr_right fun he => and_iff_left ?_
  exact Fragment.allowsRoot_of_recognize (hroots e he) hm

end World

/-! ### Two ways to read a field -/

namespace Reads

/-- A node of the program. -/
def read (i : UInt32) (kind : NodeKind Node) : Node := .make ⟨i⟩ ⟨0, i, i + 1⟩ kind

/-- A method that returns the value of an expression. -/
def getter (i : UInt32) (name : String) (value : Node) : Node :=
  read i (.methodDecl [] [] (.ofName "int") name []
    (some (read (i + 1) (.block [read (i + 2) (.returnStmt (some value))]))))

/-- A class with a field, which is read with its receiver and without. -/
def classes : List Node :=
  [read 0 (.classDecl "Point" [] [] none
    [read 1 (.fieldDecl [] [] (.ofName "int") "x" none),
      getter 2 "short" (read 5 (.name "x")),
      getter 6 "long" (read 9 (.fieldAccess (read 10 .this) "x"))])]

/-- A made access is there as well. -/
def world : World where
  program := (Program.ofClasses classes).withIdBase 11
  store := ∅
  overlay := [.node (.make ⟨12⟩ .synthetic (.fieldAccess (.make ⟨11⟩ .synthetic .this) "x"))]

/-- A field of anything. -/
def pattern : Pattern :=
  .node .synthetic .fieldAccess [.var .synthetic "_", .resolved .synthetic (.name "x")]

/-- The fragment of the pattern. -/
def fragment : Fragment := .fieldAccess .wildcard (.resolved (.name "x")) false

/-- Three of the sixteen entities are tried, and all three are found. -/
theorem solveMatches_same_search_expression :
    (world.candidates (.category .expression) fragment).length = 3 ∧ world.entities.length = 16 ∧
    ∃ s t, Gives (world.solveMatches .synthetic (.var "e" (.category .expression)) fragment .empty)
        (.unused 13) s (.unused 13) ∧
      Gives (world.searchMatches .synthetic "e" (.category .expression) fragment .empty)
        (.unused 13) t (.unused 13) ∧ s.same t = true ∧ s.size = 3 := by
  have hwritten : ∀ c ∈ world.program.classes.values, ∀ n ∈ c.preorder,
      n.kind.isImplicitReceiver = false := by decide +kernel
  have hoverlay : ∀ e ∈ world.overlay, ∀ n ∈ e.node?, n.kind.isImplicitReceiver = false := by
    decide +kernel
  have hcompile : pattern.compile {} = .ok fragment := rfl
  have hinput : Bindings.empty.find? "e" = none := rfl
  -- the search is run to see how much the index leaves out
  obtain ⟨s, t, hs, ht, hsame⟩ := World.solveMatches_same_search (w := world) hcompile rfl hwritten
    hoverlay hinput (.category .expression) .synthetic (.unused 13)
  have hsize : Option.map Catalog.size (Except.toOption (ε := Failure)
      ((world.solveMatches .synthetic (.var "e" (.category .expression)) fragment .empty).run.run
        (.unused 13)).1) = some 3 := by decide +kernel
  rw [show StateT.run (ExceptT.run _) _ = _ from hs] at hsize
  exact ⟨by decide +kernel, by decide +kernel, s, t, hs, ht, hsame, Option.some.inj hsize⟩

end Reads

end CodeRules
