import CodeRules.Proofs.Code.Parallel
import CodeRules.Proofs.Program.Relabel

/-!
# Generating from twin arenas

From twin arenas a fragment generates entities that are the same after blurring, or fails with one
message (`Fragment.parallel_generate`): neither depends on which numbers are given out, as long as the
program knows none of them.
-/

namespace CodeRules

open Effect

variable {first : Nat} {p : Program}

/-- The program says nothing about the numbers from `first` on. -/
def Program.UnknownFrom (p : Program) (first : Nat) : Prop :=
  ∀ i : NodeId, first ≤ i.word.toNat → p.Unknown i

/-- A program that knows no numbers from some number on knows none from a later one on. -/
theorem Program.UnknownFrom.mono {later : Nat} (hp : p.UnknownFrom first) (h : first ≤ later) :
    p.UnknownFrom later := fun i hi => hp i (Nat.le_trans h hi)

/-- Blurring a node changes nothing that the program knows of. -/
theorem Program.UnknownFrom.blind (hp : p.UnknownFrom first) (n : Node) : p.Blind (.blur first) n := by
  rw [Blind, Node.id_relabel, Relabeling.place_blur]
  split
  · rename_i hn
    refine .inr ⟨hp _ hn.2, hp _ ?_⟩
    have hsmall : first < UInt32.size := Nat.lt_of_le_of_lt hn.2 n.id.word.toNat_lt_size
    show first ≤ (UInt32.ofNat first).toNat
    rw [UInt32.toNat_ofNat_of_lt' hsmall]
  · exact .inl rfl

/-- The type of a variable accepts blurred entities alike. -/
theorem Program.UnknownFrom.accepts (hp : p.UnknownFrom first) (type : ParamType) (e : Entity) :
    type.accepts p.types (e.relabel (.blur first)) = type.accepts p.types e :=
  p.accepts_relabel (fun n _ => hp.blind n) type

/-- What the type of a variable takes does not depend on the numbers from `first` on. -/
theorem Program.UnknownFrom.accepts_eq (hp : p.UnknownFrom first) (type : ParamType) {e e' : Entity}
    (h : e.relabel (.blur first) = e'.relabel (.blur first)) :
    type.accepts p.types e = type.accepts p.types e' := by
  rw [← hp.accepts, h, hp.accepts]

namespace Generating

/-- What there is to see of a failure: the report of it. -/
def reported (e : GenerateError) : Span → Failure := fun span => e.failure span

/-- Failures for one fault with one message are reported alike. -/
private theorem reported_eq {e e' : GenerateError} (fault : Fault)
    (he : ∀ span, e.failure span = .user [(Diagnostic.error fault e.message).atSpan span])
    (he' : ∀ span, e'.failure span = .user [(Diagnostic.error fault e'.message).atSpan span])
    (h : e.message = e'.message) : reported e = reported e' := by
  funext span
  rw [reported, reported, he, he', h]

/-- A type mismatch is reported by the text of the entity, which shows no numbers. -/
theorem reported_typeMismatch {e e' : Entity} {ρ : Relabeling} (h : e.relabel ρ = e'.relabel ρ)
    (name : String) (type : ParamType) :
    reported (.typeMismatch name e type) = reported (.typeMismatch name e' type) := by
  refine reported_eq .typeMismatch (fun _ => rfl) (fun _ => rfl) ?_
  unfold GenerateError.message
  dsimp only
  rw [Entity.toString_eq_of_relabel h]

/-- A bad name of a field is reported by its text, which shows no numbers. -/
theorem reported_fieldName {e e' : Entity} {ρ : Relabeling} (h : e.relabel ρ = e'.relabel ρ) :
    reported (.fieldName e) = reported (.fieldName e') := by
  refine reported_eq .typeMismatch (fun _ => rfl) (fun _ => rfl) ?_
  unfold GenerateError.message
  dsimp only
  rw [Entity.toString_eq_of_relabel h]

/-- A bad slot is reported by its message. -/
theorem reported_slot {e e' : SlotError} (h : e.message = e'.message) (tag : Tag) :
    reported (.slot tag e) = reported (.slot tag e') := by
  refine reported_eq .typeMismatch (fun _ => rfl) (fun _ => rfl) ?_
  unfold GenerateError.message
  dsimp only
  rw [h]

/-- Computations that generate from twin arenas. -/
abbrev Parallel {α β : Type} (first : Nat) (view : α → β) (x y : Generating α) : Prop :=
  CodeRules.Parallel Workshop.arena first reported view x y

/-- Looking at the workshop changes nothing. -/
theorem parallel_get : Parallel first (fun _ => ()) (get : Generating Workshop) get where
  grows _ := .refl _
  alike _ _ htwin _ := ⟨htwin, rfl⟩

/-- Nodes that are made of the same parts are the same after blurring. -/
theorem parallel_make {kind kind' : NodeKind Node}
    (h : kind.map (Node.relabel (.blur first)) = kind'.map (Node.relabel (.blur first))) :
    Parallel first (Entity.relabel (.blur first)) (make kind) (make kind') where
  grows w := ⟨1, w.arena.grownBy_alloc rfl⟩
  alike w w' htwin hfits := by
    obtain ⟨hgrown, hmade⟩ := Node.leaves_make_blur first (p := {}) rfl kind w.arena
    obtain ⟨hgrown', hmade'⟩ := Node.leaves_make_blur first (p := {}) rfl kind' w'.arena
    have htwin' := htwin.grow hgrown hgrown'
    refine ⟨htwin', congrArg Entity.node ?_⟩
    exact (hmade htwin.first_le (htwin'.fits hfits)).trans
      ((h ▸ hmade' htwin.first_le_right hfits).symm)

/-- Copies of entities that are the same after blurring are so too. -/
theorem parallel_copy {e e' : Entity} (h : e.relabel (.blur first) = e'.relabel (.blur first)) :
    Parallel first (Entity.relabel (.blur first)) (copy e) (copy e') where
  grows w := ⟨_, e'.leaves_copy_grownBy w.arena⟩
  alike w w' htwin hfits := by
    obtain ⟨hgrown, hmade⟩ := e.leaves_copy_blur first w.arena
    obtain ⟨hgrown', hmade'⟩ := e'.leaves_copy_blur first w'.arena
    -- both copies take equally many numbers, so the arenas stay twins
    have hlength : e'.nodes.length = e.nodes.length := by
      simpa using congrArg (fun e => (Entity.nodes e).length) h.symm
    have hremade : e.remade (UInt32.ofNat first) = e'.remade (UInt32.ofNat first) := by
      rw [← e.remade_relabel (.blur first), h, e'.remade_relabel]
    have htwin' := htwin.grow hgrown (hlength ▸ hgrown')
    refine ⟨htwin', ?_⟩
    exact ((hmade htwin.first_le (htwin'.fits hfits)).trans hremade).trans
      (hmade' htwin.first_le_right hfits).symm

/-- Building from slots that are the same after blurring. -/
theorem parallel_build (tag : Tag) {slots slots' : List Entity}
    (h : slots.map (Entity.relabel (.blur first)) = slots'.map (Entity.relabel (.blur first))) :
    Parallel first (Entity.relabel (.blur first)) (build tag slots) (build tag slots') := by
  have hslots := NodeKind.ofSlots_relabel (.blur first) tag slots
  have hslots' := NodeKind.ofSlots_relabel (.blur first) tag slots'
  -- what is made of the blurred slots follows what is made of either list of slots
  rw [← h, Except.Follows, hslots] at hslots'
  unfold build
  -- both kinds of slots fit, or neither does
  cases hkind : NodeKind.ofSlots tag slots with
  | ok kind =>
    cases hkind' : NodeKind.ofSlots tag slots' with
    | ok kind' =>
      rw [hkind, hkind'] at hslots'
      exact parallel_make (Except.ok.inj hslots')
    | error e' =>
      rw [hkind, hkind'] at hslots'
      cases hslots'
  | error e =>
    cases hkind' : NodeKind.ofSlots tag slots' with
    | ok kind' =>
      rw [hkind, hkind'] at hslots'
      cases hslots'
    | error e' =>
      rw [hkind, hkind'] at hslots'
      have herror : e.relabel (.blur first) = e'.relabel (.blur first) := Except.error.inj hslots'
      have hmessage : e.message = e'.message := by
        rw [← e.message_relabel (.blur first), herror, e'.message_relabel]
      -- both errors are of the same kind, and say the same
      cases e with
      | count =>
        cases e' with
        | count =>
          obtain ⟨rfl, rfl⟩ := SlotError.count.inj herror
          exact parallel_throw rfl
        | kind => cases herror
      | kind =>
        cases e' with
        | count => cases herror
        | kind => exact parallel_throw (reported_slot hmessage tag)

end Generating

namespace Fragment

variable {b b' : Bindings}

/-- A variable generates what is the same after blurring. -/
private theorem parallel_generateVar (hp : p.UnknownFrom first)
    (h : b.relabel (.blur first) = b'.relabel (.blur first)) (name : String) (type : ParamType) :
    Generating.Parallel first (Entity.relabel (.blur first)) (generateVar p.types b name type)
      (generateVar p.types b' name type) := by
  have hfind := congrArg (fun b => b.find? name) h
  simp only [Bindings.find?_relabel] at hfind
  unfold generateVar
  cases he : b.find? name with
  | none =>
    rw [he, Option.map_none, eq_comm, Option.map_eq_none_iff] at hfind
    rw [hfind]
    exact parallel_throw rfl
  | some e =>
    rw [he, Option.map_some, eq_comm, Option.map_eq_some_iff] at hfind
    obtain ⟨e', he', heq⟩ := hfind
    rw [he']
    -- the type accepts both entities or none, and the message shows no numbers
    have hbound : Generating.Parallel first (Entity.relabel (.blur first))
        (if type.accepts p.types e then Generating.copy e else throw (.typeMismatch name e type))
        (if type.accepts p.types e' then Generating.copy e'
          else throw (.typeMismatch name e' type)) := by
      rw [hp.accepts_eq type heq]
      split
      · exact Generating.parallel_copy heq.symm
      · exact parallel_throw (Generating.reported_typeMismatch heq.symm name type)
    cases e <;> cases e' <;>
      first | exact hbound | exact Generating.parallel_copy rfl | cases heq

/-- An access to a field is generated of parts that are the same after blurring. -/
private theorem parallel_generateAccess {owner owner' field field' : Entity}
    (howner : owner.relabel (.blur first) = owner'.relabel (.blur first))
    (hfield : field.relabel (.blur first) = field'.relabel (.blur first)) :
    Generating.Parallel first (Entity.relabel (.blur first)) (generateAccess owner field)
      (generateAccess owner' field') := by
  have hthrow : Generating.Parallel first (Entity.relabel (.blur first))
      (throw (.fieldName field)) (throw (.fieldName field')) :=
    parallel_throw (Generating.reported_fieldName hfield)
  have hunwritten : owner.isUnwritten = owner'.isUnwritten := by
    rw [← owner.isUnwritten_relabel (.blur first), howner, owner'.isUnwritten_relabel]
  unfold generateAccess
  -- a field is named by a name only
  cases field with
  | value v =>
    cases field' with
    | value v' =>
      obtain rfl := Entity.value.inj hfield
      cases v with
      | name s =>
        dsimp only
        rw [hunwritten]
        split
        · exact Generating.parallel_build .name rfl
        · exact Generating.parallel_build .fieldAccess (by simp only [List.map_cons, howner])
      | _ => exact hthrow
    | _ => cases hfield
  | _ => cases field' <;> first | exact hthrow | cases hfield

/-- Several fragments generate what is the same after blurring, one by one. -/
private theorem parallel_generateAll {types : TypeOracle} {fs : List Fragment}
    (h : ∀ f ∈ fs, Generating.Parallel first (Entity.relabel (.blur first)) (f.generate types b)
      (f.generate types b')) :
    Generating.Parallel first (List.map (Entity.relabel (.blur first))) (generateAll types b fs)
      (generateAll types b' fs) := by
  induction fs with
  | nil => exact parallel_pure rfl
  | cons f fs ih =>
    rw [generateAll, generateAll]
    refine parallel_bind (h f (List.mem_cons_self ..)) fun e e' he => ?_
    refine parallel_bind (ih fun g hg => h g (List.mem_cons_of_mem _ hg)) fun es es' hes => ?_
    exact parallel_pure (by rw [List.map_cons, List.map_cons, he, hes])

/-- A fragment that may be missing generates what is the same after blurring, or nothing. -/
private theorem parallel_generateOpt {types : TypeOracle} {o : Option Fragment}
    (h : ∀ f ∈ o, Generating.Parallel first (Entity.relabel (.blur first)) (f.generate types b)
      (f.generate types b')) :
    Generating.Parallel first (List.map (Entity.relabel (.blur first))) (generateOpt types b o)
      (generateOpt types b' o) := by
  cases o with
  | none => exact parallel_pure rfl
  | some f =>
    rw [generateOpt, generateOpt]
    exact parallel_bind (h f rfl) fun e e' he => parallel_pure (congrArg (fun e => [e]) he)

/-- From twin arenas a fragment generates what is the same after blurring, or fails with one
message. -/
theorem parallel_generate (hp : p.UnknownFrom first)
    (h : b.relabel (.blur first) = b'.relabel (.blur first)) (f : Fragment) :
    Generating.Parallel first (Entity.relabel (.blur first)) (f.generate p.types b)
      (f.generate p.types b') := by
  induction f using Fragment.induction with
  | wildcard => exact parallel_throw rfl
  | empty => exact parallel_pure rfl
  | resolved e => exact Generating.parallel_copy rfl
  | var name type => exact parallel_generateVar hp h name type
  | ordered items ih =>
    rw [generate, generate]
    refine parallel_bind (parallel_generateAll ih) fun es es' hes => parallel_pure ?_
    rw [Entity.relabel, Entity.relabel, Entity.relabelAll_eq_map, Entity.relabelAll_eq_map, hes]
  -- the parts of a set are made in parallel, group by group
  | unordered access fixed rest iha ihf ihr =>
    rw [generate, generate]
    refine parallel_bind (parallel_generateOpt iha) fun first first' hfirst => ?_
    refine parallel_bind (parallel_generateAll ihf) fun middle middle' hmiddle => ?_
    refine parallel_bind (parallel_generateOpt ihr) fun last last' hlast => parallel_pure ?_
    rw [← Entity.ofSetParts_relabel, ← Entity.ofSetParts_relabel]
    simp only [List.map_append, hfirst, hmiddle, hlast]
  | node tag slots ih =>
    rw [generate, generate]
    exact parallel_bind (parallel_generateAll ih) fun es es' hes =>
      Generating.parallel_build tag hes
  | fieldAccess receiver field asTarget ihr ihf =>
    rw [generate, generate]
    refine parallel_bind ihr fun owner owner' howner => ?_
    exact parallel_bind ihf fun name name' hname => parallel_generateAccess howner hname
  | fieldAssign target value iht ihv =>
    rw [generate, generate]
    refine parallel_bind iht fun left left' hleft => ?_
    refine parallel_bind ihv fun right right' hright => Generating.parallel_build .assign ?_
    simp only [List.map_cons, hleft, hright, List.map_nil]

/-- The bindings are extended by entities that are the same after blurring. -/
theorem parallel_instantiate (hp : p.UnknownFrom first)
    (h : b.relabel (.blur first) = b'.relabel (.blur first)) (f : Fragment) :
    Generating.Parallel first (Bindings.relabel (.blur first)) (f.instantiate p.types b)
      (f.instantiate p.types b') := by
  -- the record of copies does not count
  have hrecord (b : Bindings) (made : List Replacement) :
      (made.foldl Bindings.record b).relabel (.blur first) = b.relabel (.blur first) := by
    induction made generalizing b with
    | nil => rfl
    | cons r made ih => exact ih (b.record r)
  unfold instantiate
  refine parallel_bind Generating.parallel_get fun w w' _ => ?_
  refine parallel_bind (parallel_generate hp h f) fun e e' he => ?_
  refine parallel_bind Generating.parallel_get fun w₁ w₁' _ => parallel_pure ?_
  rw [hrecord, hrecord]
  have hvars : (b.relabel (.blur first)).vars = (b'.relabel (.blur first)).vars :=
    congrArg Bindings.vars h
  exact Bindings.ext hvars (congrArg some he) rfl

end Fragment

end CodeRules
