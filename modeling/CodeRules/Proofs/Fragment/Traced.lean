import CodeRules.Proofs.Binding.Merge
import CodeRules.Proofs.Code.Traced
import CodeRules.Proofs.Fragment.Generated
import CodeRules.Proofs.Fragment.Values
import CodeRules.Proofs.Fragment.Written

/-!
# What generated nodes are copies of

When the entities that a fragment spells out, and those its variables stand for, are traced, so is what
it generates, and every copy that is noted is linked to the node it was copied from
(`Fragment.leads_instantiate`).
-/

namespace CodeRules

open Effect

variable {given : Node → Prop}

/-! ### Bindings -/

/-- The variables stand for traced entities, and the copies that are noted are linked to what they
replace. -/
structure Bindings.Traced (given : Node → Prop) (a : Arena) (b : Bindings) : Prop where
  values : b.ValuesIn (Entity.Traced given a)
  linked : a.Fits → ∀ r ∈ b.replacements.toList, a.Link r.copy r.source

namespace Bindings

variable {a a' : Arena} {b : Bindings}

/-- Traced bindings stay traced. -/
theorem Traced.later (h : b.Traced given a) (ha : a.Later a') : b.Traced given a' where
  values n e he := (h.values n e he).later ha
  linked hfits r hr := ha.link (h.linked (ha.fits hfits) r hr)

/-- Dropping the result keeps bindings traced. -/
theorem Traced.withoutResult (h : b.Traced given a) : b.withoutResult.Traced given a :=
  ⟨h.values, h.linked⟩

/-- Forgetting variables keeps bindings traced. -/
theorem Traced.erase (h : b.Traced given a) (names : List String) : (b.erase names).Traced given a :=
  ⟨h.values.erase names, h.linked⟩

/-- The empty bindings are traced. -/
theorem traced_empty : empty.Traced given a := ⟨valuesIn_empty, fun _ _ hr => by cases hr⟩

/-- Binding and merging keep bindings traced. -/
theorem gathers_traced (given : Node → Prop) (a : Arena) :
    Gathers (Entity.Traced given a) (Traced given a) where
  empty := traced_empty
  ofResult e := ⟨valuesIn_ofResult e, fun _ _ hr => by cases hr⟩
  withoutResult hb := hb.withoutResult
  bind? {b c name e} hb he h := by
    refine ⟨hb.values.bind? he h, ?_⟩
    -- binding a variable notes no copies
    have hreplacements : c.replacements = b.replacements := by
      unfold Bindings.bind? at h
      split at h
      · exact Option.some.inj h ▸ rfl
      · split at h
        · split at h
          · exact Option.some.inj h ▸ rfl
          · cases h
        · exact Option.some.inj h ▸ rfl
    exact hreplacements ▸ hb.linked
  mergeWith? {b c d agree} hb hc h := by
    refine ⟨hb.values.mergeWith? hc.values h, fun hfits r hr => ?_⟩
    -- a merge has the noted copies of both sides
    unfold Bindings.mergeWith? at h
    split at h
    · rw [replacements_of_mergeInto? h, Catalog.mem_union_iff Replacement.injective_shape] at hr
      exact hr.elim (hb.linked hfits r) (hc.linked hfits r)
    · rw [replacements_of_mergeInto? h, Catalog.mem_union_iff Replacement.injective_shape] at hr
      exact hr.elim (hc.linked hfits r) (hb.linked hfits r)

/-- Binding a variable to a traced entity keeps bindings traced. -/
theorem Traced.bind (hb : b.Traced given a) {e : Entity} (he : e.Traced given a) (name : String) :
    (b.bind name e).Traced given a := (gathers_traced given a).bind hb he name

/-- Linked copies are noted. -/
theorem Traced.foldl_record (hb : b.Traced given a) {l : List Replacement}
    (hl : a.Fits → ∀ r ∈ l, a.Link r.copy r.source) : (l.foldl record b).Traced given a := by
  refine List.foldlRecOn (motive := Traced given a) l _ hb fun c hc r hr => ⟨hc.values, ?_⟩
  intro hfits x hx
  rcases Catalog.mem_of_mem_insert hx with rfl | hx
  · exact hl hfits x hr
  · exact hc.linked hfits x hx

end Bindings

/-! ### Workshops -/

namespace Workshop

variable {w w' w'' : Workshop}

/-- The copies that were noted are linked to their sources. -/
def Linked (w : Workshop) : Prop := w.arena.Fits → ∀ r ∈ w.copies, w.arena.Link r.copy r.source

/-- Nodes were made since, and if all copies were linked before they are now. -/
structure Later (w w' : Workshop) : Prop where
  arena : w.arena.Later w'.arena
  linked : w.Linked → w'.Linked

/-- A workshop is later than itself. -/
theorem Later.refl (w : Workshop) : w.Later w := ⟨.refl w.arena, fun h => h⟩

/-- What is later than a later workshop is later. -/
theorem Later.trans (h : w.Later w') (h' : w'.Later w'') : w.Later w'' :=
  ⟨h.arena.trans h'.arena, fun hw => h'.linked (h.linked hw)⟩

instance : Std.Refl Later := ⟨Later.refl⟩

instance : IsTrans Workshop Later := ⟨fun _ _ _ => Later.trans⟩

end Workshop

namespace Generating

variable {w : Workshop}

/-- A copy of a traced entity is traced, and it is noted with a link. -/
theorem leads_copy {e : Entity} (hgiven : ∀ n, given n → n.id.word < w.arena.base)
    (he : e.Traced given w.arena) :
    Leads Workshop.Later (copy e) w fun c w' => c.Traced given w'.arena := by
  obtain ⟨hlater, hc, hlink⟩ := e.leaves_copy_traced hgiven he
  refine ⟨⟨hlater, fun hw hfits r hr => ?_⟩, hc⟩
  rcases List.mem_append.1 hr with hr | hr
  · exact hlater.link (hw (hlater.fits hfits) r hr)
  · -- the copy is noted when both entities are nodes
    split at hr
    · rename_i source copied hsource hcopied
      obtain rfl := List.mem_singleton.1 hr
      exact hlink source hsource copied hcopied hfits
    · cases hr

/-- A node that is built from traced slots is traced. -/
theorem leads_build (tag : Tag) {slots : List Entity} (h : ∀ e ∈ slots, e.Traced given w.arena) :
    Leads Workshop.Later (build tag slots) w fun e w' => e.Traced given w'.arena := by
  unfold build
  split
  · rename_i kind hkind
    have hchildren : w.arena.Fits → ∀ c ∈ kind.children, ∀ m ∈ c.preorder,
        w.arena.Traced given m := by
      intro hfits c hc m hm
      obtain ⟨e, he, hm⟩ := List.mem_flatMap.1 ((NodeKind.children_sublist_of_ofSlots hkind).subset
        (List.mem_flatMap.2 ⟨c, hc, hm⟩))
      exact h e he hfits m hm
    obtain ⟨hlater, hn⟩ := Node.leaves_make_traced hchildren
    exact ⟨⟨hlater, fun hw hfits r hr => hlater.link (hw (hlater.fits hfits) r hr)⟩, hn⟩
  · exact leads_throw trivial
  · exact leads_throw trivial

end Generating

/-! ### Fragments -/

namespace Fragment

open Generating

variable {types : TypeOracle} {b : Bindings} {w : Workshop}

/-- What is generated from traced entities is traced. -/
private def Generates (given : Node → Prop) (types : TypeOracle) (b : Bindings) (f : Fragment) : Prop :=
  ∀ w : Workshop, (∀ n, given n → n.id.word < w.arena.base) →
    b.ValuesIn (Entity.Traced given w.arena) → (∀ e ∈ f.constants, e.Traced given w.arena) →
    Leads Workshop.Later (f.generate types b) w fun e w' => e.Traced given w'.arena

section

variable (hgiven : ∀ n, given n → n.id.word < w.arena.base)
  (hb : b.ValuesIn (Entity.Traced given w.arena))
include hgiven hb

/-- A variable generates a traced copy. -/
private theorem leads_generateVar (name : String) (type : ParamType) :
    Leads Workshop.Later (generateVar types b name type) w fun e w' => e.Traced given w'.arena := by
  unfold generateVar
  split
  · exact leads_throw trivial
  · exact leads_copy hgiven (Entity.traced_of_nodes_eq_nil rfl)
  · rename_i e _ he
    split
    · exact leads_copy hgiven (hb name e he)
    · exact leads_throw trivial

/-- Several fragments generate traced entities, one after the other. -/
private theorem leads_generateAll {fs : List Fragment} (h : ∀ f ∈ fs, Generates given types b f)
    (hfs : ∀ e ∈ constantsAll fs, e.Traced given w.arena) :
    Leads Workshop.Later (generateAll types b fs) w fun es w' =>
      ∀ e ∈ es, e.Traced given w'.arena := by
  induction fs generalizing w with
  | nil => exact leads_pure fun _ he => absurd he List.not_mem_nil
  | cons f fs ih =>
    rw [generateAll]
    have hf : ∀ e ∈ f.constants, e.Traced given w.arena := fun e he =>
      hfs e (List.mem_append_left _ he)
    refine leads_bind (h f (List.mem_cons_self ..) w hgiven hb hf) fun e w₁ h₁ he => ?_
    refine leads_bind (ih (fun n hn => h₁.arena.base ▸ hgiven n hn)
      (fun n x hx => (hb n x hx).later h₁.arena) (fun g hg => h g (List.mem_cons_of_mem _ hg))
      fun x hx => (hfs x (List.mem_append_right _ hx)).later h₁.arena) fun es w₂ h₂ hes => ?_
    exact leads_pure (List.forall_mem_cons.2 ⟨he.later h₂.arena, hes⟩)

/-- A fragment that may be missing generates a traced entity or nothing. -/
private theorem leads_generateOpt {o : Option Fragment} (h : ∀ f ∈ o, Generates given types b f)
    (ho : ∀ e ∈ constantsOpt o, e.Traced given w.arena) :
    Leads Workshop.Later (generateOpt types b o) w fun es w' =>
      ∀ e ∈ es, e.Traced given w'.arena := by
  cases o with
  | none => exact leads_pure fun _ he => absurd he List.not_mem_nil
  | some f =>
    rw [generateOpt]
    refine leads_bind (h f rfl w hgiven hb ho) fun e w₁ _ he => leads_pure ?_
    exact List.forall_mem_singleton.2 he

omit hb hgiven in
/-- An access to a field with a traced receiver is traced. -/
private theorem leads_generateAccess {receiver field : Entity}
    (hreceiver : receiver.Traced given w.arena) :
    Leads Workshop.Later (generateAccess receiver field) w fun e w' => e.Traced given w'.arena := by
  have hname (s : String) : (Entity.name s).Traced given w.arena := Entity.traced_of_nodes_eq_nil rfl
  unfold generateAccess
  split
  · rename_i name
    split
    · exact leads_build .name (List.forall_mem_singleton.2 (hname name))
    · exact leads_build .fieldAccess
        (List.forall_mem_cons.2 ⟨hreceiver, List.forall_mem_singleton.2 (hname name)⟩)
  · exact leads_throw trivial

end

/-- All fragments generate traced entities. -/
private theorem generates (f : Fragment) : Generates given types b f := by
  induction f using Fragment.induction with
  | wildcard => exact fun _ _ _ _ => leads_throw trivial
  | empty => exact fun _ _ _ _ => leads_pure (Entity.traced_of_nodes_eq_nil rfl)
  | resolved e => exact fun _ hgiven _ he => leads_copy hgiven (he e (List.mem_singleton_self e))
  | var name type => exact fun _ hgiven hb _ => leads_generateVar hgiven hb name type
  -- every node of a list is a node of one of its items
  | ordered items ih =>
    intro w hgiven hb hitems
    rw [generate]
    refine leads_bind (leads_generateAll hgiven hb ih hitems) fun es w₁ _ hes => leads_pure ?_
    intro hfits n hn
    rw [Entity.nodes, Entity.nodesAll_eq_flatMap] at hn
    obtain ⟨e, he, hn⟩ := List.mem_flatMap.1 hn
    exact hes e he hfits n hn
  | unordered access fixed rest iha ihf ihr =>
    intro w hgiven hb hparts
    rw [generate]
    simp only [constants, List.forall_mem_append] at hparts
    obtain ⟨⟨haccess, hfixed⟩, hrest⟩ := hparts
    -- what was made for one group stays traced while the next one is made
    refine leads_bind (leads_generateOpt hgiven hb iha haccess) fun first w₁ h₁ hfirst => ?_
    have hgiven₁ : ∀ n, given n → n.id.word < w₁.arena.base := fun n hn =>
      h₁.arena.base ▸ hgiven n hn
    have hb₁ : b.ValuesIn (Entity.Traced given w₁.arena) := fun n x hx => (hb n x hx).later h₁.arena
    refine leads_bind (leads_generateAll hgiven₁ hb₁ ihf fun e he =>
      (hfixed e he).later h₁.arena) fun middle w₂ h₂ hmiddle => ?_
    refine leads_bind (leads_generateOpt (fun n hn => h₂.arena.base ▸ hgiven₁ n hn)
      (fun n x hx => (hb₁ n x hx).later h₂.arena) ihr fun e he =>
        (hrest e he).later (h₁.arena.trans h₂.arena)) fun last w₃ h₃ hlast => leads_pure ?_
    intro hfits n hn
    -- an entity of the set comes from one of the groups
    obtain ⟨e, he, hn⟩ := Entity.nodes_ofSetParts hn
    have hparts : e.Traced given w₃.arena := by
      rcases List.mem_append.1 he with he | he
      · rcases List.mem_append.1 he with he | he
        · exact (hfirst e he).later (h₂.arena.trans h₃.arena)
        · exact (hmiddle e he).later h₃.arena
      · exact hlast e he
    exact hparts hfits n hn
  | node tag slots ih =>
    intro w hgiven hb hslots
    rw [generate]
    exact leads_bind (leads_generateAll hgiven hb ih hslots) fun es w₁ _ hes => leads_build tag hes
  | fieldAccess receiver field asTarget ihr ihf =>
    intro w hgiven hb hparts
    rw [generate]
    obtain ⟨hreceiver, hfield⟩ := List.forall_mem_append.1 hparts
    refine leads_bind (ihr w hgiven hb hreceiver) fun owner w₁ h₁ howner => ?_
    refine leads_bind (ihf w₁ (fun n hn => h₁.arena.base ▸ hgiven n hn)
      (fun n x hx => (hb n x hx).later h₁.arena) fun e he => (hfield e he).later h₁.arena)
      fun name w₂ h₂ _ => ?_
    exact leads_generateAccess (howner.later h₂.arena)
  | fieldAssign target value iht ihv =>
    intro w hgiven hb hparts
    rw [generate]
    obtain ⟨htarget, hvalue⟩ := List.forall_mem_append.1 hparts
    refine leads_bind (iht w hgiven hb htarget) fun left w₁ h₁ hleft => ?_
    refine leads_bind (ihv w₁ (fun n hn => h₁.arena.base ▸ hgiven n hn)
      (fun n x hx => (hb n x hx).later h₁.arena) fun e he => (hvalue e he).later h₁.arena)
      fun right w₂ h₂ hright => ?_
    exact leads_build .assign
      (List.forall_mem_cons.2 ⟨hleft.later h₂.arena, List.forall_mem_singleton.2 hright⟩)

private theorem result_foldl_record (l : List Replacement) (b : Bindings) :
    (l.foldl Bindings.record b).result = b.result :=
  List.foldlRecOn (motive := fun c : Bindings => c.result = b.result) l _ rfl fun _ hc _ _ => hc

/-- The entity that is generated from traced entities is traced, and the copies made for it are noted
and linked. -/
theorem leads_instantiate {f : Fragment} (hgiven : ∀ n, given n → n.id.word < w.arena.base)
    (hb : b.Traced given w.arena) (hf : ∀ e ∈ f.constants, e.Traced given w.arena) (hw : w.Linked) :
    Leads Workshop.Later (f.instantiate types b) w fun made w' =>
      made.Traced given w'.arena ∧ ∀ e ∈ made.result, e.Traced given w'.arena := by
  refine leads_get_bind (leads_bind (generates f w hgiven hb.values hf) fun e w₁ h₁ he => ?_)
  refine leads_get_bind (leads_pure ?_)
  have hb₁ := hb.later h₁.arena
  have hmade : Bindings.Traced given w₁.arena { b with result := some e } := ⟨hb₁.values, hb₁.linked⟩
  refine ⟨hmade.foldl_record fun hfits r hr => ?_, fun x hx => ?_⟩
  · exact h₁.linked hw hfits r (List.mem_of_mem_drop hr)
  · rw [result_foldl_record] at hx
    exact Option.some.inj hx ▸ he

end Fragment

end CodeRules
