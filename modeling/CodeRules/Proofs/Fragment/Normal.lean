import CodeRules.Proofs.Binding.Normal
import CodeRules.Proofs.Fragment.Relabel
import CodeRules.Proofs.Program.Normal

/-!
# Recognizing normal forms

A fragment recognizes an entity exactly when it recognizes the normal form, and finds the normal forms
of what it finds in the entity (`Fragment.recognize_normal`). So what a fragment recognizes does not
depend on the numbers of made nodes.
-/

namespace CodeRules

/-! ### Parts of uniform entities -/

namespace Entity

variable {base : UInt32}

/-- The items of a uniform list are uniform. -/
theorem Uniform.item {items : List Entity} (h : (Entity.list items).Uniform base) {e : Entity}
    (he : e ∈ items) : e.Uniform base := by
  refine h.of_subset fun n hn => ?_
  rw [nodes, nodesAll_eq_flatMap]
  exact List.mem_flatMap.2 ⟨e, he, hn⟩

end Entity

namespace NodeKind

/-- The nodes of a slot are those of children. -/
theorem nodes_of_mem_slots {k : NodeKind Node} {e : Entity} (he : e ∈ k.slots) {m : Node}
    (hm : m ∈ e.nodes) : ∃ c ∈ k.children, m ∈ c.preorder := by
  have hnodes (ns : List Node) : (Entity.ofNodes ns).nodes = ns.flatMap Node.preorder := by
    rw [Entity.ofNodes, Entity.nodes, Entity.nodesAll_eq_flatMap, List.flatMap_map]
    rfl
  have hmodifiers (ms : List Modifier) : (Entity.ofModifiers ms).nodes = [] := by
    rw [Entity.ofModifiers, Entity.nodes, Entity.nodesAll_eq_flatMap, List.flatMap_map]
    exact List.flatMap_eq_nil_iff.2 fun _ _ => rfl
  have hnode (n : Option Node) : (Entity.ofNode? n).nodes = n.toList.flatMap Node.preorder := by
    cases n with
    | none => rfl
    | some n => simp [Entity.ofNode?, Entity.nodes]
  have htype (t : Option CodeType) : ((t.map Entity.type).getD .empty).nodes = [] := by
    cases t <;> rfl
  cases k <;> simp only [slots, children, List.mem_cons, List.not_mem_nil, or_false] at he ⊢ <;>
    grind [Entity.nodes, Entity.name]

end NodeKind

/-- The slots of a uniform node are uniform. -/
theorem Entity.Uniform.slot {base : UInt32} {n : Node} (h : (Entity.node n).Uniform base)
    {e : Entity} (he : e ∈ n.kind.slots) : e.Uniform base := by
  refine h.of_subset fun m hm => ?_
  obtain ⟨c, hc, hm⟩ := NodeKind.nodes_of_mem_slots he hm
  rw [nodes, Node.preorder_eq]
  exact List.mem_cons_of_mem _ (List.mem_flatMap.2 ⟨c, hc, hm⟩)

/-! ### Recognizing -/

namespace Program.Below

variable {base : UInt32} {p : Program}

/-- Recognizing uniform entities finds uniform entities. -/
theorem closes_uniform (hp : p.Below base) : p.surroundings.Closes (Entity.Uniform base) where
  empty := Entity.uniform_of_nodes_eq_nil rfl
  item h he := h.item he
  slot h he := h.slot he
  receiver {n} hn := by
    unfold Surroundings.implicitReceiver
    split
    · rename_i m hm
      -- the receiver stands for the class around the node, at the place of the node
      rcases hn.root with hread | hmade
      · left
        intro k hk
        rw [Entity.nodes, Node.preorder_eq] at hk
        obtain rfl := List.mem_singleton.1 hk
        exact hread
      -- made nodes stand nowhere
      · rw [show p.surroundings.enclosing? n.id = none from hp.enclosing _ hmade.2] at hm
        cases hm
    · exact Entity.uniform_of_nodes_eq_nil rfl

/-- What is known about a uniform entity is known about its normal form. -/
theorem ignores_normal (hp : p.Below base) :
    p.surroundings.Ignores (.normal base) (Entity.Uniform base) :=
  ignores_surroundings fun _ hn => hp.blind hn.root

end Program.Below

namespace Fragment

variable {base : UInt32} {p : Program} {f : Fragment} {e : Entity}

/-- Recognizing a normal form finds the normal forms of what recognizing the entity finds. -/
theorem recognize_normal (hp : p.Below base) (f : Fragment) (he : e.Uniform base) :
    f.recognize p.surroundings (e.normal base) =
      (f.recognize p.surroundings e).map (Option.map (Bindings.normal base)) := by
  have hfollows := f.recognize_relabel hp.closes_uniform hp.ignores_normal he
  rw [Entity.normal_eq_relabel, Bindings.normal_eq_relabel, hfollows]
  cases f.recognize p.surroundings e <;> rfl

/-- What is recognized in a uniform entity is uniform. -/
theorem uniform_of_recognize (hp : p.Below base) (he : e.Uniform base) {m : Bindings}
    (h : f.recognize p.surroundings e = .ok (some m)) : m.withoutResult.Uniform base where
  vars n x hx := valuesIn_of_recognize hp.closes_uniform he h n x hx
  result _ hresult := by cases hresult

end Fragment

end CodeRules
