import CodeRules.Proofs.Table.Closed

/-!
# Passes of plain statements

Passes keep a table uniform, and go on until they settle all statements
(`Running.settled_of_runPasses`). They stay within every larger store in which all statements are settled
(`Running.includes_of_runPasses`).
-/

namespace CodeRules

open Effect

variable {base : UInt32}

/-- Every tuple of the store is such as `H` says for the name of its relation. -/
def Store.All (H : String → Tuple → Prop) (s : Store) : Prop :=
  ∀ n r, s.find? n = some r → ∀ u ∈ r.tuples.toList, H n u

/-- Equal tuples are such as `H` says, or none of them is. -/
def Tuple.Respects (H : String → Tuple → Prop) : Prop :=
  ∀ n u v, u.shape = v.shape → H n u → H n v

/-- To be included is to hold tuples of another store only. -/
theorem Store.includes_of_all {S T : Store} {n : String}
    (h : S.All fun n u => ∀ r, T.find? n = some r → r.contains u = true) : S.Includes T n :=
  fun r r' hr hr' u hu => h n r hr u hu r' hr'

/-! ### Running plain statements -/

namespace Running

variable {t t' : Table} {r : Realization} {g : Goal} {s : Signature} {b : Bindings}

/-- One run of a plain statement keeps the table uniform. Its solutions are the answers to its goal. -/
theorem uniform_of_runPlain {k : Nat} (ht : t.Uniform base) (hg : g.Uniform base)
    (h : Gives (runPlain r g) t k t') (hfits : t'.Fits base) :
    t'.Uniform base ∧ ∃ found, t.Gains r.names (Concluded t.program.types r found) t' ∧
      found.Uniform base ∧ g.answers base t.world (t.globals.normal base) = some (found.normal base) := by
  obtain ⟨found, hsolve, hgains, _⟩ := gives_runPlain h
  obtain ⟨huniform, hanswers⟩ :=
    Goal.answers_of_gives ht.world ht.store hg ht.globals ht.arena hsolve hfits
  refine ⟨hgains.uniform ht fun u hu => ?_, found, hgains, huniform, hanswers⟩
  obtain ⟨b, hb, s, _, hu⟩ := hu
  exact Tuple.uniform_of_ofSolution (huniform b hb) hu

/-- A statement under which a uniform table is closed is settled. -/
theorem settled_of_closed {start : Arena} (ht : t.Uniform base) (hg : g.Uniform base)
    (hstart : start.Undeclared base) (hfits : t.Fits base) (h : t.Closed start r g) :
    r.Settled base t.world (t.globals.normal base) g := by
  obtain ⟨found, a, a', hgrown, hsolve, hgrown', hheld⟩ := h
  have hfits' : base.toNat + a'.size ≤ UInt32.size :=
    Nat.le_trans (Nat.add_le_add_left hgrown'.size_le _) hfits
  obtain ⟨huniform, hanswers⟩ := Goal.answers_of_gives ht.world ht.store hg ht.globals
    (hgrown.undeclared hstart) hsolve hfits'
  refine ⟨_, hanswers, fun b hb s hs => ?_⟩
  obtain ⟨c, hc, rfl⟩ := List.mem_map.1 hb
  obtain ⟨u, hu, hholds⟩ := hheld c hc s hs
  refine ⟨u.normal base, Tuple.ofSolution_normal ht.world.program (huniform c hc) hu, ?_⟩
  rw [Tuple.holds_congr u.shape_normal]
  exact hholds

/-- What a statement concludes in the table is such as `H` says. -/
def ConcludesOnly (base : UInt32) (t : Table) (r : Realization) (g : Goal)
    (H : String → Tuple → Prop) : Prop :=
  ∀ c, g.Solution base t.world (t.globals.normal base) c → ∀ s ∈ r.signatures, ∀ u,
    Tuple.ofSolution t.program.types s c = .ok u → H u.signature.name u

/-- What holds of the tuples of a store and of the conclusions of a statement holds of the tuples after
the statement was run. -/
theorem all_of_runPlain {H : String → Tuple → Prop} {k : Nat} (ht : t.Uniform base)
    (hg : g.Uniform base) (hH : Tuple.Respects H) (h : Gives (runPlain r g) t k t') (hfits : t'.Fits base)
    (hall : t.store.All H) (hstep : ConcludesOnly base t r g H) : t'.store.All H := by
  obtain ⟨_, found, hgains, huniform, hanswers⟩ := uniform_of_runPlain ht hg h hfits
  intro n rel' hrel' u hu
  rcases hgains.only n rel' hrel' u hu with ⟨rel, hrel, hu⟩ | ⟨⟨b, hb, s, hs, hu⟩, rfl⟩
  · exact hall n rel hrel u hu
  · -- the normal form of the solution solves the goal, and gives an equal tuple
    have hsolution : g.Solution base t.world (t.globals.normal base) (b.normal base) := by
      rw [← Goal.mem_answers_iff ht.world ht.store hg ht.globals.isNormal hanswers]
      exact List.mem_map_of_mem hb
    have hnormal := hstep _ hsolution s hs _ (Tuple.ofSolution_normal ht.world.program (huniform b hb) hu)
    exact hH _ _ u u.shape_normal hnormal

/-! ### Passes -/

variable {members : List (Realization × Goal)} {names : List String}

/-- All goals are uniform, and all statements realize relations among the names. -/
structure Members (base : UInt32) (names : List String) (members : List (Realization × Goal)) :
    Prop where
  uniform : ∀ m ∈ members, m.2.Uniform base
  names : ∀ m ∈ members, ∀ n ∈ m.1.names, n ∈ names

/-- The other members. -/
theorem Members.tail {m : Realization × Goal} (h : Members base names (m :: members)) :
    Members base names members :=
  ⟨fun k hk => h.uniform k (List.mem_cons_of_mem _ hk), fun k hk => h.names k (List.mem_cons_of_mem _ hk)⟩

/-- The goals of a part in a uniform table are uniform. -/
theorem GoalsOf.isMembers {part : List Planned} (h : GoalsOf t (part.map Planned.statement) members)
    (ht : t.Uniform base) (hbodies : ∀ s ∈ part, ∀ x ∈ s.statement.body.entities, x.Uniform base) :
    Members base (partNames part) members := by
  refine ⟨fun m hm => ?_, h.realizes⟩
  obtain ⟨s, hs, _, hgoal⟩ := h.exists_planned hm
  exact ht.goal (hbodies s hs) hgoal

/-- All statements are settled in the table. -/
def AllSettled (base : UInt32) (t : Table) (members : List (Realization × Goal)) : Prop :=
  ∀ m ∈ members, m.1.Settled base t.world (t.globals.normal base) m.2

/-- A pass keeps a table uniform. -/
theorem uniform_of_pass {ks : List Nat} (ht : t.Uniform base) (hm : Members base names members)
    (h : Gives (members.mapM fun m => runPlain m.1 m.2) t ks t') (hfits : t'.Fits base) :
    t'.Uniform base := by
  induction members generalizing t ks with
  | nil => exact (gives_mapM_nil.1 h).2 ▸ ht
  | cons m members ih =>
    obtain ⟨k, t₁, ks, hk, hks, rfl⟩ := gives_mapM_cons.1 h
    have hfits₁ := (adds_of_pass hm.tail.names hks).fits hfits
    have ht₁ := uniform_of_runPlain ht (hm.uniform m (List.mem_cons_self ..)) hk hfits₁
    exact ih ht₁.1 hm.tail hks

/-- Passes keep a table uniform. -/
theorem uniform_of_runPasses {isRecursive : Bool} {label : String} {pass left : Nat}
    (ht : t.Uniform base) (hm : Members base names members)
    (h : Gives (runPasses members isRecursive label pass left) t () t') (hfits : t'.Fits base) :
    t'.Uniform base := by
  induction left generalizing t pass with
  | zero => exact (gives_throw.1 h).elim
  | succ left ih =>
    obtain ⟨_, ks, t₁, t₂, hleft, hks, ht₂, hrest⟩ := gives_runPasses h
    obtain rfl := Nat.succ.inj hleft
    have hrecord : t₁.Adds names t₂ := .of_trace ht₂
    rcases hrest with ⟨rfl, _⟩ | hrest
    · exact (uniform_of_pass ht hm hks (hrecord.fits hfits)).of_trace ht₂
    · have hfits₁ := (hrecord.trans (adds_of_runPasses hm.names hrest)).fits hfits
      exact ih ((uniform_of_pass ht hm hks hfits₁).of_trace ht₂) hrest

/-- Passes that end well settle all statements, as long as the statements of a group that is not
recursive do not ask what is realized in it. -/
theorem settled_of_runPasses {isRecursive : Bool} {label : String} {pass left : Nat}
    (ht : t.Uniform base) (hm : Members base names members)
    (hforeign : isRecursive = false → ∀ m ∈ members, ∀ n ∈ m.2.relations, n ∉ names)
    (h : Gives (runPasses members isRecursive label pass left) t () t') (hfits : t'.Fits base) :
    t'.Uniform base ∧ AllSettled base t' members := by
  have ht' := uniform_of_runPasses ht hm h hfits
  have hclosed := closed_of_runPasses hm.names hforeign h
  exact ⟨ht', fun m hmem => settled_of_closed ht' (hm.uniform m hmem) ht.arena hfits (hclosed m hmem)⟩

/-! ### What all tuples have in common -/

section

variable {H : String → Tuple → Prop}

/-- What holds of the tuples of a store, and of what statements conclude in a pass, holds of the tuples
after the pass. -/
private theorem all_of_pass {ks : List Nat} (ht : t.Uniform base) (hm : Members base names members)
    (hH : Tuple.Respects H) (h : Gives (members.mapM fun m => runPlain m.1 m.2) t ks t')
    (hfits : t'.Fits base) (hall : t.store.All H)
    (hstep : ∀ m ∈ members, ∀ t₁, t.Adds names t₁ → t₁.Adds names t' → t₁.Uniform base →
      t₁.store.All H → ConcludesOnly base t₁ m.1 m.2 H) : t'.store.All H := by
  induction members generalizing t ks with
  | nil => exact (gives_mapM_nil.1 h).2 ▸ hall
  | cons m members ih =>
    -- The statement is run in a table on the way, and so are those after it.
    have hframe := adds_of_pass hm.names h
    obtain ⟨k, t₁, ks, hk, hks, rfl⟩ := gives_mapM_cons.1 h
    have hmem := List.mem_cons_self (a := m) (l := members)
    have hg := hm.uniform m hmem
    have hfits₁ := (adds_of_pass hm.tail.names hks).fits hfits
    obtain ⟨ht₁, _, hgains, _⟩ := uniform_of_runPlain ht hg hk hfits₁
    have hadds := hgains.toAdds.mono (hm.names m hmem)
    have hall₁ := all_of_runPlain ht hg hH hk hfits₁ hall (hstep m hmem t (.refl t) hframe ht hall)
    exact ih ht₁ hm.tail hks hall₁ fun k hk t₂ h₂ =>
      hstep k (List.mem_cons_of_mem _ hk) t₂ (hadds.trans h₂)

/-- What holds of the tuples of a store, and of what statements conclude in between, holds of the tuples
after passes that end well. -/
theorem all_of_runPasses {isRecursive : Bool} {label : String} {pass left : Nat}
    (ht : t.Uniform base) (hm : Members base names members) (hH : Tuple.Respects H)
    (h : Gives (runPasses members isRecursive label pass left) t () t') (hfits : t'.Fits base)
    (hall : t.store.All H)
    (hstep : ∀ m ∈ members, ∀ t₁, t.Adds names t₁ → t₁.Adds names t' → t₁.Uniform base →
      t₁.store.All H → ConcludesOnly base t₁ m.1 m.2 H) : t'.store.All H := by
  induction left generalizing t pass with
  | zero => exact (gives_throw.1 h).elim
  | succ left ih =>
    obtain ⟨_, ks, t₁, t₂, hleft, hks, ht₂, hrest⟩ := gives_runPasses h
    obtain rfl := Nat.succ.inj hleft
    have hpass := adds_of_pass hm.names hks
    have hrecord : t₁.Adds names t₂ := .of_trace ht₂
    -- Nothing else follows the last pass.
    have hlast : t₂.Adds names t' := by
      rcases hrest with ⟨rfl, _⟩ | hrest
      · exact .refl t₂
      · exact adds_of_runPasses hm.names hrest
    have hfits₁ := (hrecord.trans hlast).fits hfits
    have hall₁ := all_of_pass ht hm hH hks hfits₁ hall fun m hm t₃ h₃ h₃' =>
      hstep m hm t₃ h₃ (h₃'.trans (hrecord.trans hlast))
    have hall₂ : t₂.store.All H := by
      rw [ht₂]
      exact hall₁
    rcases hrest with ⟨rfl, _⟩ | hrest
    · exact hall₂
    · exact ih ((uniform_of_pass ht hm hks hfits₁).of_trace ht₂) hrest hall₂ fun m hm t₃ h₃ =>
        hstep m hm t₃ ((hpass.trans hrecord).trans h₃)

end

/-! ### Larger stores -/

/-- A store in which all statements are settled, that includes the relations of the table, and that
looks the same as the table apart from the names. -/
structure Bounds (base : UInt32) (names : List String) (members : List (Realization × Goal))
    (T : Store) (t : Table) : Prop where
  signatures : ∀ n, T.signature? n = t.store.signature? n
  includes : ∀ n, t.store.Includes T n
  outside : ∀ n, n ∉ names → T.view base n = t.store.view base n
  settled : ∀ m ∈ members, m.1.Settled base { t.world with store := T } (t.globals.normal base) m.2

/-- Passes stay within every bound. -/
theorem includes_of_runPasses {isRecursive : Bool} {label : String} {pass left : Nat} {T : Store}
    (ht : t.Uniform base) (hT : T.Uniform base) (hm : Members base names members)
    (htested : ∀ m ∈ members, ∀ n ∈ m.2.tested, n ∉ names) (hbounds : Bounds base names members T t)
    (h : Gives (runPasses members isRecursive label pass left) t () t') (hfits : t'.Fits base)
    (n : String) : t'.store.Includes T n := by
  refine Store.includes_of_all (all_of_runPasses ht hm (fun n u v huv hu r hr => ?_) h hfits
    (fun n r hr u hu r' hr' => hbounds.includes n r r' hr hr' u hu) fun m hmem t₁ hadds _ ht₁ hall => ?_)
  · rw [Relation.contains, ← huv]
    exact hu r hr
  · intro c hc s hs u hu r hr
    have hw : ({ t₁.world with store := T } : World).Uniform base :=
      ⟨ht₁.world.program, ht₁.world.overlay⟩
    have hg := hm.uniform m hmem
    -- the solution is one in the larger store, where the statement is settled
    have hgrown : m.2.Solution base { t₁.world with store := T } (t₁.globals.normal base) c := by
      refine Goal.Solution.grows (fun n hn => ?_) (fun n _ => ?_)
        (fun n _ => (Store.includes_of_all hall).grows ht₁.store hT) hc
      · have hn := htested m hmem n hn
        rw [hbounds.outside n hn]
        show t.store.view base n = t₁.store.view base n
        rw [Store.view, Store.view, hadds.relations n hn]
      · exact (Store.arity?_eq (hbounds.signatures n)).trans (congrFun hadds.arity? n).symm
    have hsettled := hbounds.settled m hmem
    rw [← hadds.globals_eq, show ({ t.world with store := T } : World) =
      { t₁.world with store := T } by rw [hadds.world_eq]] at hsettled
    obtain ⟨found, hfound, hheld⟩ := hsettled
    have hmem := (Goal.mem_answers_iff hw hT hg ht₁.globals.isNormal hfound).2 hgrown
    obtain ⟨v, hv, hholds⟩ := hheld c hmem s hs
    obtain rfl := Except.ok.inj (hu.symm.trans hv)
    rw [Store.holds, hr] at hholds
    exact hholds

end Running

end CodeRules
