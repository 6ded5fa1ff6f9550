import CodeRules.Table.Basic

/-!
# Filling templates

A template is text with gaps for placeholders, which are names between braces, and may end with a
brace that is never closed. Every text can be read so (`Template.exists_text_eq`). Filling puts
something in the place of each placeholder and keeps all else, what was put in included, as it is
(`fill_text`).
-/

namespace CodeRules.Text

/-- A text as a template. -/
inductive Template where
  /-- Text without gaps. -/
  | plain (literal : String) (hliteral : '\x7b' ∉ literal.toList)
  /-- Text, then a brace that is never closed. -/
  | unclosed (literal rest : String) (hliteral : '\x7b' ∉ literal.toList)
      (hrest : '\x7d' ∉ rest.toList)
  /-- Text, then a gap, then the rest of the template. -/
  | gap (literal name : String) (hliteral : '\x7b' ∉ literal.toList) (hname : '\x7d' ∉ name.toList)
      (rest : Template)

namespace Template

/-- The template with something in the place of each gap. -/
def fillWith (shown : String → String) : Template → String
  | plain literal _ => literal
  | unclosed literal rest _ _ => literal ++ "\x7b" ++ rest
  | gap literal name _ _ rest => literal ++ shown name ++ rest.fillWith shown

/-- How a gap is written. -/
def written (name : String) : String := "\x7b" ++ name ++ "\x7d"

/-- The template as it is written. -/
def text (t : Template) : String := t.fillWith written

/-- The names of the gaps. -/
def names : Template → List String
  | plain _ _ => []
  | unclosed _ _ _ _ => []
  | gap _ name _ _ rest => name :: rest.names

/-- A placeholder stands between the text before it and the rest. -/
theorem toList_text_gap {literal name : String} {rest : Template}
    (hliteral : '\x7b' ∉ literal.toList) (hname : '\x7d' ∉ name.toList) :
    (gap literal name hliteral hname rest).text.toList =
      literal.toList ++ '\x7b' :: (name.toList ++ '\x7d' :: rest.text.toList) := by
  simp [text, fillWith, written]

/-- Only what is put into the gaps counts. -/
theorem fillWith_congr {t : Template} {shown shown' : String → String}
    (h : ∀ name ∈ t.names, shown name = shown' name) : t.fillWith shown = t.fillWith shown' := by
  induction t with
  | plain | unclosed => rfl
  | gap literal name _ _ rest ih =>
    obtain ⟨hname, hrest⟩ := List.forall_mem_cons.1 h
    rw [fillWith, fillWith, hname, ih hrest]

/-! ### Every text is a template -/

/-- A template may start with one more character that is no opening brace. -/
private theorem exists_text_eq_cons {c : Char} (hc : c ≠ '\x7b') (t : Template) :
    ∃ t' : Template, t'.text = String.singleton c ++ t.text := by
  have hcons {literal : String} (h : '\x7b' ∉ literal.toList) :
      '\x7b' ∉ (String.singleton c ++ literal).toList := by
    rw [String.toList_append, String.toList_singleton, List.singleton_append, List.mem_cons, not_or]
    exact ⟨hc.symm, h⟩
  cases t with
  | plain literal h => exact ⟨plain _ (hcons h), rfl⟩
  | unclosed literal rest h hrest =>
    exact ⟨unclosed _ rest (hcons h) hrest, by simp [text, fillWith, String.append_assoc]⟩
  | gap literal name h hname rest =>
    exact ⟨gap _ name (hcons h) hname rest, by simp [text, fillWith, String.append_assoc]⟩

/-- What stands outside of a placeholder is a template, and so is what stands inside of one together
with the brace and the part of the name before it. -/
private theorem exists_text_eq_ofList (cs : List Char) :
    (∃ t : Template, t.text = String.ofList cs) ∧
      ∀ name : String, '\x7d' ∉ name.toList →
        ∃ t : Template, t.text = "\x7b" ++ name ++ String.ofList cs := by
  -- both at once, since a brace leads from the one to the other
  induction cs with
  | nil =>
    refine ⟨⟨plain "" (by simp), rfl⟩, fun name hname => ?_⟩
    exact ⟨unclosed "" name (by simp) hname, by simp [text, fillWith]⟩
  | cons c cs ih =>
    obtain ⟨⟨t, ht⟩, hopen⟩ := ih
    have hcs : String.ofList (c :: cs) = String.singleton c ++ String.ofList cs := by
      rw [String.singleton_eq_ofList, ← String.ofList_append, List.singleton_append]
    rw [hcs]
    constructor
    · by_cases hc : c = '\x7b'
      · subst hc
        exact hopen "" (by simp)
      · rw [← ht]
        exact t.exists_text_eq_cons hc
    · intro name hname
      by_cases hc : c = '\x7d'
      · subst hc
        refine ⟨gap "" name (by simp) hname t, ?_⟩
        rw [← ht]
        simp [text, fillWith, written, String.append_assoc]
      · have hname' : '\x7d' ∉ (name ++ String.singleton c).toList := by
          rw [String.toList_append, String.toList_singleton, List.mem_append, List.mem_singleton,
            not_or]
          exact ⟨hname, Ne.symm hc⟩
        obtain ⟨t, ht⟩ := hopen _ hname'
        exact ⟨t, by rw [ht, ← String.append_assoc, ← String.append_assoc]⟩

/-- Every text can be read as a template. -/
theorem exists_text_eq (s : String) : ∃ t : Template, t.text = s := by
  obtain ⟨⟨t, ht⟩, -⟩ := exists_text_eq_ofList s.toList
  exact ⟨t, ht.trans String.ofList_toList⟩

end Template

/-! ### Filling -/

variable {value? : String → Option String} {before cs : List Char}

/-- Text before the first brace stays. -/
theorem fillText_append (h : '\x7b' ∉ before) :
    fillText value? (before ++ cs) = before ++ fillText value? cs := by
  induction before with
  | nil => rfl
  | cons c before ih =>
    rw [List.mem_cons, not_or] at h
    rw [List.cons_append, List.cons_append, fillText, if_neg (Ne.symm h.1), ih h.2]

/-- A name ends at the first closing brace. -/
theorem fillName_closed {name : List Char} (h : '\x7d' ∉ name) :
    fillName value? before (name ++ '\x7d' :: cs) =
      placeholder value? (before.reverse ++ name) ++ fillText value? cs := by
  induction name generalizing before with
  | nil => rw [List.nil_append, fillName, if_pos rfl, List.append_nil]
  | cons c name ih =>
    rw [List.mem_cons, not_or] at h
    rw [List.cons_append, fillName, if_neg (Ne.symm h.1), ih h.2, List.reverse_cons,
      List.append_assoc, List.singleton_append]

/-- A name that no brace closes stays. -/
theorem fillName_unclosed (h : '\x7d' ∉ cs) :
    fillName value? before cs = '\x7b' :: (before.reverse ++ cs) := by
  induction cs generalizing before with
  | nil => rw [fillName, List.append_nil]
  | cons c cs ih =>
    rw [List.mem_cons, not_or] at h
    rw [fillName, if_neg (Ne.symm h.1), ih h.2, List.reverse_cons, List.append_assoc,
      List.singleton_append]

/-- What stands in the place of a gap: its value, or what is written there when it has none. -/
theorem placeholder_toList (name : String) :
    placeholder value? name.toList = ((value? name).getD (Template.written name)).toList := by
  rw [placeholder, String.ofList_toList]
  cases value? name with
  | none => simp [Template.written]
  | some value => rfl

/-- Filling puts the values in the place of the gaps that have one. -/
theorem fill_text (t : Template) :
    fill value? t.text = t.fillWith fun name => (value? name).getD (Template.written name) := by
  suffices h : fillText value? t.text.toList =
      (t.fillWith fun name => (value? name).getD (Template.written name)).toList by
    rw [fill, h, String.ofList_toList]
  induction t with
  | plain literal h =>
    have hfill : fillText value? (literal.toList ++ []) = literal.toList ++ [] := fillText_append h
    rwa [List.append_nil] at hfill
  | unclosed literal rest h hrest =>
    rw [Template.text, Template.fillWith, Template.fillWith, String.append_assoc,
      String.toList_append, fillText_append h, String.toList_append]
    -- from the brace on, all is taken for a name that goes on to the end
    exact congrArg (literal.toList ++ ·) (fillName_unclosed hrest)
  | gap literal name h hname rest ih =>
    rw [Template.toList_text_gap, fillText_append h, fillText, if_pos rfl, fillName_closed hname,
      List.reverse_nil, List.nil_append, placeholder_toList, ih, Template.fillWith,
      String.toList_append, String.toList_append, List.append_assoc]

end CodeRules.Text

namespace CodeRules.Bindings

open Text

/-- What a message shows for a name: the declared name of a node that has one, the text of any other
entity, and the name between braces when it is not bound. -/
def shown (b : Bindings) (name : String) : String :=
  match b.find? name with
  | none => Template.written name
  | some (.node n) => n.name?.getD (toString (Entity.node n))
  | some e => toString e

/-- Every text is a template. Its literal parts, a brace that is never closed and what bound names
stand for are shown as they are, so nothing changes when no name is bound. -/
theorem fillTemplate_text (b : Bindings) :
    (∀ t : Template, b.fillTemplate t.text = t.fillWith b.shown) ∧
      (∀ s, ∃ t : Template, t.text = s) ∧
      ∀ t : Template, (∀ name ∈ t.names, b.find? name = none) → b.fillTemplate t.text = t.text := by
  have hshown (name : String) : ((b.find? name).map fun e =>
      (e.node?.bind Node.name?).getD (toString e)).getD (Template.written name) = b.shown name := by
    rw [shown]
    cases b.find? name with
    | none => rfl
    | some e => cases e <;> rfl
  have hfill (t : Template) : b.fillTemplate t.text = t.fillWith b.shown := by
    rw [fillTemplate, fill_text]
    exact Template.fillWith_congr fun name _ => hshown name
  refine ⟨hfill, Template.exists_text_eq, fun t hunbound => ?_⟩
  rw [hfill]
  refine Template.fillWith_congr fun name hname => ?_
  rw [shown, hunbound name hname]

namespace Braced

/-- A class, and a text that could be taken for a gap. -/
def bindings : Bindings :=
  let person : Node := .make ⟨1⟩ ⟨0, 0, 9⟩ (.classDecl "Person" [] [] none [])
  (Bindings.empty.bind "owner" (.node person)).bind "label" (.name "\x7bowner\x7d")

/-- Two names that are bound, one that is not, and a brace that is never closed. -/
def template : Template :=
  .gap "" "owner" (by simp) (by simp) <| .gap " has no " "label" (by simp) (by simp) <|
    .gap ", " "missing" (by simp) (by simp) <| .unclosed " " "" (by simp) (by simp)

/-- The class shows by its name, and the text that it gets is not looked at again. Without bindings
nothing changes. -/
theorem fillTemplate_text_owner :
    bindings.fillTemplate "\x7bowner\x7d has no \x7blabel\x7d, \x7bmissing\x7d \x7b" =
        "Person has no \x7bowner\x7d, \x7bmissing\x7d \x7b" ∧
      (∀ name ∈ template.names, Bindings.empty.find? name = none) ∧
      Bindings.empty.fillTemplate template.text = template.text := by
  have hwritten : template.text = "\x7bowner\x7d has no \x7blabel\x7d, \x7bmissing\x7d \x7b" := by
    decide +kernel
  have hfilled : template.fillWith bindings.shown =
      "Person has no \x7bowner\x7d, \x7bmissing\x7d \x7b" := by
    decide +kernel
  have hunbound : ∀ name ∈ template.names, Bindings.empty.find? name = none := fun _ _ => rfl
  refine ⟨?_, hunbound, (fillTemplate_text .empty).2.2 template hunbound⟩
  rw [← hwritten, (fillTemplate_text bindings).1, hfilled]

end Braced

end CodeRules.Bindings
