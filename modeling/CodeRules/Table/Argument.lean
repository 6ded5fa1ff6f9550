import CodeRules.Diagnostic
import CodeRules.Code.Copy
import CodeRules.Program.Index
import CodeRules.Relation.Store
import CodeRules.Text.Integer

/-!
# Arguments of options

An argument is an entity or a text. What a text means depends on the type of its parameter: the name
of a type or member, a literal, or a relation of another instance.
-/

namespace CodeRules

/-- An argument as it is given. -/
inductive Argument where
  | entity (e : Entity)
  | text (s : String)
deriving Inhabited

/-- Why an argument does not fit its parameter. -/
inductive ArgumentError where
  /-- The type of the parameter means nothing. -/
  | type (e : SignatureError)
  | mismatch (param : String) (e : Entity) (expected : ParamType)
  | unresolved (param text what : String)
  | ambiguous (text : String) (count : Nat)
  | noText (param : String) (expected : ParamType)
  /-- The argument for a relation is no text, or a text without a dot. -/
  | noRelationName (param : String) (found : Option String)
  | unsolvedRelation (text : String)
  | relationArity (param text : String) (expected found : Nat)
  | relationTuple (e : TupleError)
  | relationValue (text param : String) (e : Entity) (expected : ParamType)

namespace SignatureError

/-- What kind of mistake it is. -/
def fault : SignatureError → Fault
  | duplicateParam .. => .nameClash
  | unknownCategory .. => .undefinedName

end SignatureError

namespace ArgumentError

/-- What kind of mistake it is. -/
def fault : ArgumentError → Fault
  | type e => e.fault
  | mismatch .. | noText .. | relationTuple _ | relationValue .. => .typeMismatch
  | unresolved .. | noRelationName .. | unsolvedRelation _ => .unresolvedBinding
  | ambiguous .. => .ambiguousBinding
  | relationArity .. => .arityMismatch

/-- The message for an argument that does not fit. -/
def message : ArgumentError → String
  | type e => e.message
  | mismatch param e expected => s!"argument `{e}` for `{param}` is not a {expected}"
  | unresolved param text what => s!"cannot resolve `{text}` as a {what} for `{param}`"
  | ambiguous text count => s!"`{text}` names {count} members; qualify it as `Type.{text}`"
  | noText param expected => s!"a {expected} argument for `{param}` cannot be given as text"
  | noRelationName param none => s!"relation parameter `{param}` needs an `instance.trait` argument"
  | noRelationName param (some text) =>
    s!"relation parameter `{param}` needs an `instance.trait` argument, found `{text}`"
  | unsolvedRelation text => s!"no solved relation `{text}`"
  | relationArity param text expected found =>
    s!"relation `{text}` has {found} parameters, `{param}` expects {expected}"
  | relationTuple e => e.message
  | relationValue text param e expected =>
    s!"relation `{text}` binds `{param}` to `{e}`, which is not a {expected}"

end ArgumentError

namespace Literal

/-- The literal of a type that a text writes. -/
def ofText? (type : CodeType) (s : String) : Option Literal :=
  match type with
  | .primitive .boolean => if s = "true" then some (.bool true)
    else if s = "false" then some (.bool false) else none
  | .primitive .int => (Text.int64? s).map .int
  | .primitive .char => match s.toList with
    | [c] => some (.char c)
    | _ => none
  | .named .. => if type.simpleName? = some "String" then some (.string s) else none
  | _ => none

end Literal

namespace Program

/-- The type that a text names. -/
def typeNamed? (p : Program) (text : String) : Option CodeType :=
  match (p.findDeclaration? text).bind Node.name? with
  | some name => some (.ofName name)
  -- no class has the name: only types that need no declaration are left
  | none => match CodeType.ofName text with
    | .named .. | .array _ => none
    | t => some t

/-- The declaration of a category that a text names. -/
def declarationNamed (p : Program) (param : String) (c : Category) (text : String) :
    Except ArgumentError Entity :=
  -- a class goes before members of the same name
  match if c = .declaration then p.findDeclaration? text else none with
  | some d => .ok (.node d)
  | none =>
    match (p.findMembers text).filter fun m => c.accepts (.node m) with
    | [m] => .ok (.node m)
    | [] => .error (.unresolved param text c.name)
    | ms => .error (.ambiguous text ms.length)

/-- The entity that a text means for a parameter. A literal becomes a new node. -/
def resolveText (p : Program) (a : Arena) (param : String) (type : ParamType) (text : String) :
    Except ArgumentError (Entity × Arena) :=
  match type with
  | .category .type => match p.typeNamed? text with
    | some t => .ok (.type t, a)
    | none => .error (.unresolved param text "type")
  | .category .field => return (← p.declarationNamed param .field text, a)
  | .category .method => return (← p.declarationNamed param .method text, a)
  | .category .declaration => return (← p.declarationNamed param .declaration text, a)
  | .category .value | .category .any => .ok (.name text, a)
  | .program expected => match Literal.ofText? expected text with
    | some l =>
      let (n, a) := (Arena.make {} (.literal l)).run a
      .ok (.node n, a)
    | none => .error (.unresolved param text s!"`{expected}` literal")
  | other => .error (.noText param other)

/-- The entity of an argument. -/
def argument (p : Program) (a : Arena) (param : String) (type : ParamType) (arg : Argument) :
    Except ArgumentError (Entity × Arena) := do
  let (e, a) ← match arg with
    | .entity e => pure (e, a)
    | .text s => p.resolveText a param type s
  if type.accepts p.types e then return (e, a) else throw (.mismatch param e type)

/-- The tuple of another relation as a tuple of a parameter. -/
def argumentTuple (p : Program) (s : Signature) (text : String) (t : Tuple) :
    Except ArgumentError Tuple := do
  let t ← (t.retarget s).mapError .relationTuple
  match (s.params.zip t.values).find? fun (param, e) => !param.type.accepts p.types e with
  | some (param, e) => throw (.relationValue text param.name e param.type)
  | none => return t

/-- The relation of an argument for a parameter with signature `s`. `solved?` finds the relations of
other instances. -/
def relationArgument (p : Program) (solved? : String → String → Option Relation) (s : Signature) :
    Argument → Except ArgumentError Relation
  | .entity _ => .error (.noRelationName s.name none)
  | .text text =>
    match Text.splitFirstDot? text with
    | none => .error (.noRelationName s.name (some text))
    | some (inst, trait) =>
      match solved? inst trait with
      | none => .error (.unsolvedRelation text)
      | some r =>
        if r.signature.arity ≠ s.arity then
          .error (.relationArity s.name text s.arity r.signature.arity)
        else do
          let tuples ← r.tuples.toList.mapM (p.argumentTuple s text)
          return ⟨s, Catalog.ofListFirst tuples, true, true⟩

end Program

end CodeRules
