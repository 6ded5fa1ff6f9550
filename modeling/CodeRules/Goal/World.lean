import CodeRules.Fragment.Generate
import CodeRules.Fragment.Recognize
import CodeRules.Goal.Basic
import CodeRules.Program.Index
import CodeRules.Relation.Store

/-!
# What goals are solved against

A world holds the relations, the program, and the entities made so far. In it a term may have a
value (`World.valueOf`), and bindings can be extended so that a term stands for a given entity
(`World.unify`).
-/

namespace CodeRules

/-- Why a goal cannot be solved. -/
inductive EvalError where
  /-- A term without a value cannot be the subject of a pattern. -/
  | subject (term : GoalTerm)
  | unboundArgument (func : EntityFunction) (arg : GoalTerm)
  | functionArity (func : EntityFunction) (found : Nat)
  | unboundComparison (left right : GoalTerm)
  /-- A generated entity is not of the type of its variable. -/
  | generatedType (name : String) (value : Entity) (expected : ParamType)
  | generation (e : GenerateError)
  | defect (d : Defect)

namespace EvalError

/-- The failure of the engine, reported at a place of the rules. -/
def failure (span : Span) (e : EvalError) : Failure :=
  let user (fault : Fault) (message : String) : Failure :=
    .user [(Diagnostic.error fault message).atSpan span]
  match e with
  | subject term => user .unsupportedPattern s!"`{term}` cannot be the subject of `matches`"
  | unboundArgument func arg =>
    user .unresolvedBinding s!"argument `{arg}` of `{func.name}` is not bound"
  | functionArity func found =>
    user .arityMismatch s!"`{func.name}` takes 1 argument, found {found}"
  | unboundComparison left right =>
    user .unresolvedBinding s!"cannot compare `{left}` with `{right}`: a side is not bound"
  | generatedType name value expected =>
    user .typeMismatch s!"generated `{value}` is not a {expected} as `{name}` requires"
  | generation e => e.failure span
  | defect d => .defect d

end EvalError

namespace Fragment

/-- The tags of the nodes that the fragment may recognize; none when it is no fragment for a
node. -/
def rootTags : Fragment → List Tag
  | node tag _ => [tag]
  | fieldAccess .. => [.fieldAccess, .name]
  | fieldAssign .. => [.assign]
  | _ => []

end Fragment

/-- What goals are solved against. -/
structure World where
  program : Program
  store : Store
  /-- The entities that local statements made. -/
  overlay : List Entity := []

namespace World

/-- The entities that an unbound subject of a type may stand for. -/
def candidates (w : World) (type : ParamType) (f : Fragment) : List Entity :=
  let c := type.toCategory
  let tags := f.rootTags
  let known := if tags.isEmpty then w.program.candidates c none
    else tags.flatMap fun t => w.program.candidates c (some t)
  -- made entities are not indexed, so they are filtered here
  let made := w.overlay.filter fun e =>
    c.accepts e && (tags.isEmpty || e.node?.any fun n => tags.contains n.tag)
  (known ++ made).filter (type.accepts w.program.types)

/-- The type that declares a member, which a made member may have been given. -/
def declaringType? (w : World) (a : Arena) (i : NodeId) : Option CodeType :=
  (a.get? i).bind Provenance.declaringType <|> w.program.declaringType? i

/-- The value of a function of the program, when it has one. -/
def call? (w : World) (a : Arena) (func : EntityFunction) (arg : Entity) : Option Entity :=
  match func with
  | .typeOf => (w.program.typeOf? arg).map .type
  | .declarationOf => match arg with
    | .type t => (w.program.declarationOf? t).map .node
    | _ => none
  | .nameOf => (arg.node?.bind Node.name?).map .name
  | .signatureOf => (arg.node?.bind Node.signature?).map .signature
  | .declaringType => (arg.nodeId?.bind (w.declaringType? a)).map .type

/-- Apply a function. Where it has no value the result is the empty entity. -/
def call (w : World) (a : Arena) (func : EntityFunction) : List Entity → Except EvalError Entity
  | [arg] => .ok ((w.call? a func arg).getD .empty)
  | args => .error (.functionArity func args.length)

mutual

/-- The entity that a term stands for, unless it is a pattern or an unbound variable. -/
def valueOf (w : World) (a : Arena) (b : Bindings) : GoalTerm → Except EvalError (Option Entity)
  | .wildcard | .pattern _ => .ok none
  | .var name _ => .ok (b.find? name)
  | .const e => .ok (some e)
  | .apply func args => return some (← w.call a func (← argumentsOf w a b func args))

/-- The values of the arguments of a function. -/
def argumentsOf (w : World) (a : Arena) (b : Bindings) (func : EntityFunction) :
    List GoalTerm → Except EvalError (List Entity)
  | [] => .ok []
  | t :: ts => do
    match ← valueOf w a b t with
    | none => .error (.unboundArgument func t)
    | some e => return e :: (← argumentsOf w a b func ts)

end

/-- Join what a fragment recognizes in an entity to bindings. -/
def matchInto (w : World) (f : Fragment) (e : Entity) (b : Bindings) :
    Except EvalError (Option Bindings) :=
  match f.recognize w.program.surroundings e with
  | .error d => .error (.defect d)
  | .ok found => .ok (found.bind fun m => m.withoutResult.consistentMerge? b)

/-- Extend bindings so that a term stands for an entity. Bound variables and known entities must be
the same entity at the same place, so that facts about look-alikes are not joined. -/
def unify (w : World) (a : Arena) (term : GoalTerm) (e : Entity) (b : Bindings) :
    Except EvalError (Option Bindings) :=
  match term with
  | .wildcard => .ok (some b)
  | .var name type =>
    match b.find? name with
    | some known => .ok (if known.aliases e then some b else none)
    | none => .ok (if type.accepts w.program.types e then some (b.bind name e) else none)
  | .const known => .ok (if known.aliases e then some b else none)
  | .pattern f => w.matchInto f e b
  -- the value of a function is compared by its shape alone
  | .apply .. => return (← w.valueOf a b term).bind fun v => if v.sameShape e then some b else none

/-- Extend bindings so that terms stand for entities, from left to right. -/
def unifyAll (w : World) (a : Arena) : List GoalTerm → List Entity → Bindings →
    Except EvalError (Option Bindings)
  | t :: ts, e :: es, b => do
    match ← w.unify a t e b with
    | none => .ok none
    | some b => unifyAll w a ts es b
  | _, _, b => .ok (some b)

end World

end CodeRules
