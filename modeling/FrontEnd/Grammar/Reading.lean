import FrontEnd.Grammar.Argument
import FrontEnd.Grammar.Scope

namespace FrontEnd

inductive Start where
  | name
  | type
  | arguments
  | globalScope
  | nestedScope
  deriving DecidableEq, Repr

/-- What came of a rule: a node of its sort, or a syntax error. -/
inductive Reading where
  | name (result : Except SyntaxError QualifiedName)
  | type (result : Except SyntaxError TypeExpr)
  | arguments (result : Except SyntaxError (List Argument))
  | scope (result : Except SyntaxError Scope)

/-- Runs a rule at a cursor. A syntax error is an answer; a fault is none. -/
def Rule.runAt {α : Type} (rule : Rule α) (c : Cursor) :
    Except Fault (Except SyntaxError α) × Cursor :=
  match rule c with
  | .ok a d => (.ok (.ok a), d)
  | .error (.rejected error) d => (.ok (.error error), d)
  | .error (.broken fault) d => (.error fault, d)

def Start.readAt (start : Start) (c : Cursor) : Except Fault Reading × Cursor :=
  match start with
  | name => (Rule.name.runAt c).map (·.map .name) id
  | type => (Rule.typeExpr.runAt c).map (·.map .type) id
  | arguments => (Rule.arguments.runAt c).map (·.map .arguments) id
  | globalScope => (Rule.globalScope.runAt c).map (·.map .scope) id
  | nestedScope => (Rule.nestedScope.runAt c).map (·.map .scope) id

namespace Reading

def sameResult {α : Type} (same : α → α → Except Fault Bool) :
    Except SyntaxError α → Except SyntaxError α → Except Fault Bool
  | .ok a, .ok b => same a b
  | .error e, .error f => .ok (e == f)
  | _, _ => .ok false

/-- Readings of different sorts differ, even as errors. -/
def same : Reading → Reading → Except Fault Bool
  | name a, name b => sameResult QualifiedName.same a b
  | type a, type b => sameResult TypeExpr.same a b
  | arguments a, arguments b => sameResult Argument.sameAll a b
  | scope a, scope b => sameResult (fun s t => .ok (s.same t)) a b
  | _, _ => .ok false

def tokens : Reading → List Token
  | name (.ok n) => n.idents
  | type (.ok t) => t.name.idents
  | arguments (.ok as) => as.flatMap Argument.tokens
  | _ => []

end Reading

end FrontEnd
