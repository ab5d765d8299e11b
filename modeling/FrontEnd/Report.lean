import FrontEnd.Grammar.Reading

namespace FrontEnd

structure TokenReport where
  kind : Kind
  span : Span
  position : Position
  text : String
  deriving DecidableEq

structure NameReport where
  text : String
  idents : List String
  /-- A separator is reported as `none`. -/
  units : List (Option TokenReport)
  deriving DecidableEq

structure TypeReport where
  text : String
  isPointer : Bool
  depth : Nat
  consts : List Bool
  name : NameReport
  deriving DecidableEq

structure ArgumentReport where
  mode : Mode
  name : TokenReport
  type : Option TypeReport
  deriving DecidableEq

structure ScopeReport where
  isGlobal : Bool
  entries : Nat
  depth : Nat
  shape : String
  deriving DecidableEq

inductive ReadingReport where
  | name (report : NameReport)
  | type (report : TypeReport)
  | arguments (reports : List ArgumentReport)
  | scope (report : ScopeReport)
  | error (error : SyntaxError)

namespace Token

def report (t : Token) : Except Fault TokenReport := do
  let text ← t.text
  pure ⟨t.kind, t.span, t.position, text⟩

def reportAll (tokens : List Token) : Except Fault (List TokenReport) := tokens.mapM report

def report? : Option Token → Except Fault (Option TokenReport)
  | some t => some <$> t.report
  | none => pure none

end Token

namespace NameUnit

def report (u : NameUnit) : Except Fault (Option TokenReport) := Token.report? u.token?

end NameUnit

namespace QualifiedName

def report (n : QualifiedName) : Except Fault NameReport := do
  let text ← n.text
  let idents ← Token.texts n.idents
  let units ← n.units.mapM NameUnit.report
  pure ⟨text, idents, units⟩

end QualifiedName

namespace TypeExpr

def report (t : TypeExpr) : Except Fault TypeReport := do
  let text ← t.text
  let name ← t.name.report
  pure ⟨text, t.isPointer, t.depth, t.consts, name⟩

end TypeExpr

namespace Argument

def reportType : Option TypeExpr → Except Fault (Option TypeReport)
  | some t => some <$> t.report
  | none => pure none

def report (a : Argument) : Except Fault ArgumentReport := do
  let name ← a.name.report
  let type ← reportType a.type
  pure ⟨a.mode, name, type⟩

end Argument

namespace Scope

def report (s : Scope) : ScopeReport := ⟨s.isGlobal, s.entries.length, s.depth, s.shape⟩

end Scope

namespace Reading

def report : Reading → Except Fault ReadingReport
  | name (.ok n) => .name <$> n.report
  | type (.ok t) => .type <$> t.report
  | arguments (.ok as) => .arguments <$> as.mapM Argument.report
  | scope (.ok s) => pure (.scope s.report)
  | name (.error e) | type (.error e) | arguments (.error e) | scope (.error e) => pure (.error e)

end Reading

end FrontEnd
