import FrontEnd.Token.Basic

namespace FrontEnd

/-- A part of a name: an identifier, or the double colon between two. -/
inductive NameUnit where
  | ident (token : Token)
  | separator

namespace NameUnit

def text : NameUnit → Except Fault String
  | ident token => token.text
  | separator => .ok "::"

def token? : NameUnit → Option Token
  | ident token => some token
  | separator => none

def same : NameUnit → NameUnit → Except Fault Bool
  | ident s, ident t => do
    let left ← s.bytes
    let right ← t.bytes
    pure (left == right)
  | separator, separator => .ok true
  | _, _ => .ok false

end NameUnit

/-- A name with its scopes, such as one identifier, two with a separator between, or one after a
leading separator. -/
structure QualifiedName where
  units : List NameUnit

namespace QualifiedName

def idents (n : QualifiedName) : List Token := n.units.filterMap NameUnit.token?

def text (n : QualifiedName) : Except Fault String := do
  let texts ← n.units.mapM NameUnit.text
  pure (String.join texts)

def sameUnits : List NameUnit → List NameUnit → Except Fault Bool
  | [], [] => .ok true
  | u :: us, v :: vs => do
    let same ← u.same v
    if same then sameUnits us vs else pure false
  | _, _ => .ok false

/-- Names with different numbers of units differ before a unit is read. -/
def same (m n : QualifiedName) : Except Fault Bool :=
  if m.units.length = n.units.length then sameUnits m.units n.units else .ok false

end QualifiedName

end FrontEnd
