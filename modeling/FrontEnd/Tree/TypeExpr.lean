import FrontEnd.Tree.Name

namespace FrontEnd

/-- A named type, or a pointer to a type; each level has its own `const`. -/
inductive TypeExpr where
  | named (isConst : Bool) (name : QualifiedName)
  | pointer (isConst : Bool) (pointee : TypeExpr)

namespace TypeExpr

def isPointer : TypeExpr → Bool
  | named _ _ => false
  | pointer _ _ => true

/-- A type below pointers with given `const` flags, innermost first. -/
def under (around : List Bool) (t : TypeExpr) : TypeExpr := around.foldl (fun t c => pointer c t) t

def depth : TypeExpr → Nat
  | named _ _ => 0
  | pointer _ pointee => pointee.depth + 1

def name : TypeExpr → QualifiedName
  | named _ name => name
  | pointer _ pointee => pointee.name

def consts : TypeExpr → List Bool
  | named isConst _ => [isConst]
  | pointer isConst pointee => isConst :: pointee.consts

def qualifier (isConst : Bool) : String := if isConst then "const " else ""

def marks : TypeExpr → List String
  | named isConst _ => [qualifier isConst]
  | pointer isConst pointee => qualifier isConst :: "*" :: pointee.marks

def text (t : TypeExpr) : Except Fault String := do
  let name ← t.name.text
  pure (String.join (t.marks ++ [name]))

def same : TypeExpr → TypeExpr → Except Fault Bool
  | named c m, named d n => if c = d then m.same n else .ok false
  | pointer c s, pointer d t => if c = d then s.same t else .ok false
  | _, _ => .ok false

end TypeExpr

end FrontEnd
