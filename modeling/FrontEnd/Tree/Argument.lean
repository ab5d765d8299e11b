import FrontEnd.Tree.TypeExpr

namespace FrontEnd

inductive Mode where
  | input
  | inout
  | output
  | move
  | copy
  | forward
  deriving DecidableEq, Repr

namespace Mode

def all : List Mode := [input, inout, output, move, copy, forward]

def default : Mode := input

def keyword : Mode → String
  | input => "in"
  | inout => "inout"
  | output => "out"
  | move => "move"
  | copy => "copy"
  | forward => "forward"

def ofKeyword? (word : String) : Option Mode := all.find? (·.keyword == word)

theorem ofKeyword?_keyword (m : Mode) : ofKeyword? m.keyword = some m := by
  cases m <;> decide

end Mode

structure Argument where
  mode : Mode
  name : Token
  type : Option TypeExpr

namespace Argument

def tokens (a : Argument) : List Token :=
  a.name :: (a.type.map (·.name.idents)).getD []

def sameTypes : Option TypeExpr → Option TypeExpr → Except Fault Bool
  | some s, some t => s.same t
  | none, none => .ok true
  | _, _ => .ok false

/-- Names of arguments are compared as tokens, so in two buffers they differ. -/
def same (a b : Argument) : Except Fault Bool :=
  if a.mode = b.mode ∧ a.name.same b.name then sameTypes a.type b.type else .ok false

def samePairs : List Argument → List Argument → Except Fault Bool
  | [], [] => .ok true
  | a :: as, b :: bs => do
    let same ← a.same b
    if same then samePairs as bs else pure false
  | _, _ => .ok false

/-- Lists of different lengths differ before a pair is compared. -/
def sameAll (as bs : List Argument) : Except Fault Bool :=
  if as.length = bs.length then samePairs as bs else .ok false

end Argument

end FrontEnd
