import FrontEnd.Source.Offset

namespace FrontEnd

/-- The bytes from `start` up to, not including, `stop`. -/
structure Span where
  start : Nat
  stop : Nat
  deriving DecidableEq, Repr

namespace Span

def empty : Span := ⟨0, 0⟩

def length (s : Span) : Except Fault Nat := Offset.sub s.stop s.start

def isEmpty (s : Span) : Bool := s.start == s.stop

def text (s : Span) : String := toString s.start ++ ".." ++ toString s.stop

end Span

/-- Row and column of a byte, both from 1 on; columns count bytes. -/
structure Position where
  row : Nat
  column : Nat
  deriving DecidableEq, Repr

namespace Position

def first : Position := ⟨1, 1⟩

/-- The position after a byte: a line feed begins a row, all else takes a column. -/
def step (p : Position) (byte : UInt8) : Except Fault Position :=
  if byte = 0x0A then do
    let row ← Offset.add p.row 1
    pure ⟨row, 1⟩
  else do
    let column ← Offset.add p.column 1
    pure ⟨p.row, column⟩

/-- The positions after each of some bytes. A byte that has no position after it is passed over where
the last one was. -/
def walk (p : Position) : List UInt8 → List (Except Fault Position)
  | [] => []
  | byte :: rest =>
    match p.step byte with
    | .ok q => .ok q :: q.walk rest
    | .error fault => .error fault :: p.walk rest

def text (p : Position) : String := toString p.row ++ ":" ++ toString p.column

end Position

end FrontEnd
