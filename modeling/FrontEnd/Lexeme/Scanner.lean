import FrontEnd.Token.Basic

namespace FrontEnd

/-- A place in a buffer with the tokens read before it. The token being read began at the mark. -/
structure Scanner where
  source : Buffer
  pos : Nat
  position : Position
  markStart : Nat
  markPosition : Position
  emitted : List Token

namespace Scanner

def ofBuffer (source : Buffer) : Scanner := ⟨source, 0, .first, 0, .first, []⟩

def atEnd (s : Scanner) : Bool := s.source.length ≤ s.pos

def current (s : Scanner) : Except Fault UInt8 := s.source.byteAt s.pos

def startsWith (s : Scanner) (needle : List UInt8) : Bool := s.source.startsWithAt s.pos needle

def mark (s : Scanner) : Scanner := { s with markStart := s.pos, markPosition := s.position }

/-- The bytes from the mark on through the byte after the current one, unless that is past the
end. -/
def lexemeWithNext (s : Scanner) : Except Fault (Option (List UInt8)) := do
  let stop ← Offset.add s.pos 2
  if stop ≤ s.source.length then
    let lexeme ← s.source.slice s.markStart stop
    pure (some lexeme)
  else pure none

def emit (kind : Kind) (s : Scanner) : Except Fault Scanner := do
  let token ← Token.make kind ⟨s.markStart, s.pos⟩ s.markPosition s.source
  pure { s with emitted := token :: s.emitted }

def advance (s : Scanner) : Except Fault Scanner :=
  if s.atEnd then .error .advancedPastEnd
  else do
    let byte ← s.current
    let position ← s.position.step byte
    let pos ← Offset.add s.pos 1
    pure { s with pos := pos, position := position }

def tokens (s : Scanner) : List Token := s.emitted.reverse

end Scanner

end FrontEnd
