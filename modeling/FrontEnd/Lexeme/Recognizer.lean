import FrontEnd.Engine.Basic
import FrontEnd.Lexeme.Operator
import FrontEnd.Lexeme.Scanner

namespace FrontEnd

/-- Recognizes the lexemes of one form, a byte at a time; between two lexemes it is at rest. -/
inductive Recognizer where
  /-- Inside a comment, `stop` is the first offset past it. -/
  | blockComment (stop : Option Nat)
  | lineComment (stop : Option Nat)
  | run (bytes : ByteClass) (kind : Kind)
  /-- Inside a literal, `opened` is the byte that opened it; the byte that closes it is its last. -/
  | literal (opened : Option UInt8) (closed : Bool)
  | single (bytes : Option ByteClass) (kind : Kind) (taken : Bool)
  /-- Inside an operator, `grows` tells whether the next byte joins it. -/
  | operator (active grows : Bool)
  | identifier (active : Bool)
  deriving DecidableEq

namespace Recognizer

/-- The recognizers at rest. The first that accepts a byte takes it: comments come before
operators, since a slash is an operator byte, and the last one accepts every byte. -/
def fresh : List Recognizer := [
  blockComment none,
  lineComment none,
  run .whitespace .whitespace,
  run .digit .integer,
  literal none false,
  single (some .scopeMark) .scopeOperator false,
  operator false false,
  identifier false,
  single none .error false]

def blockOpen : List UInt8 := bytesOf "/*"

def blockClose : List UInt8 := bytesOf "*/"

def lineOpen : List UInt8 := bytesOf "//"

def lineFeed : UInt8 := 0x0A

def backslash : UInt8 := 0x5C

/-- The offset past a block comment that begins here, which the end of the text closes too. -/
def blockStop (s : Scanner) : Except Fault Nat := do
  let inside ← Offset.add s.pos 2
  match s.source.find inside blockClose with
  | some close => Offset.add close 2
  | none => pure s.source.length

def lineStop (s : Scanner) : Nat :=
  (s.source.findByte s.pos lineFeed).getD s.source.length

def growth (s : Scanner) : Except Fault Bool := do
  let lexeme ← s.lexemeWithNext
  pure (lexeme.any Operator.isCataloged)

def currentClass (s : Scanner) : Except Fault ByteClass := do
  let byte ← s.current
  pure (.ofByte byte)

/-- Whether the byte under the scanner begins a lexeme of this form or goes on the one begun. -/
def ask (r : Recognizer) (s : Scanner) : Except Fault (Bool × Recognizer) :=
  match r with
  | blockComment none => .ok (s.startsWith blockOpen, r)
  | blockComment (some stop) => .ok (s.pos < stop, r)
  | lineComment none => .ok (s.startsWith lineOpen, r)
  | lineComment (some stop) => .ok (s.pos < stop, r)
  | run bytes _ => do
    let found ← currentClass s
    pure (found == bytes, r)
  | literal _ true => .ok (false, r)
  | literal none false => do
    let found ← currentClass s
    pure (found == .delimiter, r)
  | literal (some opened) false => do
    let byte ← s.current
    pure (true, literal (some opened) (byte == opened))
  | single _ _ true => .ok (false, r)
  | single none _ false => .ok (true, r)
  | single (some bytes) _ false => do
    let found ← currentClass s
    pure (found == bytes, r)
  | operator true grows => .ok (grows, r)
  | operator false _ => do
    let found ← currentClass s
    pure (found == .operatorMark, r)
  | identifier active => do
    let found ← currentClass s
    pure (if active then found.continuesIdent else found == .identStart, r)

def enter (r : Recognizer) (s : Scanner) : Except Fault (Recognizer × Scanner) :=
  match r with
  | blockComment _ => do
    let stop ← blockStop s
    pure (blockComment (some stop), s)
  | lineComment _ => .ok (lineComment (some (lineStop s)), s)
  | run _ _ => .ok (r, s.mark)
  | literal _ closed => do
    let byte ← s.current
    pure (literal (some byte) closed, s.mark)
  | single bytes kind _ => .ok (single bytes kind true, s.mark)
  | operator _ _ => do
    let grows ← growth s.mark
    pure (operator true grows, s.mark)
  | identifier _ => .ok (identifier true, s.mark)

/-- A backslash in a literal takes the byte after it along, unless it is the last one. -/
def stay (r : Recognizer) (s : Scanner) : Except Fault (Recognizer × Scanner) :=
  match r with
  | literal _ _ => do
    let byte ← s.current
    if byte = backslash then
      let next ← Offset.add s.pos 1
      if next < s.source.length then
        let s ← s.advance
        pure (r, s)
      else pure (r, s)
    else pure (r, s)
  | operator active _ => do
    let grows ← growth s
    pure (operator active grows, s)
  | _ => .ok (r, s)

/-- Comments leave no token. -/
def leave (r : Recognizer) (s : Scanner) : Except Fault (Recognizer × Scanner) :=
  match r with
  | blockComment _ => .ok (blockComment none, s)
  | lineComment _ => .ok (lineComment none, s)
  | run _ kind => do
    let s ← s.emit kind
    pure (r, s)
  | literal _ _ => do
    let s ← s.emit .literal
    pure (literal none false, s)
  | single bytes kind _ => do
    let s ← s.emit kind
    pure (single bytes kind false, s)
  | operator _ _ => do
    let s ← s.emit .operator
    pure (operator false false, s)
  | identifier _ => do
    let s ← s.emit .identifier
    pure (identifier false, s)

def hooks : Engine.Hooks Fault Scanner Recognizer := ⟨Scanner.advance, ask, enter, stay, leave⟩

end Recognizer

namespace Lexeme

def fuel (length : Nat) : Nat := 13 * length

/-- Runs recognizers over a buffer; gives them back as the run left them. -/
def scan (recognizers : List Recognizer) (source : Buffer) :
    Except Fault (List Recognizer × Scanner) :=
  let start := Engine.start Scanner.atEnd recognizers (.ofBuffer source)
  match Engine.run Recognizer.hooks Scanner.atEnd (fuel source.length) start with
  | .error fault => .error fault
  | .ok (.reached recognizers scanner) => .ok (recognizers, scanner)
  | .ok (.unmatched recognizers _) => .error (.uncovered recognizers.length)
  | .ok (.running ..) => .error .stalled

end Lexeme

/-- The tokens of a source: each byte outside a comment is in exactly one. -/
def Buffer.tokens (source : Buffer) : Except Fault (List Token) := do
  let (_, scanner) ← Lexeme.scan Recognizer.fresh source
  pure scanner.tokens

end FrontEnd
