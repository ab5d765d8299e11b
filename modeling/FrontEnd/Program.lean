import FrontEnd.Lexeme.Recognizer
import FrontEnd.Report

namespace FrontEnd

def Buffer.tokenize (source : Buffer) : Except Fault (List Token) × List Record :=
  match source.tokens with
  | .ok tokens => (.ok tokens, Record.ofTokens source tokens)
  | .error fault => (.error fault, [.tokenizing source.length])

structure ParseReport where
  reading : ReadingReport
  pos : Nat
  allParsed : Bool

/-- Reads a token list from its start. -/
def Start.parse (start : Start) (tokens : List Token) : Except Fault ParseReport × List Record :=
  let (result, cursor) := start.readAt (.ofTokens tokens)
  let report := result.bind fun reading =>
    reading.report.map fun report => ⟨report, cursor.pos, cursor.allParsed⟩
  (report, cursor.journal.reverse)

structure Comparison where
  left : ReadingReport
  right : ReadingReport
  same : Bool

def Start.compare (start : Start) (left right : List Token) :
    Except Fault Comparison × List Record :=
  let (first, c) := start.readAt (.ofTokens left)
  let (second, d) := start.readAt (.ofTokens right)
  let comparison := do
    let a ← first
    let b ← second
    let left ← a.report
    let right ← b.report
    let same ← a.same b
    pure ⟨left, right, same⟩
  (comparison, c.journal.reverse ++ d.journal.reverse)

structure ParsedSource where
  buffer : Buffer
  tokens : List Token
  scope : Scope

namespace ParsedSource

/-- The shares of the buffer: this handle's and one for each token over it. -/
def shares (p : ParsedSource) : Nat := p.tokens.countP (·.source.same p.buffer) + 1

def withoutTokens (p : ParsedSource) : ParsedSource := { p with tokens := [] }

end ParsedSource

/-- Reads a whole text as a global scope. -/
def parseText (text : String) : Except Failure ParsedSource × List Record :=
  let buffer := Buffer.ofText 0 text
  let (tokens, lexing) := buffer.tokenize
  let opening := Record.parsing text.utf8ByteSize :: lexing
  match tokens with
  | .error fault => (.error (.broken fault), opening)
  | .ok tokens =>
    match Rule.globalScope (.ofTokens tokens) with
    | .error failure c => (.error failure, opening ++ c.journal.reverse)
    | .ok scope c =>
      (.ok ⟨buffer, tokens, scope⟩,
        opening ++ c.journal.reverse ++ [.parsed scope.entries.length scope.depth])

end FrontEnd
