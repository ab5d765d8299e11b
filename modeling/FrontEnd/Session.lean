import FrontEnd.Report

namespace FrontEnd

/-- What can be asked of one cursor, step by step. -/
inductive Step where
  | consume (ps : List Pattern) (spacing : Spacing)
  | consumeUntil (p : Pattern) (spacing : Spacing)
  | peek (ps : List Pattern)
  | allParsed
  | next
  | remaining
  | syntaxError
  | snapshot (name : String)
  | restore (name : String)
  | read (start : Start)
  | same (left right : Nat)

inductive Answer where
  | nothing
  | flag (value : Bool)
  | token (report : Option TokenReport)
  | tokens (reports : Option (List TokenReport))
  | texts (texts : List String)
  | reading (report : ReadingReport)
  | fault (fault : Fault)

/-- A cursor over a token list, with the places and readings it keeps by name and by step. -/
structure Session where
  tokens : List Token
  cursor : Cursor
  saved : List (String × Nat)
  readings : List (Nat × Reading)
  steps : Nat

namespace Session

def ofTokens (tokens : List Token) : Session := ⟨tokens, .ofTokens tokens, [], [], 0⟩

def reportTokens : Option (List Token) → Except Fault Answer
  | some tokens => (fun reports => .tokens (some reports)) <$> Token.reportAll tokens
  | none => pure (.tokens none)

def moving (move : Cursor → Except Fault (Option (List Token) × Cursor)) :
    EStateM Fault Session Answer := do
  let s ← get
  let (tokens, cursor) ← Fault.lift (move s.cursor)
  set { s with cursor := cursor }
  Fault.lift (reportTokens tokens)

def asking (answer : Session → Except Fault Answer) : EStateM Fault Session Answer := do
  let s ← get
  Fault.lift (answer s)

def attempt : Step → EStateM Fault Session Answer
  | .consume ps spacing => moving (·.consume ps spacing)
  | .consumeUntil p spacing => moving (·.consumeUntil p spacing)
  | .peek ps => asking fun s => .flag <$> s.cursor.peek ps
  | .allParsed => asking fun s => pure (.flag s.cursor.allParsed)
  | .next => asking fun s => .token <$> Token.report? s.cursor.nextSignificant
  | .remaining => asking fun s => .texts <$> Token.texts s.cursor.rest
  | .syntaxError => asking fun s => (.reading ∘ .error) <$> s.cursor.syntaxError
  | .snapshot name => do
    modify fun s => { s with saved := (name, s.cursor.pos) :: s.saved }
    pure .nothing
  | .restore name => do
    let s ← get
    match s.saved.lookup name with
    | none => pure .nothing
    | some pos =>
      let cursor ← Fault.lift (s.cursor.restore s.tokens pos)
      set { s with cursor := cursor }
      pure .nothing
  | .read start => do
    let s ← get
    let (result, cursor) := start.readAt s.cursor
    set { s with cursor := cursor }
    let reading ← Fault.lift result
    let report ← Fault.lift reading.report
    modify fun s => { s with readings := (s.steps, reading) :: s.readings }
    pure (.reading report)
  | .same left right => asking fun s =>
    match s.readings.lookup left, s.readings.lookup right with
    | some a, some b => .flag <$> a.same b
    | _, _ => pure .nothing

/-- Makes a step. A fault is its answer, and then all but the log stays as it was. -/
def step (s : Session) (step : Step) : Answer × Session :=
  match attempt step s with
  | .ok answer t => (answer, { t with steps := s.steps + 1 })
  | .error fault t =>
    (.fault fault,
      { s with cursor := { s.cursor with journal := t.cursor.journal }, steps := s.steps + 1 })

/-- The answers to some steps, each with the cursor after it, and the session in the end. -/
def run (s : Session) : List Step → List (Answer × Nat) × Session
  | [] => ([], s)
  | step :: rest =>
    let (answer, t) := s.step step
    let (answers, last) := t.run rest
    ((answer, t.cursor.pos) :: answers, last)

end Session

end FrontEnd
