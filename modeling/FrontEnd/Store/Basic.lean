import FrontEnd.Lexeme.Recognizer
import FrontEnd.Report
import FrontEnd.Store.Table

namespace FrontEnd

/-- Buffer handles, token lists and readings that are kept side by side. -/
structure Store where
  buffers : Table Buffer
  lists : Table (List Token)
  readings : Table Reading
  made : Nat
  journal : List Record

structure TokenRef where
  list : Nat
  index : Nat
  deriving DecidableEq, Repr

inductive Request where
  | new (bytes : List UInt8)
  | clone (buffer : Nat)
  | drop (buffer : Nat)
  | length (buffer : Nat)
  | isEmpty (buffer : Nat)
  | bytes (buffer : Nat)
  | padded (buffer : Nat)
  | byteAt (buffer pos : Nat)
  | slice (buffer start stop : Nat)
  | startsWithAt (buffer pos : Nat) (needle : List UInt8)
  | findByte (buffer start : Nat) (byte : UInt8)
  | find (buffer start : Nat) (needle : List UInt8)
  | shares (buffer : Nat)
  | same (left right : Nat)
  | describe (buffer : Nat)
  | tokenize (buffer : Nat)
  | newList
  | cloneList (list : Nat)
  | dropList (list : Nat)
  | intoTexts (list : Nat)
  | lengthOfList (list : Nat)
  | textsOfList (list : Nat)
  | describeList (list : Nat)
  | push (list buffer : Nat) (kind : Kind) (span : Span) (position : Position)
  | get (token : TokenRef)
  | tokenBytes (token : TokenRef)
  | describeToken (token : TokenRef)
  | isText (token : TokenRef) (text : List UInt8)
  | sameTokens (left right : TokenRef)
  | accepts (token : TokenRef) (p : Pattern)
  | tokenShares (token : TokenRef)
  | tokenSource (token : TokenRef)
  | read (list : Nat) (start : Start)
  | reading (index : Nat)
  | dropReading (index : Nat)

inductive Reply where
  | nothing
  | number (n : Nat)
  | flag (value : Bool)
  | bytes (bytes : List UInt8)
  | padding (size : Nat) (zeros : Bool)
  | offset (offset : Option Nat)
  | extent (length : Nat) (isEmpty : Bool)
  | text (text : String)
  | texts (texts : List String)
  | token (report : Option TokenReport)
  | reading (report : ReadingReport)
  | fault (fault : Fault)

namespace Store

def empty : Store := ⟨.empty, .empty, .empty, 0, []⟩

/-- All tokens that are kept, each as often as it is kept. -/
def tokens (s : Store) : List Token :=
  s.lists.live.flatten ++ s.readings.live.flatMap Reading.tokens

def shares (s : Store) (buffer : Buffer) : Nat :=
  s.buffers.live.countP (·.same buffer) + s.tokens.countP (·.source.same buffer)

abbrev Action := EStateM Fault Store

def entry {α : Type} (table : Store → Table α) (index : Nat) : Action α := do
  let s ← get
  match (table s).get? index with
  | some a => pure a
  | none => throw (.missing index)

def buffer (index : Nat) : Action Buffer := entry Store.buffers index

def list (index : Nat) : Action (List Token) := entry Store.lists index

def token? (ref : TokenRef) : Action (Option Token) := do
  let tokens ← list ref.list
  pure tokens[ref.index]?

def token (ref : TokenRef) : Action Token := do
  match ← token? ref with
  | some t => pure t
  | none => throw (.missing ref.index)

def addBuffer (b : Buffer) : Action Reply := do
  let s ← get
  set { s with buffers := s.buffers.add b }
  pure (.number s.buffers.size)

def addList (tokens : List Token) : Action Reply := do
  let s ← get
  set { s with lists := s.lists.add tokens }
  pure (.number s.lists.size)

def note (records : List Record) : Action Unit :=
  modify fun s => { s with journal := records.reverse ++ s.journal }

def ofBuffer (index : Nat) (reply : Buffer → Except Fault Reply) : Action Reply := do
  let b ← buffer index
  Fault.lift (reply b)

def ofList (index : Nat) (reply : List Token → Except Fault Reply) : Action Reply := do
  let tokens ← list index
  Fault.lift (reply tokens)

def ofToken (ref : TokenRef) (reply : Token → Except Fault Reply) : Action Reply := do
  let t ← token ref
  Fault.lift (reply t)

def read (start : Start) (tokens : List Token) : Action Reply := do
  let (result, cursor) := start.readAt (.ofTokens tokens)
  note cursor.journal.reverse
  let reading ← Fault.lift result
  let report ← Fault.lift reading.report
  modify fun s => { s with readings := s.readings.add reading }
  pure (.reading report)

def attempt : Request → Action Reply
  | .new bytes => do
    let s ← get
    set { s with made := s.made + 1 }
    addBuffer (.ofBytes s.made bytes)
  | .clone b => do addBuffer (← buffer b)
  | .drop b => do
    let _ ← buffer b
    modify fun s => { s with buffers := s.buffers.drop b }
    pure .nothing
  | .length b => ofBuffer b fun b => pure (.number b.length)
  | .isEmpty b => ofBuffer b fun b => pure (.flag b.isEmpty)
  | .bytes b => ofBuffer b fun b => pure (.bytes b.bytes)
  | .padded b => ofBuffer b fun b => pure (.padding b.cells.size (b.padding.all (· == 0)))
  | .byteAt b pos => ofBuffer b fun b => (.number ∘ UInt8.toNat) <$> b.byteAt pos
  | .slice b start stop => ofBuffer b fun b => .bytes <$> b.slice start stop
  | .startsWithAt b pos needle => ofBuffer b fun b => pure (.flag (b.startsWithAt pos needle))
  | .findByte b start byte => ofBuffer b fun b => pure (.offset (b.findByte start byte))
  | .find b start needle => ofBuffer b fun b => pure (.offset (b.find start needle))
  | .shares b => do
    let b ← buffer b
    let s ← get
    pure (.number (s.shares b))
  | .same left right => do
    let left ← buffer left
    let right ← buffer right
    pure (.flag (left.same right))
  | .describe b => do
    let b ← buffer b
    let s ← get
    pure (.text (b.describe (s.shares b)))
  | .tokenize b => do
    let b ← buffer b
    let tokens ← Fault.lift b.tokens
    note (Record.ofTokens b tokens)
    addList tokens
  | .newList => addList []
  | .cloneList l => do addList (← list l)
  | .dropList l => do
    let _ ← list l
    modify fun s => { s with lists := s.lists.drop l }
    pure .nothing
  | .intoTexts l => do
    let texts ← Fault.lift (Token.texts (← list l))
    modify fun s => { s with lists := s.lists.drop l }
    pure (.texts texts)
  | .lengthOfList l => ofList l fun tokens => pure (.extent tokens.length tokens.isEmpty)
  | .textsOfList l => ofList l fun tokens => .texts <$> Token.texts tokens
  | .describeList l => ofList l fun tokens => .text <$> Token.describeAll tokens
  | .push l b kind span position => do
    let tokens ← list l
    let t ← Fault.lift (Token.make kind span position (← buffer b))
    modify fun s => { s with lists := s.lists.put l (tokens ++ [t]) }
    pure (.number (tokens.length + 1))
  | .get ref => do
    let t ← token? ref
    Fault.lift (.token <$> Token.report? t)
  | .tokenBytes ref => ofToken ref fun t => .bytes <$> t.bytes
  | .describeToken ref => ofToken ref fun t => .text <$> t.describe
  | .isText ref text => ofToken ref fun t => .flag <$> t.isText text
  | .sameTokens left right => do
    let left ← token left
    let right ← token right
    pure (.flag (left.same right))
  | .accepts ref p => ofToken ref fun t => .flag <$> p.accepts t
  | .tokenShares ref => do
    let t ← token ref
    let s ← get
    pure (.number (s.shares t.source))
  | .tokenSource ref => do
    let t ← token ref
    addBuffer t.source
  | .read l start => do read start (← list l)
  | .reading n => do
    let reading ← entry Store.readings n
    Fault.lift (.reading <$> reading.report)
  | .dropReading n => do
    let _ ← entry Store.readings n
    modify fun s => { s with readings := s.readings.drop n }
    pure .nothing

/-- Answers a request. A fault is its answer, and then all but the log stays as it was. -/
def step (s : Store) (request : Request) : Reply × Store :=
  match attempt request s with
  | .ok reply t => (reply, t)
  | .error fault t => (.fault fault, { s with journal := t.journal })

def run (s : Store) : List Request → List Reply × Store
  | [] => ([], s)
  | request :: rest =>
    let (reply, t) := s.step request
    let (replies, last) := t.run rest
    (reply :: replies, last)

end Store

end FrontEnd
