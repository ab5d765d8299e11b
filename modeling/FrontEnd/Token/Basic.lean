import FrontEnd.Source.Buffer
import FrontEnd.Source.Location
import FrontEnd.Text.Quoted
import FrontEnd.Text.Utf8

namespace FrontEnd

/-- Kinds of tokens; keywords are identifiers that the grammar knows by their text. -/
inductive Kind where
  | whitespace
  | identifier
  | integer
  | literal
  | scopeOperator
  | operator
  | error
  deriving DecidableEq, Repr

namespace Kind

def name : Kind → String
  | whitespace => "whitespace"
  | identifier => "identifier"
  | integer => "integer"
  | literal => "literal"
  | scopeOperator => "semantic_scope_operator"
  | operator => "operator"
  | error => "error"

def all : List Kind := [whitespace, identifier, integer, literal, scopeOperator, operator, error]

def ofName? (name : String) : Option Kind := all.find? (·.name == name)

end Kind

/-- A range of a buffer, with the kind it was read as and the position of its first byte. -/
structure Token where
  kind : Kind
  span : Span
  position : Position
  source : Buffer
  stop_le : span.stop ≤ source.length

namespace Token

def make (kind : Kind) (span : Span) (position : Position) (source : Buffer) :
    Except Fault Token :=
  if h : span.stop ≤ source.length then .ok ⟨kind, span, position, source, h⟩
  else .error (.tokenBeyondEnd span.start span.stop source.length)

def bytes (t : Token) : Except Fault (List UInt8) := t.source.slice t.span.start t.span.stop

def text (t : Token) : Except Fault String := do
  let bytes ← t.bytes
  pure (Utf8.decode bytes)

def isText (t : Token) (text : List UInt8) : Except Fault Bool := do
  let bytes ← t.bytes
  pure (bytes == text)

def isWhitespace (t : Token) : Bool := t.kind == .whitespace

def row (t : Token) : Nat := t.position.row

def column (t : Token) : Nat := t.position.column

/-- Tokens are the same if they are the same range of the same buffer, read the same way. -/
def same (s t : Token) : Bool :=
  s.kind == t.kind && s.span == t.span && s.position == t.position && s.source.same t.source

def describe (t : Token) : Except Fault String := do
  let text ← t.text
  pure (t.kind.name ++ " " ++ Quoted.quote text ++ " @ " ++ t.position.text ++ " ("
    ++ t.span.text ++ ")")

def texts (tokens : List Token) : Except Fault (List String) := tokens.mapM text

def describeAll (tokens : List Token) : Except Fault String := do
  let forms ← tokens.mapM describe
  pure ("[" ++ ", ".intercalate forms ++ "]")

end Token

end FrontEnd
