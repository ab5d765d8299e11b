import FrontEnd.Token.Basic

namespace FrontEnd

/-- What the front end writes to its log. -/
inductive Record where
  | tokenizing (length : Nat)
  | emitted (token : Token)
  | tokenized (count : Nat)
  | advanced (token : Token)
  | readingName (pos : Nat)
  | readingType (pos : Nat)
  | readingArguments (pos : Nat)
  | unnamedDropped
  | readingGlobal (pos : Nat)
  | parsing (length : Nat)
  | parsed (entries depth : Nat)

inductive Level where
  | debug
  | trace
  deriving DecidableEq, Repr

inductive FieldValue where
  | number (n : Nat)
  | text (s : String)
  deriving DecidableEq, Repr

namespace Level

def name : Level → String
  | debug => "DEBUG"
  | trace => "TRACE"

end Level

namespace Record

def level : Record → Level
  | emitted _ | advanced _ | unnamedDropped => .trace
  | _ => .debug

def message : Record → String
  | tokenizing _ => "span tokenize"
  | emitted _ => "emit"
  | tokenized _ => "tokenized"
  | advanced _ => "advance"
  | readingName _ => "parse_qualified_ident"
  | readingType _ => "parse_type"
  | readingArguments _ => "parse_function_arguments"
  | unnamedDropped => "unnamed argument dropped"
  | readingGlobal _ => "parse_global_scope"
  | parsing _ => "span parse_source"
  | parsed _ _ => "parsed"

def fields : Record → List (String × FieldValue)
  | tokenizing length => [("len", .number length)]
  | emitted t => [
    ("kind", .text t.kind.name), ("span_start", .number t.span.start),
    ("span_end", .number t.span.stop), ("row", .number t.row), ("column", .number t.column)]
  | tokenized count => [("tokens", .number count)]
  | advanced t => [
    ("kind", .text t.kind.name), ("row", .number t.row), ("column", .number t.column)]
  | readingName pos => [("pos", .number pos)]
  | readingType pos => [("pos", .number pos)]
  | readingArguments pos => [("pos", .number pos)]
  | unnamedDropped => []
  | readingGlobal pos => [("pos", .number pos)]
  | parsing length => [("len", .number length)]
  | parsed entries depth => [("entries", .number entries), ("depth", .number depth)]

def ofTokens (source : Buffer) (tokens : List Token) : List Record :=
  tokenizing source.length :: (tokens.map emitted ++ [tokenized tokens.length])

end Record

end FrontEnd
