import FrontEnd.Token.Basic

namespace FrontEnd

/-- Why a rule rejects its input: a token that it cannot take here, or no token. -/
inductive SyntaxError where
  | unexpected (position : Position) (kind : Kind) (text : String)
  | endOfInput
  deriving DecidableEq

namespace SyntaxError

def ofToken (t : Token) : Except Fault SyntaxError := do
  let text ← t.text
  pure (unexpected t.position t.kind text)

def message : SyntaxError → String
  | unexpected position _ text => "syntax error at [" ++ position.text ++ "]: " ++ text
  | endOfInput => "syntax error at end of file"

end SyntaxError

end FrontEnd
