import FrontEnd.Engine.Counter
import FrontEnd.Program
import FrontEnd.Proofs.Engine.Invariant
import FrontEnd.Proofs.Engine.Protocol
import FrontEnd.Proofs.Grammar.Ahead
import FrontEnd.Proofs.Grammar.ArgumentList
import FrontEnd.Proofs.Grammar.ArgumentText
import FrontEnd.Proofs.Grammar.Blank
import FrontEnd.Proofs.Grammar.Content
import FrontEnd.Proofs.Grammar.Display
import FrontEnd.Proofs.Grammar.Extent
import FrontEnd.Proofs.Grammar.Matching
import FrontEnd.Proofs.Grammar.Name
import FrontEnd.Proofs.Grammar.Simulation
import FrontEnd.Proofs.Grammar.Spelling
import FrontEnd.Proofs.Grammar.Trail
import FrontEnd.Proofs.Grammar.TypeText
import FrontEnd.Proofs.Lexeme.Boundary
import FrontEnd.Proofs.Lexeme.Character
import FrontEnd.Proofs.Lexeme.Comment
import FrontEnd.Proofs.Lexeme.Gap
import FrontEnd.Proofs.Lexeme.Line
import FrontEnd.Proofs.Lexeme.Literal
import FrontEnd.Proofs.Lexeme.Longest
import FrontEnd.Proofs.Lexeme.Range
import FrontEnd.Proofs.Lexeme.Rest
import FrontEnd.Proofs.Lexeme.Splitting
import FrontEnd.Proofs.Scope.Balance
import FrontEnd.Proofs.Scope.Depth
import FrontEnd.Proofs.Session.Place
import FrontEnd.Proofs.Session.Thinned
import FrontEnd.Proofs.Source.Layout
import FrontEnd.Proofs.Source.Search
import FrontEnd.Proofs.Store.Run
import FrontEnd.Proofs.Text.Identifier
import FrontEnd.Proofs.Tree.Alike
import FrontEnd.Proofs.Tree.Written
import FrontEnd.Proofs.Tree.WrittenArgument
import FrontEnd.Session
import FrontEnd.Store.Basic
