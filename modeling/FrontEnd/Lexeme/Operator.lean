import FrontEnd.Source.ByteClass

namespace FrontEnd.Operator

/-- The operators that a longer lexeme may grow into, and most of one byte, longest first. An
operator byte that is not here, such as the star, is still a lexeme of its own. -/
def catalog : List String := [
  "<<=", ">>=", "<=>",
  "&=", "^=", "|=", "->", "++", "--", "||", "&&", "+=", "-=", "*=", "/=", "%=", "<<", ">>",
  "<=", ">=", "==", "!=",
  "!", "#", "%", "&", "+", "-", "/", "<", "=", ">", "?", "\\", "^", "|", "~", "$", "@"]

def longest : Nat := 3

def entries : List (List UInt8) := catalog.map bytesOf

def isCataloged (lexeme : List UInt8) : Bool :=
  decide (lexeme.length ≤ longest) && entries.contains lexeme

theorem length_le_longest : ∀ entry ∈ entries, entry.length ≤ longest := by decide

@[simp] theorem isCataloged_iff {lexeme : List UInt8} :
    isCataloged lexeme = true ↔ lexeme ∈ entries := by
  simp only [isCataloged, Bool.and_eq_true, decide_eq_true_eq, List.contains_iff_mem,
    and_iff_right_iff_imp]
  exact length_le_longest lexeme

end FrontEnd.Operator
