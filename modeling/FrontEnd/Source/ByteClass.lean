import FrontEnd.Text.Utf8

namespace FrontEnd

/-- What a byte can do in a source; each byte has exactly one class. -/
inductive ByteClass where
  | whitespace
  | identStart
  | digit
  | delimiter
  | scopeMark
  | operatorMark
  | other
  deriving DecidableEq, Repr

namespace ByteClass

def delimiters : List UInt8 := [0x22, 0x27, 0x60]

def scopeMarks : List UInt8 := bytesOf "(),.:;[]\x7b\x7d"

def operatorMarks : List UInt8 := bytesOf "!#$%&*+-/<=>?@\\^|~"

/-- Only ASCII bytes have a class of their own; the rest, and NUL, are `other`. -/
def ofByte (b : UInt8) : ByteClass :=
  if b = 0x20 ∨ 0x09 ≤ b ∧ b ≤ 0x0D then whitespace
  else if 0x41 ≤ b ∧ b ≤ 0x5A ∨ 0x61 ≤ b ∧ b ≤ 0x7A ∨ b = 0x5F then identStart
  else if 0x30 ≤ b ∧ b ≤ 0x39 then digit
  else if b ∈ delimiters then delimiter
  else if b ∈ scopeMarks then scopeMark
  else if b ∈ operatorMarks then operatorMark
  else other

def continuesIdent (c : ByteClass) : Bool :=
  match c with
  | identStart | digit => true
  | _ => false

/-- A fact of all bytes may be checked byte by byte. -/
theorem forall_byte {P : UInt8 → Prop} (h : ∀ n, n < 256 → P (.ofNat n)) (b : UInt8) : P b := by
  have := h b.toNat b.toNat_lt
  rwa [UInt8.ofNat_toNat] at this

theorem ofByte_of_not_ascii (b : UInt8) : 0x80 ≤ b → ofByte b = other := by
  revert b
  exact forall_byte (by decide +kernel)

theorem ofByte_eq_delimiter_iff (b : UInt8) : ofByte b = delimiter ↔ b ∈ delimiters := by
  revert b
  exact forall_byte (by decide +kernel)

theorem ofByte_eq_operatorMark_iff (b : UInt8) : ofByte b = operatorMark ↔ b ∈ operatorMarks := by
  revert b
  exact forall_byte (by decide +kernel)

end ByteClass

end FrontEnd
