import FrontEnd.Source.ByteClass
import FrontEnd.Source.Offset

namespace FrontEnd

/-- A source text with zeros behind it, so that a reader may look a little past the end. -/
structure Buffer where
  /-- Tells apart two buffers of the same text. -/
  id : Nat
  length : Nat
  cells : Array UInt8
  length_lt : length < Offset.bound
  length_add_le : length + 3 ≤ cells.size

namespace Buffer

/-- The size of the cells for a text of `n` bytes: `n + 66` with its low six bits cleared. -/
def paddedSize (n : Nat) : Nat := ((n + 66) >>> 6) <<< 6

theorem paddedSize_eq (n : Nat) : paddedSize n = (n + 66) / 64 * 64 := by
  simp [paddedSize, Nat.shiftLeft_eq, Nat.shiftRight_eq_div_pow]

theorem add_three_le_paddedSize (n : Nat) : n + 3 ≤ paddedSize n := by
  rw [paddedSize_eq]
  omega

/-- A text too long for its offsets is cut at the last one. -/
def ofBytes (id : Nat) (bytes : List UInt8) : Buffer :=
  let text := bytes.take (Offset.bound - 1)
  { id := id
    length := text.length
    cells := (text ++ List.replicate (paddedSize text.length - text.length) 0).toArray
    length_lt := by
      have : text.length ≤ Offset.bound - 1 := List.length_take_le _ _
      have : 0 < Offset.bound := by decide
      omega
    length_add_le := by
      have := add_three_le_paddedSize text.length
      simp only [List.size_toArray, List.length_append, List.length_replicate]
      omega }

def ofText (id : Nat) (text : String) : Buffer := ofBytes id (bytesOf text)

def bytes (b : Buffer) : List UInt8 := (b.cells.extract 0 b.length).toList

def padding (b : Buffer) : List UInt8 := (b.cells.extract b.length b.cells.size).toList

def isEmpty (b : Buffer) : Bool := b.length == 0

/-- The byte at an offset; the end and the two offsets after it read as padding. -/
def byteAt (b : Buffer) (pos : Nat) : Except Fault UInt8 :=
  if h : pos ≤ b.length + 2 then
    have := b.length_add_le
    .ok b.cells[pos]
  else .error (.readPastPadding pos)

def slice (b : Buffer) (start stop : Nat) : Except Fault (List UInt8) :=
  if stop < start then .error (.sliceReversed start stop)
  else if b.length < stop then .error (.sliceBeyondEnd stop b.length)
  else .ok (b.cells.extract start stop).toList

/-- Whether the text holds `needle` at an offset; never across its end. -/
def startsWithAt (b : Buffer) (pos : Nat) : List UInt8 → Bool
  | [] => pos ≤ b.length
  | byte :: rest =>
    decide (pos < b.length) && b.cells.getD pos 0 == byte && b.startsWithAt (pos + 1) rest

def firstFrom (test : Nat → Bool) (pos : Nat) : Nat → Option Nat
  | 0 => none
  | count + 1 => if test pos then some pos else firstFrom test (pos + 1) count

/-- The first place of `needle` at or after an offset; an empty one is found at every place. -/
def find (b : Buffer) (start : Nat) (needle : List UInt8) : Option Nat :=
  firstFrom (b.startsWithAt · needle) start (b.length + 1 - start)

def findByte (b : Buffer) (start : Nat) (byte : UInt8) : Option Nat :=
  firstFrom (fun pos => b.cells.getD pos 0 == byte) start (b.length - start)

/-- Handles show the same buffer if they came from one reading of the text. -/
def same (a b : Buffer) : Bool := a.id == b.id

def describe (b : Buffer) (shares : Nat) : String :=
  "SourceBuffer \x7b len: " ++ toString b.length ++ ", shares: " ++ toString shares ++ " \x7d"

theorem bytes_eq (b : Buffer) : b.bytes = b.cells.toList.take b.length := by
  simp [bytes]

@[simp] theorem length_bytes (b : Buffer) : b.bytes.length = b.length := by
  have := b.length_add_le
  simp only [bytes_eq, List.length_take, Array.length_toList]
  omega

theorem drop_bytes_eq_nil {b : Buffer} {pos : Nat} (h : b.length ≤ pos) : b.bytes.drop pos = [] :=
  List.drop_eq_nil_of_le (by rw [length_bytes]; exact h)

theorem length_of_drop_eq {b : Buffer} {pos : Nat} {byte : UInt8} {rest : List UInt8}
    (h : b.bytes.drop pos = byte :: rest) : pos + 1 + rest.length = b.length := by
  have hl := congrArg List.length h
  rw [List.length_drop, length_bytes, List.length_cons] at hl
  omega

@[simp] theorem bytes_ofBytes (id : Nat) (text : List UInt8) :
    (ofBytes id text).bytes = text.take (Offset.bound - 1) := by
  simp only [bytes_eq, ofBytes, List.take_left']

@[simp] theorem length_ofBytes (id : Nat) (text : List UInt8) :
    (ofBytes id text).length = min text.length (Offset.bound - 1) := by
  rw [← length_bytes, bytes_ofBytes, List.length_take, Nat.min_comm]

theorem cells_getD {b : Buffer} {pos : Nat} {byte : UInt8} (h : b.bytes[pos]? = some byte) :
    b.cells.getD pos 0 = byte := by
  rw [bytes_eq, List.getElem?_take] at h
  split at h
  · rw [Array.getD_eq_getD_getElem?, ← Array.getElem?_toList, h, Option.getD_some]
  · simp at h

theorem byteAt_of_getElem? {b : Buffer} {pos : Nat} {byte : UInt8} (h : b.bytes[pos]? = some byte) :
    b.byteAt pos = .ok byte := by
  rw [bytes_eq, List.getElem?_take] at h
  split at h
  · obtain ⟨_, rfl⟩ := List.getElem?_eq_some_iff.1 h
    simp [byteAt, show pos ≤ b.length + 2 by omega]
  · simp at h

theorem slice_eq {b : Buffer} {start stop : Nat} (h : start ≤ stop) (h' : stop ≤ b.length) :
    b.slice start stop = .ok ((b.bytes.drop start).take (stop - start)) := by
  simp only [slice, if_neg (Nat.not_lt.2 h), if_neg (Nat.not_lt.2 h'), bytes_eq,
    Array.toList_extract, List.extract_eq_take_drop, List.drop_take, List.take_take]
  rw [Nat.min_eq_left (by omega)]

theorem startsWithAt_iff {b : Buffer} {pos : Nat} {needle : List UInt8} :
    b.startsWithAt pos needle = true ↔ pos ≤ b.length ∧ needle <+: b.bytes.drop pos := by
  induction needle generalizing pos with
  | nil => simp [startsWithAt]
  | cons byte rest ih =>
    simp only [startsWithAt, Bool.and_eq_true, decide_eq_true_eq, beq_iff_eq, ih]
    by_cases h : pos < b.length
    · have hl : pos < b.bytes.length := by rw [length_bytes]; exact h
      rw [List.drop_eq_getElem_cons hl, List.cons_prefix_cons,
        cells_getD (List.getElem?_eq_getElem hl)]
      constructor
      · rintro ⟨⟨_, rfl⟩, _, hp⟩
        exact ⟨by omega, rfl, hp⟩
      · rintro ⟨_, rfl, hp⟩
        exact ⟨⟨h, rfl⟩, h, hp⟩
    · simp [h, drop_bytes_eq_nil (Nat.le_of_not_lt h)]

end Buffer

end FrontEnd
