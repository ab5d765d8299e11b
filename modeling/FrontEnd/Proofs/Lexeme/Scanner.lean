import FrontEnd.Proofs.Lexeme.Basic

namespace FrontEnd

open Recognizer (blockClose lineFeed)
open Lexeme (runLength blockLength)

/-- The position of a byte that comes after others: its row is one more than the line feeds before
it, and its column one more than the bytes since the last of them. -/
def Position.after (before : List UInt8) : Position where
  row := before.count lineFeed + 1
  column := runLength (· != lineFeed) before.reverse + 1

def Position.Fits (before : List UInt8) : Prop :=
  (after before).row < Offset.bound ∧ (after before).column < Offset.bound

theorem Position.row_after_le (before : List UInt8) : (after before).row ≤ before.length + 1 :=
  Nat.succ_le_succ List.count_le_length

theorem Position.column_after_le (before : List UInt8) :
    (after before).column ≤ before.length + 1 := by
  have hcolumn := Lexeme.runLength_le (· != lineFeed) before.reverse
  rw [List.length_reverse] at hcolumn
  exact Nat.succ_le_succ hcolumn

theorem Position.fits_of_length {before : List UInt8} (h : before.length + 1 < Offset.bound) :
    Fits before :=
  ⟨Nat.lt_of_le_of_lt (row_after_le before) h, Nat.lt_of_le_of_lt (column_after_le before) h⟩

@[simp] theorem Position.after_lineFeed (before : List UInt8) :
    after (before ++ [lineFeed]) = ⟨(after before).row + 1, 1⟩ := by
  simp [after, runLength]

theorem Position.after_of_ne (before : List UInt8) {byte : UInt8} (h : byte ≠ lineFeed) :
    after (before ++ [byte]) = ⟨(after before).row, (after before).column + 1⟩ := by
  simp [after, runLength, h]

theorem Position.step_lineFeed (p : Position) :
    p.step lineFeed = (Offset.add p.row 1).bind fun row => .ok ⟨row, 1⟩ := if_pos rfl

theorem Position.step_of_ne (p : Position) {byte : UInt8} (h : byte ≠ lineFeed) :
    p.step byte = (Offset.add p.column 1).bind fun column => .ok ⟨p.row, column⟩ := if_neg h

theorem Position.step_of_fits {before : List UInt8} {byte : UInt8} (h : Fits (before ++ [byte])) :
    (after before).step byte = .ok (after (before ++ [byte])) := by
  by_cases hbyte : byte = lineFeed
  · subst hbyte
    rw [Fits, after_lineFeed] at h
    rw [after_lineFeed, step_lineFeed, Offset.add_eq_ok h.1]
    rfl
  · rw [Fits, after_of_ne before hbyte] at h
    rw [after_of_ne before hbyte, step_of_ne _ hbyte, Offset.add_eq_ok h.2]
    rfl

theorem Position.step_after {before : List UInt8} (byte : UInt8)
    (h : before.length + 2 < Offset.bound) :
    (after before).step byte = .ok (after (before ++ [byte])) := by
  apply step_of_fits
  apply fits_of_length
  rw [List.length_append, List.length_singleton]
  exact h

namespace Buffer

variable {b : Buffer} {pos : Nat}

theorem startsWithAt_eq {needle : List UInt8} (h : pos ≤ b.length) :
    b.startsWithAt pos needle = needle.isPrefixOf (b.bytes.drop pos) := by
  rw [Bool.eq_iff_iff, startsWithAt_iff, List.isPrefixOf_iff_prefix]
  exact and_iff_right h

theorem drop_bytes_of_lt (h : pos < b.length) :
    ∃ byte, b.bytes[pos]? = some byte ∧ b.bytes.drop pos = byte :: b.bytes.drop (pos + 1) := by
  have hlt : pos < b.bytes.length := by rw [length_bytes]; exact h
  exact ⟨b.bytes[pos], List.getElem?_eq_getElem hlt, List.drop_eq_getElem_cons hlt⟩

theorem take_bytes_succ {byte : UInt8} (h : b.bytes[pos]? = some byte) :
    b.bytes.take (pos + 1) = b.bytes.take pos ++ [byte] := by
  rw [List.take_add_one, h]
  rfl

theorem find_blockClose (h : pos ≤ b.length) :
    ((b.find pos blockClose).map (· + 2)).getD b.length =
      pos + blockLength (b.bytes.drop pos) := by
  unfold find
  obtain ⟨left, hleft⟩ : ∃ left, b.length = pos + left := Nat.exists_eq_add_of_le h
  induction left generalizing pos with
  | zero =>
    have ht : b.startsWithAt pos blockClose = false := by
      rw [startsWithAt_eq h, drop_bytes_eq_nil (by omega)]
      rfl
    rw [show b.length + 1 - pos = 0 + 1 by omega, firstFrom, ht, drop_bytes_eq_nil (by omega)]
    simpa [firstFrom, blockLength] using hleft
  | succ left ih =>
    have hlt : pos < b.length := by omega
    obtain ⟨byte, _, hd⟩ := drop_bytes_of_lt hlt
    rw [show b.length + 1 - pos = (b.length + 1 - (pos + 1)) + 1 by omega, firstFrom,
      startsWithAt_eq h, hd, blockLength]
    split
    · rfl
    · rw [ih (by omega) (by omega)]
      omega

theorem findByte_getD (byte : UInt8) (h : pos ≤ b.length) :
    (b.findByte pos byte).getD b.length = pos + runLength (· != byte) (b.bytes.drop pos) := by
  unfold findByte
  obtain ⟨left, hleft⟩ : ∃ left, b.length = pos + left := Nat.exists_eq_add_of_le h
  induction left generalizing pos with
  | zero =>
    rw [show b.length - pos = 0 by omega, drop_bytes_eq_nil (by omega)]
    simpa [firstFrom, runLength] using hleft
  | succ left ih =>
    have hlt : pos < b.length := by omega
    obtain ⟨found, hf, hd⟩ := drop_bytes_of_lt hlt
    rw [show b.length - pos = (b.length - (pos + 1)) + 1 by omega, firstFrom, cells_getD hf, hd,
      runLength, List.takeWhile_cons]
    by_cases heq : found = byte
    · simp [heq]
    · simp only [beq_iff_eq, heq, if_false, bne_iff_ne, ne_eq, not_false_eq_true, if_true,
        List.length_cons]
      rw [ih (by omega) (by omega), runLength]
      omega

end Buffer

namespace Scanner

structure Placed (s : Scanner) : Prop where
  pos_le : s.pos ≤ s.source.length
  position_eq : s.position = .after (s.source.bytes.take s.pos)

def moved (s : Scanner) (pos : Nat) : Scanner :=
  { s with pos := pos, position := .after (s.source.bytes.take pos) }

variable {s : Scanner}

theorem placed_ofBuffer (source : Buffer) : (ofBuffer source).Placed where
  pos_le := Nat.zero_le _
  position_eq := rfl

theorem current_eq {byte : UInt8} (h : s.source.bytes[s.pos]? = some byte) :
    s.current = .ok byte := Buffer.byteAt_of_getElem? h

theorem Placed.moved_pos (h : s.Placed) : s.moved s.pos = s := by
  rw [moved, ← h.position_eq]

theorem placed_moved {pos : Nat} (h : pos ≤ s.source.length) : (s.moved pos).Placed := ⟨h, rfl⟩

theorem fits_of_lt {pos : Nat} (h : pos < s.source.length) :
    Position.Fits (s.source.bytes.take pos) := by
  have hlt := s.source.length_lt
  have hlength := List.length_take_le pos s.source.bytes
  apply Position.fits_of_length
  omega

theorem Placed.advance (h : s.Placed) (hfits : Position.Fits (s.source.bytes.take (s.pos + 1)))
    (hlt : s.pos < s.source.length) : s.advance = .ok (s.moved (s.pos + 1)) := by
  obtain ⟨byte, hbyte, _⟩ := Buffer.drop_bytes_of_lt hlt
  have hbound := s.source.length_lt
  have htake := Buffer.take_bytes_succ hbyte
  rw [htake] at hfits
  have hstep := Position.step_of_fits hfits
  rw [← htake, ← h.position_eq] at hstep
  rw [Scanner.advance, if_neg (by simpa [atEnd] using hlt), current_eq hbyte]
  simp only [bind, Except.bind, hstep, Offset.add_eq_ok (show s.pos + 1 < _ by omega)]
  rfl

theorem lexemeWithNext_eq {start : Nat} {byte : UInt8} {rest : List UInt8} {more : Nat}
    (hb : s.pos + 2 < Offset.bound) (hs : s.source.bytes.drop start = byte :: rest)
    (hmark : s.markStart = start) (hpos : s.pos = start + more) (hle : more ≤ rest.length) :
    s.lexemeWithNext =
      .ok (rest[more]?.map fun found => byte :: (rest.take more ++ [found])) := by
  have hlen := Buffer.length_of_drop_eq hs
  unfold lexemeWithNext
  rw [Offset.add_eq_ok hb]
  simp only [bind, Except.bind]
  split
  · next hlt =>
    have hmore : more < rest.length := by omega
    rw [Buffer.slice_eq (by omega) hlt, hmark, hs, hpos,
      show start + more + 2 - start = more + 1 + 1 by omega, List.take_succ_cons,
      List.take_succ_eq_append_getElem hmore, List.getElem?_eq_getElem hmore]
    rfl
  · next hge =>
    rw [List.getElem?_eq_none (by omega)]
    rfl

end Scanner

end FrontEnd
