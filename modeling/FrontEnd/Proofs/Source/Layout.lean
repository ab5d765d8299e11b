import FrontEnd.Source.Buffer
import Mathlib.Algebra.Group.Nat.Defs
import Mathlib.Order.Bounds.Basic

namespace FrontEnd

theorem toNat_and_not_ones {w : Nat} (x : BitVec w) (k : Nat) :
    (x &&& ~~~(BitVec.ofNat w (2 ^ k - 1))).toNat = (x.toNat >>> k) <<< k := by
  -- Bit by bit: the mask has ones below bit `k`, and the shifts change no bit from there on.
  apply Nat.eq_of_testBit_eq
  intro i
  rw [BitVec.testBit_toNat, BitVec.getLsbD_and, BitVec.getLsbD_not, BitVec.getLsbD_ofNat,
    Nat.testBit_two_pow_sub_one, Nat.testBit_shiftLeft, Nat.testBit_shiftRight,
    BitVec.testBit_toNat]
  by_cases hi : i < k
  · have hlow : ¬i ≥ k := Nat.not_le.2 hi
    simp only [hi, hlow, decide_true, decide_false, Bool.and_true, Bool.false_and]
    cases decide (i < w) <;> simp
  · have hhigh : i ≥ k := Nat.le_of_not_lt hi
    have hsum : k + (i - k) = i := Nat.add_sub_of_le hhigh
    simp only [hi, hhigh, hsum, decide_true, decide_false, Bool.and_false, Bool.not_false,
      Bool.and_true, Bool.true_and]
    cases hbit : x.getLsbD i with
    | false => rfl
    | true => simp [BitVec.lt_of_getLsbD hbit]

namespace Buffer

variable {b : Buffer} {pos : Nat}

/-- The padded size as words compute it, in every width that the sum fits in. -/
theorem paddedSize_eq_mask {n w : Nat} (h : n + 66 < 2 ^ w) :
    paddedSize n = ((BitVec.ofNat w n + 66#w) &&& ~~~63#w).toNat := by
  have hsum : (BitVec.ofNat w n + 66#w).toNat = n + 66 := by
    rw [← BitVec.ofNat_add, BitVec.toNat_ofNat, Nat.mod_eq_of_lt h]
  rw [show (63 : Nat) = 2 ^ 6 - 1 from rfl, toNat_and_not_ones, hsum, paddedSize]

/-- No smaller size is made of whole lines of 64 cells and leaves room for three zeros. -/
theorem paddedSize_isLeast (n : Nat) : IsLeast {m | 64 ∣ m ∧ n + 3 ≤ m} (paddedSize n) := by
  refine ⟨⟨?_, add_three_le_paddedSize n⟩, ?_⟩
  · rw [paddedSize_eq]
    exact Nat.dvd_mul_left 64 _
  · rintro m ⟨⟨lines, rfl⟩, hroom⟩
    rw [paddedSize_eq]
    omega

theorem size_cells_ofBytes (id : Nat) (source : List UInt8) :
    (ofBytes id source).cells.size = paddedSize (ofBytes id source).length := by
  have hroom := add_three_le_paddedSize (source.take (Offset.bound - 1)).length
  simp only [ofBytes, List.size_toArray, List.length_append, List.length_replicate]
  omega

theorem cells_ofBytes (id : Nat) (source : List UInt8) :
    (ofBytes id source).cells.toList = (ofBytes id source).bytes ++
      List.replicate ((ofBytes id source).cells.size - (ofBytes id source).length) 0 := by
  rw [size_cells_ofBytes, bytes_ofBytes]
  rfl

theorem byteAt_of_zeros {zeros : Nat} (hcells : b.cells.toList = b.bytes ++ List.replicate zeros 0)
    (h : pos ≤ b.length + 2) : b.byteAt pos = .ok (b.bytes.getD pos 0) := by
  by_cases hpos : pos < b.bytes.length
  · rw [List.getD_eq_getElem?_getD, List.getElem?_eq_getElem hpos]
    exact byteAt_of_getElem? (List.getElem?_eq_getElem hpos)
  · have hend := Nat.le_of_not_lt hpos
    have hroom := b.length_add_le
    have hcell : b.cells[pos] = 0 := by
      rw [← Array.getElem_toList]
      simp only [hcells, List.getElem_append_right hend, List.getElem_replicate]
    rw [List.getD_eq_getElem?_getD, List.getElem?_eq_none hend, byteAt, dif_pos h]
    exact congrArg Except.ok hcell

/-- A text, cut where offsets end, has only zeros behind it. They fill as few lines of 64 cells as
have room for the end and the two offsets after it, so to read there is to read zeros. -/
theorem ofBytes_layout (id : Nat) (source : List UInt8) :
    ∃ b : Buffer, ofBytes id source = b ∧
      b.bytes = source.take (min source.length (Offset.bound - 1)) ∧
      b.length = min source.length (Offset.bound - 1) ∧
      (∀ w, b.length + 66 < 2 ^ w →
        b.cells.size = ((BitVec.ofNat w b.length + 66#w) &&& ~~~63#w).toNat) ∧
      IsLeast {n | 64 ∣ n ∧ b.length + 3 ≤ n} b.cells.size ∧
      b.cells.toList = b.bytes ++ List.replicate (b.cells.size - b.length) 0 ∧
      ∀ pos, pos ≤ b.length + 2 →
        pos < b.cells.size ∧ b.byteAt pos = .ok (b.bytes.getD pos 0) := by
  have hsize := size_cells_ofBytes id source
  have hcells := cells_ofBytes id source
  refine ⟨_, rfl, ?_, length_ofBytes id source, ?_, ?_, hcells, ?_⟩
  · rw [bytes_ofBytes, List.take_eq_take_iff]
    omega
  · intro w hw
    rw [hsize, paddedSize_eq_mask hw]
  · rw [hsize]
    exact paddedSize_isLeast _
  · intro pos hpos
    exact ⟨Nat.lt_of_lt_of_le (by omega) (length_add_le _), byteAt_of_zeros hcells hpos⟩

theorem ofBytes_layout_of_tight_text :
    ∃ b : Buffer, ofBytes 0 (List.replicate 60 0x79 ++ [0x00]) = b ∧
      (b.length + 66 < 2 ^ 64 ∧ 63 ≤ b.length + 2) ∧
      b.cells.size = 64 ∧ b.byteAt 59 = .ok 0x79 ∧ b.byteAt 60 = .ok 0 ∧ b.byteAt 63 = .ok 0 := by
  obtain ⟨b, hb, hbytes, hlength, hsize, _, _, hread⟩ :=
    ofBytes_layout 0 (List.replicate 60 0x79 ++ [0x00])
  have hfits : b.length + 66 < 2 ^ 64 ∧ 63 ≤ b.length + 2 := by
    rw [hlength]
    decide
  have hword := hsize 64 hfits.1
  rw [hlength] at hword
  rw [hbytes] at hread
  refine ⟨b, hb, hfits, hword.trans (by decide), ?_, ?_, ?_⟩
  · exact (hread 59 (by omega)).2
  · exact (hread 60 (by omega)).2
  · exact (hread 63 hfits.2).2

end Buffer

end FrontEnd
