namespace FrontEnd

def bytesOf (text : String) : List UInt8 := text.toUTF8.data.toList

namespace Utf8

/-- A character begun: bytes still owed, bounds on the next one, and the bits read so far. -/
structure Pending where
  owed : Nat
  low : UInt8
  high : UInt8
  bits : Nat
  deriving DecidableEq

def replacement : Char := '\uFFFD'

/-- What a first byte begins; `none` if no character begins with it. -/
def lead (byte : UInt8) : Option Pending :=
  let bits := byte.toNat
  if byte < 0x80 then some ⟨0, 0x80, 0xBF, bits⟩
  else if byte < 0xC2 then none
  else if byte < 0xE0 then some ⟨1, 0x80, 0xBF, bits - 0xC0⟩
  else if byte = 0xE0 then some ⟨2, 0xA0, 0xBF, bits - 0xE0⟩
  else if byte = 0xED then some ⟨2, 0x80, 0x9F, bits - 0xE0⟩
  else if byte < 0xF0 then some ⟨2, 0x80, 0xBF, bits - 0xE0⟩
  else if byte = 0xF0 then some ⟨3, 0x90, 0xBF, bits - 0xF0⟩
  else if byte < 0xF4 then some ⟨3, 0x80, 0xBF, bits - 0xF0⟩
  else if byte = 0xF4 then some ⟨3, 0x80, 0x8F, bits - 0xF0⟩
  else none

/-- Between characters, or inside one; `found` holds the characters read, newest first. -/
structure Reader where
  pending : Option Pending
  found : List Char

namespace Reader

def settle (found : List Char) (p : Pending) : Reader :=
  if p.owed = 0 then ⟨none, Char.ofNat p.bits :: found⟩ else ⟨some p, found⟩

def begin (found : List Char) (byte : UInt8) : Reader :=
  match lead byte with
  | none => ⟨none, replacement :: found⟩
  | some p => settle found p

/-- A byte that cannot go on a character ends it as damaged and begins the next one. -/
def read (r : Reader) (byte : UInt8) : Reader :=
  match r.pending with
  | none => begin r.found byte
  | some p =>
    if p.low ≤ byte ∧ byte ≤ p.high then
      settle r.found ⟨p.owed - 1, 0x80, 0xBF, p.bits * 64 + (byte.toNat - 0x80)⟩
    else begin (replacement :: r.found) byte

def chars (r : Reader) : List Char :=
  match r.pending with
  | none => r.found.reverse
  | some _ => (replacement :: r.found).reverse

end Reader

/-- Reads bytes as text, each longest broken piece of a character as one replacement. -/
def decode (bytes : List UInt8) : String :=
  String.ofList (bytes.foldl Reader.read ⟨none, []⟩).chars

theorem toNat_ofNat {n : Nat} (h : n < 256) : (UInt8.ofNat n).toNat = n := by
  simp [Nat.mod_eq_of_lt h]

theorem lead_one : ∀ n, n < 0x80 → lead (.ofNat n) = some ⟨0, 0x80, 0xBF, n⟩ := by
  decide +kernel

theorem lead_two : ∀ n, n < 0xE0 → 0xC2 ≤ n →
    lead (.ofNat n) = some ⟨1, 0x80, 0xBF, n - 0xC0⟩ := by
  decide +kernel

/-- The byte after a lead of three keeps out long forms and surrogates. -/
theorem lead_three : ∀ n, n < 0xF0 → 0xE0 ≤ n → lead (.ofNat n) =
    some ⟨2, if n = 0xE0 then 0xA0 else 0x80, if n = 0xED then 0x9F else 0xBF, n - 0xE0⟩ := by
  decide +kernel

theorem lead_four : ∀ n, n < 0xF5 → 0xF0 ≤ n → lead (.ofNat n) =
    some ⟨3, if n = 0xF0 then 0x90 else 0x80, if n = 0xF4 then 0x8F else 0xBF, n - 0xF0⟩ := by
  decide +kernel

theorem read_last {found : List Char} {low high : UInt8} {bits n : Nat} (hn : n < 256)
    (h : low.toNat ≤ n) (h' : n ≤ high.toNat) :
    Reader.read ⟨some ⟨1, low, high, bits⟩, found⟩ (.ofNat n) =
      ⟨none, Char.ofNat (bits * 64 + (n - 0x80)) :: found⟩ := by
  simp only [Reader.read, UInt8.le_iff_toNat_le, toNat_ofNat hn, if_pos (And.intro h h')]
  rfl

theorem read_more {found : List Char} {owed : Nat} {low high : UInt8} {bits n : Nat} (hn : n < 256)
    (h : low.toNat ≤ n) (h' : n ≤ high.toNat) :
    Reader.read ⟨some ⟨owed + 2, low, high, bits⟩, found⟩ (.ofNat n) =
      ⟨some ⟨owed + 1, 0x80, 0xBF, bits * 64 + (n - 0x80)⟩, found⟩ := by
  simp only [Reader.read, UInt8.le_iff_toNat_le, toNat_ofNat hn, if_pos (And.intro h h')]
  rfl

theorem read_lead {found : List Char} {owed : Nat} {low high : UInt8} {bits n : Nat}
    (h : lead (.ofNat n) = some ⟨owed + 1, low, high, bits⟩) :
    Reader.read ⟨none, found⟩ (.ofNat n) = ⟨some ⟨owed + 1, low, high, bits⟩, found⟩ := by
  simp only [Reader.read, Reader.begin, h]
  rfl

theorem read_ascii {found : List Char} {n : Nat} (h : n < 0x80) :
    Reader.read ⟨none, found⟩ (.ofNat n) = ⟨none, Char.ofNat n :: found⟩ := by
  simp only [Reader.read, Reader.begin, lead_one n h]
  rfl

theorem toNat_ite (p : Prop) [Decidable p] (a b : UInt8) :
    (if p then a else b).toNat = if p then a.toNat else b.toNat := by
  split <;> rfl

theorem foldl_read_encode (c : Char) (found : List Char) :
    (String.utf8EncodeChar c).foldl Reader.read ⟨none, found⟩ = ⟨none, c :: found⟩ := by
  have hv : c.val.toNat < 0xD800 ∨ 0xDFFF < c.val.toNat ∧ c.val.toNat < 0x110000 := c.valid
  have hc : Char.ofNat c.val.toNat = c := Char.ofNat_toNat c
  have hlow : (0x80 : UInt8).toNat = 0x80 := rfl
  have hhigh : (0xBF : UInt8).toNat = 0xBF := rfl
  have he0 : (0xA0 : UInt8).toNat = 0xA0 := rfl
  have hed : (0x9F : UInt8).toNat = 0x9F := rfl
  have hf0 : (0x90 : UInt8).toNat = 0x90 := rfl
  have hf4 : (0x8F : UInt8).toNat = 0x8F := rfl
  unfold String.utf8EncodeChar
  generalize c.val.toNat = v at *
  simp only
  split
  · rw [List.foldl_cons, read_ascii (by omega), List.foldl_nil, hc]
  split
  · rw [List.foldl_cons, read_lead (lead_two _ (by omega) (by omega)), List.foldl_cons,
      read_last (by omega) (by omega) (by omega), List.foldl_nil,
      show (v / 64 % 32 + 192 - 192) * 64 + (v % 64 + 128 - 128) = v by omega, hc]
  split
  · rw [List.foldl_cons, read_lead (lead_three _ (by omega) (by omega)), List.foldl_cons,
      read_more (by omega) (by rw [toNat_ite]; split <;> omega) (by rw [toNat_ite]; split <;> omega),
      List.foldl_cons, read_last (by omega) (by omega) (by omega), List.foldl_nil,
      show ((v / 4096 % 16 + 224 - 224) * 64 + (v / 64 % 64 + 128 - 128)) * 64 +
        (v % 64 + 128 - 128) = v by omega, hc]
  · rw [List.foldl_cons, read_lead (lead_four _ (by omega) (by omega)), List.foldl_cons,
      read_more (by omega) (by rw [toNat_ite]; split <;> omega) (by rw [toNat_ite]; split <;> omega),
      List.foldl_cons, read_more (by omega) (by omega) (by omega), List.foldl_cons,
      read_last (by omega) (by omega) (by omega), List.foldl_nil,
      show (((v / 262144 % 8 + 240 - 240) * 64 + (v / 4096 % 64 + 128 - 128)) * 64 +
        (v / 64 % 64 + 128 - 128)) * 64 + (v % 64 + 128 - 128) = v by omega, hc]

theorem bytesOf_eq (s : String) : bytesOf s = s.toList.flatMap String.utf8EncodeChar := by
  unfold bytesOf String.toUTF8
  rw [← String.utf8Encode_toList]
  simp [List.utf8Encode]

theorem foldl_read_ascii {bytes : List UInt8} (h : ∀ byte ∈ bytes, byte < 0x80)
    (found : List Char) :
    bytes.foldl Reader.read ⟨none, found⟩ =
      ⟨none, (bytes.map fun byte => Char.ofNat byte.toNat).reverse ++ found⟩ := by
  induction bytes generalizing found with
  | nil => rfl
  | cons byte bytes ih =>
    obtain ⟨hbyte, hbytes⟩ := List.forall_mem_cons.1 h
    have hread : Reader.read ⟨none, found⟩ (.ofNat byte.toNat) =
        ⟨none, Char.ofNat byte.toNat :: found⟩ := read_ascii (UInt8.lt_iff_toNat_lt.1 hbyte)
    rw [UInt8.ofNat_toNat] at hread
    rw [List.foldl_cons, hread, ih hbytes, List.map_cons, List.reverse_cons, List.append_assoc,
      List.singleton_append]

theorem decode_ascii {bytes : List UInt8} (h : ∀ byte ∈ bytes, byte < 0x80) :
    decode bytes = String.ofList (bytes.map fun byte => Char.ofNat byte.toNat) := by
  rw [decode, foldl_read_ascii h, Reader.chars, List.append_nil, List.reverse_reverse]

theorem decode_append {left right : List UInt8} (hleft : ∀ byte ∈ left, byte < 0x80)
    (hright : ∀ byte ∈ right, byte < 0x80) : decode (left ++ right) = decode left ++ decode right := by
  have hboth : ∀ byte ∈ left ++ right, byte < 0x80 := List.forall_mem_append.2 ⟨hleft, hright⟩
  rw [decode_ascii hboth, decode_ascii hleft, decode_ascii hright, List.map_append,
    String.ofList_append]

theorem eq_of_decode_eq {left right : List UInt8} (hleft : ∀ byte ∈ left, byte < 0x80)
    (hright : ∀ byte ∈ right, byte < 0x80) (h : decode left = decode right) : left = right := by
  have hback : ∀ {bytes : List UInt8}, (∀ byte ∈ bytes, byte < 0x80) →
      (bytes.map fun byte => Char.ofNat byte.toNat).map (fun c => UInt8.ofNat c.toNat) = bytes := by
    intro bytes hbytes
    rw [List.map_map, List.map_congr_left, List.map_id]
    intro byte hbyte
    have hvalid : byte.toNat.isValidChar := .inl (Nat.lt_trans byte.toNat_lt (by decide))
    rw [Function.comp, Char.ofNat, dif_pos hvalid]
    exact UInt8.ofNat_toNat
  rw [decode_ascii hleft, decode_ascii hright] at h
  rw [← hback hleft, ← hback hright, String.ofList_injective h]

theorem foldl_read_bytes (cs found : List Char) :
    (cs.flatMap String.utf8EncodeChar).foldl Reader.read ⟨none, found⟩ =
      ⟨none, cs.reverse ++ found⟩ := by
  induction cs generalizing found with
  | nil => rfl
  | cons c cs ih =>
    rw [List.flatMap_cons, List.foldl_append, foldl_read_encode, ih, List.reverse_cons,
      List.append_assoc, List.singleton_append]

/-- The bytes of a text read as that text. -/
@[simp] theorem decode_bytesOf (s : String) : decode (bytesOf s) = s := by
  rw [decode, bytesOf_eq, foldl_read_bytes]
  simp [Reader.chars]

end Utf8

end FrontEnd
