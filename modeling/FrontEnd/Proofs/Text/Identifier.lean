import FrontEnd.Token.Basic
import FrontEnd.Source.ByteClass

namespace FrontEnd

namespace Utf8

def Pending.isWide (p : Pending) : Bool :=
  0x80 ≤ p.low && p.high ≤ 0xBF &&
    match p.owed with
    | 1 => 2 ≤ p.bits && p.bits < 0x4400 && (p.bits < 0x360 || 0x380 ≤ p.bits)
    | 2 => p.bits < 0x110 && (p.bits != 0 || 0xA0 ≤ p.low) && (p.bits != 0xD || p.high ≤ 0x9F)
    | 3 => p.bits < 5 && (p.bits != 0 || 0x90 ≤ p.low) && (p.bits != 4 || p.high ≤ 0x8F)
    | _ => false

theorem lead_cases (byte : UInt8) :
    (lead byte).all (fun p => p.isWide || (p.owed == 0 && byte < 0x80)) = true := by
  revert byte
  exact ByteClass.forall_byte (by decide +kernel)

theorem le_toNat_ofNat {n : Nat} (h : 0x80 ≤ n) (h' : n < 0xD800 ∨ 0xDFFF < n ∧ n < 0x110000) :
    0x80 ≤ (Char.ofNat n).toNat := by
  rw [Char.ofNat, dif_pos h']
  exact h

theorem Pending.isWide_next {p : Pending} {byte : UInt8} (h : p.isWide = true) (hlow : p.low ≤ byte)
    (hhigh : byte ≤ p.high) :
    (p.owed = 1 ∧ 0x80 ≤ (Char.ofNat (p.bits * 64 + (byte.toNat - 0x80))).toNat) ∨
      (p.owed - 1 ≠ 0 ∧
        Pending.isWide ⟨p.owed - 1, 0x80, 0xBF, p.bits * 64 + (byte.toNat - 0x80)⟩ = true) := by
  obtain ⟨owed, low, high, bits⟩ := p
  match owed with
  | 0 => simp [isWide] at h
  | 1 =>
    simp only [isWide, UInt8.le_iff_toNat_le, UInt8.reduceToNat, Bool.and_eq_true, Bool.or_eq_true,
      decide_eq_true_eq] at h hlow hhigh
    exact .inl ⟨rfl, le_toNat_ofNat (by dsimp only; omega) (by dsimp only; omega)⟩
  | 2 =>
    right
    refine ⟨Nat.one_ne_zero, ?_⟩
    simp only [isWide, UInt8.le_iff_toNat_le, UInt8.reduceToNat, Bool.and_eq_true, Bool.or_eq_true,
      decide_eq_true_eq, bne_iff_ne] at h hlow hhigh ⊢
    omega
  | 3 =>
    right
    refine ⟨Nat.succ_ne_zero 1, ?_⟩
    simp only [isWide, UInt8.le_iff_toNat_le, UInt8.reduceToNat, Bool.and_eq_true, Bool.or_eq_true,
      decide_eq_true_eq, bne_iff_ne] at h hlow hhigh ⊢
    omega
  | _ + 4 => simp [isWide] at h

namespace Reader

variable {r : Reader} {byte : UInt8} {found : List Char}

/-- A character that was begun is a wide one. -/
def IsWide (r : Reader) : Prop := ∀ p ∈ r.pending, p.isWide = true

structure IsAscii (r : Reader) : Prop where
  pending_eq : r.pending = none
  found : ∀ c ∈ r.found, c.toNat < 0x80

theorem isWide_none (found : List Char) : (⟨none, found⟩ : Reader).IsWide := by
  intro p hp
  cases hp

theorem isAscii_of_chars (h : ∀ c ∈ r.chars, c.toNat < 0x80) : r.IsAscii := by
  obtain ⟨pending, found⟩ := r
  cases pending with
  | none => exact ⟨rfl, fun c hc => h c (List.mem_reverse.2 hc)⟩
  | some p => exact absurd (h replacement (by simp [chars])) (by decide)

theorem isWide_begin : (begin found byte).IsWide := by
  have hlead := lead_cases byte
  unfold begin
  cases hp : lead byte with
  | none => exact isWide_none _
  | some p =>
    rw [hp, Option.all_some, Bool.or_eq_true, Bool.and_eq_true] at hlead
    dsimp only
    unfold settle
    split
    · exact isWide_none _
    · next howed =>
      rintro _ ⟨⟩
      exact hlead.resolve_right fun hascii => howed (beq_iff_eq.1 hascii.1)

theorem ascii_of_begin (h : (begin found byte).IsAscii) :
    byte < 0x80 ∧ ∀ c ∈ found, c.toNat < 0x80 := by
  have hlead := lead_cases byte
  unfold begin at h
  cases hp : lead byte with
  | none =>
    rw [hp] at h
    exact absurd (h.found replacement List.mem_cons_self) (by decide)
  | some p =>
    rw [hp] at h hlead
    rw [Option.all_some, Bool.or_eq_true, Bool.and_eq_true] at hlead
    dsimp only at h
    unfold settle at h
    split at h
    · next howed =>
      refine ⟨?_, fun c hc => h.found c (List.mem_cons_of_mem _ hc)⟩
      rcases hlead with hwide | ⟨_, hbyte⟩
      · simp [Pending.isWide, howed] at hwide
      · exact of_decide_eq_true hbyte
    · exact absurd h.pending_eq (Option.some_ne_none _)

theorem IsWide.read (h : r.IsWide) (byte : UInt8) : (r.read byte).IsWide := by
  obtain ⟨pending, found⟩ := r
  cases pending with
  | none => exact isWide_begin
  | some p =>
    dsimp only [Reader.read]
    split
    · next hrange =>
      unfold settle
      split
      · exact isWide_none _
      · next howed =>
        rintro _ ⟨⟩
        rcases Pending.isWide_next (h p rfl) hrange.1 hrange.2 with ⟨hone, _⟩ | ⟨_, hwide⟩
        · exact absurd (congrArg (· - 1) hone) howed
        · exact hwide
    · exact isWide_begin

/-- ASCII characters come of ASCII bytes only. -/
theorem IsWide.ascii_of_read (h : r.IsWide) (hread : (r.read byte).IsAscii) :
    byte < 0x80 ∧ r.IsAscii := by
  obtain ⟨pending, found⟩ := r
  cases pending with
  | none =>
    obtain ⟨hbyte, hfound⟩ := ascii_of_begin hread
    exact ⟨hbyte, rfl, hfound⟩
  | some p =>
    dsimp only [Reader.read] at hread
    split at hread
    · next hrange =>
      unfold settle at hread
      split at hread
      · next howed =>
        rcases Pending.isWide_next (h p rfl) hrange.1 hrange.2 with ⟨_, hchar⟩ | ⟨hmore, _⟩
        · exact absurd (hread.found _ List.mem_cons_self) (Nat.not_lt.2 hchar)
        · exact absurd howed hmore
      · exact absurd hread.pending_eq (Option.some_ne_none _)
    · have hfound := (ascii_of_begin hread).2
      exact absurd (hfound replacement List.mem_cons_self) (by decide)

theorem IsWide.ascii_of_foldl {bytes : List UInt8} (h : r.IsWide)
    (hread : (bytes.foldl Reader.read r).IsAscii) : (∀ byte ∈ bytes, byte < 0x80) ∧ r.IsAscii := by
  induction bytes generalizing r with
  | nil => exact ⟨List.forall_mem_nil _, hread⟩
  | cons byte bytes ih =>
    obtain ⟨hbytes, hnext⟩ := ih (h.read byte) hread
    obtain ⟨hbyte, hr⟩ := h.ascii_of_read hnext
    exact ⟨List.forall_mem_cons.2 ⟨hbyte, hbytes⟩, hr⟩

end Reader

theorem ascii_of_decode {bytes : List UInt8} (h : ∀ c ∈ (decode bytes).toList, c.toNat < 0x80) :
    ∀ byte ∈ bytes, byte < 0x80 := by
  rw [decode, String.toList_ofList] at h
  exact ((Reader.isWide_none []).ascii_of_foldl (Reader.isAscii_of_chars h)).1

theorem encode_ascii : ∀ n, n < 0x80 → String.utf8EncodeChar (.ofNat n) = [.ofNat n] := by
  decide +kernel

@[simp] theorem bytesOf_append (s t : String) : bytesOf (s ++ t) = bytesOf s ++ bytesOf t := by
  rw [bytesOf_eq, bytesOf_eq, bytesOf_eq, String.toList_append, List.flatMap_append]

theorem bytesOf_inj {s t : String} (h : bytesOf s = bytesOf t) : s = t := by
  rw [← decode_bytesOf s, h, decode_bytesOf]

theorem bytesOf_decode {bytes : List UInt8} (h : ∀ byte ∈ bytes, byte < 0x80) :
    bytesOf (decode bytes) = bytes := by
  rw [decode_ascii h, bytesOf_eq, String.toList_ofList, List.flatMap_map]
  induction bytes with
  | nil => rfl
  | cons byte bytes ih =>
    obtain ⟨hbyte, hbytes⟩ := List.forall_mem_cons.1 h
    rw [List.flatMap_cons, encode_ascii _ (UInt8.lt_iff_toNat_lt.1 hbyte), ih hbytes,
      UInt8.ofNat_toNat, List.singleton_append]

end Utf8

/-- A letter or an underscore, and then letters, underscores and digits, all ASCII. -/
def IsIdentifier (text : String) : Prop :=
  ∃ first rest, text.toList = first :: rest ∧ (first.isAlpha ∨ first = '_') ∧
    ∀ c ∈ rest, c.isAlphanum ∨ c = '_'

theorem lt_of_isAlphanum {c : Char} (h : c.isAlphanum ∨ c = '_') : c.toNat < 0x80 := by
  have hlt {high : Char} (hhigh : high.toNat < 0x80) (hle : c.val ≤ high.val) : c.toNat < 0x80 :=
    Nat.lt_of_le_of_lt (UInt32.le_iff_toNat_le.1 hle) hhigh
  rcases h with h | rfl
  · rcases Bool.or_eq_true_iff.1 h with halpha | hdigit
    · rcases Bool.or_eq_true_iff.1 halpha with hupper | hlower
      · exact hlt (by decide) (of_decide_eq_true hupper).2
      · exact hlt (by decide) (of_decide_eq_true (Bool.and_eq_true_iff.1 hlower).2)
    · exact hlt (by decide) (of_decide_eq_true (Bool.and_eq_true_iff.1 hdigit).2)
  · decide

theorem class_of_ascii : ∀ n, n < 0x80 →
    ((Char.ofNat n).isAlpha ∨ Char.ofNat n = '_' → ByteClass.ofByte (.ofNat n) = .identStart) ∧
      ((Char.ofNat n).isAlphanum ∨ Char.ofNat n = '_' →
        (ByteClass.ofByte (.ofNat n)).continuesIdent = true) := by
  decide +kernel

namespace IsIdentifier

variable {text : String}

theorem of_all {first : Char} {rest : List Char} (htext : text.toList = first :: rest)
    (hfirst : (first.isAlpha || first == '_') = true)
    (hrest : rest.all (fun c => c.isAlphanum || c == '_') = true) : IsIdentifier text := by
  refine ⟨first, rest, htext, ?_, ?_⟩
  · exact (Bool.or_eq_true_iff.1 hfirst).imp_right beq_iff_eq.1
  · intro c hc
    exact (Bool.or_eq_true_iff.1 (List.all_eq_true.1 hrest c hc)).imp_right beq_iff_eq.1

theorem lt (h : IsIdentifier text) : ∀ c ∈ text.toList, c.toNat < 0x80 := by
  obtain ⟨first, rest, htext, hfirst, hrest⟩ := h
  have hstart : first.isAlphanum ∨ first = '_' :=
    hfirst.imp_left fun halpha => Bool.or_eq_true_iff.2 (.inl halpha)
  rw [htext]
  exact List.forall_mem_cons.2 ⟨lt_of_isAlphanum hstart, fun c hc => lt_of_isAlphanum (hrest c hc)⟩

theorem exists_bytes (h : IsIdentifier text) :
    ∃ byte bytes, bytesOf text = byte :: bytes ∧ ByteClass.ofByte byte = .identStart ∧
      ∀ b ∈ bytes, (ByteClass.ofByte b).continuesIdent = true := by
  have hlt := h.lt
  obtain ⟨first, rest, htext, hfirst, hrest⟩ := h
  rw [htext] at hlt
  obtain ⟨hlt, hlts⟩ := List.forall_mem_cons.1 hlt
  have hencode : ∀ c : Char, c.toNat < 0x80 → String.utf8EncodeChar c = [.ofNat c.toNat] := by
    intro c hc
    have := Utf8.encode_ascii c.toNat hc
    rwa [Char.ofNat_toNat] at this
  have hclass : ∀ c : Char, c.toNat < 0x80 → _ := fun c hc => class_of_ascii c.toNat hc
  simp only [Char.ofNat_toNat] at hclass
  refine ⟨.ofNat first.toNat, rest.flatMap String.utf8EncodeChar, ?_,
    (hclass first hlt).1 hfirst, ?_⟩
  · rw [Utf8.bytesOf_eq, htext, List.flatMap_cons, hencode first hlt, List.singleton_append]
  · intro b hb
    obtain ⟨c, hc, hb⟩ := List.mem_flatMap.1 hb
    rw [hencode c (hlts c hc), List.mem_singleton] at hb
    rw [hb]
    exact (hclass c (hlts c hc)).2 (hrest c hc)

theorem bytes_of_text {t : Token} (h : IsIdentifier text) (ht : t.text = .ok text) :
    t.bytes = .ok (bytesOf text) := by
  obtain ⟨bytes, hbytes, hdecode⟩ := Fault.bind_eq_ok.1 ht
  have hdecode : Utf8.decode bytes = text := Except.ok.inj hdecode
  have hascii := Utf8.ascii_of_decode (by rw [hdecode]; exact h.lt)
  rw [hbytes, ← hdecode, Utf8.bytesOf_decode hascii]

end IsIdentifier

end FrontEnd
