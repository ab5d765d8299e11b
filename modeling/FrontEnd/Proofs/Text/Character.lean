import FrontEnd.Proofs.Text.Identifier
import FrontEnd.Source.Location
import Mathlib.Data.List.Induction

namespace FrontEnd

namespace Utf8

variable {c : Char} {byte : UInt8} {cs : List Char} {left right : List UInt8} {text inner : String}

theorem encode_wide (h : 0x80 ≤ c.toNat) : ∀ byte ∈ String.utf8EncodeChar c, 0x80 ≤ byte := by
  have hwide : ¬c.val.toNat ≤ 127 := Nat.not_le.2 h
  have hbyte : ∀ n, n < 256 → 0x80 ≤ n → (0x80 : UInt8) ≤ .ofNat n := by
    intro n hn hle
    rw [UInt8.le_iff_toNat_le, toNat_ofNat hn]
    exact hle
  unfold String.utf8EncodeChar
  generalize c.val.toNat = v at hwide
  simp only [if_neg hwide]
  split
  · simp only [List.forall_mem_cons]
    exact ⟨hbyte _ (by omega) (by omega), hbyte _ (by omega) (by omega), List.forall_mem_nil _⟩
  split
  · simp only [List.forall_mem_cons]
    exact ⟨hbyte _ (by omega) (by omega), hbyte _ (by omega) (by omega),
      hbyte _ (by omega) (by omega), List.forall_mem_nil _⟩
  · simp only [List.forall_mem_cons]
    exact ⟨hbyte _ (by omega) (by omega), hbyte _ (by omega) (by omega),
      hbyte _ (by omega) (by omega), hbyte _ (by omega) (by omega), List.forall_mem_nil _⟩

theorem encode_narrow (h : c.toNat < 0x80) : String.utf8EncodeChar c = [.ofNat c.toNat] := by
  have hencode := encode_ascii c.toNat h
  rwa [Char.ofNat_toNat] at hencode

theorem encode_of_mem (h : byte ∈ String.utf8EncodeChar c) (hbyte : byte < 0x80) :
    String.utf8EncodeChar c = [byte] := by
  by_cases hc : c.toNat < 0x80
  · rw [encode_narrow hc] at h ⊢
    rw [List.mem_singleton.1 h]
  · exact absurd hbyte (UInt8.not_lt.2 (encode_wide (Nat.le_of_not_lt hc) byte h))

/-- The bytes of some characters may be cut before and after each ASCII byte. -/
theorem exists_of_ascii (h : cs.flatMap String.utf8EncodeChar = left ++ byte :: right)
    (hbyte : byte < 0x80) :
    ∃ before c after, cs = before ++ c :: after ∧ before.flatMap String.utf8EncodeChar = left ∧
      String.utf8EncodeChar c = [byte] ∧ after.flatMap String.utf8EncodeChar = right := by
  induction cs generalizing left with
  | nil => exact absurd h.symm (by simp)
  | cons c cs ih =>
    rw [List.flatMap_cons] at h
    rcases List.append_eq_append_iff.1 h with ⟨more, rfl, hmore⟩ | ⟨inside, hc, hinside⟩
    · obtain ⟨before, d, after, rfl, rfl, hd, hafter⟩ := ih hmore
      exact ⟨c :: before, d, after, rfl, rfl, hd, hafter⟩
    · cases inside with
      | nil =>
        have hrest : cs.flatMap String.utf8EncodeChar = [] ++ byte :: right := hinside.symm
        obtain ⟨before, d, after, rfl, hbefore, hd, hafter⟩ := ih hrest
        rw [List.append_nil] at hc
        refine ⟨c :: before, d, after, rfl, ?_, hd, hafter⟩
        rw [List.flatMap_cons, hc, hbefore, List.append_nil]
      | cons first inside =>
        obtain ⟨rfl, hright⟩ := List.cons.inj hinside
        have hmem : byte ∈ String.utf8EncodeChar c := by
          rw [hc]
          exact List.mem_append_right left List.mem_cons_self
        have hone := encode_of_mem hmem hbyte
        rw [hone] at hc
        rcases List.append_eq_singleton_iff.1 hc.symm with ⟨rfl, hlast⟩ | ⟨_, hnone⟩
        · cases hlast
          exact ⟨[], c, cs, rfl, rfl, hone, hright.symm⟩
        · cases hnone

/-- A place between bytes where no character goes across, since there is an ASCII byte on one side
of it, or nothing. -/
def Parted (left right : List UInt8) : Prop :=
  (∀ byte ∈ left.getLast?, byte < 0x80) ∨ ∀ byte ∈ right.head?, byte < 0x80

theorem exists_of_parted (h : bytesOf text = left ++ right) (hparted : Parted left right) :
    ∃ before after, text = before ++ after ∧ bytesOf before = left ∧ bytesOf after = right := by
  suffices hchars : ∃ cs ds, text.toList = cs ++ ds ∧ cs.flatMap String.utf8EncodeChar = left ∧
      ds.flatMap String.utf8EncodeChar = right by
    obtain ⟨cs, ds, htext, hleft, hright⟩ := hchars
    refine ⟨.ofList cs, .ofList ds, ?_, ?_, ?_⟩
    · rw [← String.ofList_append, ← htext, String.ofList_toList]
    · rw [bytesOf_eq, String.toList_ofList, hleft]
    · rw [bytesOf_eq, String.toList_ofList, hright]
  rw [bytesOf_eq] at h
  rcases hparted with hlast | hfirst
  · cases left using List.reverseRecOn with
    | nil => exact ⟨[], text.toList, rfl, rfl, h⟩
    | append_singleton left byte =>
      have hbyte : byte < 0x80 := hlast byte List.getLast?_concat
      rw [List.append_assoc, List.singleton_append] at h
      obtain ⟨before, c, after, htext, hbefore, hc, hafter⟩ := exists_of_ascii h hbyte
      refine ⟨before ++ [c], after, ?_, ?_, hafter⟩
      · rw [htext, List.append_assoc, List.singleton_append]
      · rw [List.flatMap_append, hbefore, List.flatMap_singleton, hc]
  · cases right with
    | nil => exact ⟨text.toList, [], (List.append_nil _).symm, by rwa [List.append_nil] at h, rfl⟩
    | cons byte right =>
      obtain ⟨before, c, after, htext, hbefore, hc, hafter⟩ := exists_of_ascii h (hfirst byte rfl)
      refine ⟨before, c :: after, htext, hbefore, ?_⟩
      rw [List.flatMap_cons, hc, hafter, List.singleton_append]

end Utf8

/-- A part of a text, from one character on up to another, and the span of its bytes. -/
def PartAt (text inner : String) (span : Span) : Prop :=
  ∃ before after, text = before ++ inner ++ after ∧
    span = ⟨(bytesOf before).length, (bytesOf (before ++ inner)).length⟩

theorem PartAt.of_parted {text : String} {left inside right : List UInt8}
    (h : bytesOf text = left ++ (inside ++ right)) (hleft : Utf8.Parted left (inside ++ right))
    (hright : Utf8.Parted inside right) :
    ∃ inner, bytesOf inner = inside ∧
      PartAt text inner ⟨left.length, (left ++ inside).length⟩ := by
  obtain ⟨before, more, rfl, hbefore, hmore⟩ := Utf8.exists_of_parted h hleft
  obtain ⟨inner, after, rfl, hinner, _⟩ := Utf8.exists_of_parted hmore hright
  refine ⟨inner, hinner, before, after, (String.append_assoc ..).symm, ?_⟩
  rw [Utf8.bytesOf_append, hbefore, hinner]

theorem PartAt.exists_wide {text : String} {c : Char} {span : Span}
    (h : PartAt text (String.singleton c) span) (hc : 0x80 ≤ c.toNat) :
    ∃ left wide right, bytesOf text = left ++ (wide ++ right) ∧ wide ≠ [] ∧
      (∀ byte ∈ wide, 0x80 ≤ byte) ∧ span = ⟨left.length, (left ++ wide).length⟩ := by
  obtain ⟨before, after, rfl, rfl⟩ := h
  have hchar : bytesOf (String.singleton c) = String.utf8EncodeChar c := by
    rw [Utf8.bytesOf_eq, String.toList_singleton, List.flatMap_singleton]
  refine ⟨bytesOf before, String.utf8EncodeChar c, bytesOf after, ?_, ?_, Utf8.encode_wide hc, ?_⟩
  · rw [Utf8.bytesOf_append, Utf8.bytesOf_append, hchar, List.append_assoc]
  · apply List.ne_nil_of_length_pos
    rw [String.length_utf8EncodeChar]
    exact c.utf8Size_pos
  · rw [Utf8.bytesOf_append, hchar]

end FrontEnd
