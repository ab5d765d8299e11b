import FrontEnd.Proofs.Lexeme.Splitting

namespace FrontEnd

open Recognizer (blockOpen lineOpen)

namespace Operator

/-- What an operator at the front of a text is: the longest entry of the catalog that the text
begins with, or the first byte alone where the text begins with no entry. -/
inductive Longest (text : List UInt8) : List UInt8 → Prop where
  | entry {lexeme : List UInt8} (mem : lexeme ∈ entries) (begins : lexeme <+: text)
      (longest : ∀ entry ∈ entries, entry <+: text → entry.length ≤ lexeme.length) :
      Longest text lexeme
  | byte {byte : UInt8} {rest : List UInt8} (text_eq : text = byte :: rest)
      (no_entry : ∀ entry ∈ entries, ¬entry <+: text) : Longest text [byte]

/-- The catalog holds each way to a long entry, from its second byte on. -/
theorem take_mem_entries :
    ∀ entry ∈ entries, ∀ n ≤ entry.length, 2 ≤ n → entry.take n ∈ entries := by
  decide

theorem ne_nil_of_mem : ∀ entry ∈ entries, entry ≠ [] := by decide

theorem slash_not_mem_tail : ∀ entry ∈ entries, 0x2F ∉ entry.tail := by decide

end Operator

namespace Lexeme

open Operator (Longest entries)

variable {byte : UInt8} {rest read text : List UInt8}

theorem append_take_growthLength_mem (h : growthLength read text ≠ 0) :
    read ++ text.take (growthLength read text) ∈ entries := by
  induction text generalizing read with
  | nil => exact absurd rfl h
  | cons byte rest ih =>
    rw [growthLength] at h ⊢
    split at h
    · next hbyte =>
      rw [if_pos hbyte, List.take_succ_cons]
      by_cases hmore : growthLength (read ++ [byte]) rest = 0
      · rw [hmore, List.take_zero]
        exact Operator.isCataloged_iff.1 hbyte
      · have hgrown := ih hmore
        rwa [List.append_assoc, List.singleton_append] at hgrown
    · exact absurd rfl h

theorem length_le_growthLength {entry : List UInt8} (hentry : entry ∈ entries) (hread : read ≠ [])
    (hbegins : entry <+: read ++ text) : entry.length ≤ read.length + growthLength read text := by
  induction text generalizing read with
  | nil =>
    rw [List.append_nil] at hbegins
    exact Nat.le_trans hbegins.length_le (Nat.le_add_right _ _)
  | cons byte rest ih =>
    by_cases hshort : entry.length ≤ read.length
    · exact Nat.le_trans hshort (Nat.le_add_right _ _)
    · have hlength : (read ++ [byte]).length = read.length + 1 := List.length_append
      have hnext : read ++ [byte] <+: read ++ byte :: rest := by
        rw [List.prefix_append_right_inj, List.cons_prefix_cons]
        exact ⟨rfl, List.nil_prefix⟩
      have hway : read ++ [byte] <+: entry :=
        List.prefix_of_prefix_length_le hnext hbegins (by omega)
      have htwo : 2 ≤ (read ++ [byte]).length := by
        have := List.length_pos_iff.2 hread
        omega
      have hcataloged := Operator.take_mem_entries entry hentry _ hway.length_le htwo
      rw [← List.prefix_iff_eq_take.1 hway] at hcataloged
      rw [growthLength, if_pos (Operator.isCataloged_iff.2 hcataloged)]
      have hahead : entry <+: (read ++ [byte]) ++ rest := by
        rwa [List.append_assoc, List.singleton_append]
      have hmore := ih (List.append_ne_nil_of_right_ne_nil read (List.cons_ne_nil byte [])) hahead
      omega

theorem longest_growth (byte : UInt8) (rest : List UInt8) :
    Longest (byte :: rest) (byte :: rest.take (growthLength [byte] rest)) := by
  have hbegins : byte :: rest.take (growthLength [byte] rest) <+: byte :: rest :=
    List.cons_prefix_cons.2 ⟨rfl, List.take_prefix _ _⟩
  have hlongest : ∀ entry ∈ entries, entry <+: byte :: rest →
      entry.length ≤ (byte :: rest.take (growthLength [byte] rest)).length := by
    intro entry hentry hprefix
    have hahead : entry <+: [byte] ++ rest := hprefix
    have hle := length_le_growthLength hentry (List.cons_ne_nil _ _) hahead
    rw [List.length_cons, List.length_take_of_le (growthLength_le _ _)]
    exact Nat.le_trans hle (Nat.le_of_eq (Nat.add_comm _ _))
  by_cases hgrows : growthLength [byte] rest = 0
  · rw [hgrows, List.take_zero] at hbegins hlongest ⊢
    by_cases hmem : [byte] ∈ entries
    · exact .entry hmem hbegins hlongest
    · refine .byte rfl ?_
      intro entry hentry hprefix
      have hone : entry = [byte] := by
        apply List.IsPrefix.eq_of_length_le
        · exact List.prefix_of_prefix_length_le hprefix hbegins (hlongest entry hentry hprefix)
        · exact List.length_pos_iff.2 (Operator.ne_nil_of_mem entry hentry)
      exact hmem (hone ▸ hentry)
  · exact .entry (append_take_growthLength_mem hgrows) hbegins hlongest

theorem not_prefix_drop_of_longest {lexeme after : List UInt8} {mark : UInt8} {k : Nat}
    (h : Longest text lexeme) (htext : text = lexeme ++ after) (hk : k < lexeme.length)
    (hfirst : ¬[0x2F, mark] <+: text) : ¬[0x2F, mark] <+: text.drop k := by
  cases k with
  | zero => exact hfirst
  | succ k =>
    intro hcomment
    have hslash : 0x2F ∈ lexeme.tail := by
      obtain ⟨body, hbody⟩ := hcomment
      have hbyte : text[k + 1]? = some 0x2F := by
        rw [← Nat.add_zero (k + 1), ← List.getElem?_drop, ← hbody]
        rfl
      rw [htext, List.getElem?_append_left hk] at hbyte
      apply List.mem_of_getElem? (i := k)
      rw [List.getElem?_tail, hbyte]
    cases h with
    | entry mem => exact Operator.slash_not_mem_tail lexeme mem hslash
    | byte => cases hslash

/-- An offset of a text before, between or after its lexemes. -/
def IsBoundary (text : List UInt8) (p : Nat) : Prop :=
  ∃ ls ms, cut text = ls ++ ms ∧ p = (ls.flatMap bytes).length

/-- A text begins with an operator byte, and with no comment. -/
def BeginsOperator (text : List UInt8) : Prop :=
  (∃ byte ∈ ByteClass.operatorMarks, text.head? = some byte) ∧ ¬blockOpen <+: text ∧
    ¬lineOpen <+: text

theorem kind_head_eq_operator_iff :
    (head byte rest).kind = some .operator ↔ BeginsOperator (byte :: rest) := by
  obtain ⟨e, hform⟩ := exists_form byte rest
  rw [hform.head_eq]
  have hclass : (∃ b ∈ ByteClass.operatorMarks, (byte :: rest).head? = some b) ↔
      ByteClass.ofByte byte = .operatorMark := by
    rw [ByteClass.ofByte_eq_operatorMark_iff]
    constructor
    · rintro ⟨b, hb, hhead⟩
      cases hhead
      exact hb
    · intro hbyte
      exact ⟨byte, hbyte, rfl⟩
  rw [BeginsOperator, hclass]
  cases hform with
  | operator hclass hblock hline hlength =>
    refine iff_of_true rfl ⟨hclass, ?_, ?_⟩
    · exact fun h => hblock (List.isPrefixOf_iff_prefix.2 h)
    · exact fun h => hline (List.isPrefixOf_iff_prefix.2 h)
  | @block body _ hbyte hrest hlength =>
    refine iff_of_false nofun ?_
    rintro ⟨_, hblock, _⟩
    rw [hbyte, hrest] at hblock
    exact hblock (List.prefix_append blockOpen body)
  | @line body _ hbyte hrest hlength =>
    refine iff_of_false nofun ?_
    rintro ⟨_, _, hline⟩
    rw [hbyte, hrest] at hline
    exact hline (List.prefix_append lineOpen body)
  | whitespace hclass hlength | integer hclass hlength | literal hclass hlength
  | identifier hclass hlength =>
    refine iff_of_false (by simp) ?_
    rintro ⟨hmark, _⟩
    cases hclass.symm.trans hmark
  | scopeOperator hclass | error hclass =>
    refine iff_of_false (by simp) ?_
    rintro ⟨hmark, _⟩
    cases hclass.symm.trans hmark

variable {tokens : List Token} {t : Token} {p : Nat}

theorem Covers.exists_of_boundary {kind : Kind} (h : Covers text tokens) (hp : IsBoundary text p)
    (hdrop : text.drop p = byte :: rest) (hkind : (head byte rest).kind = some kind) :
    ∃ t ∈ tokens, t.kind = kind ∧ t.span = ⟨p, p + (head byte rest).bytes.length⟩ := by
  obtain ⟨ls, ms, hcut, rfl⟩ := hp
  have hms : ms = head byte rest :: cut (tail byte rest) := by
    rw [← cut_flatMap_right hcut, ← (take_of_cut hcut).2, hdrop, cut_cons]
  have hmem : (kind, ⟨(ls.flatMap bytes).length,
      (ls.flatMap bytes).length + (head byte rest).bytes.length⟩) ∈
      tokens.map fun t => (t.kind, t.span) := by
    rw [h.spans_eq, hcut, hms, spans_append, spans_cons_of_some hkind, Nat.zero_add]
    exact List.mem_append_right _ List.mem_cons_self
  obtain ⟨t, ht, hplace⟩ := List.mem_map.1 hmem
  exact ⟨t, ht, Prod.mk.inj hplace⟩

theorem bytes_head_of_operator (h : (head byte rest).kind = some .operator) :
    (head byte rest).bytes = byte :: rest.take (growthLength [byte] rest) := by
  obtain ⟨e, hform⟩ := exists_form byte rest
  rw [hform.head_eq] at h ⊢
  cases hform with
  | operator hclass hblock hline hlength => rw [← hlength]; rfl
  | _ => cases h

theorem Covers.operator_longest (h : Covers text tokens) (ht : t ∈ tokens)
    (hkind : t.kind = .operator) :
    IsBoundary text t.span.start ∧ BeginsOperator (text.drop t.span.start) ∧
      ∃ lexeme after, t.bytes = .ok lexeme ∧ text.drop t.span.start = lexeme ++ after ∧
        t.span.stop = t.span.start + lexeme.length ∧ Longest (text.drop t.span.start) lexeme := by
  obtain ⟨byte, rest, hdrop, hhead, hstop⟩ :=
    head_of_mem_spans (List.drop_zero (l := text)) (h.mem_spans ht)
  obtain ⟨_, _, hsame, _, hbytes⟩ := h.exists_head ht
  cases hdrop.symm.trans hsame
  rw [hkind] at hhead
  dsimp only at hdrop hstop
  have hsplit := head_append_tail byte rest
  refine ⟨h.exists_cut ht (.inl rfl), ?_, (head byte rest).bytes, tail byte rest, hbytes, ?_,
    hstop, ?_⟩
  · rw [hdrop]
    exact kind_head_eq_operator_iff.1 hhead
  · rw [hdrop, hsplit]
  · rw [hdrop, bytes_head_of_operator hhead]
    exact longest_growth byte rest

end Lexeme

open Lexeme (IsBoundary BeginsOperator)
open Operator (Longest)

/-- An operator token is the longest operator that begins where it starts, and no comment begins
inside of it; and one starts wherever a lexeme may start and an operator byte begins no comment. -/
theorem Buffer.operators_longest (id : Nat) (text : List UInt8)
    (h : text.length ≤ Offset.bound - 2) :
    ∃ tokens, (ofBytes id text).tokens = .ok tokens ∧
      (∀ t ∈ tokens, t.kind = .operator → ∃ lexeme, t.bytes = .ok lexeme ∧
        Longest (text.drop t.span.start) lexeme ∧ t.span.stop = t.span.start + lexeme.length ∧
        t.span.stop ≤ text.length ∧ ∀ k, t.span.start ≤ k → k < t.span.stop →
          ¬blockOpen <+: text.drop k ∧ ¬lineOpen <+: text.drop k) ∧
      ∀ p, (∃ t ∈ tokens, t.kind = .operator ∧ t.span.start = p) ↔
        IsBoundary text p ∧ BeginsOperator (text.drop p) := by
  obtain ⟨tokens, htokens, hcovers⟩ := exists_tokens_of_text id h
  refine ⟨tokens, htokens, ?_, ?_⟩
  · intro t ht hkind
    obtain ⟨_, ⟨_, hblock, hline⟩, lexeme, after, hbytes, hdrop, hstop, hlongest⟩ :=
      hcovers.operator_longest ht hkind
    refine ⟨lexeme, hbytes, hlongest, hstop, (hcovers.bounds ht).2, ?_⟩
    intro k hk hk'
    obtain ⟨k, rfl⟩ := Nat.exists_eq_add_of_le hk
    have hinside : k < lexeme.length := by omega
    rw [← List.drop_drop]
    exact ⟨Lexeme.not_prefix_drop_of_longest hlongest hdrop hinside hblock,
      Lexeme.not_prefix_drop_of_longest hlongest hdrop hinside hline⟩
  · intro p
    constructor
    · rintro ⟨t, ht, hkind, rfl⟩
      obtain ⟨hboundary, hbegins, _⟩ := hcovers.operator_longest ht hkind
      exact ⟨hboundary, hbegins⟩
    · rintro ⟨hboundary, hbegins⟩
      obtain ⟨byte, _, hhead⟩ := hbegins.1
      obtain ⟨rest, hdrop⟩ := List.head?_eq_some_iff.1 hhead
      rw [hdrop] at hbegins
      obtain ⟨t, ht, hkind, hspan⟩ := hcovers.exists_of_boundary hboundary hdrop
        (Lexeme.kind_head_eq_operator_iff.2 hbegins)
      exact ⟨t, ht, hkind, by rw [hspan]⟩

def operatorText : List UInt8 := bytesOf "<<=>*/**/*=+++/"

theorem Buffer.operators_longest_of_operatorText :
    operatorText.length ≤ Offset.bound - 2 ∧
    ∃ tokens, (ofBytes 0 operatorText).tokens = .ok tokens ∧
      tokens.map (fun t => (t.kind, t.span)) = [(.operator, ⟨0, 3⟩), (.operator, ⟨3, 4⟩),
        (.operator, ⟨4, 5⟩), (.operator, ⟨9, 11⟩), (.operator, ⟨11, 13⟩), (.operator, ⟨13, 14⟩),
        (.operator, ⟨14, 15⟩)] ∧
      (∀ t ∈ tokens, ∃ lexeme, t.bytes = .ok lexeme ∧
        Longest (operatorText.drop t.span.start) lexeme) ∧
      IsBoundary operatorText 9 ∧ ∃ t ∈ tokens, t.kind = .operator ∧ t.span.start = 9 := by
  have hlength : operatorText.length ≤ Offset.bound - 2 := by decide
  obtain ⟨tokens, htokens, hlongest, hstarts⟩ := operators_longest 0 operatorText hlength
  have hcovers := covers_of_tokens htokens hlength
  have hspans := hcovers.spans_eq.trans (show Lexeme.spans 0 (Lexeme.cut operatorText) =
    [(.operator, ⟨0, 3⟩), (.operator, ⟨3, 4⟩), (.operator, ⟨4, 5⟩), (.operator, ⟨9, 11⟩),
      (.operator, ⟨11, 13⟩), (.operator, ⟨13, 14⟩), (.operator, ⟨14, 15⟩)] by decide +kernel)
  have hboundary : IsBoundary operatorText 9 := by
    refine ⟨(Lexeme.cut operatorText).take 4, (Lexeme.cut operatorText).drop 4,
      (List.take_append_drop _ _).symm, ?_⟩
    decide +kernel
  have hbegins : BeginsOperator (operatorText.drop 9) :=
    ⟨⟨0x2A, by decide, rfl⟩, by decide, by decide⟩
  refine ⟨hlength, tokens, htokens, hspans, ?_, hboundary, (hstarts 9).2 ⟨hboundary, hbegins⟩⟩
  intro t ht
  have hkinds : ∀ x ∈ tokens.map (fun t => (t.kind, t.span)), x.1 = .operator := by
    rw [hspans]
    decide
  obtain ⟨lexeme, hbytes, hlexeme, _⟩ := hlongest t ht (hkinds _ (List.mem_map_of_mem ht))
  exact ⟨lexeme, hbytes, hlexeme⟩

end FrontEnd
