import FrontEnd.Proofs.Lexeme.Comment
import FrontEnd.Proofs.Lexeme.Operator
import FrontEnd.Proofs.Text.Character

namespace FrontEnd

open Recognizer (blockOpen blockClose lineOpen lineFeed)
open Utf8 (Parted)

theorem ByteClass.lt_of_ofByte {byte : UInt8} {c : ByteClass} (h : ofByte byte = c)
    (hc : c ≠ other) : byte < 0x80 := by
  apply UInt8.not_le.1
  intro hle
  exact hc (h.symm.trans (ofByte_of_not_ascii byte hle))

theorem Operator.lt_of_mem : ∀ entry ∈ entries, ∀ byte ∈ entry, byte < 0x80 := by decide +kernel

namespace Utf8

variable {left right : List UInt8}

theorem Parted.of_forall (h : ∀ byte ∈ left, byte < 0x80) : Parted left right :=
  .inl fun byte hbyte => h byte (List.mem_of_getLast? hbyte)

theorem Parted.prepend (h : Parted left right) (hne : left ≠ []) (more : List UInt8) :
    Parted (more ++ left) right := by
  unfold Parted at h ⊢
  rwa [List.getLast?_append, List.getLast?_eq_some_getLast hne, Option.some_or,
    ← List.getLast?_eq_some_getLast hne]

theorem Parted.stop_le {before wide after : List UInt8} (h : Parted left right)
    (htext : left ++ right = before ++ (wide ++ after)) (hwide : ∀ byte ∈ wide, 0x80 ≤ byte)
    (hstart : before.length < left.length) : (before ++ wide).length ≤ left.length := by
  have hat : ∀ {i byte}, before.length ≤ i → i < (before ++ wide).length →
      (left ++ right)[i]? = some byte → 0x80 ≤ byte := by
    intro i byte hi hi' hbyte
    rw [List.length_append] at hi'
    rw [htext, List.getElem?_append_right hi, List.getElem?_append_left (by omega)] at hbyte
    exact hwide byte (List.mem_of_getElem? hbyte)
  by_contra hstop
  rcases h with hlast | hfirst
  · have hne := List.ne_nil_of_length_pos (Nat.zero_lt_of_lt hstart)
    have hbyte := List.getLast?_eq_some_getLast hne
    refine UInt8.not_lt.2 (hat (i := left.length - 1) (by omega) (by omega) ?_) (hlast _ hbyte)
    rw [List.getElem?_append_left (by omega), ← List.getLast?_eq_getElem?, hbyte]
  · cases right with
    | nil =>
      have hlength := congrArg List.length htext
      simp only [List.length_append, List.length_nil] at hlength hstop
      omega
    | cons byte right =>
      refine UInt8.not_lt.2 (hat (i := left.length) (by omega) (by omega) ?_) (hfirst byte rfl)
      rw [List.getElem?_append_right (Nat.le_refl _), Nat.sub_self, List.getElem?_cons_zero]

end Utf8

namespace Lexeme

def IsComment (comment : List UInt8) : Prop :=
  IsBlockComment comment ∨ IsLineComment comment ∨ IsOpenComment comment

/-- A part of a text, within a comment that lies between the tokens. -/
def InComment (text : List UInt8) (tokens : List Token) (span : Span) : Prop :=
  ∃ start stop, start ≤ span.start ∧ span.stop ≤ stop ∧ stop ≤ text.length ∧
    IsComment ((text.drop start).take (stop - start)) ∧
    ∀ t ∈ tokens, t.span.stop ≤ start ∨ stop ≤ t.span.start

def ofError (byte : UInt8) : Lexeme := ⟨some .error, byte, []⟩

variable {byte quote : UInt8} {rest body text : List UInt8} {ls ms : List Lexeme} {l : Lexeme}
  {tokens : List Token} {t : Token} {span : Span}

theorem lt_of_run {test : UInt8 → Bool} (hfirst : byte < 0x80)
    (htest : ∀ b, test b = true → b < 0x80) :
    ∀ b ∈ byte :: rest.take (runLength test rest), b < 0x80 := by
  refine List.forall_mem_cons.2 ⟨hfirst, fun b hb => ?_⟩
  rw [take_runLength] at hb
  exact htest b (List.all_eq_true.1 List.all_takeWhile b hb)

theorem lt_of_longest {lexeme : List UInt8} (h : Operator.Longest (byte :: rest) lexeme)
    (hfirst : byte < 0x80) : ∀ b ∈ lexeme, b < 0x80 := by
  generalize htext : byte :: rest = text at h
  cases h with
  | entry mem => exact Operator.lt_of_mem _ mem
  | byte text_eq =>
    cases htext.trans text_eq
    exact List.forall_mem_singleton.2 hfirst

/-- Only literals, comments and errors can hold bytes that are not ASCII. -/
theorem lt_of_kind {kind : Kind} (h : (head byte rest).kind = some kind)
    (hliteral : kind ≠ .literal) (herror : kind ≠ .error) :
    ∀ b ∈ (head byte rest).bytes, b < 0x80 := by
  obtain ⟨e, hform⟩ := exists_form byte rest
  rw [hform.head_eq] at h ⊢
  cases hform with
  | block | line => cases h
  | literal => exact absurd (Option.some.inj h).symm hliteral
  | error => exact absurd (Option.some.inj h).symm herror
  | whitespace hclass hlength | integer hclass hlength =>
    rw [← hlength]
    apply lt_of_run (ByteClass.lt_of_ofByte hclass (by decide))
    intro b hb
    exact ByteClass.lt_of_ofByte (beq_iff_eq.1 hb) (by decide)
  | identifier hclass hlength =>
    rw [← hlength]
    apply lt_of_run (ByteClass.lt_of_ofByte hclass (by decide))
    intro b hb
    apply ByteClass.lt_of_ofByte rfl
    intro hother
    rw [hother] at hb
    cases hb
  | scopeOperator hclass =>
    exact List.forall_mem_singleton.2 (ByteClass.lt_of_ofByte hclass (by decide))
  | operator hclass hblock hline hlength =>
    rw [← hlength]
    exact lt_of_longest (longest_growth byte rest) (ByteClass.lt_of_ofByte hclass (by decide))

theorem literal_of_wide {kind : Kind} {b : UInt8} (h : (head byte rest).kind = some kind)
    (herror : kind ≠ .error) (hb : b ∈ (head byte rest).bytes) (hwide : 0x80 ≤ b) :
    kind = .literal := by
  by_contra hliteral
  exact UInt8.not_lt.2 hwide (lt_of_kind h hliteral herror b hb)

theorem first_lt (h : (head byte rest).kind ≠ some .error) : byte < 0x80 := by
  apply UInt8.not_le.1
  intro hle
  apply h
  obtain ⟨e, hform⟩ := exists_form byte rest
  have hother := ByteClass.ofByte_of_not_ascii byte hle
  rw [hform.head_eq]
  cases hform with
  | block hbyte | line hbyte =>
    rw [hbyte] at hother
    cases hother
  | error => rfl
  | whitespace hclass | integer hclass | literal hclass | scopeOperator hclass | operator hclass
  | identifier hclass => cases hclass.symm.trans hother

theorem getLast?_of_closes (h : closes quote body = true) :
    (body.take (literalLength quote body)).getLast? = some quote := by
  fun_induction closes quote body with
  | case1 => cases h
  | case2 byte =>
    cases beq_iff_eq.1 h
    rfl
  | case3 next rest =>
    rw [literalLength, if_pos rfl]
    rfl
  | case4 next rest hquote ih =>
    rw [literalLength, if_neg hquote, if_pos rfl, List.take_succ_cons, List.take_succ_cons,
      List.getLast?_cons, List.getLast?_cons, ih h]
    rfl
  | case5 byte next rest hquote hescape ih =>
    rw [literalLength, if_neg hquote, if_neg hescape, List.take_succ_cons, List.getLast?_cons, ih h]
    rfl

theorem parted_head (h : (head byte rest).kind ≠ some .error) :
    Parted (head byte rest).bytes (tail byte rest) := by
  by_cases hascii : ∀ b ∈ (head byte rest).bytes, b < 0x80
  · exact .of_forall hascii
  obtain ⟨e, hform⟩ := exists_form byte rest
  have hkind : ∀ kind, (head byte rest).kind = some kind → kind = .literal := by
    intro kind hkind
    by_contra hliteral
    exact hascii (lt_of_kind hkind hliteral fun herror => h (herror ▸ hkind))
  rw [hform.head_eq] at hkind ⊢
  rw [hform.tail_eq, bytes]
  cases hform with
  | @block body _ hbyte hrest hlength =>
    rw [hrest, ← hlength, List.take_succ_cons, List.drop_succ_cons]
    rcases blockLength_cases body with ⟨inner, after, rfl, hclosed, _⟩ | ⟨_, hopen⟩
    · left
      intro last hlast
      rw [hclosed, List.take_left, List.getLast?_cons, List.getLast?_cons,
        List.getLast?_append] at hlast
      have hslash : 0x2F = last := Option.some.inj hlast
      rw [← hslash]
      decide
    · right
      rw [hopen, List.drop_length]
      intro b hb
      cases hb
  | @line body _ hbyte hrest hlength =>
    right
    rw [hrest, ← hlength, List.drop_succ_cons]
    intro b hb
    have hfeed := runLength_stops b hb
    rw [bne_eq_false_iff_eq.1 hfeed]
    decide
  | literal hclass hlength =>
    dsimp only
    rw [← hlength]
    cases hcloses : closes byte rest with
    | true =>
      left
      rw [List.getLast?_cons, getLast?_of_closes hcloses]
      intro last hlast
      cases hlast
      exact ByteClass.lt_of_ofByte hclass (by decide)
    | false =>
      right
      rw [literalLength_of_not_closes hcloses, List.drop_length]
      intro b hb
      cases hb
  | whitespace | integer | identifier | operator | scopeOperator | error => cases hkind _ rfl

theorem isComment_head (h : (head byte rest).kind = none) : IsComment (head byte rest).bytes := by
  obtain ⟨e, hform⟩ := exists_form byte rest
  rw [hform.head_eq] at h ⊢
  cases hform with
  | @block body _ hbyte hrest hlength =>
    rw [hbyte, hrest, ← hlength, List.take_succ_cons]
    rcases blockLength_cases body with ⟨inner, after, rfl, hclosed, hfirst⟩ | ⟨hno, hopen⟩
    · rw [hclosed, List.take_left]
      exact .inl ⟨inner, rfl, hfirst⟩
    · rw [hopen, List.take_length]
      exact .inr (.inr ⟨body, rfl, hno⟩)
  | @line body _ hbyte hrest hlength =>
    rw [hbyte, hrest, ← hlength, List.take_succ_cons, take_runLength]
    refine .inr (.inl ⟨_, rfl, fun hmem => ?_⟩)
    have hfeed := List.all_eq_true.1 List.all_takeWhile lineFeed hmem
    exact bne_iff_ne.1 hfeed rfl
  | whitespace | integer | literal | identifier | operator | scopeOperator | error => cases h

theorem length_head_of_error (h : (head byte rest).kind = some .error) :
    (head byte rest).bytes.length = 1 := by
  obtain ⟨e, hform⟩ := exists_form byte rest
  rw [hform.head_eq] at h ⊢
  cases hform with
  | error => rfl
  | _ => cases h

theorem exists_head_of_cut (h : cut text = ls ++ l :: ms) :
    ∃ byte rest, l = head byte rest ∧ ms.flatMap bytes = tail byte rest := by
  have hright := cut_flatMap_right h
  have hbytes : (l :: ms).flatMap bytes = l.first :: (l.rest ++ ms.flatMap bytes) := rfl
  rw [hbytes, cut_cons] at hright
  obtain ⟨hl, hms⟩ := List.cons.inj hright
  refine ⟨_, _, hl.symm, ?_⟩
  conv => lhs; rw [← hms]
  exact flatMap_cut _

theorem exists_lexeme_over {p : Nat} (h : p < (ls.flatMap bytes).length) :
    ∃ before l after, ls = before ++ l :: after ∧ (before.flatMap bytes).length ≤ p ∧
      p < ((before ++ [l]).flatMap bytes).length := by
  induction ls using List.reverseRecOn with
  | nil => exact absurd h (Nat.not_lt_zero p)
  | append_singleton ls l ih =>
    by_cases hp : p < (ls.flatMap bytes).length
    · obtain ⟨before, m, after, rfl, hbefore, hafter⟩ := ih hp
      refine ⟨before, m, after ++ [l], ?_, hbefore, hafter⟩
      rw [List.append_assoc, List.cons_append]
    · exact ⟨ls, l, [], rfl, Nat.le_of_not_lt hp, h⟩

theorem mem_of_over {before middle behind left right : List UInt8} {b : UInt8}
    (h : (before ++ middle) ++ behind = left ++ b :: right) (hstart : before.length ≤ left.length)
    (hstop : left.length < (before ++ middle).length) : b ∈ middle := by
  have hb : (left ++ b :: right)[left.length]? = some b := by
    rw [List.getElem?_append_right (Nat.le_refl _), Nat.sub_self, List.getElem?_cons_zero]
  rw [← h, List.getElem?_append_left hstop, List.getElem?_append_right hstart] at hb
  exact List.mem_of_getElem? hb

theorem cut_wide_append {wide : List UInt8} (h : ∀ byte ∈ wide, 0x80 ≤ byte) (after : List UInt8) :
    cut (wide ++ after) = wide.map ofError ++ cut after := by
  induction wide with
  | nil => rfl
  | cons byte wide ih =>
    obtain ⟨hbyte, hwide⟩ := List.forall_mem_cons.1 h
    have hform : extent byte (wide ++ after) = (some .error, 0) :=
      (Form.error (ByteClass.ofByte_of_not_ascii byte hbyte)).extent_eq
    rw [List.cons_append, cut_cons, head, tail, hform, List.drop_zero, ih hwide]
    rfl

theorem spans_map_ofError {start k : Nat} {wide : List UInt8} (h : k < wide.length) :
    (spans start (wide.map ofError))[k]? = some (.error, ⟨start + k, start + k + 1⟩) := by
  induction wide generalizing start k with
  | nil => exact absurd h (Nat.not_lt_zero k)
  | cons byte wide ih =>
    rw [List.map_cons, spans_cons_of_some rfl]
    cases k with
    | zero => rfl
    | succ k =>
      rw [List.getElem?_cons_succ, ih (Nat.lt_of_succ_lt_succ h)]
      congr 3
      all_goals simp only [length_bytes, ofError, List.length_nil]; omega

theorem Covers.inComment (h : Covers text tokens) (hcut : cut text = ls ++ l :: ms)
    (hkind : l.kind = none) (hstart : (ls.flatMap bytes).length ≤ span.start)
    (hstop : span.stop ≤ ((ls ++ [l]).flatMap bytes).length) : InComment text tokens span := by
  have hafter : cut text = (ls ++ [l]) ++ ms := by
    rw [hcut, List.append_assoc, List.singleton_append]
  have htext := congrArg List.length (flatMap_cut text)
  rw [hafter, List.flatMap_append, List.length_append] at htext
  refine ⟨_, _, hstart, hstop, by omega, ?_, ?_⟩
  · obtain ⟨byte, rest, rfl, _⟩ := exists_head_of_cut hcut
    rw [(take_of_cut hcut).2, List.flatMap_append, List.length_append, Nat.add_sub_cancel_left,
      List.flatMap_singleton, List.flatMap_cons, List.take_left]
    exact isComment_head hkind
  · intro t ht
    have hmem := h.mem_spans ht
    rw [hafter, spans_append, List.mem_append, spans_append, spans_cons_of_none hkind, spans,
      List.append_nil, Nat.zero_add] at hmem
    rcases hmem with hbefore | hbehind
    · have hbounds := bounds_of_mem_spans hbefore
      rw [Nat.zero_add] at hbounds
      exact .inl hbounds.2.2
    · exact .inr (bounds_of_mem_spans hbehind).1

theorem Covers.exists_partAt {text : String} (h : Covers (bytesOf text) tokens) (ht : t ∈ tokens)
    (hkind : t.kind ≠ .error) :
    ∃ inner, PartAt text inner t.span ∧ t.bytes = .ok (bytesOf inner) ∧ t.text = .ok inner := by
  obtain ⟨i, hi⟩ := List.mem_iff_getElem?.1 ht
  obtain ⟨before, l, after, hcut, hl, _, hstart, hstop, hbytes⟩ := h.exists_around hi
  obtain ⟨byte, rest, rfl, htail⟩ := exists_head_of_cut hcut
  have herror : (head byte rest).kind ≠ some .error := by
    rw [hl]
    exact fun hsame => hkind (Option.some.inj hsame)
  have htext := (flatMap_cut (bytesOf text)).symm
  rw [hcut, List.flatMap_append, List.flatMap_cons, htail] at htext
  have hleft : Parted (before.flatMap bytes) ((head byte rest).bytes ++ tail byte rest) := by
    right
    intro first hfirst
    cases hfirst
    exact first_lt herror
  obtain ⟨inner, hinner, hpart⟩ := PartAt.of_parted htext hleft (parted_head herror)
  refine ⟨inner, ?_, ?_, ?_⟩
  · have hspan : t.span = ⟨t.span.start, t.span.stop⟩ := rfl
    rw [hspan, hstart, hstop, List.flatMap_append, List.flatMap_singleton]
    exact hpart
  · rw [hbytes, hinner]
  · rw [Token.text, hbytes, ← hinner]
    exact congrArg Except.ok (Utf8.decode_bytesOf inner)

theorem Covers.exists_error {before wide after : List UInt8} (h : Covers text tokens)
    (hcut : cut text = ls ++ ms) (htext : text = before ++ (wide ++ after))
    (hwide : ∀ byte ∈ wide, 0x80 ≤ byte) (hstart : (ls.flatMap bytes).length = before.length) :
    ∀ k, k < wide.length → ∃ t, tokens[(contents ls).length + k]? = some t ∧ t.kind = .error ∧
      t.span = ⟨before.length + k, before.length + k + 1⟩ := by
  have hdrop := (take_of_cut hcut).2
  rw [hstart, htext, List.drop_left] at hdrop
  have hms : ms = wide.map ofError ++ cut after := by
    rw [← cut_flatMap_right hcut, ← hdrop, cut_wide_append hwide]
  intro k hk
  have herror : (spans before.length (wide.map ofError))[k]? =
      some (.error, ⟨before.length + k, before.length + k + 1⟩) := spans_map_ofError hk
  have hplace := (List.getElem?_eq_some_iff.1 herror).1
  apply h.exists_token
  rw [hcut, hms, spans_append, ← length_spans 0, List.getElem?_append_right (Nat.le_add_right _ _),
    Nat.add_sub_cancel_left, spans_append, Nat.zero_add, hstart, List.getElem?_append_left hplace,
    herror]

/-- A character that is not ASCII is in a literal or a comment, or each of its bytes is an error. -/
theorem Covers.wide_cases {text : String} {c : Char} (h : Covers (bytesOf text) tokens)
    (hc : 0x80 ≤ c.toNat) (hpart : PartAt text (String.singleton c) span) :
    (∃ t ∈ tokens, t.kind = .literal ∧ t.span.start ≤ span.start ∧ span.stop ≤ t.span.stop) ∨
      InComment (bytesOf text) tokens span ∨
      ∃ i, ∀ k, k < span.stop - span.start → ∃ t, tokens[i + k]? = some t ∧ t.kind = .error ∧
        t.span = ⟨span.start + k, span.start + k + 1⟩ := by
  obtain ⟨left, wide, right, htext, hne, hwide, rfl⟩ := hpart.exists_wide hc
  have hpos := List.length_pos_iff.2 hne
  have hover : left.length < ((cut (bytesOf text)).flatMap bytes).length := by
    rw [flatMap_cut, htext, List.length_append, List.length_append]
    omega
  obtain ⟨before, l, after, hcut, hstart, hstop⟩ := exists_lexeme_over hover
  obtain ⟨byte, rest, rfl, htail⟩ := exists_head_of_cut hcut
  have hbytes : (before ++ [head byte rest]).flatMap bytes =
      before.flatMap bytes ++ (head byte rest).bytes := by
    rw [List.flatMap_append, List.flatMap_singleton]
  have hsplit := (flatMap_cut (bytesOf text)).symm
  rw [hcut, List.append_cons, List.flatMap_append, htail] at hsplit
  by_cases herror : (head byte rest).kind = some .error
  · -- An error is one byte, so the character begins where the lexeme does.
    have hlength : (head byte rest).bytes.length = 1 := length_head_of_error herror
    rw [hbytes, List.length_append, hlength] at hstop
    refine .inr (.inr ⟨(contents before).length, fun k hk => ?_⟩)
    apply h.exists_error hcut htext hwide (by omega)
    rw [List.length_append, Nat.add_sub_cancel_left] at hk
    exact hk
  have hparted : Parted ((before ++ [head byte rest]).flatMap bytes) (tail byte rest) := by
    rw [hbytes]
    exact (parted_head herror).prepend (List.cons_ne_nil _ _) _
  have hwithin := hparted.stop_le (hsplit.symm.trans htext) hwide hstop
  cases hkind : (head byte rest).kind with
  | none => exact .inr (.inl (h.inComment hcut hkind hstart hwithin))
  | some kind =>
    have hdrop := (take_of_cut hcut).2
    rw [List.flatMap_cons, htail, head_append_tail] at hdrop
    have hliteral : kind = .literal := by
      obtain ⟨b, more, rfl⟩ := List.exists_cons_of_ne_nil hne
      rw [hbytes] at hsplit hstop
      have hb := mem_of_over (hsplit.symm.trans htext) hstart hstop
      exact literal_of_wide hkind (fun hsame => herror (hsame ▸ hkind)) hb
        (hwide b List.mem_cons_self)
    obtain ⟨t, ht, htkind, hspan⟩ := h.exists_of_boundary ⟨before, _, hcut, rfl⟩ hdrop hkind
    refine .inl ⟨t, ht, htkind.trans hliteral, ?_, ?_⟩
    · rw [hspan]
      exact hstart
    · rw [hspan, ← List.length_append, ← hbytes]
      exact hwithin

end Lexeme

open Lexeme (InComment)

/-- Tokens are parts of a text, cut between its characters, except for errors; and a character that
is not ASCII, outside of literals and comments, is as many errors as it has bytes, one after the
other. -/
theorem Buffer.tokens_respect_characters (id : Nat) (text : String)
    (h : (bytesOf text).length ≤ Offset.bound - 2) :
    ∃ tokens, (ofText id text).tokens = .ok tokens ∧
      (∀ t ∈ tokens, t.kind ≠ .error → ∃ inner, PartAt text inner t.span ∧
        t.bytes = .ok (bytesOf inner) ∧ t.text = .ok inner) ∧
      ∀ c span, 0x80 ≤ c.toNat → PartAt text (String.singleton c) span →
        (∃ t ∈ tokens, t.kind = .literal ∧ t.span.start ≤ span.start ∧ span.stop ≤ t.span.stop) ∨
        InComment (bytesOf text) tokens span ∨
        ∃ i, ∀ k, k < span.stop - span.start → ∃ t, tokens[i + k]? = some t ∧ t.kind = .error ∧
          t.span = ⟨span.start + k, span.start + k + 1⟩ := by
  obtain ⟨tokens, htokens, hcovers⟩ := exists_tokens_of_text id h
  refine ⟨tokens, htokens, fun t ht hkind => hcovers.exists_partAt ht hkind, ?_⟩
  intro c span hc hpart
  exact hcovers.wide_cases hc hpart

def characterText : String := "é'\\é'/*é*/"

theorem Buffer.tokens_respect_characters_of_characterText :
    (bytesOf characterText).length ≤ Offset.bound - 2 ∧
    ∃ tokens, (ofText 0 characterText).tokens = .ok tokens ∧
      tokens.map (fun t => (t.kind, t.span)) =
        [(.error, ⟨0, 1⟩), (.error, ⟨1, 2⟩), (.literal, ⟨2, 7⟩)] ∧
      (∃ t ∈ tokens, t.kind ≠ .error ∧ t.text = .ok "'\\é'") ∧
      0x80 ≤ 'é'.toNat ∧ PartAt characterText (String.singleton 'é') ⟨9, 11⟩ ∧
      InComment (bytesOf characterText) tokens ⟨9, 11⟩ := by
  have hlength : (bytesOf characterText).length ≤ Offset.bound - 2 := by decide +kernel
  obtain ⟨tokens, htokens, hparts, hwide⟩ := tokens_respect_characters 0 characterText hlength
  have hcovers := covers_of_tokens htokens hlength
  have hspans := hcovers.spans_eq.trans (show Lexeme.spans 0 (Lexeme.cut (bytesOf characterText)) =
    [(.error, ⟨0, 1⟩), (.error, ⟨1, 2⟩), (.literal, ⟨2, 7⟩)] by decide +kernel)
  have hpart : PartAt characterText (String.singleton 'é') ⟨9, 11⟩ :=
    ⟨"é'\\é'/*", "*/", by decide +kernel, by decide +kernel⟩
  have hplace : ∀ {t}, t ∈ tokens → (t.kind, t.span) ∈
      [(Kind.error, (⟨0, 1⟩ : Span)), (.error, ⟨1, 2⟩), (.literal, ⟨2, 7⟩)] := by
    intro t ht
    rw [← hspans]
    exact List.mem_map_of_mem ht
  refine ⟨hlength, tokens, htokens, hspans, ?_, by decide, hpart, ?_⟩
  · obtain ⟨t, ht, heq⟩ := List.mem_map.1
      (show (Kind.literal, ⟨2, 7⟩) ∈ tokens.map fun t => (t.kind, t.span) by rw [hspans]; simp)
    obtain ⟨hkind, hspan⟩ := Prod.mk.inj heq
    have herror : t.kind ≠ .error := by
      rw [hkind]
      decide
    obtain ⟨inner, _, hbytes, hinner⟩ := hparts t ht herror
    rw [hcovers.bytes_eq ht, hspan] at hbytes
    have hsame : bytesOf inner = bytesOf "'\\é'" :=
      (Except.ok.inj hbytes).symm.trans (by decide +kernel)
    exact ⟨t, ht, herror, by rw [hinner, Utf8.bytesOf_inj hsame]⟩
  · rcases hwide 'é' ⟨9, 11⟩ (by decide) hpart with
      ⟨t, ht, hkind, hstart, hstop⟩ | hcomment | ⟨i, hi⟩
    · -- The literal ends before the comment begins.
      have hbefore : ∀ x ∈ [(Kind.error, (⟨0, 1⟩ : Span)), (.error, ⟨1, 2⟩), (.literal, ⟨2, 7⟩)],
          x.2.stop ≤ 7 := by decide
      have hle : 11 ≤ 7 := Nat.le_trans hstop (hbefore _ (hplace ht))
      exact absurd hle (by decide)
    · exact hcomment
    · obtain ⟨t, ht, _, hspan⟩ := hi 0 (by decide)
      have hbefore : ∀ x ∈ [(Kind.error, (⟨0, 1⟩ : Span)), (.error, ⟨1, 2⟩), (.literal, ⟨2, 7⟩)],
          x.2.start < 9 := by decide
      have hstart : t.span.start < 9 := hbefore _ (hplace (List.mem_of_getElem? ht))
      rw [hspan] at hstart
      exact absurd hstart (Nat.lt_irrefl 9)

end FrontEnd
