import FrontEnd.Proofs.Lexeme.Tokens
import Mathlib.Algebra.Group.Nat.Even
import Mathlib.Data.List.DropRight

namespace FrontEnd

open Recognizer (backslash)

namespace Lexeme

def trailingBackslashes (text : List UInt8) : Nat := (text.rtakeWhile (· == backslash)).length

/-- A quote stands at index `j`, and no backslash escapes it: those right before it, from index
`start` on, escape each other. -/
def Unescaped (quote : UInt8) (text : List UInt8) (start j : Nat) : Prop :=
  start ≤ j ∧ text[j]? = some quote ∧ Even (trailingBackslashes ((text.take j).drop start))

/-- Of `total` places the first `n` are those up to and with the first that passes a test, or all of
them where none does. -/
def ThroughFirst (Test : Nat → Prop) (total n : Nat) : Prop :=
  (∃ j, Test j ∧ (∀ i, i < j → ¬Test i) ∧ n = j + 1) ∨ (∀ j, ¬Test j) ∧ n = total

theorem ThroughFirst.shift {P Q : Nat → Prop} {total n : Nat} (m : Nat) (h : ThroughFirst Q total n)
    (hnone : ∀ i, i < m → ¬P i) (hshift : ∀ k, P (m + k) ↔ Q k) :
    ThroughFirst P (m + total) (m + n) := by
  have hbefore : ∀ {j}, (∀ i, i < j → ¬Q i) → ∀ i, i < m + j → ¬P i := by
    intro j hj i hi
    by_cases him : i < m
    · exact hnone i him
    · obtain ⟨k, rfl⟩ := Nat.exists_eq_add_of_le (Nat.le_of_not_lt him)
      rw [hshift]
      exact hj k (Nat.lt_of_add_lt_add_left hi)
  rcases h with ⟨j, hj, hfirst, rfl⟩ | ⟨hno, rfl⟩
  · exact .inl ⟨m + j, (hshift j).2 hj, hbefore hfirst, rfl⟩
  · refine .inr ⟨fun i => ?_, rfl⟩
    exact hbefore (j := i + 1) (fun k _ => hno k) i (by omega)

theorem ThroughFirst.zero {P : Nat → Prop} {total : Nat} (h : P 0) : ThroughFirst P total 1 :=
  .inl ⟨0, h, fun i hi => absurd hi (Nat.not_lt_zero i), rfl⟩

theorem trailingBackslashes_concat (text : List UInt8) (byte : UInt8) :
    trailingBackslashes (text ++ [byte]) =
      if byte = backslash then trailingBackslashes text + 1 else 0 := by
  rw [trailingBackslashes, List.rtakeWhile_concat]
  by_cases hbyte : byte = backslash
  · rw [if_pos (beq_iff_eq.2 hbyte), if_pos hbyte, List.length_append]
    rfl
  · rw [if_neg (by simpa using hbyte), if_neg hbyte]
    rfl

theorem trailingBackslashes_cons_of_ne {byte : UInt8} (h : byte ≠ backslash) (text : List UInt8) :
    trailingBackslashes (byte :: text) = trailingBackslashes text := by
  induction text using List.reverseRecOn with
  | nil => rw [← List.nil_append [byte], trailingBackslashes_concat, if_neg h]; rfl
  | append_singleton text last ih =>
    rw [← List.cons_append, trailingBackslashes_concat, trailingBackslashes_concat, ih]

theorem even_trailingBackslashes_escape (next : UInt8) (text : List UInt8) :
    Even (trailingBackslashes (backslash :: next :: text)) ↔ Even (trailingBackslashes text) := by
  induction text using List.reverseRecOn with
  | nil =>
    by_cases hnext : next = backslash
    · subst hnext
      decide
    · have hnone : trailingBackslashes ([backslash] ++ [next]) = 0 := by
        rw [trailingBackslashes_concat, if_neg hnext]
      exact iff_of_true (hnone ▸ Even.zero) (by decide)
  | append_singleton text last ih =>
    rw [← List.cons_append, ← List.cons_append, trailingBackslashes_concat,
      trailingBackslashes_concat]
    split
    · rw [Nat.even_add_one, Nat.even_add_one, ih]
    · rfl

variable {quote byte next : UInt8} {text rest : List UInt8} {start k : Nat}

theorem unescaped_zero_iff : Unescaped quote text 0 k ↔
    text[k]? = some quote ∧ Even (trailingBackslashes (text.take k)) := by
  rw [Unescaped, List.drop_zero]
  exact and_iff_right (Nat.zero_le k)

theorem unescaped_add_iff :
    Unescaped quote text start (start + k) ↔ Unescaped quote (text.drop start) 0 k := by
  rw [unescaped_zero_iff, Unescaped, List.getElem?_drop, List.drop_take, Nat.add_sub_cancel_left]
  exact and_iff_right (Nat.le_add_right start k)

theorem unescaped_succ_iff (h : byte ≠ backslash) :
    Unescaped quote (byte :: rest) 0 (1 + k) ↔ Unescaped quote rest 0 k := by
  rw [unescaped_zero_iff, unescaped_zero_iff, Nat.add_comm, List.getElem?_cons_succ,
    List.take_succ_cons, trailingBackslashes_cons_of_ne h]

theorem unescaped_escape_iff :
    Unescaped quote (backslash :: next :: rest) 0 (2 + k) ↔ Unescaped quote rest 0 k := by
  rw [unescaped_zero_iff, unescaped_zero_iff, Nat.add_comm, List.getElem?_cons_succ,
    List.getElem?_cons_succ, List.take_succ_cons, List.take_succ_cons,
    even_trailingBackslashes_escape]

/-- What is read from the left, taking a byte along for each backslash, ends where the first quote
stands that an even number of backslashes comes before. -/
theorem literalLength_throughFirst (hquote : quote ≠ backslash) (body : List UInt8) :
    ThroughFirst (Unescaped quote body 0) body.length (literalLength quote body) := by
  have hhere : ∀ rest, Unescaped quote (quote :: rest) 0 0 := fun _ =>
    unescaped_zero_iff.2 ⟨rfl, Even.zero⟩
  fun_induction literalLength quote body with
  | case1 =>
    refine .inr ⟨fun j h => ?_, rfl⟩
    cases (unescaped_zero_iff.1 h).1
  | case2 byte =>
    by_cases hbyte : byte = quote
    · subst hbyte
      exact .zero (hhere [])
    · refine .inr ⟨fun j h => ?_, rfl⟩
      have hj := (unescaped_zero_iff.1 h).1
      cases j with
      | zero => exact hbyte (Option.some.inj hj)
      | succ j => cases hj
  | case3 next rest => exact .zero (hhere (next :: rest))
  | case4 next rest hne ih =>
    rw [Nat.add_comm, List.length_cons, List.length_cons, Nat.add_assoc, Nat.add_comm rest.length]
    apply ih.shift 2 ?_ fun k => unescaped_escape_iff
    intro i hi h
    obtain ⟨hbyte, heven⟩ := unescaped_zero_iff.1 h
    have hplace : i = 0 ∨ i = 1 := by omega
    rcases hplace with rfl | rfl
    · exact hne (Option.some.inj hbyte)
    · have hodd : trailingBackslashes [backslash] = 1 := rfl
      rw [List.take_succ_cons, List.take_zero, hodd] at heven
      exact Nat.not_even_one heven
  | case5 byte next rest hne hescape ih =>
    rw [Nat.add_comm, List.length_cons, Nat.add_comm]
    apply ih.shift 1 ?_ fun k => unescaped_succ_iff hescape
    intro i hi h
    cases Nat.lt_one_iff.1 hi
    exact hne (Option.some.inj (unescaped_zero_iff.1 h).1)

theorem Covers.literal_stop {tokens : List Token} {t : Token} (h : Covers text tokens)
    (ht : t ∈ tokens) (hkind : t.kind = .literal) :
    ∃ quote rest, text.drop t.span.start = quote :: rest ∧ quote ∈ ByteClass.delimiters ∧
      t.span.stop = t.span.start + 1 + literalLength quote rest := by
  obtain ⟨quote, rest, hdrop, hhead, hstop⟩ :=
    head_of_mem_spans (List.drop_zero (l := text)) (h.mem_spans ht)
  rw [hkind] at hhead
  obtain ⟨hblock, hline⟩ := not_isPrefixOf_of_kind hhead
  rw [length_head] at hstop
  rw [head] at hhead
  unfold extent at hhead hstop
  rw [if_neg hblock, if_neg hline] at hhead hstop
  cases hclass : ByteClass.ofByte quote with
  | delimiter =>
    rw [hclass] at hstop
    refine ⟨quote, rest, hdrop, (ByteClass.ofByte_eq_delimiter_iff quote).1 hclass, ?_⟩
    dsimp only at hstop
    omega
  | _ =>
    rw [hclass] at hhead
    cases hhead

end Lexeme

open Lexeme (Unescaped ThroughFirst)

/-- A literal token ends with the first byte equal to the one it starts with that an even number of
backslashes comes before, or else with the text; no other byte ends it. -/
theorem Buffer.literals_end_by_parity (id : Nat) (text : List UInt8)
    (h : text.length ≤ Offset.bound - 2) :
    ∃ tokens, (ofBytes id text).tokens = .ok tokens ∧ ∀ t ∈ tokens, t.kind = .literal →
      ∃ quote ∈ ByteClass.delimiters, text[t.span.start]? = some quote ∧
        ThroughFirst (Unescaped quote text (t.span.start + 1)) text.length t.span.stop := by
  obtain ⟨tokens, htokens, hcovers⟩ := exists_tokens_of_text id h
  refine ⟨tokens, htokens, ?_⟩
  intro t ht hkind
  obtain ⟨quote, rest, hdrop, hquote, hstop⟩ := hcovers.literal_stop ht hkind
  have hrest : text.drop (t.span.start + 1) = rest := by
    rw [← List.drop_drop, hdrop]
    rfl
  have hfirst : text[t.span.start]? = some quote := by
    rw [← Nat.add_zero t.span.start, ← List.getElem?_drop, hdrop]
    rfl
  have hne : quote ≠ backslash := by
    rintro rfl
    exact absurd hquote (by decide)
  have hlength : text.length = t.span.start + 1 + rest.length := by
    have := congrArg List.length hdrop
    rw [List.length_drop, List.length_cons] at this
    omega
  refine ⟨quote, hquote, hfirst, ?_⟩
  rw [hlength, hstop]
  apply (Lexeme.literalLength_throughFirst hne rest).shift (t.span.start + 1)
  · intro i hi hclosing
    exact absurd hclosing.1 (Nat.not_le_of_lt hi)
  · intro k
    rw [Lexeme.unescaped_add_iff, hrest]

/-- Another quote, a comment opener and a line feed in a literal, one that ends with a backslash,
and one that nothing closes. -/
def quotedText : List UInt8 := bytesOf "'\\\\\\'\"/*\n'\"\\\\\"`\\`"

theorem Buffer.literals_end_by_parity_of_quotedText :
    quotedText.length ≤ Offset.bound - 2 ∧
    ∃ tokens, (ofBytes 0 quotedText).tokens = .ok tokens ∧
      tokens.map (fun t => (t.kind, t.span)) =
        [(.literal, ⟨0, 10⟩), (.literal, ⟨10, 14⟩), (.literal, ⟨14, 17⟩)] ∧
      ∀ t ∈ tokens, ∃ quote ∈ ByteClass.delimiters, quotedText[t.span.start]? = some quote ∧
        ThroughFirst (Unescaped quote quotedText (t.span.start + 1)) 17 t.span.stop := by
  have hlength : quotedText.length ≤ Offset.bound - 2 := by decide
  obtain ⟨tokens, htokens, hliterals⟩ := literals_end_by_parity 0 quotedText hlength
  have hspans : (ofBytes 0 quotedText).tokens.map (·.map fun t => (t.kind, t.span)) =
      .ok [(.literal, ⟨0, 10⟩), (.literal, ⟨10, 14⟩), (.literal, ⟨14, 17⟩)] :=
    Fault.toOption_eq_some (by decide +kernel)
  rw [htokens] at hspans
  have hspans := Except.ok.inj hspans
  dsimp only at hspans
  refine ⟨hlength, tokens, htokens, hspans, ?_⟩
  intro t ht
  have hkinds : ∀ x ∈ tokens.map (fun t => (t.kind, t.span)), x.1 = .literal := by
    rw [hspans]
    decide
  have hkind := hkinds _ (List.mem_map_of_mem ht)
  exact hliterals t ht hkind

end FrontEnd
