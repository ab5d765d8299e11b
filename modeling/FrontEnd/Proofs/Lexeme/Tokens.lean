import FrontEnd.Proofs.Lexeme.Run

namespace FrontEnd

open Lexeme (cut spans)

theorem Fault.mapM_eq_ok {α β : Type} {f : α → Except Fault β} {g : α → β} {xs : List α}
    (h : ∀ x ∈ xs, f x = .ok (g x)) : xs.mapM f = .ok (xs.map g) := by
  induction xs with
  | nil => rfl
  | cons x xs ih =>
    rw [List.mapM_cons, h x List.mem_cons_self, ih fun y hy => h y (List.mem_cons_of_mem x hy)]
    rfl

theorem Token.bytes_eq {t : Token} (h : t.span.start ≤ t.span.stop) :
    t.bytes = .ok ((t.source.bytes.drop t.span.start).take (t.span.stop - t.span.start)) :=
  Buffer.slice_eq h t.stop_le

namespace Lexeme

variable {text : List UInt8} {tokens : List Token} {t : Token}

/-- The tokens of a text, each at its place. -/
structure Covers (text : List UInt8) (tokens : List Token) : Prop where
  spans_eq : tokens.map (fun t => (t.kind, t.span)) = spans 0 (cut text)
  source_eq : ∀ t ∈ tokens, t.source.bytes = text
  position_eq : ∀ t ∈ tokens, t.position = .after (text.take t.span.start)

theorem Covers.mem_spans (h : Covers text tokens) (ht : t ∈ tokens) :
    (t.kind, t.span) ∈ spans 0 (cut text) := by
  rw [← h.spans_eq]
  exact List.mem_map.2 ⟨t, ht, rfl⟩

theorem Covers.bounds (h : Covers text tokens) (ht : t ∈ tokens) :
    t.span.start < t.span.stop ∧ t.span.stop ≤ text.length := by
  obtain ⟨_, hlt, hle⟩ := bounds_of_mem_spans (h.mem_spans ht)
  rw [flatMap_cut, Nat.zero_add] at hle
  exact ⟨hlt, hle⟩

theorem Covers.pairwise (h : Covers text tokens) :
    tokens.Pairwise (fun t u => t.span.stop ≤ u.span.start) := by
  have hpairwise := pairwise_spans 0 (cut text)
  rw [← h.spans_eq, List.pairwise_map] at hpairwise
  exact hpairwise

theorem Covers.bytes_eq (h : Covers text tokens) (ht : t ∈ tokens) :
    t.bytes = .ok ((text.drop t.span.start).take (t.span.stop - t.span.start)) := by
  rw [Token.bytes_eq (Nat.le_of_lt (h.bounds ht).1), h.source_eq t ht]

theorem Covers.exists_head (h : Covers text tokens) (ht : t ∈ tokens) :
    ∃ byte rest, text.drop t.span.start = byte :: rest ∧ (head byte rest).kind = some t.kind ∧
      t.bytes = .ok (head byte rest).bytes := by
  obtain ⟨byte, rest, hdrop, hkind, hstop⟩ :=
    head_of_mem_spans (List.drop_zero (l := text)) (h.mem_spans ht)
  refine ⟨byte, rest, hdrop, hkind, ?_⟩
  dsimp only at hdrop hstop
  rw [h.bytes_eq ht, hdrop, hstop, Nat.add_sub_cancel_left, ← head_append_tail, List.take_left]

end Lexeme

namespace Buffer

theorem bytes_ofBytes_of_le (id : Nat) {text : List UInt8} (h : text.length ≤ Offset.bound - 2) :
    (ofBytes id text).bytes = text := by
  rw [bytes_ofBytes]
  apply List.take_of_length_le
  simp only [Offset.bound] at h ⊢
  omega

theorem length_ofBytes_of_le (id : Nat) {text : List UInt8} (h : text.length ≤ Offset.bound - 2) :
    (ofBytes id text).length + 1 < Offset.bound := by
  rw [length_ofBytes]
  simp only [Offset.bound] at h ⊢
  omega

/-- Reading a buffer gives the tokens of its lexemes, each at its place. -/
theorem exists_tokens {source : Buffer} (hc : source.Fits) :
    ∃ tokens, source.tokens = .ok tokens ∧ Lexeme.Covers source.bytes tokens := by
  obtain ⟨s, hscan, _, hemitted⟩ := Lexeme.scan_fresh hc
  have hspans := hemitted.spans_eq
  rw [drop_bytes_eq_nil (Nat.le_refl _), cut, spans, List.append_nil] at hspans
  refine ⟨s.tokens, ?_, hspans, ?_, ?_⟩
  · rw [tokens, hscan]
    rfl
  · intro t ht
    rw [(hemitted.placed t (List.mem_reverse.1 ht)).1]
  · intro t ht
    exact (hemitted.placed t (List.mem_reverse.1 ht)).2

theorem exists_tokens_of_text (id : Nat) {text : List UInt8} (h : text.length ≤ Offset.bound - 2) :
    ∃ tokens, (ofBytes id text).tokens = .ok tokens ∧ Lexeme.Covers text tokens := by
  obtain ⟨tokens, htokens, hcovers⟩ := exists_tokens (fits_of_length (length_ofBytes_of_le id h))
  rw [bytes_ofBytes_of_le id h] at hcovers
  exact ⟨tokens, htokens, hcovers⟩

theorem covers_of_tokens {id : Nat} {text : List UInt8} {tokens : List Token}
    (htokens : (ofBytes id text).tokens = .ok tokens) (h : text.length ≤ Offset.bound - 2) :
    Lexeme.Covers text tokens := by
  obtain ⟨others, hothers, hcovers⟩ := exists_tokens_of_text id h
  cases htokens.symm.trans hothers
  exact hcovers

/-- The recognizers, a byte at a time, find the same tokens as a lexer that reads a lexeme at a
time. -/
theorem tokens_eq_cut (id : Nat) (text : List UInt8) (h : text.length ≤ Offset.bound - 2) :
    ∃ tokens, (ofBytes id text).tokens = .ok tokens ∧
      tokens.map (fun t => (t.kind, t.span)) = spans 0 (cut text) := by
  obtain ⟨tokens, htokens, hcovers⟩ := exists_tokens_of_text id h
  exact ⟨tokens, htokens, hcovers.spans_eq⟩

theorem tokens_eq_cut_of_mixed_text :
    (bytesOf "x1=*'\\''/*/*/<<=//\x7d").length ≤ Offset.bound - 2 ∧
    ∃ tokens, (ofBytes 0 (bytesOf "x1=*'\\''/*/*/<<=//\x7d")).tokens = .ok tokens ∧
      tokens.map (fun t => (t.kind, t.span)) = [(.identifier, ⟨0, 2⟩), (.operator, ⟨2, 3⟩),
        (.operator, ⟨3, 4⟩), (.literal, ⟨4, 8⟩), (.operator, ⟨13, 16⟩)] := by
  have hlength : (bytesOf "x1=*'\\''/*/*/<<=//\x7d").length ≤ Offset.bound - 2 := by decide
  obtain ⟨tokens, htokens, hspans⟩ := tokens_eq_cut 0 _ hlength
  exact ⟨hlength, tokens, htokens, by rw [hspans]; decide +kernel⟩

end Buffer

end FrontEnd
