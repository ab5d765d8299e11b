import FrontEnd.Proofs.Lexeme.Tokens

namespace FrontEnd

open Recognizer (blockOpen blockClose lineOpen lineFeed)

namespace Lexeme

/-- A block comment ends with the first closer after its opener. -/
def IsBlockComment (comment : List UInt8) : Prop :=
  ∃ body, comment = blockOpen ++ (body ++ blockClose) ∧
    ∀ k, k < body.length → ¬blockClose <+: (body ++ blockClose).drop k

def IsLineComment (comment : List UInt8) : Prop :=
  ∃ body, comment = lineOpen ++ body ∧ lineFeed ∉ body

/-- A block comment that nothing closes. -/
def IsOpenComment (comment : List UInt8) : Prop :=
  ∃ body, comment = blockOpen ++ body ∧ ¬blockClose <:+: body

/-- Block comments fill a range, but for one last comment that a line feed or the end stops. -/
def IsGap (gap after : List UInt8) : Prop :=
  ∃ blocks last, gap = List.flatten blocks ++ last ∧ (∀ c ∈ blocks, IsBlockComment c) ∧
    (last = [] ∨ (IsLineComment last ∧ (after = [] ∨ after.head? = some lineFeed)) ∨
      (IsOpenComment last ∧ after = []))

variable {byte : UInt8} {rest gap after : List UInt8} {start : Nat}

@[simp] theorem isGap_nil (after : List UInt8) : IsGap [] after :=
  ⟨[], [], rfl, by simp, .inl rfl⟩

theorem IsGap.block {comment : List UInt8} (hc : IsBlockComment comment) (h : IsGap gap after) :
    IsGap (comment ++ gap) after := by
  obtain ⟨blocks, last, rfl, hblocks, hlast⟩ := h
  refine ⟨comment :: blocks, last, by simp, ?_, hlast⟩
  intro c hmem
  cases hmem with
  | head => exact hc
  | tail _ hmem => exact hblocks c hmem

theorem IsGap.head?_eq (h : IsGap gap after) : gap = [] ∨ gap.head? = some 0x2F := by
  obtain ⟨blocks, last, rfl, hblocks, hlast⟩ := h
  cases blocks with
  | nil =>
    rcases hlast with rfl | ⟨⟨body, rfl, _⟩, _⟩ | ⟨⟨body, rfl, _⟩, _⟩
    · exact .inl rfl
    · exact .inr rfl
    · exact .inr rfl
  | cons c blocks =>
    obtain ⟨body, rfl, _⟩ := hblocks c List.mem_cons_self
    exact .inr rfl

theorem blockLength_cases (text : List UInt8) :
    (∃ body after, text = (body ++ blockClose) ++ after ∧
      blockLength text = (body ++ blockClose).length ∧
      ∀ k, k < body.length → ¬blockClose <+: (body ++ blockClose).drop k) ∨
    (¬blockClose <:+: text ∧ blockLength text = text.length) := by
  induction text with
  | nil => exact .inr ⟨by decide, rfl⟩
  | cons byte rest ih =>
    unfold blockLength
    split
    · next h =>
      obtain ⟨after, hafter⟩ := List.isPrefixOf_iff_prefix.1 h
      exact .inl ⟨[], after, hafter.symm, rfl, fun k hk => absurd hk (Nat.not_lt_zero k)⟩
    · next h =>
      have hno : ¬blockClose <+: byte :: rest := fun hp => h (List.isPrefixOf_iff_prefix.2 hp)
      rcases ih with ⟨body, after, rfl, hlen, hfirst⟩ | ⟨hclose, hlen⟩
      · refine .inl ⟨byte :: body, after, rfl, by rw [hlen]; rfl, ?_⟩
        intro k hk
        cases k with
        | zero =>
          intro hp
          exact hno (hp.trans (List.prefix_append _ after))
        | succ k => exact hfirst k (Nat.lt_of_succ_lt_succ hk)
      · refine .inr ⟨?_, by rw [hlen]; rfl⟩
        intro hp
        rcases List.infix_cons_iff.1 hp with hp | hp
        · exact hno hp
        · exact hclose hp

theorem isGap_block {body : List UInt8} (htail : body.drop (blockLength body) = gap ++ after)
    (h : IsGap gap after) :
    IsGap (blockOpen ++ body.take (blockLength body) ++ gap) after := by
  rcases blockLength_cases body with ⟨inner, more, rfl, hlen, hfirst⟩ | ⟨hclose, hlen⟩
  · rw [hlen, List.take_left]
    exact .block ⟨inner, rfl, hfirst⟩ h
  · rw [hlen, List.drop_length] at htail
    obtain ⟨rfl, rfl⟩ := List.nil_eq_append_iff.1 htail
    rw [hlen, List.take_length, List.append_nil]
    exact ⟨[], _, rfl, by simp, .inr (.inr ⟨⟨body, rfl, hclose⟩, rfl⟩)⟩

theorem isGap_line {body : List UInt8}
    (htail : body.dropWhile (· != lineFeed) = gap ++ after) (h : IsGap gap after) :
    IsGap (lineOpen ++ body.takeWhile (· != lineFeed) ++ gap) after := by
  have hstop : gap ++ after = [] ∨ (gap ++ after).head? = some lineFeed := by
    rw [← htail]
    cases hd : body.dropWhile (· != lineFeed) with
    | nil => exact .inl rfl
    | cons byte rest =>
      have := List.head?_dropWhile_not (· != lineFeed) body
      rw [hd] at this
      simp only [List.head?_cons, bne_eq_false_iff_eq] at this
      exact .inr (congrArg some this)
  have hgap : gap = [] := by
    rcases h.head?_eq with hgap | hslash
    · exact hgap
    · cases gap with
      | nil => rfl
      | cons byte gap =>
        cases hslash
        rcases hstop with hstop | hstop <;> cases hstop
  subst hgap
  rw [List.append_nil]
  refine ⟨[], _, rfl, by simp, .inr (.inl ⟨⟨_, rfl, ?_⟩, hstop⟩)⟩
  intro hmem
  have := List.all_eq_true.1 List.all_takeWhile _ hmem
  simp at this

theorem isGap_head (hkind : (head byte rest).kind = none) (htail : tail byte rest = gap ++ after)
    (h : IsGap gap after) : IsGap ((head byte rest).bytes ++ gap) after := by
  obtain ⟨rfl, ⟨body, rfl⟩ | ⟨body, rfl⟩⟩ := kind_head_eq_none_iff.1 hkind
  · rw [tail, extent_block, List.drop_succ_cons] at htail
    exact isGap_block htail h
  · rw [tail, extent_line, List.drop_succ_cons, drop_runLength] at htail
    have hline := isGap_line htail h
    rw [← take_runLength] at hline
    exact hline

theorem drop_eq_take_append_drop {text : List UInt8} {a b : Nat} (h : a ≤ b) :
    text.drop a = (text.drop a).take (b - a) ++ text.drop b := by
  conv => lhs; rw [← List.take_append_drop (b - a) (text.drop a)]
  rw [List.drop_drop, show a + (b - a) = b by omega]

theorem isGap_comment {text : List UInt8} {a b : Nat} (hkind : (head byte rest).kind = none)
    (hrest : text.drop a = byte :: rest) (hle : a + (head byte rest).bytes.length ≤ b)
    (h : IsGap ((text.drop (a + (head byte rest).bytes.length)).take
      (b - (a + (head byte rest).bytes.length))) (text.drop b)) :
    IsGap ((text.drop a).take (b - a)) (text.drop b) := by
  rw [drop_length_head hrest] at h
  have htail : tail byte rest =
      (tail byte rest).take (b - (a + (head byte rest).bytes.length)) ++ text.drop b := by
    rw [← drop_length_head hrest]
    exact drop_eq_take_append_drop hle
  rw [hrest, ← head_append_tail, List.take_append, List.take_of_length_le (by omega),
    Nat.sub_sub]
  exact isGap_head hkind htail h

/-- A range between tokens, or between one and an end of the text, is a gap. -/
theorem isGap_between {text : List UInt8} {a b : Nat} (hle : start ≤ a) (hab : a ≤ b)
    (hb : b ≤ text.length)
    (hno : ∀ x ∈ spans start (cut (text.drop start)), x.2.stop ≤ a ∨ b ≤ x.2.start)
    (ha : a = start ∨ ∃ x ∈ spans start (cut (text.drop start)), x.2.stop = a)
    (hstop : b = text.length ∨ ∃ x ∈ spans start (cut (text.drop start)), x.2.start = b) :
    IsGap ((text.drop a).take (b - a)) (text.drop b) := by
  -- Over the lexemes from `start` on: a token ends at or before `a` or begins at or after `b`, and a
  -- comment that begins at `a` ends at or before `b`, since no token is cut in two.
  generalize hrest : text.drop start = left at hno ha hstop
  fun_induction cut left generalizing start a with
  | case1 =>
    have hlen := congrArg List.length hrest
    rw [List.length_drop, List.length_nil] at hlen
    rw [show b - a = 0 by omega]
    exact isGap_nil _
  | case2 byte rest ih =>
    have hlen := congrArg List.length hrest
    rw [← head_append_tail, List.length_append, List.length_drop] at hlen
    have hpos := length_bytes (head byte rest)
    have hnext := drop_length_head hrest
    have hmem : ∀ x ∈ spans (start + (head byte rest).bytes.length) (cut (tail byte rest)),
        start + (head byte rest).bytes.length ≤ x.2.start ∧ x.2.start < x.2.stop :=
      fun x hx => ⟨(bounds_of_mem_spans hx).1, (bounds_of_mem_spans hx).2.1⟩
    cases hkind : (head byte rest).kind with
    | none =>
      rw [spans_cons_of_none hkind] at hno ha hstop
      rcases ha with rfl | ⟨x, hx, rfl⟩
      · have hmore : a + (head byte rest).bytes.length ≤ b := by
          rcases hstop with rfl | ⟨x, hx, rfl⟩
          · omega
          · exact (hmem x hx).1
        have hno' : ∀ x ∈ spans (a + (head byte rest).bytes.length) (cut (tail byte rest)),
            x.2.stop ≤ a + (head byte rest).bytes.length ∨ b ≤ x.2.start := by
          intro x hx
          have := hmem x hx
          rcases hno x hx with h | h
          · omega
          · exact .inr h
        exact isGap_comment hkind hrest hmore (ih (Nat.le_refl _) hmore hnext hno' (.inl rfl) hstop)
      · have := hmem x hx
        exact ih (by omega) hab hnext hno (.inr ⟨x, hx, rfl⟩) hstop
    | some kind =>
      rw [spans_cons_of_some hkind] at hno ha hstop
      rcases hno _ List.mem_cons_self with hafter | hbefore
      · simp only at hafter
        apply ih hafter hab hnext
        · intro x hx
          exact hno x (List.mem_cons_of_mem _ hx)
        · rcases ha with rfl | ⟨x, hx, rfl⟩
          · omega
          · cases hx with
            | head => exact .inl rfl
            | tail _ hx => exact .inr ⟨x, hx, rfl⟩
        · rcases hstop with rfl | ⟨x, hx, rfl⟩
          · exact .inl rfl
          · cases hx with
            | head => simp only at hab; omega
            | tail _ hx => exact .inr ⟨x, hx, rfl⟩
      · simp only at hbefore
        rw [show b - a = 0 by omega]
        exact isGap_nil _

theorem kind_of_mem_cut {text : List UInt8} (hblock : ¬blockOpen <:+: text)
    (hline : ¬lineOpen <:+: text) : ∀ l ∈ cut text, ∃ kind, l.kind = some kind := by
  fun_induction cut text with
  | case1 =>
    intro l hl
    cases hl
  | case2 byte rest ih =>
    have hsuffix : tail byte rest <:+ byte :: rest := ⟨_, head_append_tail byte rest⟩
    intro l hl
    cases hl with
    | head =>
      cases hkind : (head byte rest).kind with
      | some kind => exact ⟨kind, rfl⟩
      | none =>
        obtain ⟨rfl, ⟨body, rfl⟩ | ⟨body, rfl⟩⟩ := kind_head_eq_none_iff.1 hkind
        · exact absurd (List.prefix_append blockOpen body).isInfix hblock
        · exact absurd (List.prefix_append lineOpen body).isInfix hline
    | tail _ hl =>
      exact ih (fun h => hblock (h.trans hsuffix.isInfix)) (fun h => hline (h.trans hsuffix.isInfix))
        l hl

theorem flatten_filterMap_bytes {ls : List Lexeme} (h : ∀ l ∈ ls, ∃ kind, l.kind = some kind) :
    ((ls.filterMap fun l => l.kind.map (·, l.bytes)).map Prod.snd).flatten = ls.flatMap bytes := by
  induction ls with
  | nil => rfl
  | cons l ls ih =>
    obtain ⟨kind, hkind⟩ := h l List.mem_cons_self
    rw [List.filterMap_cons_some (by rw [hkind]; rfl), List.map_cons, List.flatten_cons,
      ih fun l hl => h l (List.mem_cons_of_mem _ hl), List.flatMap_cons]

theorem Covers.isGap_between {text : List UInt8} {tokens : List Token} (h : Covers text tokens)
    {a b : Nat} (hab : a ≤ b) (hb : b ≤ text.length)
    (hno : ∀ t ∈ tokens, t.span.stop ≤ a ∨ b ≤ t.span.start)
    (ha : a = 0 ∨ ∃ t ∈ tokens, t.span.stop = a)
    (hstop : b = text.length ∨ ∃ t ∈ tokens, t.span.start = b) :
    IsGap ((text.drop a).take (b - a)) (text.drop b) := by
  apply Lexeme.isGap_between (Nat.zero_le a) hab hb
  · rw [List.drop_zero, ← h.spans_eq]
    intro x hx
    obtain ⟨t, ht, rfl⟩ := List.mem_map.1 hx
    exact hno t ht
  · rcases ha with rfl | ⟨t, ht, rfl⟩
    · exact .inl rfl
    · exact .inr ⟨_, h.mem_spans ht, rfl⟩
  · rcases hstop with rfl | ⟨t, ht, rfl⟩
    · exact .inl rfl
    · exact .inr ⟨_, h.mem_spans ht, rfl⟩

theorem Covers.flatten_bytes {text : List UInt8} {tokens : List Token} (h : Covers text tokens)
    (hblock : ¬blockOpen <:+: text) (hline : ¬lineOpen <:+: text) :
    ∃ parts, tokens.mapM Token.bytes = .ok parts ∧ parts.flatten = text := by
  refine ⟨tokens.map fun t => (text.drop t.span.start).take (t.span.stop - t.span.start), ?_, ?_⟩
  · apply Fault.mapM_eq_ok
    intro t ht
    exact h.bytes_eq ht
  · have hcover : text.drop 0 = (cut text).flatMap Lexeme.bytes := by
      rw [Lexeme.flatMap_cut, List.drop_zero]
    have hslices := Lexeme.map_slice_spans hcover
    rw [← h.spans_eq, List.map_map] at hslices
    have hparts := congrArg (List.map Prod.snd) hslices
    rw [List.map_map] at hparts
    refine (congrArg List.flatten hparts).trans ?_
    rw [flatten_filterMap_bytes (kind_of_mem_cut hblock hline), flatMap_cut]

end Lexeme

open Lexeme (IsGap)

/-- Tokens stand one after the other in a text, and all that is between them is comments. -/
theorem Buffer.tokens_disjoint (id : Nat) (text : List UInt8) (h : text.length ≤ Offset.bound - 2) :
    ∃ tokens, (ofBytes id text).tokens = .ok tokens ∧
      (∀ t ∈ tokens, t.span.start < t.span.stop ∧ t.span.stop ≤ text.length) ∧
      tokens.Pairwise (fun t u => t.span.stop ≤ u.span.start) ∧
      (∀ a b, a ≤ b → b ≤ text.length →
        (∀ t ∈ tokens, t.span.stop ≤ a ∨ b ≤ t.span.start) →
        (a = 0 ∨ ∃ t ∈ tokens, t.span.stop = a) →
        (b = text.length ∨ ∃ t ∈ tokens, t.span.start = b) →
        IsGap ((text.drop a).take (b - a)) (text.drop b)) ∧
      (¬blockOpen <:+: text → ¬lineOpen <:+: text →
        ∃ parts, tokens.mapM Token.bytes = .ok parts ∧ parts.flatten = text) := by
  obtain ⟨tokens, htokens, hcovers⟩ := exists_tokens_of_text id h
  refine ⟨tokens, htokens, fun t ht => hcovers.bounds ht, hcovers.pairwise, ?_, ?_⟩
  · intro a b hab hb hno ha hstop
    exact hcovers.isGap_between hab hb hno ha hstop
  · intro hblock hline
    exact hcovers.flatten_bytes hblock hline

theorem Buffer.tokens_disjoint_of_adjacent_comments :
    (bytesOf "a/*/*//**///b\n/*/").length ≤ Offset.bound - 2 ∧
    ∃ tokens, (ofBytes 0 (bytesOf "a/*/*//**///b\n/*/")).tokens = .ok tokens ∧
      tokens.map Token.span = [⟨0, 1⟩, ⟨13, 14⟩] ∧
      IsGap (bytesOf "/*/*//**///b") (bytesOf "\n/*/") ∧ IsGap (bytesOf "/*/") [] := by
  have hlength : (bytesOf "a/*/*//**///b\n/*/").length ≤ Offset.bound - 2 := by decide
  obtain ⟨tokens, htokens, _, _, hgaps, _⟩ := tokens_disjoint 0 _ hlength
  have hcovers := covers_of_tokens htokens hlength
  have hspan : tokens.map Token.span = [⟨0, 1⟩, ⟨13, 14⟩] := by
    have := congrArg (List.map Prod.snd) hcovers.spans_eq
    rw [List.map_map] at this
    refine this.trans ?_
    decide +kernel
  have hmem : ∀ t ∈ tokens, t.span = ⟨0, 1⟩ ∨ t.span = ⟨13, 14⟩ := by
    intro t ht
    have := List.mem_map_of_mem (f := Token.span) ht
    rw [hspan] at this
    simpa using this
  have hfirst : ∃ t ∈ tokens, t.span = ⟨0, 1⟩ := List.mem_map.1 (by rw [hspan]; simp)
  have hlast : ∃ t ∈ tokens, t.span = ⟨13, 14⟩ := List.mem_map.1 (by rw [hspan]; simp)
  refine ⟨hlength, tokens, htokens, hspan, ?_, ?_⟩
  · apply hgaps 1 13 (by decide) (by decide)
    · intro t ht
      rcases hmem t ht with h | h
      · exact .inl (Nat.le_of_eq (congrArg Span.stop h))
      · exact .inr (Nat.le_of_eq (congrArg Span.start h).symm)
    · obtain ⟨t, ht, h⟩ := hfirst
      exact .inr ⟨t, ht, by rw [h]⟩
    · obtain ⟨t, ht, h⟩ := hlast
      exact .inr ⟨t, ht, by rw [h]⟩
  · apply hgaps 14 17 (by decide) (by decide)
    · intro t ht
      rcases hmem t ht with h | h
      · exact .inl (Nat.le_trans (Nat.le_of_eq (congrArg Span.stop h)) (by decide))
      · exact .inl (Nat.le_of_eq (congrArg Span.stop h))
    · obtain ⟨t, ht, h⟩ := hlast
      exact .inr ⟨t, ht, by rw [h]⟩
    · exact .inl rfl

end FrontEnd
