import FrontEnd.Program
import FrontEnd.Proofs.Lexeme.Tokens
import FrontEnd.Proofs.Scope.Reading

namespace FrontEnd

open Recognizer (blockOpen blockClose lineOpen lineFeed)
open Lexeme (head tail cut spans extent blockLength runLength)

namespace Balance

inductive Mode where
  | code
  | line
  | block
  | opener
  | closer
  deriving DecidableEq

inductive Verdict where
  | ended (balance : Nat) (braces : List Brace)
  | offended (offset : Nat)
  deriving DecidableEq

/-- Counts the braces of a text in one pass, up to the first byte that offends. -/
def scan (mode : Mode) (balance offset : Nat) (read : List Brace) : List UInt8 → Verdict
  | [] => .ended balance read.reverse
  | byte :: rest =>
    match mode with
    | .line => scan (if byte = lineFeed then .code else .line) balance (offset + 1) read rest
    | .block =>
      scan (if blockClose.isPrefixOf (byte :: rest) then .closer else .block) balance (offset + 1)
        read rest
    | .opener => scan .block balance (offset + 1) read rest
    | .closer => scan .code balance (offset + 1) read rest
    | .code =>
      if blockOpen.isPrefixOf (byte :: rest) then scan .opener balance (offset + 1) read rest
      else if lineOpen.isPrefixOf (byte :: rest) then scan .line balance (offset + 1) read rest
      else if ByteClass.ofByte byte = .whitespace then scan .code balance (offset + 1) read rest
      else if byte = Brace.opening.byte then
        scan .code (balance + 1) (offset + 1) (.opening :: read) rest
      else if byte = Brace.closing.byte then
        match balance with
        | 0 => .offended offset
        | balance + 1 => scan .code balance (offset + 1) (.closing :: read) rest
      else .offended offset

def verdict (text : List UInt8) : Verdict := scan .code 0 0 [] text

variable {balance offset : Nat} {read : List Brace} {byte : UInt8} {rest : List UInt8}

theorem scan_block (text : List UInt8) :
    scan .block balance offset read text =
      scan .code balance (offset + blockLength text) read (text.drop (blockLength text)) := by
  induction text generalizing offset with
  | nil => rfl
  | cons byte rest ih =>
    rw [scan, blockLength]
    split
    · next h =>
      obtain ⟨_, body, rfl⟩ := Lexeme.pair_isPrefixOf_iff.1 h
      rfl
    · rw [ih, List.drop_succ_cons, Nat.add_assoc, Nat.add_comm 1]

theorem scan_line (text : List UInt8) :
    scan .line balance offset read text =
      scan .code balance (offset + runLength (· != lineFeed) text) read
        (text.drop (runLength (· != lineFeed) text)) := by
  induction text generalizing offset with
  | nil => rfl
  | cons byte rest ih =>
    rw [scan, Lexeme.runLength_cons]
    by_cases h : byte = lineFeed
    · subst h
      rfl
    · rw [if_neg h, if_pos (bne_iff_ne.2 h), ih, List.drop_succ_cons, Nat.add_assoc, Nat.add_comm 1]

theorem scan_blank (hbyte : ByteClass.ofByte byte = .whitespace) :
    scan .code balance offset read (byte :: rest) = scan .code balance (offset + 1) read rest := by
  have hslash : byte ≠ 0x2F := by
    rintro rfl
    cases hbyte
  have hblock : ¬blockOpen.isPrefixOf (byte :: rest) = true := fun h =>
    hslash (Lexeme.pair_isPrefixOf_iff.1 h).1
  have hline : ¬lineOpen.isPrefixOf (byte :: rest) = true := fun h =>
    hslash (Lexeme.pair_isPrefixOf_iff.1 h).1
  rw [scan.eq_def]
  dsimp only
  rw [if_neg hblock, if_neg hline, if_pos hbyte]

theorem scan_blanks (text : List UInt8) :
    scan .code balance offset read text =
      scan .code balance (offset + runLength (ByteClass.ofByte · == .whitespace) text) read
        (text.drop (runLength (ByteClass.ofByte · == .whitespace) text)) := by
  induction text generalizing offset with
  | nil => rfl
  | cons byte rest ih =>
    rw [Lexeme.runLength_cons]
    by_cases h : ByteClass.ofByte byte = .whitespace
    · rw [if_pos (by rw [h]; rfl), scan_blank h, ih, List.drop_succ_cons, Nat.add_assoc,
        Nat.add_comm 1]
    · rw [if_neg (by simpa using h), Nat.add_zero, List.drop_zero]

theorem scan_comment (h : (head byte rest).kind = none) :
    scan .code balance offset read (byte :: rest) =
      scan .code balance (offset + (head byte rest).bytes.length) read (tail byte rest) := by
  obtain ⟨rfl, ⟨body, rfl⟩ | ⟨body, rfl⟩⟩ := Lexeme.kind_head_eq_none_iff.1 h
  · have hscan : scan .code balance offset read (0x2F :: 0x2A :: body) =
        scan .block balance (offset + 1 + 1) read body := rfl
    rw [hscan, scan_block, Lexeme.length_head, tail, Lexeme.extent_block, List.drop_succ_cons]
    congr 1
    omega
  · have hscan : scan .code balance offset read (0x2F :: 0x2F :: body) =
        scan .line balance (offset + 1 + 1) read body := rfl
    rw [hscan, scan_line, Lexeme.length_head, tail, Lexeme.extent_line, List.drop_succ_cons]
    congr 1
    omega

theorem scan_whitespace (h : (head byte rest).kind = some .whitespace) :
    scan .code balance offset read (byte :: rest) =
      scan .code balance (offset + (head byte rest).bytes.length) read (tail byte rest) := by
  rcases Lexeme.class_of_kind h with ⟨_, hclass, hextent⟩ | ⟨hkind, _⟩ | ⟨hkind, _⟩
  · rw [scan_blank hclass, scan_blanks, Lexeme.length_head, tail, hextent]
    congr 1
    omega
  · cases hkind
  · exact absurd rfl hkind

theorem scan_mark {kind : Kind} (h : (head byte rest).kind = some kind)
    (hkind : kind ≠ .whitespace) :
    scan .code balance offset read (byte :: rest) =
      match Brace.ofBytes? [byte] with
      | none => .offended offset
      | some b =>
        match b.next? balance with
        | none => .offended offset
        | some next => scan .code next (offset + 1) (b :: read) rest := by
  have hblank : ByteClass.ofByte byte ≠ .whitespace := by
    rcases Lexeme.class_of_kind h with ⟨hwhite, _⟩ | ⟨_, hclass, _⟩ | ⟨_, _, hclass, _⟩
    · exact absurd hwhite hkind
    · rw [hclass]
      decide
    · exact hclass
  obtain ⟨hblock, hline⟩ := Lexeme.not_isPrefixOf_of_kind h
  rw [scan.eq_def]
  dsimp only
  rw [if_neg hblock, if_neg hline, if_neg hblank, Brace.ofBytes?]
  simp only [List.cons.injEq, and_true]
  split
  · rfl
  · split
    · cases balance <;> rfl
    · rfl

theorem class_of_brace {b : Brace} (h : Brace.ofBytes? [byte] = some b) :
    ByteClass.ofByte byte = .scopeMark := by
  rw [Brace.ofBytes?] at h
  split at h
  · next hbyte =>
    cases hbyte
    rfl
  · split at h
    · next hbyte =>
      cases hbyte
      rfl
    · cases h

theorem extent_of_brace {kind : Kind} {b : Brace} (hkind : (head byte rest).kind = some kind)
    (h : Brace.ofBytes? [byte] = some b) : (extent byte rest).2 = 0 := by
  have hclass := class_of_brace h
  rcases Lexeme.class_of_kind hkind with ⟨_, hblank, _⟩ | ⟨_, _, hextent⟩ | ⟨_, _, _, hother⟩
  · rw [hclass] at hblank
    cases hblank
  · exact hextent
  · exact absurd hclass hother

theorem brace?_of_head {t : Token} (hkind : (head byte rest).kind = some t.kind)
    (hbytes : t.bytes = .ok (head byte rest).bytes) (hblank : t.kind ≠ .whitespace) :
    t.brace? = Brace.ofBytes? [byte] := by
  rw [Token.brace?, hbytes]
  rcases Lexeme.class_of_kind hkind with ⟨hwhite, _⟩ | ⟨hscope, _, hextent⟩ | ⟨_, hother, _, hclass⟩
  · exact absurd hwhite hblank
  · rw [hscope, head, Lexeme.bytes, hextent, List.take_zero]
  · cases hb : Brace.ofBytes? [byte] with
    | some b => exact absurd (class_of_brace hb) hclass
    | none =>
      cases hk : t.kind with
      | scopeOperator => exact absurd hk hother
      | _ => rfl

/-- A verdict on a text agrees with the first of its tokens that stops. -/
inductive Agrees (read : List Brace) (balance : Nat) (ts : List Token) : Verdict → Prop where
  | ended {n : Nat} {braces : List Brace}
      (stop : firstStop balance (ts.map Token.brace?) = none)
      (balanced : (ts.map Token.brace?).count (some .closing) + n =
        (ts.map Token.brace?).count (some .opening) + balance)
      (word : braces.map some = read.reverse.map some ++ ts.map Token.brace?) :
      Agrees read balance ts (.ended n braces)
  | offended {i : Nat} {t : Token} (stop : firstStop balance (ts.map Token.brace?) = some i)
      (token : ts[i]? = some t) : Agrees read balance ts (.offended t.span.start)

theorem Agrees.step {next : Nat} {b : Brace} {t : Token} {ts : List Token} {v : Verdict}
    (hb : t.brace? = some b) (hn : b.next? balance = some next)
    (h : Agrees (b :: read) next ts v) : Agrees read balance (t :: ts) v := by
  have hword : (t :: ts).map Token.brace? = some b :: ts.map Token.brace? := by
    rw [List.map_cons, hb]
  have hstop := firstStop_of_next hn (ts.map Token.brace?)
  rw [← hword] at hstop
  cases h with
  | ended stop balanced word =>
    apply Agrees.ended
    · rw [hstop, stop]
      rfl
    · have := Brace.count_of_next hn (ts.map Token.brace?)
      rw [hword]
      omega
    · rw [word, hword, List.reverse_cons, List.map_append, List.append_assoc]
      rfl
  | offended stop token => exact .offended (by rw [hstop, stop]; rfl) token

theorem Agrees.token {t : Token} {ts : List Token} (hkind : (head byte rest).kind = some t.kind)
    (hbytes : t.bytes = .ok (head byte rest).bytes)
    (h : ∀ {next marks}, Agrees marks next (ts.filter (!·.isWhitespace))
      (scan .code next (t.span.start + (head byte rest).bytes.length) marks (tail byte rest))) :
    Agrees read balance ((t :: ts).filter (!·.isWhitespace))
      (scan .code balance t.span.start read (byte :: rest)) := by
  by_cases hblank : t.kind = .whitespace
  · rw [List.filter_cons_of_neg (by simp [Token.isWhitespace, hblank])]
    rw [hblank] at hkind
    rw [scan_whitespace hkind]
    exact h
  · have hbrace := brace?_of_head hkind hbytes hblank
    rw [List.filter_cons_of_pos (by simp [Token.isWhitespace, hblank]), scan_mark hkind hblank]
    cases hb : Brace.ofBytes? [byte] with
    | none =>
      refine .offended (i := 0) ?_ rfl
      rw [List.map_cons, hbrace, hb]
      rfl
    | some b =>
      rw [hb] at hbrace
      dsimp only
      cases hnext : b.next? balance with
      | none =>
        refine .offended (i := 0) ?_ rfl
        rw [List.map_cons, hbrace, firstStop_of_no_next hnext]
      | some next =>
        rw [Lexeme.length_head, tail, extent_of_brace hkind hb] at h
        exact Agrees.step hbrace hnext h

/-- The scanner and the lexer see the same braces, and the same first offence. -/
theorem agrees_scan {all text : List UInt8} {start : Nat} {tokens : List Token}
    (htext : all.drop start = text)
    (hspans : tokens.map (fun t => (t.kind, t.span)) = spans start (cut text))
    (hbytes : ∀ t ∈ tokens,
      t.bytes = .ok ((all.drop t.span.start).take (t.span.stop - t.span.start))) :
    Agrees read balance (tokens.filter (!·.isWhitespace)) (scan .code balance start read text) := by
  -- The scanner moves on a byte at a time, so the induction is over the lexemes and takes all bytes
  -- of one at once.
  revert htext hspans
  fun_induction cut text generalizing start tokens balance read with
  | case1 =>
    intro _ hspans
    cases List.map_eq_nil_iff.1 hspans
    refine .ended rfl rfl ?_
    rw [List.filter_nil, List.map_nil, List.append_nil]
  | case2 byte rest ih =>
    intro htext hspans
    have htail := Lexeme.drop_length_head htext
    cases hkind : (head byte rest).kind with
    | none =>
      rw [Lexeme.spans_cons_of_none hkind] at hspans
      rw [scan_comment hkind]
      exact ih hbytes htail hspans
    | some kind =>
      rw [Lexeme.spans_cons_of_some hkind] at hspans
      obtain ⟨t, ts, rfl, ht, hts⟩ := List.map_eq_cons_iff.1 hspans
      obtain ⟨rfl, hspan⟩ := Prod.mk.inj ht
      obtain ⟨hhead, hrest⟩ := List.forall_mem_cons.1 hbytes
      have hstart : t.span.start = start := by rw [hspan]
      have hcontent : t.bytes = .ok (head byte rest).bytes := by
        rw [hhead, hspan, Nat.add_sub_cancel_left, htext, ← Lexeme.head_append_tail,
          List.take_left]
      cases hstart
      exact Agrees.token hkind hcontent (ih hrest htail hts)

/-- What the scanner decides about reading a text. -/
structure Law (text : List UInt8) (o : Except Failure ParsedSource) : Prop where
  accepts : (∃ source, o = .ok source) ↔ ∃ braces, verdict text = .ended 0 braces
  tree : ∀ source, o = .ok source → verdict text = .ended 0 source.scope.braces
  rejects : (∃ position kind read, o = .error (.rejected (.unexpected position kind read))) ↔
    ∃ offset, verdict text = .offended offset
  unexpected : ∀ offset, verdict text = .offended offset →
    ∃ byte rest kind, text.drop offset = byte :: rest ∧ (head byte rest).kind = some kind ∧
      o = .error (.rejected (.unexpected (.after (text.take offset)) kind
        (Utf8.decode (head byte rest).bytes)))
  endOfInput : o = .error (.rejected .endOfInput) ↔
    ∃ balance braces, verdict text = .ended (balance + 1) braces

inductive Decides (text : List UInt8) : Verdict → Except Failure ParsedSource → Prop where
  | balanced (source : ParsedSource) :
      Decides text (.ended 0 source.scope.braces) (.ok source)
  | unclosed (balance : Nat) (braces : List Brace) :
      Decides text (.ended (balance + 1) braces) (.error (.rejected .endOfInput))
  | offence {offset : Nat} {byte : UInt8} {rest : List UInt8} {kind : Kind}
      (byte_eq : text.drop offset = byte :: rest) (kind_eq : (head byte rest).kind = some kind) :
      Decides text (.offended offset)
        (.error (.rejected (.unexpected (.after (text.take offset)) kind
          (Utf8.decode (head byte rest).bytes))))

theorem Decides.law {text : List UInt8} {o : Except Failure ParsedSource}
    (h : Decides text (verdict text) o) : Law text o := by
  generalize hv : verdict text = v at h
  cases h with
  | balanced source =>
    constructor
    case accepts => simp [hv]
    case tree =>
      intro other hother
      cases hother
      exact hv
    case rejects => simp [hv]
    case unexpected =>
      intro offset hoffset
      cases hv.symm.trans hoffset
    case endOfInput => simp [hv]
  | unclosed balance braces =>
    constructor
    case accepts => simp [hv]
    case tree =>
      intro other hother
      cases hother
    case rejects => simp [hv]
    case unexpected =>
      intro offset hoffset
      cases hv.symm.trans hoffset
    case endOfInput => simp [hv]
  | offence byte_eq kind_eq =>
    constructor
    case accepts => simp [hv]
    case tree =>
      intro other hother
      cases hother
    case rejects => simp [hv]
    case unexpected =>
      intro offset hoffset
      cases hv.symm.trans hoffset
      exact ⟨_, _, _, byte_eq, kind_eq, rfl⟩
    case endOfInput => simp [hv]

def parsed (source : Buffer) (tokens : List Token) : Outcome Scope → Except Failure ParsedSource
  | .ok scope _ => .ok ⟨source, tokens, scope⟩
  | .error failure _ => .error failure

/-- The scope grammar over the tokens of a text decides as the scanner does over its bytes. -/
theorem decides_of_readsAll {text : List UInt8} {source : Buffer} {tokens : List Token}
    {o : Outcome Scope} (hc : Lexeme.Covers text tokens)
    (h : Rule.ReadsAll [] (.ofTokens tokens) o) :
    Decides text (verdict text) (parsed source tokens o) := by
  have hagrees : Agrees [] 0 (tokens.filter (!·.isWhitespace)) (verdict text) :=
    agrees_scan rfl hc.spans_eq fun t ht => hc.bytes_eq ht
  generalize verdict text = v at hagrees
  cases h with
  | @parsed s d stop balanced braces flagged plain =>
    cases hagrees with
    | @ended n read hstop hcount hread =>
      have hzero : n = 0 := Nat.add_left_cancel (hcount.trans balanced.symm)
      have hsame : read = s.braces :=
        (List.map_inj_right fun _ _ => Option.some.inj).1 (hread.trans braces.symm)
      rw [hzero, hsame]
      exact .balanced ⟨source, tokens, s⟩
    | offended hstop token => cases stop.symm.trans hstop
  | @unexpected k t read d stop token readable =>
    cases hagrees with
    | ended hstop _ _ => cases stop.symm.trans hstop
    | offended hstop hu =>
      cases stop.symm.trans hstop
      cases token.symm.trans hu
      have ht : t ∈ tokens := (List.mem_filter.1 (List.mem_of_getElem? token)).1
      obtain ⟨byte, rest, hdrop, hkind, hcontent⟩ := hc.exists_head ht
      rw [Token.text, hcontent] at readable
      cases readable
      rw [parsed, hc.position_eq t ht]
      exact .offence hdrop hkind
  | @endOfInput d stop opened =>
    cases hagrees with
    | @ended n read hstop hcount hread =>
      cases n with
      | zero => exact absurd hcount (Nat.ne_of_lt opened)
      | succ n => exact .unclosed n read
    | offended hstop token => cases stop.symm.trans hstop

end Balance

theorem parseText_of_tokens {text : String} {tokens : List Token}
    (h : (Buffer.ofText 0 text).tokens = .ok tokens) :
    (parseText text).1 =
      Balance.parsed (.ofText 0 text) tokens (Rule.globalScope (.ofTokens tokens)) := by
  have htokenize : (Buffer.ofText 0 text).tokenize =
      (.ok tokens, Record.ofTokens (.ofText 0 text) tokens) := by
    rw [Buffer.tokenize, h]
  unfold parseText
  simp only [htokenize]
  cases Rule.globalScope (.ofTokens tokens) with
  | ok scope d => rfl
  | error failure d => rfl

/-- Reading a text comes to what one pass over its bytes finds. -/
theorem parseText_follows_scan (text : String) (h : text.utf8ByteSize ≤ Offset.bound - 2) :
    Balance.Law (bytesOf text) (parseText text).1 := by
  have hsize : (bytesOf text).length ≤ Offset.bound - 2 := h
  obtain ⟨tokens, htokens, hcovers⟩ := Buffer.exists_tokens_of_text 0 hsize
  have hordered : (Cursor.ofTokens tokens).Ordered :=
    fun t ht => Nat.le_of_lt (hcovers.bounds ht).1
  rw [parseText_of_tokens htokens]
  exact (Balance.decides_of_readsAll hcovers (Rule.readsAll_globalScope hordered)).law

theorem parseText_follows_scan_to_literal :
    "\x7b /*\x7d*/\n '\x7d' \x7d".utf8ByteSize ≤ Offset.bound - 2 ∧
    (parseText "\x7b /*\x7d*/\n '\x7d' \x7d").1 =
      .error (.rejected (.unexpected ⟨2, 2⟩ .literal "'\x7d'")) := by
  have hsize : "\x7b /*\x7d*/\n '\x7d' \x7d".utf8ByteSize ≤ Offset.bound - 2 := by decide
  have hverdict : Balance.verdict (bytesOf "\x7b /*\x7d*/\n '\x7d' \x7d") = .offended 9 := by
    decide +kernel
  obtain ⟨byte, rest, kind, hdrop, hkind, hresult⟩ :=
    (parseText_follows_scan _ hsize).unexpected 9 hverdict
  have hsplit : (bytesOf "\x7b /*\x7d*/\n '\x7d' \x7d").drop 9 =
      0x27 :: [0x7D, 0x27, 0x20, 0x7D] := by decide +kernel
  cases hsplit.symm.trans hdrop
  cases hkind
  refine ⟨hsize, hresult.trans ?_⟩
  have hposition : Position.after ((bytesOf "\x7b /*\x7d*/\n '\x7d' \x7d").take 9) = ⟨2, 2⟩ := by
    decide +kernel
  have htext : Utf8.decode (head 0x27 [0x7D, 0x27, 0x20, 0x7D]).bytes = "'\x7d'" := by
    decide +kernel
  rw [hposition, htext]

end FrontEnd
