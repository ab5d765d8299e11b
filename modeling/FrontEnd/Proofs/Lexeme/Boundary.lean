import FrontEnd.Proofs.Lexeme.Gap

namespace FrontEnd.Lexeme

open Recognizer (blockOpen blockClose lineOpen lineFeed backslash)

def closes (quote : UInt8) : List UInt8 → Bool
  | [] => false
  | [byte] => byte == quote
  | byte :: next :: rest =>
    if byte = quote then true
    else if byte = backslash then closes quote rest
    else closes quote (next :: rest)

/-- Whether a byte right after a lexeme would become part of it, or change its form. -/
def Joins (l : Lexeme) (next : UInt8) : Prop :=
  match l.kind with
  | some .whitespace => ByteClass.ofByte next = .whitespace
  | some .integer => ByteClass.ofByte next = .digit
  | some .identifier => (ByteClass.ofByte next).continuesIdent = true
  | some .literal => closes l.first l.rest = false
  | some .operator =>
    Operator.isCataloged (l.bytes ++ [next]) = true ∨
      l.bytes = [0x2F] ∧ (next = 0x2A ∨ next = 0x2F)
  | some .scopeOperator => False
  | some .error => False
  | none => if l.rest.head? = some 0x2A then ¬blockClose <:+: l.rest.tail else next ≠ lineFeed

/-- A lexeme ends where `after` begins. -/
def StopsAt (l : Lexeme) (after : List UInt8) : Prop := ∀ next ∈ after.head?, ¬l.Joins next

def IsHead (l : Lexeme) : Prop := ∃ byte rest, l = head byte rest

variable {byte : UInt8} {rest after : List UInt8}

theorem runLength_take_append {test : UInt8 → Bool} {text : List UInt8}
    (hstop : ∀ next ∈ after.head?, test next = false) :
    runLength test (text.take (runLength test text) ++ after) = runLength test text := by
  have hafter : after.takeWhile test = [] := by
    cases after with
    | nil => rfl
    | cons next after => exact List.takeWhile_cons_of_neg (by simp [hstop next rfl])
  have hrun : ∀ byte ∈ text.takeWhile test, test byte = true :=
    List.all_eq_true.1 List.all_takeWhile
  rw [take_runLength, runLength, List.takeWhile_append_of_pos hrun, hafter, List.append_nil, runLength]

theorem runLength_stops {test : UInt8 → Bool} {text : List UInt8} :
    ∀ next ∈ (text.drop (runLength test text)).head?, test next = false := by
  rw [drop_runLength]
  intro next hnext
  have hhead := List.head?_dropWhile_not test text
  rw [Option.mem_def.1 hnext] at hhead
  exact hhead

theorem growthLength_take_append {read text : List UInt8}
    (hstop : ∀ next ∈ after.head?,
      Operator.isCataloged (read ++ text.take (growthLength read text) ++ [next]) = false) :
    growthLength read (text.take (growthLength read text) ++ after) = growthLength read text := by
  have hnone : ∀ {read}, (∀ next ∈ after.head?, Operator.isCataloged (read ++ [next]) = false) →
      growthLength read after = 0 := by
    intro read hstop
    cases after with
    | nil => rfl
    | cons next after => rw [growthLength, if_neg (by simp [hstop next rfl])]
  induction text generalizing read with
  | nil =>
    apply hnone
    rwa [List.take_nil, List.append_nil] at hstop
  | cons byte rest ih =>
    rw [growthLength] at hstop ⊢
    by_cases hbyte : Operator.isCataloged (read ++ [byte]) = true
    · rw [if_pos hbyte, List.take_succ_cons] at hstop ⊢
      have hmore : ∀ next ∈ after.head?, Operator.isCataloged
          (read ++ [byte] ++ rest.take (growthLength (read ++ [byte]) rest) ++ [next]) = false := by
        rwa [List.append_assoc read, List.singleton_append]
      rw [List.cons_append, growthLength, if_pos hbyte, ih hmore]
    · rw [if_neg hbyte, List.take_zero] at hstop ⊢
      rw [List.append_nil] at hstop
      exact hnone hstop

theorem growthLength_stops (read text : List UInt8) :
    ∀ next ∈ (text.drop (growthLength read text)).head?,
      Operator.isCataloged (read ++ text.take (growthLength read text) ++ [next]) = false := by
  induction text generalizing read with
  | nil =>
    intro next hnext
    cases hnext
  | cons byte rest ih =>
    intro next hnext
    rw [growthLength] at hnext ⊢
    by_cases hbyte : Operator.isCataloged (read ++ [byte]) = true
    · rw [if_pos hbyte] at hnext ⊢
      have hmore := ih (read ++ [byte]) next hnext
      rw [List.append_assoc read, List.singleton_append] at hmore
      exact hmore
    · rw [if_neg hbyte] at hnext ⊢
      cases hnext
      rw [List.take_zero, List.append_nil]
      exact Bool.eq_false_iff.2 hbyte

theorem literalLength_append {quote : UInt8} {body : List UInt8} (h : closes quote body = true)
    (after : List UInt8) : literalLength quote (body ++ after) = literalLength quote body := by
  fun_induction closes quote body with
  | case1 => cases h
  | case2 byte =>
    cases beq_iff_eq.1 h
    cases after with
    | nil => rfl
    | cons next after => simp [literalLength]
  | case3 next rest => simp [literalLength]
  | case4 next rest hquote ih =>
    simp only [List.cons_append, literalLength, if_neg hquote, if_pos, ih h]
  | case5 byte next rest hquote hescape ih =>
    rw [List.cons_append] at ih
    simp only [List.cons_append, literalLength, if_neg hquote, if_neg hescape, ih h]

theorem literalLength_of_not_closes {quote : UInt8} {body : List UInt8}
    (h : closes quote body = false) : literalLength quote body = body.length := by
  fun_induction closes quote body with
  | case1 => rfl
  | case2 byte => rfl
  | case3 next rest => cases h
  | case4 next rest hquote ih => simp only [literalLength, if_neg hquote, if_pos, ih h, List.length_cons]
  | case5 byte next rest hquote hescape ih =>
    simp only [literalLength, if_neg hquote, if_neg hescape, ih h, List.length_cons]

theorem closes_take (quote : UInt8) (body : List UInt8) :
    closes quote (body.take (literalLength quote body)) = closes quote body := by
  fun_induction closes quote body with
  | case1 => rfl
  | case2 byte => rfl
  | case3 next rest => simp [literalLength, closes]
  | case4 next rest hquote ih =>
    simp only [literalLength, if_neg hquote, if_pos, List.take_succ_cons, closes, ih]
  | case5 byte next rest hquote hescape ih =>
    obtain ⟨length, hlength⟩ := Nat.exists_eq_succ_of_ne_zero
      (Nat.pos_iff_ne_zero.1 (literalLength_pos quote next rest))
    rw [hlength, List.take_succ_cons] at ih
    simp only [literalLength, if_neg hquote, if_neg hescape, hlength, List.take_succ_cons, closes, ih]

theorem literalLength_take_append {quote : UInt8} {text : List UInt8}
    (hstop : closes quote text = true ∨ after = []) :
    literalLength quote (text.take (literalLength quote text) ++ after) =
      literalLength quote text := by
  cases hcloses : closes quote text with
  | true =>
    have hbody := (closes_take quote text).trans hcloses
    have hwhole := literalLength_append hbody (text.drop (literalLength quote text))
    rw [List.take_append_drop] at hwhole
    rw [literalLength_append hbody, ← hwhole]
  | false =>
    rw [hcloses] at hstop
    rw [hstop.resolve_left Bool.false_ne_true, literalLength_of_not_closes hcloses,
      List.take_length, List.append_nil, literalLength_of_not_closes hcloses]

theorem blockLength_of_not_infix {body : List UInt8} (h : ¬blockClose <:+: body) :
    blockLength body = body.length := by
  rcases blockLength_cases body with ⟨inner, more, rfl, _, _⟩ | ⟨_, hlength⟩
  · exact absurd ⟨inner, more, rfl⟩ h
  · exact hlength

theorem infix_take_blockLength {body : List UInt8} (h : blockClose <:+: body) :
    blockClose <:+: body.take (blockLength body) := by
  rcases blockLength_cases body with ⟨inner, more, rfl, hlength, _⟩ | ⟨hno, _⟩
  · rw [hlength, List.take_left]
    exact (List.suffix_append inner blockClose).isInfix
  · exact absurd h hno

theorem blockLength_append {body : List UInt8} (h : blockClose <:+: body) (after : List UInt8) :
    blockLength (body ++ after) = blockLength body := by
  induction body with
  | nil => exact absurd (List.eq_nil_of_infix_nil h) (by decide)
  | cons byte rest ih =>
    rw [List.cons_append]
    unfold blockLength
    by_cases hclose : blockClose <+: byte :: rest
    · have hlonger : blockClose <+: byte :: (rest ++ after) :=
        hclose.trans (List.prefix_append (byte :: rest) after)
      rw [if_pos (List.isPrefixOf_iff_prefix.2 hclose),
        if_pos (List.isPrefixOf_iff_prefix.2 hlonger)]
    · have hrest := (List.infix_cons_iff.1 h).resolve_left hclose
      have hlonger : ¬blockClose <+: byte :: (rest ++ after) := by
        intro hprefix
        apply hclose
        apply List.prefix_of_prefix_length_le hprefix (List.prefix_append (byte :: rest) after)
        have := hrest.length_le
        rw [List.length_cons]
        omega
      rw [if_neg (mt List.isPrefixOf_iff_prefix.1 hclose),
        if_neg (mt List.isPrefixOf_iff_prefix.1 hlonger), ih hrest]

theorem blockLength_take_append {text : List UInt8} (hstop : blockClose <:+: text ∨ after = []) :
    blockLength (text.take (blockLength text) ++ after) = blockLength text := by
  by_cases hclose : blockClose <:+: text
  · have hbody := infix_take_blockLength hclose
    have hwhole := blockLength_append hbody (text.drop (blockLength text))
    rw [List.take_append_drop] at hwhole
    rw [blockLength_append hbody, ← hwhole]
  · rw [hstop.resolve_left hclose, blockLength_of_not_infix hclose, List.take_length,
      List.append_nil, blockLength_of_not_infix hclose]

/-- How a lexeme begins tells its kind, and how far it goes on. -/
inductive Form (byte : UInt8) (rest : List UInt8) : Option Kind × Nat → Prop where
  | block {body : List UInt8} {n : Nat} (byte_eq : byte = 0x2F) (rest_eq : rest = 0x2A :: body)
      (length_eq : blockLength body = n) : Form byte rest (none, n + 1)
  | line {body : List UInt8} {n : Nat} (byte_eq : byte = 0x2F) (rest_eq : rest = 0x2F :: body)
      (length_eq : runLength (· != lineFeed) body = n) : Form byte rest (none, n + 1)
  | whitespace {n : Nat} (class_eq : ByteClass.ofByte byte = .whitespace)
      (length_eq : runLength (ByteClass.ofByte · == .whitespace) rest = n) :
      Form byte rest (some .whitespace, n)
  | integer {n : Nat} (class_eq : ByteClass.ofByte byte = .digit)
      (length_eq : runLength (ByteClass.ofByte · == .digit) rest = n) :
      Form byte rest (some .integer, n)
  | literal {n : Nat} (class_eq : ByteClass.ofByte byte = .delimiter)
      (length_eq : literalLength byte rest = n) : Form byte rest (some .literal, n)
  | scopeOperator (class_eq : ByteClass.ofByte byte = .scopeMark) :
      Form byte rest (some .scopeOperator, 0)
  | operator {n : Nat} (class_eq : ByteClass.ofByte byte = .operatorMark)
      (no_block : ¬blockOpen.isPrefixOf (byte :: rest) = true)
      (no_line : ¬lineOpen.isPrefixOf (byte :: rest) = true)
      (length_eq : growthLength [byte] rest = n) : Form byte rest (some .operator, n)
  | identifier {n : Nat} (class_eq : ByteClass.ofByte byte = .identStart)
      (length_eq : runLength (ByteClass.ofByte · |>.continuesIdent) rest = n) :
      Form byte rest (some .identifier, n)
  | error (class_eq : ByteClass.ofByte byte = .other) : Form byte rest (some .error, 0)

theorem form_extent (byte : UInt8) (rest : List UInt8) : Form byte rest (extent byte rest) := by
  unfold extent
  by_cases hblock : blockOpen.isPrefixOf (byte :: rest) = true
  · obtain ⟨hbyte, body, hrest⟩ := pair_isPrefixOf_iff.1 hblock
    rw [if_pos hblock, hrest]
    exact .block hbyte rfl rfl
  by_cases hline : lineOpen.isPrefixOf (byte :: rest) = true
  · obtain ⟨hbyte, body, hrest⟩ := pair_isPrefixOf_iff.1 hline
    have hrun : runLength (· != lineFeed) rest = runLength (· != lineFeed) body + 1 := by
      rw [hrest, runLength_cons, if_pos (by decide)]
    rw [if_neg hblock, if_pos hline, hrun]
    exact .line hbyte hrest rfl
  rw [if_neg hblock, if_neg hline]
  cases hclass : ByteClass.ofByte byte with
  | whitespace => exact .whitespace hclass rfl
  | digit => exact .integer hclass rfl
  | delimiter => exact .literal hclass rfl
  | scopeMark => exact .scopeOperator hclass
  | operatorMark => exact .operator hclass hblock hline rfl
  | identStart => exact .identifier hclass rfl
  | other => exact .error hclass

theorem extent_of_class {c : ByteClass} (rest : List UInt8) (h : ByteClass.ofByte byte = c)
    (hc : c ≠ .operatorMark) :
    ¬blockOpen.isPrefixOf (byte :: rest) = true ∧ ¬lineOpen.isPrefixOf (byte :: rest) = true := by
  have hslash : byte ≠ 0x2F := by
    rintro rfl
    exact hc h.symm
  constructor
  · intro hblock
    exact hslash (pair_isPrefixOf_iff.1 hblock).1
  · intro hline
    exact hslash (pair_isPrefixOf_iff.1 hline).1

theorem Form.extent_eq {e : Option Kind × Nat} (h : Form byte rest e) : extent byte rest = e := by
  cases h with
  | block hbyte hrest hlength => rw [hbyte, hrest, extent_block, hlength]
  | line hbyte hrest hlength => rw [hbyte, hrest, extent_line, hlength]
  | operator hclass hblock hline hlength =>
    unfold extent
    rw [if_neg hblock, if_neg hline, hclass, ← hlength]
  | scopeOperator hclass | error hclass =>
    obtain ⟨hblock, hline⟩ := extent_of_class rest hclass (by decide)
    unfold extent
    rw [if_neg hblock, if_neg hline, hclass]
  | whitespace hclass hlength | integer hclass hlength | literal hclass hlength
  | identifier hclass hlength =>
    obtain ⟨hblock, hline⟩ := extent_of_class rest hclass (by decide)
    unfold extent
    rw [if_neg hblock, if_neg hline, hclass, ← hlength]

theorem Form.head_eq {e : Option Kind × Nat} (h : Form byte rest e) :
    head byte rest = ⟨e.1, byte, rest.take e.2⟩ := by
  rw [head, h.extent_eq]

theorem Form.tail_eq {e : Option Kind × Nat} (h : Form byte rest e) :
    tail byte rest = rest.drop e.2 := by
  rw [tail, h.extent_eq]

theorem exists_form (byte : UInt8) (rest : List UInt8) : ∃ e, Form byte rest e :=
  ⟨_, form_extent byte rest⟩

theorem stopsAt_tail (byte : UInt8) (rest : List UInt8) :
    (head byte rest).StopsAt (tail byte rest) := by
  obtain ⟨e, hform⟩ := exists_form byte rest
  rw [StopsAt, hform.head_eq, hform.tail_eq]
  intro next hnext hjoins
  cases hform with
  | block hbyte hrest hlength =>
    rw [hrest] at hnext hjoins
    rw [← hlength] at hnext hjoins
    have hopen : ¬blockClose <:+: _ := hjoins
    rw [List.drop_succ_cons, blockLength_of_not_infix (mt infix_take_blockLength hopen),
      List.drop_length] at hnext
    cases hnext
  | line hbyte hrest hlength =>
    rw [hrest, List.drop_succ_cons, ← hlength] at hnext
    rw [hrest] at hjoins
    have hfeed : next ≠ lineFeed := hjoins
    exact hfeed (bne_eq_false_iff_eq.1 (runLength_stops next hnext))
  | whitespace hclass hlength =>
    rw [← hlength] at hnext
    have hother := runLength_stops next hnext
    rw [beq_eq_false_iff_ne] at hother
    exact hother hjoins
  | integer hclass hlength =>
    rw [← hlength] at hnext
    have hother := runLength_stops next hnext
    rw [beq_eq_false_iff_ne] at hother
    exact hother hjoins
  | literal hclass hlength =>
    rw [← hlength] at hnext hjoins
    have hopen : closes byte rest = false := (closes_take byte rest).symm.trans hjoins
    rw [literalLength_of_not_closes hopen, List.drop_length] at hnext
    cases hnext
  | scopeOperator hclass => exact hjoins
  | operator hclass hblock hline hlength =>
    rw [← hlength] at hnext hjoins
    rcases hjoins with hgrows | ⟨hslash, hcomment⟩
    · exact Bool.noConfusion (hgrows.symm.trans (growthLength_stops [byte] rest next hnext))
    · -- A slash alone is followed by no byte that would have made it a comment.
      obtain ⟨hbyte, hbody⟩ := List.cons.inj hslash
      have hdrop := List.take_append_drop (growthLength [byte] rest) rest
      dsimp only at hbody hnext
      rw [hbody, List.nil_append] at hdrop
      rw [hdrop] at hnext
      obtain ⟨body, hrest⟩ := List.head?_eq_some_iff.1 (Option.mem_def.1 hnext)
      rcases hcomment with rfl | rfl
      · exact hblock (pair_isPrefixOf_iff.2 ⟨hbyte, body, hrest⟩)
      · exact hline (pair_isPrefixOf_iff.2 ⟨hbyte, body, hrest⟩)
  | identifier hclass hlength =>
    rw [← hlength] at hnext
    exact Bool.noConfusion (hjoins.symm.trans (runLength_stops next hnext))
  | error hclass => exact hjoins

theorem not_isPrefixOf_append {grown : List UInt8} {mark : UInt8} (hmark : mark = 0x2A ∨ mark = 0x2F)
    (hno : ¬[0x2F, mark].isPrefixOf (byte :: grown) = true)
    (hstop : ∀ next ∈ after.head?, ¬(byte :: grown = [0x2F] ∧ (next = 0x2A ∨ next = 0x2F))) :
    ¬[0x2F, mark].isPrefixOf (byte :: (grown ++ after)) = true := by
  intro hcomment
  obtain ⟨rfl, body, hbody⟩ := pair_isPrefixOf_iff.1 hcomment
  cases grown with
  | nil =>
    rw [List.nil_append] at hbody
    exact hstop mark (by rw [hbody]; rfl) ⟨rfl, hmark⟩
  | cons next grown =>
    cases hbody
    exact hno (pair_isPrefixOf_iff.2 ⟨rfl, grown, rfl⟩)

theorem isPrefixOf_take {mark : UInt8} {n : Nat}
    (hno : ¬[0x2F, mark].isPrefixOf (byte :: rest) = true) :
    ¬[0x2F, mark].isPrefixOf (byte :: rest.take n) = true := by
  intro hcomment
  apply hno
  rw [List.isPrefixOf_iff_prefix] at hcomment ⊢
  exact hcomment.trans (List.cons_prefix_cons.2 ⟨rfl, List.take_prefix n rest⟩)

/-- A lexeme is the same before all texts that it stops at. -/
theorem extent_append (hstop : (head byte rest).StopsAt after) :
    extent byte (rest.take (extent byte rest).2 ++ after) = extent byte rest := by
  -- The lexeme has the same form before `after` as before its own tail.
  have hform := form_extent byte rest
  revert hstop
  unfold head
  generalize extent byte rest = e at hform
  intro hstop
  apply Form.extent_eq
  cases hform with
  | @block body n hbyte hrest hlength =>
    rw [hrest, ← hlength] at hstop ⊢
    apply Form.block hbyte rfl
    apply blockLength_take_append
    cases after with
    | nil => exact .inr rfl
    | cons next after =>
      have hclosed : ¬¬blockClose <:+: body.take (blockLength body) := hstop next rfl
      exact .inl ((Decidable.not_not.1 hclosed).trans (List.take_prefix _ _).isInfix)
  | line hbyte hrest hlength =>
    rw [hrest] at hstop
    rw [hrest, ← hlength]
    apply Form.line hbyte rfl
    apply runLength_take_append
    intro next hnext
    exact bne_eq_false_iff_eq.2 (Decidable.not_not.1 (hstop next hnext))
  | whitespace hclass hlength =>
    rw [← hlength]
    apply Form.whitespace hclass
    apply runLength_take_append
    intro next hnext
    exact beq_eq_false_iff_ne.2 (hstop next hnext)
  | integer hclass hlength =>
    rw [← hlength]
    apply Form.integer hclass
    apply runLength_take_append
    intro next hnext
    exact beq_eq_false_iff_ne.2 (hstop next hnext)
  | literal hclass hlength =>
    rw [← hlength] at hstop ⊢
    apply Form.literal hclass
    apply literalLength_take_append
    cases after with
    | nil => exact .inr rfl
    | cons next after =>
      have hclosed : ¬closes byte (rest.take (literalLength byte rest)) = false := hstop next rfl
      rw [closes_take, Bool.not_eq_false] at hclosed
      exact .inl hclosed
  | scopeOperator hclass => exact .scopeOperator hclass
  | operator hclass hblock hline hlength =>
    rw [← hlength] at hstop ⊢
    apply Form.operator hclass
    · apply not_isPrefixOf_append (.inl rfl) (isPrefixOf_take hblock)
      intro next hnext hslash
      exact hstop next hnext (.inr hslash)
    · apply not_isPrefixOf_append (.inr rfl) (isPrefixOf_take hline)
      intro next hnext hslash
      exact hstop next hnext (.inr hslash)
    · apply growthLength_take_append
      intro next hnext
      apply Bool.eq_false_iff.2
      intro hgrows
      exact hstop next hnext (.inl hgrows)
  | identifier hclass hlength =>
    rw [← hlength]
    apply Form.identifier hclass
    apply runLength_take_append
    intro next hnext
    exact Bool.eq_false_iff.2 (hstop next hnext)
  | error hclass => exact .error hclass

theorem head_append (hstop : (head byte rest).StopsAt after) :
    head byte ((head byte rest).rest ++ after) = head byte rest := by
  have hlength : (rest.take (extent byte rest).2).length = (extent byte rest).2 :=
    List.length_take_of_le (extent_le byte rest)
  simp only [head, extent_append hstop, List.take_left' hlength]

theorem IsHead.cut_append {l : Lexeme} (h : l.IsHead) (hstop : l.StopsAt after) :
    cut (l.bytes ++ after) = l :: cut after := by
  obtain ⟨byte, rest, rfl⟩ := h
  have hhead := head_append hstop
  have hsplit := head_append_tail byte ((head byte rest).rest ++ after)
  rw [hhead] at hsplit
  have htail : tail byte ((head byte rest).rest ++ after) = after :=
    List.append_cancel_left hsplit
  have hbytes : (head byte rest).bytes ++ after = byte :: ((head byte rest).rest ++ after) := rfl
  rw [hbytes, cut_cons, hhead, htail]

/-- Lexemes before a text, each of which ends where the next one or the text begins. -/
def Chained : List Lexeme → List UInt8 → Prop
  | [], _ => True
  | l :: ls, after => l.IsHead ∧ l.StopsAt (ls.flatMap bytes ++ after) ∧ Chained ls after

variable {ls ms : List Lexeme} {text : List UInt8}

theorem Chained.cut_append (h : Chained ls after) :
    cut (ls.flatMap bytes ++ after) = ls ++ cut after := by
  induction ls with
  | nil => rfl
  | cons l ls ih =>
    obtain ⟨hhead, hstop, hrest⟩ := h
    rw [List.flatMap_cons, List.append_assoc, hhead.cut_append hstop, ih hrest, List.cons_append]

theorem chained_cut (text : List UInt8) : Chained (cut text) [] := by
  fun_induction cut text with
  | case1 => trivial
  | case2 byte rest ih =>
    refine ⟨⟨byte, rest, rfl⟩, ?_, ih⟩
    rw [flatMap_cut, List.append_nil]
    exact stopsAt_tail byte rest

theorem Chained.left (h : Chained (ls ++ ms) after) : Chained ls (ms.flatMap bytes ++ after) := by
  induction ls with
  | nil => trivial
  | cons l ls ih =>
    rw [List.cons_append] at h
    obtain ⟨hhead, hstop, hrest⟩ := h
    rw [List.flatMap_append, List.append_assoc] at hstop
    exact ⟨hhead, hstop, ih hrest⟩

theorem Chained.right (h : Chained (ls ++ ms) after) : Chained ms after := by
  induction ls with
  | nil => exact h
  | cons l ls ih => exact ih h.2.2

theorem Chained.before {other : List UInt8} (h : Chained ls after)
    (hlast : ∀ l ∈ ls.getLast?, l.StopsAt other) : Chained ls other := by
  induction ls with
  | nil => trivial
  | cons l ls ih =>
    obtain ⟨hhead, hstop, hrest⟩ := h
    cases ls with
    | nil => exact ⟨hhead, hlast l rfl, trivial⟩
    | cons m ls => exact ⟨hhead, hstop, ih hrest hlast⟩

/-- A text may go on in any other way after some of its lexemes, if the last of them stops there. -/
theorem cut_flatMap_append (h : cut text = ls ++ ms) (hlast : ∀ l ∈ ls.getLast?, l.StopsAt after) :
    cut (ls.flatMap bytes ++ after) = ls ++ cut after := by
  have hchained := chained_cut text
  rw [h] at hchained
  exact (hchained.left.before hlast).cut_append

theorem cut_flatMap_left (h : cut text = ls ++ ms) : cut (ls.flatMap bytes) = ls := by
  have hcut : cut (ls.flatMap bytes ++ []) = ls ++ cut [] :=
    cut_flatMap_append h fun l _ next hnext => nomatch hnext
  rwa [List.append_nil, cut, List.append_nil] at hcut

theorem cut_flatMap_right (h : cut text = ls ++ ms) : cut (ms.flatMap bytes) = ms := by
  have hchained := chained_cut text
  rw [h] at hchained
  have hcut := hchained.right.cut_append
  rwa [List.append_nil, cut, List.append_nil] at hcut

end FrontEnd.Lexeme
