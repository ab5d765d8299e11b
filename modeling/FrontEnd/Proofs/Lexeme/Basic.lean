import FrontEnd.Lexeme.Recognizer

namespace FrontEnd

open Recognizer (blockOpen blockClose lineOpen lineFeed backslash)

/-- A piece of a text that is read as one: a token of a kind, or a comment, which has none. -/
structure Lexeme where
  kind : Option Kind
  first : UInt8
  rest : List UInt8
  deriving DecidableEq

namespace Lexeme

def bytes (l : Lexeme) : List UInt8 := l.first :: l.rest

def runLength (test : UInt8 → Bool) (text : List UInt8) : Nat := (text.takeWhile test).length

/-- How far a block comment goes on after its opener: through the first closer, or to the end. -/
def blockLength : List UInt8 → Nat
  | [] => 0
  | byte :: rest => if blockClose.isPrefixOf (byte :: rest) then 2 else blockLength rest + 1

/-- How far a literal goes on after the byte that opened it. A backslash takes a byte along. -/
def literalLength (quote : UInt8) : List UInt8 → Nat
  | [] => 0
  | [_] => 1
  | byte :: next :: rest =>
    if byte = quote then 1
    else if byte = backslash then literalLength quote rest + 2
    else literalLength quote (next :: rest) + 1

/-- How far an operator grows, a byte at a time, while it stays in the catalog. -/
def growthLength (read : List UInt8) : List UInt8 → Nat
  | [] => 0
  | byte :: rest =>
    if Operator.isCataloged (read ++ [byte]) then growthLength (read ++ [byte]) rest + 1 else 0

/-- The kind of the lexeme that begins with a byte, and how many of the bytes after it are part
of it. -/
def extent (byte : UInt8) (rest : List UInt8) : Option Kind × Nat :=
  if blockOpen.isPrefixOf (byte :: rest) then (none, blockLength (rest.drop 1) + 1)
  else if lineOpen.isPrefixOf (byte :: rest) then (none, runLength (· != lineFeed) rest)
  else
    match ByteClass.ofByte byte with
    | .whitespace => (some .whitespace, runLength (ByteClass.ofByte · == .whitespace) rest)
    | .digit => (some .integer, runLength (ByteClass.ofByte · == .digit) rest)
    | .delimiter => (some .literal, literalLength byte rest)
    | .scopeMark => (some .scopeOperator, 0)
    | .operatorMark => (some .operator, growthLength [byte] rest)
    | .identStart => (some .identifier, runLength (ByteClass.ofByte · |>.continuesIdent) rest)
    | .other => (some .error, 0)

def head (byte : UInt8) (rest : List UInt8) : Lexeme :=
  ⟨(extent byte rest).1, byte, rest.take (extent byte rest).2⟩

def tail (byte : UInt8) (rest : List UInt8) : List UInt8 := rest.drop (extent byte rest).2

/-- The lexemes of a text: each begins where the one before it ends. -/
def cut : List UInt8 → List Lexeme
  | [] => []
  | byte :: rest => head byte rest :: cut (tail byte rest)
termination_by text => text.length
decreasing_by
  simp only [tail, List.length_drop, List.length_cons]
  omega

/-- Kinds and spans of the tokens among lexemes that stand one after the other. -/
def spans (start : Nat) : List Lexeme → List (Kind × Span)
  | [] => []
  | l :: ls =>
    match l.kind with
    | none => spans (start + l.bytes.length) ls
    | some kind => (kind, ⟨start, start + l.bytes.length⟩) :: spans (start + l.bytes.length) ls

theorem blockOpen_eq : blockOpen = [0x2F, 0x2A] := rfl

theorem lineOpen_eq : lineOpen = [0x2F, 0x2F] := rfl

@[simp] theorem length_bytes (l : Lexeme) : l.bytes.length = l.rest.length + 1 := rfl

theorem runLength_le (test : UInt8 → Bool) (text : List UInt8) :
    runLength test text ≤ text.length := (List.takeWhile_sublist _).length_le

theorem take_runLength (test : UInt8 → Bool) (text : List UInt8) :
    text.take (runLength test text) = text.takeWhile test := by
  conv => lhs; arg 2; rw [← List.takeWhile_append_dropWhile (p := test) (l := text)]
  exact List.take_left

theorem drop_runLength (test : UInt8 → Bool) (text : List UInt8) :
    text.drop (runLength test text) = text.dropWhile test := by
  conv => lhs; arg 2; rw [← List.takeWhile_append_dropWhile (p := test) (l := text)]
  exact List.drop_left

theorem runLength_cons (test : UInt8 → Bool) (byte : UInt8) (rest : List UInt8) :
    runLength test (byte :: rest) = if test byte then runLength test rest + 1 else 0 := by
  rw [runLength, List.takeWhile_cons]
  split <;> rfl

theorem blockLength_le (text : List UInt8) : blockLength text ≤ text.length := by
  induction text with
  | nil => exact Nat.le_refl _
  | cons byte rest ih =>
    unfold blockLength
    split
    · next h => exact (List.isPrefixOf_iff_prefix.1 h).length_le
    · exact Nat.succ_le_succ ih

theorem literalLength_le (quote : UInt8) (text : List UInt8) :
    literalLength quote text ≤ text.length := by
  fun_induction literalLength quote text with
  | case1 => exact Nat.le_refl _
  | case2 => exact Nat.le_refl _
  | case3 => simp
  | case4 next rest _ ih => simp only [List.length_cons]; omega
  | case5 byte next rest _ _ ih => simp only [List.length_cons] at ih ⊢; omega

theorem literalLength_pos (quote byte : UInt8) (rest : List UInt8) :
    0 < literalLength quote (byte :: rest) := by
  cases rest with
  | nil => exact Nat.one_pos
  | cons next rest =>
    unfold literalLength
    split
    · exact Nat.one_pos
    · split <;> exact Nat.succ_pos _

theorem growthLength_le (read text : List UInt8) : growthLength read text ≤ text.length := by
  induction text generalizing read with
  | nil => exact Nat.le_refl _
  | cons byte rest ih =>
    unfold growthLength
    split
    · exact Nat.succ_le_succ (ih _)
    · exact Nat.zero_le _

theorem pair_isPrefixOf_iff {a b byte : UInt8} {rest : List UInt8} :
    [a, b].isPrefixOf (byte :: rest) = true ↔ byte = a ∧ ∃ body, rest = b :: body := by
  rw [List.isPrefixOf_iff_prefix, List.cons_prefix_cons]
  constructor
  · rintro ⟨rfl, body, rfl⟩
    exact ⟨rfl, body, rfl⟩
  · rintro ⟨rfl, body, rfl⟩
    exact ⟨rfl, body, rfl⟩

theorem extent_le (byte : UInt8) (rest : List UInt8) : (extent byte rest).2 ≤ rest.length := by
  unfold extent
  split
  · next h =>
    obtain ⟨_, body, rfl⟩ := pair_isPrefixOf_iff.1 h
    exact Nat.succ_le_succ (blockLength_le body)
  · split
    · exact runLength_le _ _
    · split
      · exact runLength_le _ _
      · exact runLength_le _ _
      · exact literalLength_le _ _
      · exact Nat.zero_le _
      · exact growthLength_le _ _
      · exact runLength_le _ _
      · exact Nat.zero_le _

theorem length_head (byte : UInt8) (rest : List UInt8) :
    (head byte rest).bytes.length = (extent byte rest).2 + 1 := by
  have := extent_le byte rest
  simp only [length_bytes, head, List.length_take]
  omega

@[simp] theorem head_append_tail (byte : UInt8) (rest : List UInt8) :
    (head byte rest).bytes ++ tail byte rest = byte :: rest := by
  simp only [head, bytes, tail, List.cons_append, List.take_append_drop]

theorem drop_length_head {text : List UInt8} {start : Nat} {byte : UInt8} {rest : List UInt8}
    (h : text.drop start = byte :: rest) :
    text.drop (start + (head byte rest).bytes.length) = tail byte rest := by
  rw [← List.drop_drop, h, ← head_append_tail, List.drop_left]

@[simp] theorem extent_block (body : List UInt8) :
    extent 0x2F (0x2A :: body) = (none, blockLength body + 1) := rfl

@[simp] theorem extent_line (body : List UInt8) :
    extent 0x2F (0x2F :: body) = (none, runLength (· != lineFeed) body + 1) := rfl

/-- The lexemes without a kind are the comments. -/
theorem kind_head_eq_none_iff {byte : UInt8} {rest : List UInt8} :
    (head byte rest).kind = none ↔
      byte = 0x2F ∧ ((∃ body, rest = 0x2A :: body) ∨ ∃ body, rest = 0x2F :: body) := by
  rw [head]
  unfold extent
  rw [blockOpen_eq, lineOpen_eq]
  split
  · next h =>
    obtain ⟨hbyte, body, hrest⟩ := pair_isPrefixOf_iff.1 h
    exact ⟨fun _ => ⟨hbyte, .inl ⟨body, hrest⟩⟩, fun _ => rfl⟩
  · next hblock =>
    split
    · next h =>
      obtain ⟨hbyte, body, hrest⟩ := pair_isPrefixOf_iff.1 h
      exact ⟨fun _ => ⟨hbyte, .inr ⟨body, hrest⟩⟩, fun _ => rfl⟩
    · next hline =>
      constructor
      · intro hnone
        split at hnone <;> cases hnone
      · rintro ⟨hbyte, hrest | hrest⟩
        · exact absurd (pair_isPrefixOf_iff.2 ⟨hbyte, hrest⟩) hblock
        · exact absurd (pair_isPrefixOf_iff.2 ⟨hbyte, hrest⟩) hline

theorem not_isPrefixOf_of_kind {byte : UInt8} {rest : List UInt8} {kind : Kind}
    (h : (head byte rest).kind = some kind) :
    ¬blockOpen.isPrefixOf (byte :: rest) = true ∧ ¬lineOpen.isPrefixOf (byte :: rest) = true := by
  rw [head] at h
  unfold extent at h
  split at h
  · cases h
  · next hblock =>
    split at h
    · cases h
    · next hline => exact ⟨hblock, hline⟩

theorem class_of_kind {byte : UInt8} {rest : List UInt8} {kind : Kind}
    (h : (head byte rest).kind = some kind) :
    (kind = .whitespace ∧ ByteClass.ofByte byte = .whitespace ∧
      (extent byte rest).2 = runLength (ByteClass.ofByte · == .whitespace) rest) ∨
    (kind = .scopeOperator ∧ ByteClass.ofByte byte = .scopeMark ∧ (extent byte rest).2 = 0) ∨
    (kind ≠ .whitespace ∧ kind ≠ .scopeOperator ∧ ByteClass.ofByte byte ≠ .whitespace ∧
      ByteClass.ofByte byte ≠ .scopeMark) := by
  obtain ⟨hblock, hline⟩ := not_isPrefixOf_of_kind h
  rw [head] at h
  unfold extent at h ⊢
  rw [if_neg hblock, if_neg hline] at h ⊢
  cases hclass : ByteClass.ofByte byte with
  | whitespace =>
    rw [hclass] at h
    cases h
    exact .inl ⟨rfl, rfl, rfl⟩
  | scopeMark =>
    rw [hclass] at h
    cases h
    exact .inr (.inl ⟨rfl, rfl, rfl⟩)
  | _ =>
    rw [hclass] at h
    cases h
    exact .inr (.inr ⟨by decide, by decide, by decide, by decide⟩)

theorem cut_cons (byte : UInt8) (rest : List UInt8) :
    cut (byte :: rest) = head byte rest :: cut (tail byte rest) := by rw [cut]

/-- Lexemes cover a text: nothing is lost between them. -/
@[simp] theorem flatMap_cut (text : List UInt8) : (cut text).flatMap bytes = text := by
  fun_induction cut text with
  | case1 => rfl
  | case2 byte rest ih => rw [List.flatMap_cons, ih, head_append_tail]

variable {start : Nat} {ls : List Lexeme}

theorem spans_cons_of_none {l : Lexeme} (h : l.kind = none) :
    spans start (l :: ls) = spans (start + l.bytes.length) ls := by
  rw [spans, h]

theorem spans_cons_of_some {l : Lexeme} {kind : Kind} (h : l.kind = some kind) :
    spans start (l :: ls) =
      (kind, ⟨start, start + l.bytes.length⟩) :: spans (start + l.bytes.length) ls := by
  rw [spans, h]

theorem bounds_of_mem_spans {x : Kind × Span} (h : x ∈ spans start ls) :
    start ≤ x.2.start ∧ x.2.start < x.2.stop ∧
      x.2.stop ≤ start + (ls.flatMap bytes).length := by
  fun_induction spans start ls with
  | case1 => cases h
  | case2 start l ls hkind ih =>
    have := ih h
    simp only [List.flatMap_cons, List.length_append]
    omega
  | case3 start l ls kind hkind ih =>
    simp only [List.flatMap_cons, List.length_append]
    cases h with
    | head =>
      have := length_bytes l
      simp only
      omega
    | tail _ h =>
      have := ih h
      omega

theorem head_of_mem_spans {all text : List UInt8} {x : Kind × Span} (htext : all.drop start = text)
    (h : x ∈ spans start (cut text)) :
    ∃ byte rest, all.drop x.2.start = byte :: rest ∧ (head byte rest).kind = some x.1 ∧
      x.2.stop = x.2.start + (head byte rest).bytes.length := by
  revert htext h
  fun_induction cut text generalizing start with
  | case1 =>
    intro _ h
    cases h
  | case2 byte rest ih =>
    intro htext h
    have htail := drop_length_head htext
    cases hkind : (head byte rest).kind with
    | none =>
      rw [spans_cons_of_none hkind] at h
      exact ih htail h
    | some kind =>
      rw [spans_cons_of_some hkind] at h
      cases h with
      | head => exact ⟨byte, rest, htext, hkind, rfl⟩
      | tail _ h => exact ih htail h

theorem pairwise_spans (start : Nat) (ls : List Lexeme) :
    (spans start ls).Pairwise (fun x y => x.2.stop ≤ y.2.start) := by
  fun_induction spans start ls with
  | case1 => exact .nil
  | case2 start l ls hkind ih => exact ih
  | case3 start l ls kind hkind ih =>
    apply List.Pairwise.cons
    · intro y hy
      exact (bounds_of_mem_spans hy).1
    · exact ih

theorem map_slice_spans {text : List UInt8} (h : text.drop start = ls.flatMap bytes) :
    (spans start ls).map (fun x => (x.1, (text.drop x.2.start).take (x.2.stop - x.2.start))) =
      ls.filterMap (fun l => l.kind.map (·, l.bytes)) := by
  fun_induction spans start ls with
  | case1 => rfl
  | case2 start l ls hkind ih =>
    rw [List.filterMap_cons_none (by rw [hkind]; rfl)]
    apply ih
    rw [← List.drop_drop, h, List.flatMap_cons, List.drop_left]
  | case3 start l ls kind hkind ih =>
    rw [List.filterMap_cons_some (by rw [hkind]; rfl), List.map_cons]
    simp only [Nat.add_sub_cancel_left]
    rw [h, List.flatMap_cons, List.take_left, ih]
    rw [← List.drop_drop, h, List.flatMap_cons, List.drop_left]

end Lexeme

end FrontEnd
