import FrontEnd.Proofs.Lexeme.Tokens
import Mathlib.Data.List.Induction

namespace FrontEnd

open Recognizer (lineFeed)

/-- A text is some whole lines, each with its line feed, and then a line under way. -/
structure Line (text line : List UInt8) : Prop where
  exists_lines : ∃ lines, text = lines ++ line ∧ (lines = [] ∨ lines.getLast? = some lineFeed)
  unbroken : lineFeed ∉ line

namespace Line

theorem nil : Line [] [] where
  exists_lines := ⟨[], rfl, .inl rfl⟩
  unbroken := List.not_mem_nil

theorem broken (text : List UInt8) : Line (text ++ [lineFeed]) [] where
  exists_lines := ⟨text ++ [lineFeed], (List.append_nil _).symm, .inr List.getLast?_concat⟩
  unbroken := List.not_mem_nil

theorem concat {text line : List UInt8} {byte : UInt8} (h : Line text line)
    (hbyte : byte ≠ lineFeed) : Line (text ++ [byte]) (line ++ [byte]) where
  exists_lines := by
    obtain ⟨lines, htext, hlast⟩ := h.exists_lines
    exact ⟨lines, by rw [htext, List.append_assoc], hlast⟩
  unbroken := by
    intro hmem
    rcases List.mem_append.1 hmem with hline | hlast
    · exact h.unbroken hline
    · exact hbyte (List.mem_singleton.1 hlast).symm

end Line

theorem Position.exists_line (before : List UInt8) :
    ∃ line, Line before line ∧ (after before).column = 1 + line.length := by
  induction before using List.reverseRecOn with
  | nil => exact ⟨[], .nil, rfl⟩
  | append_singleton before byte ih =>
    by_cases hbyte : byte = lineFeed
    · rw [hbyte, after_lineFeed]
      exact ⟨[], .broken before, rfl⟩
    · obtain ⟨line, hline, hcolumn⟩ := ih
      refine ⟨line ++ [byte], hline.concat hbyte, ?_⟩
      rw [after_of_ne before hbyte, List.length_append, hcolumn]
      rfl

/-- A token's row counts the line feeds before it, and its column the bytes since the last one; it
does not matter what those bytes were read as. -/
theorem Buffer.tokens_rows_columns (id : Nat) (text : List UInt8)
    (h : text.length ≤ Offset.bound - 2) :
    ∃ tokens, (ofBytes id text).tokens = .ok tokens ∧ ∀ t ∈ tokens,
      t.span.start < text.length ∧
      t.row = 1 + (text.take t.span.start).count lineFeed ∧
      ∃ line, Line (text.take t.span.start) line ∧ t.column = 1 + line.length := by
  obtain ⟨tokens, htokens, hcovers⟩ := exists_tokens_of_text id h
  refine ⟨tokens, htokens, ?_⟩
  intro t ht
  have hposition := hcovers.position_eq t ht
  obtain ⟨hlt, hle⟩ := hcovers.bounds ht
  obtain ⟨line, hline, hcolumn⟩ := Position.exists_line (text.take t.span.start)
  refine ⟨Nat.lt_of_lt_of_le hlt hle, ?_, line, hline, ?_⟩
  · rw [Token.row, hposition]
    exact Nat.add_comm _ _
  · rw [Token.column, hposition, hcolumn]

def brokenText : List UInt8 := bytesOf "a/*\n*/'\n\r' \n b"

theorem Buffer.tokens_rows_columns_of_brokenText :
    brokenText.length ≤ Offset.bound - 2 ∧
    ∃ tokens, (ofBytes 0 brokenText).tokens = .ok tokens ∧
      tokens.map (fun t => (t.row, t.column)) = [(1, 1), (2, 3), (3, 3), (4, 2)] ∧
      ∀ t ∈ tokens, t.row = 1 + (brokenText.take t.span.start).count lineFeed ∧
        ∃ line, Line (brokenText.take t.span.start) line ∧ t.column = 1 + line.length := by
  have hlength : brokenText.length ≤ Offset.bound - 2 := by decide
  obtain ⟨tokens, htokens, hplaces⟩ := tokens_rows_columns 0 brokenText hlength
  have hpairs : (ofBytes 0 brokenText).tokens.map (·.map fun t => (t.row, t.column)) =
      .ok [(1, 1), (2, 3), (3, 3), (4, 2)] := Fault.toOption_eq_some (by decide +kernel)
  rw [htokens] at hpairs
  injection hpairs with hpairs
  exact ⟨hlength, tokens, htokens, hpairs, fun t ht => (hplaces t ht).2⟩

end FrontEnd
