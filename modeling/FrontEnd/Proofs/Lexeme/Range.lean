import FrontEnd.Proofs.Lexeme.Tokens

namespace FrontEnd

open Engine (Config Focus)
open Recognizer (fresh)

def Recognizer.stop? : Recognizer → Option Nat
  | blockComment stop => stop
  | lineComment stop => stop
  | _ => none

namespace Lexeme

/-- The scanner is on a byte of the text, and there are offsets for that byte and the two after it,
and rows and columns to go on to. -/
structure Readable (source : Buffer) (s : Scanner) : Prop where
  source_eq : s.source = source
  pos_lt : s.pos < source.length
  ahead_lt : s.pos + 2 < Offset.bound
  row_lt : s.position.row + 1 < Offset.bound
  column_lt : s.position.column + 1 < Offset.bound

/-- The lexeme under way begins where it may be cut out from, and a comment ends in the text. -/
structure Enclosed (source : Buffer) (r : Recognizer) (s : Scanner) : Prop where
  readable : Readable source s
  mark_le : r.kind?.isSome → s.markStart ≤ s.pos
  stop_le : ∀ stop, r.stop? = some stop → stop ≤ source.length

/-- What the next call of a run needs to find in range. -/
def InRange (source : Buffer) : Config Scanner Recognizer → Prop
  | .running .asking _ s => Readable source s
  | .running .entering _ s => Readable source s
  | .running (.leaving _) f s =>
    s.source = source ∧ s.pos ≤ source.length ∧ (f.inHand.kind?.isSome → s.markStart < s.pos)
  | .running _ f s => Enclosed source f.inHand s
  | .reached _ s => s.source = source ∧ s.pos = source.length
  | .unmatched _ _ => False

variable {source : Buffer} {f : Focus Recognizer} {s : Scanner} {byte : UInt8} {rest : List UInt8}
  {start done : Nat}

theorem readable_of_placed (hb : source.length + 1 < Offset.bound) (hplaced : s.Placed)
    (hsource : s.source = source) (hlt : s.pos < source.length) : Readable source s := by
  have hlength := List.length_take_le s.pos s.source.bytes
  have hrow := Position.row_after_le (s.source.bytes.take s.pos)
  have hcolumn := Position.column_after_le (s.source.bytes.take s.pos)
  rw [← hplaced.position_eq] at hrow hcolumn
  exact ⟨hsource, hlt, by omega, by omega, by omega⟩

theorem stop_eq {r : Recognizer} {stop : Nat}
    (h : r.Holds byte rest start done ∨ r.Tested byte rest start done)
    (hstop : r.stop? = some stop) : stop = start + 1 + r.extent byte rest := by
  cases r with
  | blockComment found =>
    cases hstop
    exact Option.some.inj (h.elim id id)
  | lineComment found =>
    cases hstop
    exact Option.some.inj (h.elim id id)
  | _ => cases hstop

theorem Underway.enclosed (hb : source.length + 1 < Offset.bound)
    (h : Underway source f s byte rest start) (hlt : s.pos < source.length) (hle : start ≤ s.pos)
    (hstop : ∀ stop, f.inHand.stop? = some stop → stop = start + 1 + f.inHand.extent byte rest) :
    Enclosed source f.inHand s where
  readable := readable_of_placed hb h.placed h.emitted.source_eq hlt
  mark_le := by
    intro hkind
    rw [(h.marked hkind).1]
    exact hle
  stop_le := by
    intro stop hfound
    have hlen := h.length_eq
    have hext := h.extent_le
    rw [hstop stop hfound]
    omega

theorem Standing.inRange (hb : source.length + 1 < Offset.bound) {c : Config Scanner Recognizer}
    (h : Standing source c) : InRange source c := by
  cases c with
  | reached patterns s =>
    obtain ⟨_, hemitted, hpos⟩ := h
    exact ⟨hemitted.source_eq, hpos⟩
  | unmatched patterns s => exact h
  | running phase f s =>
    cases phase with
    | asking =>
      obtain ⟨byte, rest, h⟩ := h
      exact readable_of_placed hb h.placed h.emitted.source_eq h.pos_lt
    | entering =>
      obtain ⟨byte, rest, h, _⟩ := h
      exact readable_of_placed hb h.placed h.emitted.source_eq h.pos_lt
    | advancing =>
      obtain ⟨byte, rest, start, done, h, hpos, hdone, hholds⟩ := h
      exact h.enclosed hb (h.pos_lt hpos hdone) (by omega) fun stop => stop_eq (.inl hholds)
    | testing =>
      obtain ⟨byte, rest, start, done, h, hpos, hlt, _, hholds⟩ := h
      exact h.enclosed hb hlt (by omega) fun stop => stop_eq (.inl hholds)
    | staying =>
      obtain ⟨byte, rest, start, done, h, hpos, hlt, _, htested⟩ := h
      exact h.enclosed hb hlt (by omega) fun stop => stop_eq (.inr htested)
    | leaving last =>
      obtain ⟨byte, rest, start, h, hpos, _⟩ := h
      have hsource := h.emitted.source_eq
      refine ⟨hsource, ?_, ?_⟩
      · rw [← hsource]
        exact h.placed.pos_le
      · intro hkind
        rw [(h.marked hkind).1]
        omega

end Lexeme

/-- Every read, cut, sum, token and step of the scanner is checked where it is made, and one out of
range is a fault: a run makes none of them, after however many calls, and ends at the end of the
text. -/
theorem Buffer.tokens_never_fault (id : Nat) (text : List UInt8)
    (h : text.length ≤ Offset.bound - 2) :
    let source := ofBytes id text
    (∀ calls, ∃ c, Engine.run Recognizer.hooks Scanner.atEnd calls
      (Engine.start Scanner.atEnd fresh (.ofBuffer source)) = .ok c ∧ Lexeme.InRange source c) ∧
    ∃ s, Lexeme.scan fresh source = .ok (fresh, s) ∧ s.pos = source.length ∧
      source.tokens = .ok s.tokens ∧
      ∀ t ∈ s.tokens, t.span.start < t.span.stop ∧ t.span.stop ≤ source.length := by
  intro source
  have hb := length_ofBytes_of_le id h
  have hfits := fits_of_length hb
  constructor
  · intro calls
    obtain ⟨c, hrun, hstanding⟩ :=
      (Lexeme.keeps_standing hfits).run_after (Lexeme.standing_start source).1 calls
    exact ⟨c, hrun, hstanding.inRange hb⟩
  · obtain ⟨s, hscan, hpos, _⟩ := Lexeme.scan_fresh hfits
    obtain ⟨tokens, htokens, hcovers⟩ := exists_tokens_of_text id h
    have hsame : source.tokens = .ok s.tokens := by
      rw [Buffer.tokens, hscan]
      rfl
    cases hsame.symm.trans htokens
    refine ⟨s, hscan, hpos, hsame, ?_⟩
    intro t ht
    rw [← length_bytes, bytes_ofBytes_of_le id h]
    exact hcovers.bounds ht

def cutShort : List UInt8 := bytesOf "a<<'\\"

theorem Buffer.tokens_never_fault_of_cutShort :
    cutShort.length ≤ Offset.bound - 2 ∧
    (∃ c, Engine.run Recognizer.hooks Scanner.atEnd 25
      (Engine.start Scanner.atEnd fresh (.ofBuffer (ofBytes 0 cutShort))) = .ok c ∧
        Lexeme.InRange (ofBytes 0 cutShort) c) ∧
    ∃ s, Lexeme.scan fresh (ofBytes 0 cutShort) = .ok (fresh, s) ∧ s.pos = 5 ∧
      s.tokens.map (fun t => (t.kind, t.span)) =
        [(.identifier, ⟨0, 1⟩), (.operator, ⟨1, 3⟩), (.literal, ⟨3, 5⟩)] := by
  have hlength : cutShort.length ≤ Offset.bound - 2 := by decide
  obtain ⟨hruns, s, hscan, hpos, htokens, _⟩ := tokens_never_fault 0 cutShort hlength
  have hspans : (ofBytes 0 cutShort).tokens.map (·.map fun t => (t.kind, t.span)) =
      .ok [(.identifier, ⟨0, 1⟩), (.operator, ⟨1, 3⟩), (.literal, ⟨3, 5⟩)] :=
    Fault.toOption_eq_some (by decide +kernel)
  rw [htokens] at hspans
  injection hspans with hspans
  exact ⟨hlength, hruns 25, s, hscan, hpos, hspans⟩

end FrontEnd
