import FrontEnd.Proofs.Engine.Protocol
import FrontEnd.Proofs.Lexeme.Tokens
import Mathlib.Data.List.TakeWhile

namespace FrontEnd

open Engine (Config Focus KeepsOr)
open Recognizer (fresh lineFeed)
open Lexeme (cut spans)

theorem Position.step_of_not_fits {before : List UInt8} {byte : UInt8} (hbefore : Fits before)
    (h : ¬Fits (before ++ [byte])) : (after before).step byte = .error .overflow := by
  by_cases hbyte : byte = lineFeed
  · subst hbyte
    rw [Fits, after_lineFeed] at h
    have hrow : Offset.bound ≤ (after before).row + 1 :=
      Nat.le_of_not_lt fun hlt => h ⟨hlt, show 1 < Offset.bound by decide⟩
    rw [step_lineFeed, Offset.add_eq_error_iff.2 ⟨hrow, rfl⟩]
    rfl
  · rw [Fits, after_of_ne before hbyte] at h
    have hcolumn : Offset.bound ≤ (after before).column + 1 :=
      Nat.le_of_not_lt fun hlt => h ⟨hbefore.1, hlt⟩
    rw [step_of_ne _ hbyte, Offset.add_eq_error_iff.2 ⟨hcolumn, rfl⟩]
    rfl

namespace Scanner

variable {s : Scanner}

theorem Placed.advance_overflow (h : s.Placed)
    (hfits : ¬Position.Fits (s.source.bytes.take (s.pos + 1))) (hlt : s.pos < s.source.length) :
    s.advance = .error .overflow := by
  obtain ⟨byte, hbyte, _⟩ := Buffer.drop_bytes_of_lt hlt
  rw [Buffer.take_bytes_succ hbyte] at hfits
  have hstep := Position.step_of_not_fits (fits_of_lt hlt) hfits
  rw [← h.position_eq] at hstep
  rw [Scanner.advance, if_neg (by simpa [atEnd] using hlt), current_eq hbyte]
  simp only [bind, Except.bind, hstep]

/-- The operators read so far end where what was looked at after them has offsets. -/
def OperatorsFit (s : Scanner) : Prop :=
  ∀ t ∈ s.emitted, t.kind = .operator → t.span.stop + 1 < Offset.bound

end Scanner

namespace Recognizer

variable {r : Recognizer} {s : Scanner} {active grows : Bool}

theorem growth_overflow (h : Offset.bound ≤ s.pos + 2) : growth s = .error .overflow := by
  rw [growth, Scanner.lexemeWithNext, Offset.add_eq_error_iff.2 ⟨h, rfl⟩]
  rfl

theorem enter_overflow (h : Offset.bound ≤ s.pos + 2) :
    (operator active grows).enter s = .error .overflow := by
  have hgrowth : growth s.mark = .error .overflow := growth_overflow h
  simp only [enter, hgrowth]
  rfl

theorem stay_overflow (h : Offset.bound ≤ s.pos + 2) :
    (operator active grows).stay s = .error .overflow := by
  simp only [stay, growth_overflow h]
  rfl

theorem eq_of_stay_operator {q : Recognizer} {t : Scanner}
    (h : (operator active grows).stay s = .ok (q, t)) : t = s := by
  obtain ⟨_, _, h⟩ := Fault.bind_eq_ok.1 h
  cases h
  rfl

theorem exists_operator (hfresh : r.atRest ∈ fresh) (hkind : r.kind? = some .operator) :
    ∃ active grows, r = operator active grows := by
  have honly : ∀ q ∈ fresh, q.kind? = some .operator → q = operator false false := by decide
  have hrest := honly _ hfresh (by rw [kind?_atRest, hkind])
  cases r with
  | operator active grows => exact ⟨active, grows, rfl⟩
  | _ => cases hrest

@[simp] theorem pos_entered (r : Recognizer) (s : Scanner) : (r.entered s).pos = s.pos := by
  unfold entered
  cases r.kind? <;> rfl

@[simp] theorem emitted_entered (r : Recognizer) (s : Scanner) :
    (r.entered s).emitted = s.emitted := by
  unfold entered
  cases r.kind? <;> rfl

theorem operatorsFit_left (hs : s.OperatorsFit) (hle : s.pos ≤ s.source.length)
    (hend : r.kind? = some .operator → s.pos + 1 < Offset.bound) :
    (r.left s hle).OperatorsFit := by
  unfold left
  cases hkind : r.kind? with
  | none => exact hs
  | some kind =>
    intro t ht hoperator
    cases ht with
    | head =>
      apply hend
      rw [hkind]
      exact congrArg some hoperator
    | tail _ ht => exact hs t ht hoperator

end Recognizer

namespace Lexeme

/-- What a run that got here has shown of its counts: the operators read fit, the one under way has
been looked after, and there is a position past the lexeme that ends here. -/
def Counted (source : Buffer) : Config Scanner Recognizer → Prop
  | .running .advancing f s =>
    s.OperatorsFit ∧ (f.inHand.kind? = some .operator → s.pos + 2 < Offset.bound)
  | .running (.leaving _) f s =>
    s.OperatorsFit ∧ Position.Fits (source.bytes.take s.pos) ∧
      (f.inHand.kind? = some .operator → s.pos + 1 < Offset.bound)
  | .reached _ s => s.OperatorsFit ∧ Position.Fits source.bytes
  | c => c.state.OperatorsFit

variable {source : Buffer} {f : Focus Recognizer} {s : Scanner} {byte : UInt8} {rest : List UInt8}
  {start : Nat} {phase : Engine.Phase}

theorem counted_searchFrom {before after : List Recognizer} (h : s.OperatorsFit) :
    Counted source (Engine.searchFrom before after s) := by
  cases after <;> exact h

def ProceedsOr (source : Buffer) (phase : Engine.Phase) (f : Focus Recognizer) (s : Scanner) :
    Prop :=
  (∃ call next, Engine.step Recognizer.hooks Scanner.atEnd phase f s = .ok (call, next) ∧
    (Standing source next ∧ Counted source next) ∧
    callsLeft source next < callsLeft source (.running phase f s)) ∨
  ∃ e, Engine.step Recognizer.hooks Scanner.atEnd phase f s = .error e ∧ e = .overflow ∧
    0 < callsLeft source (.running phase f s)

theorem ProceedsOr.of_overflow (hlt : s.pos < source.length) (hphase : phase ≠ .asking)
    (hstep : Engine.step Recognizer.hooks Scanner.atEnd phase f s = .error .overflow) :
    ProceedsOr source phase f s := by
  refine .inr ⟨.overflow, hstep, rfl, ?_⟩
  cases phase with
  | asking => exact absurd rfl hphase
  | _ =>
    simp only [callsLeft]
    omega

theorem Proceeds.counted (h : Proceeds source phase f s)
    (hcounted : ∀ call next, Engine.step Recognizer.hooks Scanner.atEnd phase f s =
      .ok (call, next) → Counted source next) : ProceedsOr source phase f s := by
  obtain ⟨call, next, hstep, hstanding, hcost⟩ := h
  exact .inl ⟨call, next, hstep, ⟨hstanding, hcounted call next hstep⟩, hcost⟩

theorem Searching.mem_fresh (h : Searching source f s byte rest) : f.inHand.atRest ∈ fresh := by
  rw [h.atRest, ← h.patterns_eq, Focus.patterns, List.reverseAux_eq]
  exact List.mem_append_right _ List.mem_cons_self

theorem Underway.mem_fresh (h : Underway source f s byte rest start) :
    f.inHand.atRest ∈ fresh := by
  rw [← h.patterns_eq, Focus.patterns, List.reverseAux_eq]
  exact List.mem_append_right _ List.mem_cons_self

theorem Searching.asking_counted (h : Searching source f s byte rest) (hs : s.OperatorsFit) :
    ProceedsOr source .asking f s := by
  apply h.asking.counted
  intro call next hstep
  cases Engine.stepped_of_step hstep with
  | accepted p => exact hs
  | refused p => exact counted_searchFrom hs

theorem Searching.entering_counted (h : Searching source f s byte rest)
    (hacc : f.inHand.accepts byte rest = true) (hs : s.OperatorsFit) :
    ProceedsOr source .entering f s := by
  by_cases hahead : f.inHand.kind? = some .operator → s.pos + 2 < Offset.bound
  · apply (h.entering hahead hacc).counted
    intro call next hstep
    obtain ⟨q, henter, hrest, _⟩ := Recognizer.enter_eq hahead
      (by rw [h.emitted.source_eq]; exact h.text_eq) hacc h.atRest
    have hkind : q.kind? = f.inHand.kind? := by rw [← Recognizer.kind?_atRest, hrest]
    simp only [Engine.step, Recognizer.hooks, henter] at hstep
    cases hstep
    constructor
    · intro t ht
      rw [Recognizer.emitted_entered] at ht
      exact hs t ht
    · intro hq
      rw [Recognizer.pos_entered]
      exact hahead (hkind.symm.trans hq)
  · obtain ⟨hkind, hge⟩ := Classical.not_imp.1 hahead
    obtain ⟨active, grows, hoperator⟩ := Recognizer.exists_operator h.mem_fresh hkind
    apply ProceedsOr.of_overflow h.pos_lt (by decide)
    simp only [Engine.step, Recognizer.hooks, hoperator,
      Recognizer.enter_overflow (Nat.le_of_not_lt hge)]

theorem Underway.advancing_counted {done : Nat} (h : Underway source f s byte rest start)
    (hpos : s.pos = start + done) (hdone : done ≤ f.inHand.extent byte rest)
    (hholds : f.inHand.Holds byte rest start done) (hs : s.OperatorsFit)
    (hahead : f.inHand.kind? = some .operator → s.pos + 2 < Offset.bound) :
    ProceedsOr source .advancing f s := by
  have hsource := h.emitted.source_eq
  have hlt := h.pos_lt hpos hdone
  by_cases hfits : Position.Fits (source.bytes.take (s.pos + 1))
  · apply (h.advancing hfits hpos hdone hholds).counted
    intro call next hstep
    have hadvance := h.placed.advance (by rw [hsource]; exact hfits) (by rw [hsource]; exact hlt)
    simp only [Engine.step, Recognizer.hooks, hadvance] at hstep
    cases hstep
    cases (s.moved (s.pos + 1)).atEnd with
    | true => exact ⟨hs, hfits, fun hkind => hahead hkind⟩
    | false => exact hs
  · have hadvance := h.placed.advance_overflow (by rw [hsource]; exact hfits)
      (by rw [hsource]; exact hlt)
    apply ProceedsOr.of_overflow hlt (by decide)
    simp only [Engine.step, Recognizer.hooks, hadvance]

theorem Underway.testing_counted {done : Nat} (h : Underway source f s byte rest start)
    (hpos : s.pos = start + 1 + done) (hlt : s.pos < source.length)
    (hdone : done ≤ f.inHand.extent byte rest) (hholds : f.inHand.Holds byte rest start done)
    (hs : s.OperatorsFit) : ProceedsOr source .testing f s := by
  apply (h.testing hpos hlt hdone hholds).counted
  intro call next hstep
  cases Engine.stepped_of_step hstep with
  | kept p => exact hs
  | dropped p =>
    have hbound := source.length_lt
    exact ⟨hs, Scanner.fits_of_lt (s := .ofBuffer source) hlt, fun _ => by omega⟩

theorem Underway.staying_counted {done : Nat} (h : Underway source f s byte rest start)
    (hpos : s.pos = start + 1 + done) (hlt : s.pos < source.length)
    (hmore : done < f.inHand.extent byte rest) (htested : f.inHand.Tested byte rest start done)
    (hs : s.OperatorsFit) : ProceedsOr source .staying f s := by
  have hsource := h.emitted.source_eq
  by_cases hahead : f.inHand.kind? = some .operator → s.pos + 2 < Offset.bound
  · apply (h.staying hahead hpos hlt hmore htested).counted
    intro call next hstep
    obtain ⟨q, n, hstay, hrest, _⟩ := Recognizer.stay_tested hahead h.placed
      (by rw [hsource]; exact h.text_eq) (fun hkind => (h.marked hkind).1) hpos
      (by rw [hsource]; exact hlt) h.accepts hmore htested
    have hkind : q.kind? = f.inHand.kind? := by
      rw [← Recognizer.kind?_atRest, hrest, Recognizer.kind?_atRest]
    simp only [Engine.step, Recognizer.hooks, hstay] at hstep
    cases hstep
    refine ⟨hs, ?_⟩
    intro hq
    -- Only a literal moves while it stays: the operator has looked past the byte it is on.
    have hsame := hkind.symm.trans hq
    obtain ⟨active, grows, hoperator⟩ := Recognizer.exists_operator h.mem_fresh hsame
    rw [hoperator] at hstay
    rw [Recognizer.eq_of_stay_operator hstay]
    exact hahead hsame
  · obtain ⟨hkind, hge⟩ := Classical.not_imp.1 hahead
    obtain ⟨active, grows, hoperator⟩ := Recognizer.exists_operator h.mem_fresh hkind
    apply ProceedsOr.of_overflow hlt (by decide)
    simp only [Engine.step, Recognizer.hooks, hoperator,
      Recognizer.stay_overflow (Nat.le_of_not_lt hge)]

theorem Underway.leaving_counted {last : Bool} (h : Underway source f s byte rest start)
    (hpos : s.pos = start + 1 + f.inHand.extent byte rest) (hlast : last = s.atEnd)
    (hs : s.OperatorsFit) (hfits : Position.Fits (source.bytes.take s.pos))
    (hend : f.inHand.kind? = some .operator → s.pos + 1 < Offset.bound) :
    ProceedsOr source (.leaving last) f s := by
  have hsource := h.emitted.source_eq
  have hle := h.placed.pos_le
  apply (h.leaving hpos hlast).counted
  intro call next hstep
  have hleft := Recognizer.operatorsFit_left hs hle hend
  simp only [Engine.step, Recognizer.hooks, Recognizer.leave_eq f.inHand hle] at hstep
  cases hstep
  cases last with
  | false => exact counted_searchFrom hleft
  | true =>
    have hall : source.bytes.length ≤ s.pos := by
      rw [Buffer.length_bytes, ← hsource]
      exact of_decide_eq_true hlast.symm
    rw [List.take_of_length_le hall] at hfits
    exact ⟨hleft, hfits⟩

/-- A call fails only by a count that leaves its range. -/
theorem keepsOr_counted (source : Buffer) :
    KeepsOr (· = Fault.overflow) Recognizer.hooks Scanner.atEnd
      (fun c => Standing source c ∧ Counted source c) (callsLeft source) := by
  intro phase f s h
  obtain ⟨h, hcounted⟩ := h
  cases phase with
  | asking =>
    obtain ⟨byte, rest, h⟩ := h
    exact h.asking_counted hcounted
  | entering =>
    obtain ⟨byte, rest, h, hacc⟩ := h
    exact h.entering_counted hacc hcounted
  | advancing =>
    obtain ⟨byte, rest, start, done, h, hpos, hdone, hholds⟩ := h
    exact h.advancing_counted hpos hdone hholds hcounted.1 hcounted.2
  | testing =>
    obtain ⟨byte, rest, start, done, h, hpos, hlt, hdone, hholds⟩ := h
    exact h.testing_counted hpos hlt hdone hholds hcounted
  | staying =>
    obtain ⟨byte, rest, start, done, h, hpos, hlt, hmore, htested⟩ := h
    exact h.staying_counted hpos hlt hmore htested hcounted
  | leaving last =>
    obtain ⟨byte, rest, start, h, hpos, hlast⟩ := h
    obtain ⟨hs, hfits, hend⟩ := hcounted
    exact h.leaving_counted hpos hlast hs hfits hend

theorem fits_of_reached {patterns : List Recognizer}
    (h : Standing source (.reached patterns s)) (hcounted : Counted source (.reached patterns s)) :
    source.Fits := by
  obtain ⟨_, hemitted, hpos⟩ := h
  obtain ⟨hs, hfits⟩ := hcounted
  have hspans := hemitted.spans_eq
  rw [hpos, Buffer.drop_bytes_eq_nil (Nat.le_refl _), cut, spans, List.append_nil] at hspans
  refine ⟨hfits, ?_⟩
  intro span hspan
  rw [← hspans] at hspan
  obtain ⟨t, ht, heq⟩ := List.mem_map.1 hspan
  injection heq with hkind hsame
  rw [← hsame]
  exact hs t (List.mem_reverse.1 ht) hkind

theorem counted_start (source : Buffer) :
    Counted source (Engine.start Scanner.atEnd fresh (.ofBuffer source)) := by
  have hnone : (Scanner.ofBuffer source).OperatorsFit := fun t ht => nomatch ht
  unfold Engine.start
  split
  · next hend =>
    have hempty : source.length = 0 := Nat.le_zero.1 (of_decide_eq_true hend)
    refine ⟨hnone, Position.fits_of_length ?_⟩
    rw [Buffer.length_bytes, hempty]
    decide
  · exact counted_searchFrom hnone

/-- What a text of the greatest length needs for its tokens to be counted: a line feed, for the
columns; a byte that is none, for the rows; and no operator to look past at its end. -/
structure Countable (text : List UInt8) : Prop where
  lineFeed_mem : lineFeed ∈ text
  exists_other : ∃ byte ∈ text, byte ≠ lineFeed
  operator_not_mem : ∀ start, (Kind.operator, ⟨start, text.length⟩) ∉ spans 0 (cut text)

theorem runLength_eq_length_iff {test : UInt8 → Bool} {text : List UInt8} :
    runLength test text = text.length ↔ ∀ byte ∈ text, test byte := by
  rw [← List.takeWhile_eq_self_iff]
  constructor
  · exact (List.takeWhile_prefix test).eq_of_length
  · exact congrArg List.length

theorem operator_not_mem_of_blank {text : List UInt8}
    (h : ∀ byte ∈ text, ByteClass.ofByte byte = .whitespace) (span : Span) :
    (Kind.operator, span) ∉ spans 0 (cut text) := by
  intro hspan
  obtain ⟨byte, rest, hdrop, hkind, _⟩ := head_of_mem_spans (List.drop_zero (l := text)) hspan
  have hmem : byte ∈ text := List.mem_of_mem_drop (hdrop ▸ List.mem_cons_self)
  rcases class_of_kind hkind with ⟨hne, _⟩ | ⟨hne, _⟩ | ⟨_, _, hclass, _⟩
  · cases hne
  · cases hne
  · exact hclass (h byte hmem)

end Lexeme

namespace Position

variable {before : List UInt8}

theorem row_lt_iff_of_longest (h : before.length + 1 = Offset.bound) :
    (after before).row < Offset.bound ↔ ∃ byte ∈ before, byte ≠ lineFeed := by
  have hall : before.count lineFeed = before.length ↔ ¬∃ byte ∈ before, byte ≠ lineFeed := by
    rw [List.count_eq_length, not_exists]
    constructor
    · rintro hsame byte ⟨hbyte, hne⟩
      exact hne (hsame byte hbyte).symm
    · intro hnone byte hbyte
      exact Decidable.not_not.1 fun hne => hnone byte ⟨hbyte, Ne.symm hne⟩
  have hle : before.count lineFeed ≤ before.length := List.count_le_length
  have hrow : (after before).row = before.count lineFeed + 1 := rfl
  rw [← not_iff_not, ← hall, hrow]
  omega

theorem column_lt_iff_of_longest (h : before.length + 1 = Offset.bound) :
    (after before).column < Offset.bound ↔ lineFeed ∈ before := by
  have hall : Lexeme.runLength (· != lineFeed) before.reverse = before.length ↔
      lineFeed ∉ before := by
    rw [← List.length_reverse, Lexeme.runLength_eq_length_iff]
    constructor
    · intro hnone hmem
      simpa using hnone lineFeed (List.mem_reverse.2 hmem)
    · intro hnot byte hbyte
      refine bne_iff_ne.2 ?_
      rintro rfl
      exact hnot (List.mem_reverse.1 hbyte)
  have hle := column_after_le before
  have hcolumn : (after before).column =
    Lexeme.runLength (· != lineFeed) before.reverse + 1 := rfl
  rw [← not_iff_not, ← hall]
  omega

end Position

namespace Buffer

variable {source : Buffer}

theorem fits_iff_of_longest (h : source.length + 1 = Offset.bound) :
    source.Fits ↔ Lexeme.Countable source.bytes := by
  have hlength : source.bytes.length + 1 = Offset.bound := by rw [length_bytes, h]
  have hrow := Position.row_lt_iff_of_longest hlength
  have hcolumn := Position.column_lt_iff_of_longest hlength
  constructor
  · intro hfits
    refine ⟨hcolumn.1 hfits.position.2, hrow.1 hfits.position.1, ?_⟩
    intro start hspan
    have hstop := hfits.operators _ hspan
    dsimp only at hstop
    omega
  · intro hcountable
    refine ⟨⟨hrow.2 hcountable.exists_other, hcolumn.2 hcountable.lineFeed_mem⟩, ?_⟩
    rintro ⟨start, stop⟩ hspan
    obtain ⟨_, _, hle⟩ := Lexeme.bounds_of_mem_spans hspan
    rw [Lexeme.flatMap_cut] at hle
    dsimp only at hle ⊢
    have hne : stop ≠ source.bytes.length := by
      rintro rfl
      exact hcountable.operator_not_mem start hspan
    omega

/-- If some count would leave its range, reading the buffer fails on it. -/
theorem tokens_of_not_fits (h : ¬source.Fits) : source.tokens = .error .overflow := by
  obtain ⟨hstart, hfuel⟩ := Lexeme.standing_start source
  rcases (Lexeme.keepsOr_counted source).run ⟨hstart, Lexeme.counted_start source⟩ hfuel with
    ⟨c, _, hc, hended⟩ | ⟨_, hrun, rfl⟩
  · cases c with
    | running phase f s => exact hended.elim
    | unmatched patterns s => exact hc.1.elim
    | reached patterns s => exact absurd (Lexeme.fits_of_reached hc.1 hc.2) h
  · simp only [tokens, Lexeme.scan, hrun]
    rfl

theorem length_ofBytes_of_ge (id : Nat) {text : List UInt8} (h : Offset.bound - 1 ≤ text.length) :
    (ofBytes id text).length + 1 = Offset.bound := by
  rw [length_ofBytes, Nat.min_eq_right h]
  rfl

theorem tokens_of_longest_line (id : Nat) {text : List UInt8} (h : Offset.bound - 1 ≤ text.length)
    (hline : lineFeed ∉ text) : (ofBytes id text).tokens = .error .overflow := by
  apply tokens_of_not_fits
  rw [fits_iff_of_longest (length_ofBytes_of_ge id h), bytes_ofBytes]
  intro hcountable
  exact hline (List.mem_of_mem_take hcountable.lineFeed_mem)

/-- Texts of the greatest length, and the longer ones that are cut down to it, are not all read: the
columns of one without a line feed run out, so do the rows of one of line feeds only, and there is
no offset for what is looked at after an operator at the end. All others are read. -/
theorem tokens_of_longest (id : Nat) (text : List UInt8) (h : Offset.bound - 1 ≤ text.length) :
    let kept := text.take (Offset.bound - 1)
    (ofBytes id text).bytes = kept ∧
    (Lexeme.Countable kept →
      ∃ tokens, (ofBytes id text).tokens = .ok tokens ∧ Lexeme.Covers kept tokens) ∧
    (¬Lexeme.Countable kept → (ofBytes id text).tokens = .error .overflow) := by
  intro kept
  have hbytes : (ofBytes id text).bytes = kept := bytes_ofBytes id text
  have hfits := fits_iff_of_longest (length_ofBytes_of_ge id h)
  rw [hbytes] at hfits
  refine ⟨hbytes, ?_, ?_⟩
  · intro hcountable
    obtain ⟨tokens, htokens, hcovers⟩ := exists_tokens (hfits.2 hcountable)
    rw [hbytes] at hcovers
    exact ⟨tokens, htokens, hcovers⟩
  · intro hnot
    exact tokens_of_not_fits fun hfit => hnot (hfits.1 hfit)

def spaces (n : Nat) : List UInt8 := List.replicate n 0x20

theorem length_spaces (n : Nat) : (spaces n).length = n := List.length_replicate

theorem eq_of_mem_spaces {n : Nat} {byte : UInt8} (h : byte ∈ spaces n) : byte = 0x20 :=
  List.eq_of_mem_replicate h

theorem tokens_of_longest_spaces :
    Offset.bound - 1 ≤ (spaces (Offset.bound - 1)).length ∧
    (ofBytes 0 (spaces (Offset.bound - 1))).tokens = .error .overflow := by
  have hlength := Nat.le_of_eq (length_spaces (Offset.bound - 1)).symm
  refine ⟨hlength, tokens_of_longest_line 0 hlength ?_⟩
  intro hmem
  exact absurd (eq_of_mem_spaces hmem) (by decide)

theorem tokens_of_longest_lines :
    Offset.bound - 1 ≤ (lineFeed :: spaces (Offset.bound - 2)).length ∧
    ∃ tokens, (ofBytes 0 (lineFeed :: spaces (Offset.bound - 2))).tokens = .ok tokens ∧
      Lexeme.Covers (lineFeed :: spaces (Offset.bound - 2)) tokens := by
  have hlength : (lineFeed :: spaces (Offset.bound - 2)).length = Offset.bound - 1 := by
    rw [List.length_cons, length_spaces]
    rfl
  have hle := Nat.le_of_eq hlength.symm
  have hcountable : Lexeme.Countable (lineFeed :: spaces (Offset.bound - 2)) := by
    refine ⟨List.mem_cons_self, ⟨0x20, ?_, by decide⟩, ?_⟩
    · exact List.mem_cons_of_mem _ (List.mem_replicate.2 ⟨by decide, rfl⟩)
    · intro start
      apply Lexeme.operator_not_mem_of_blank
      intro byte hbyte
      rcases List.mem_cons.1 hbyte with rfl | hspace
      · rfl
      · rw [eq_of_mem_spaces hspace]
        rfl
  obtain ⟨_, hread, _⟩ := tokens_of_longest 0 _ hle
  rw [List.take_of_length_le (Nat.le_of_eq hlength)] at hread
  exact ⟨hle, hread hcountable⟩

end Buffer

end FrontEnd
