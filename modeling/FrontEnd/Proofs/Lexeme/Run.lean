import FrontEnd.Proofs.Engine.Invariant
import FrontEnd.Proofs.Lexeme.Recognizer

namespace FrontEnd

open Engine (Config Focus Keeps)
open Recognizer (fresh)
open Lexeme (cut spans)

/-- The counts of a run over a text stay in range: there is a position after its last byte, and no
operator ends so late that what is looked at after it has no offset. -/
structure Buffer.Fits (source : Buffer) : Prop where
  position : Position.Fits source.bytes
  operators : ∀ span, (Kind.operator, span) ∈ spans 0 (cut source.bytes) →
    span.stop + 1 < Offset.bound

theorem Buffer.fits_of_length {source : Buffer} (hb : source.length + 1 < Offset.bound) :
    source.Fits where
  position := by
    apply Position.fits_of_length
    rw [length_bytes]
    exact hb
  operators := by
    intro span hspan
    obtain ⟨_, _, hstop⟩ := Lexeme.bounds_of_mem_spans hspan
    rw [Lexeme.flatMap_cut, length_bytes] at hstop
    dsimp only at hstop
    omega

theorem Buffer.Fits.take {source : Buffer} (hc : source.Fits) {pos : Nat}
    (hpos : pos ≤ source.length) : Position.Fits (source.bytes.take pos) := by
  rcases Nat.lt_or_eq_of_le hpos with hlt | rfl
  · exact Scanner.fits_of_lt (s := .ofBuffer source) hlt
  · rw [← length_bytes, List.take_length]
    exact hc.position

namespace Scanner

/-- The tokens read so far are those of the lexemes that end at or before `start`. -/
structure Emitted (source : Buffer) (s : Scanner) (start : Nat) : Prop where
  source_eq : s.source = source
  spans_eq : s.emitted.reverse.map (fun t => (t.kind, t.span)) ++
    spans start (cut (source.bytes.drop start)) = spans 0 (cut source.bytes)
  placed : ∀ t ∈ s.emitted, t.source = source ∧
    t.position = .after (source.bytes.take t.span.start)

end Scanner

namespace Lexeme

/-- Between two lexemes: all recognizers are at rest, and the one in hand is still to be asked
about the lexeme that begins here. -/
structure Searching (source : Buffer) (f : Focus Recognizer) (s : Scanner) (byte : UInt8)
    (rest : List UInt8) : Prop where
  placed : s.Placed
  emitted : s.Emitted source s.pos
  patterns_eq : f.patterns = fresh
  text_eq : source.bytes.drop s.pos = byte :: rest
  search_eq : (f.inHand :: f.after).find? (Recognizer.accepts byte rest) =
    fresh.find? (Recognizer.accepts byte rest)

/-- Inside a lexeme: the recognizer in hand reads it, and the others are at rest. -/
structure Underway (source : Buffer) (f : Focus Recognizer) (s : Scanner) (byte : UInt8)
    (rest : List UInt8) (start : Nat) : Prop where
  placed : s.Placed
  emitted : s.Emitted source start
  patterns_eq : (f.put f.inHand.atRest).patterns = fresh
  text_eq : source.bytes.drop start = byte :: rest
  accepts : f.inHand.accepts byte rest = true
  extent_eq : Lexeme.extent byte rest = (f.inHand.kind?, f.inHand.extent byte rest)
  marked : f.inHand.kind?.isSome →
    s.markStart = start ∧ s.markPosition = .after (source.bytes.take start)

/-- Where a run over a buffer may stand. -/
def Standing (source : Buffer) : Config Scanner Recognizer → Prop
  | .running .asking f s => ∃ byte rest, Searching source f s byte rest
  | .running .entering f s =>
    ∃ byte rest, Searching source f s byte rest ∧ f.inHand.accepts byte rest = true
  | .running .advancing f s =>
    ∃ byte rest start done, Underway source f s byte rest start ∧ s.pos = start + done ∧
      done ≤ f.inHand.extent byte rest ∧ f.inHand.Holds byte rest start done
  | .running .testing f s =>
    ∃ byte rest start done, Underway source f s byte rest start ∧ s.pos = start + 1 + done ∧
      s.pos < source.length ∧ done ≤ f.inHand.extent byte rest ∧
      f.inHand.Holds byte rest start done
  | .running .staying f s =>
    ∃ byte rest start done, Underway source f s byte rest start ∧ s.pos = start + 1 + done ∧
      s.pos < source.length ∧ done < f.inHand.extent byte rest ∧
      f.inHand.Tested byte rest start done
  | .running (.leaving last) f s =>
    ∃ byte rest start, Underway source f s byte rest start ∧
      s.pos = start + 1 + f.inHand.extent byte rest ∧ last = s.atEnd
  | .reached patterns s => patterns = fresh ∧ s.Emitted source s.pos ∧ s.pos = source.length
  | .unmatched _ _ => False

def callsLeft (source : Buffer) : Config Scanner Recognizer → Nat
  | .running .asking f s => 13 * (source.length - s.pos) - f.index
  | .running .entering _ s => 13 * (source.length - s.pos) - 9
  | .running .advancing _ s => 13 * (source.length - s.pos) - 10
  | .running .testing _ s => 13 * (source.length - s.pos) + 2
  | .running _ _ s => 13 * (source.length - s.pos) + 1
  | _ => 0

variable {source : Buffer} {f : Focus Recognizer} {s : Scanner} {byte : UInt8} {rest : List UInt8}
  {start : Nat}

theorem Searching.pos_lt (h : Searching source f s byte rest) : s.pos < source.length := by
  have := Buffer.length_of_drop_eq h.text_eq
  omega

theorem Searching.index_lt (h : Searching source f s byte rest) : f.index < 9 := by
  have hlen := congrArg List.length h.patterns_eq
  simp only [Focus.patterns, List.reverseAux_eq, List.length_append, List.length_reverse,
    List.length_cons] at hlen
  change _ = 9 at hlen
  rw [Focus.index]
  omega

theorem Searching.atRest (h : Searching source f s byte rest) : f.inHand.atRest = f.inHand := by
  apply Recognizer.atRest_of_mem_fresh
  rw [← h.patterns_eq, Focus.patterns, List.reverseAux_eq]
  exact List.mem_append_right _ List.mem_cons_self

theorem standing_search (hp : s.Placed) (he : s.Emitted source s.pos)
    (hlt : s.pos < source.length) : Standing source (Engine.search fresh s) := by
  obtain ⟨byte, _, hd⟩ := Buffer.drop_bytes_of_lt hlt
  exact ⟨byte, _, hp, he, rfl, hd, rfl⟩

@[simp] theorem callsLeft_search (s : Scanner) :
    callsLeft source (Engine.search fresh s) = 13 * (source.length - s.pos) := rfl

def Proceeds (source : Buffer) (phase : Engine.Phase) (f : Focus Recognizer) (s : Scanner) : Prop :=
  ∃ call next, Engine.step Recognizer.hooks Scanner.atEnd phase f s = .ok (call, next) ∧
    Standing source next ∧ callsLeft source next < callsLeft source (.running phase f s)

theorem Searching.asking (h : Searching source f s byte rest) : Proceeds source .asking f s := by
  have hlt := h.pos_lt
  have hindex := h.index_lt
  have htext := h.text_eq
  rw [← h.emitted.source_eq] at htext
  have hask := Recognizer.ask_atRest h.atRest htext
  cases hacc : f.inHand.accepts byte rest with
  | true =>
    have hstep : Engine.step Recognizer.hooks Scanner.atEnd .asking f s =
        .ok (.ask f.index true, .running .entering f s) := by
      simp only [Engine.step, Recognizer.hooks, hask, hacc]
      rfl
    refine ⟨_, _, hstep, ⟨byte, rest, h, hacc⟩, ?_⟩
    simp only [callsLeft]
    omega
  | false =>
    have hsearch := h.search_eq
    rw [List.find?_cons, hacc] at hsearch
    cases hafter : f.after with
    | nil =>
      obtain ⟨r, hr, _⟩ := Recognizer.find?_fresh byte rest
      rw [hafter, hr] at hsearch
      cases hsearch
    | cons next after =>
      have hstep : Engine.step Recognizer.hooks Scanner.atEnd .asking f s =
          .ok (.ask f.index false, .running .asking ⟨f.inHand :: f.before, next, after⟩ s) := by
        simp only [Engine.step, Recognizer.hooks, hask, hacc, hafter]
        rfl
      have hpatterns : (⟨f.inHand :: f.before, next, after⟩ : Focus Recognizer).patterns =
          fresh := by
        rw [← h.patterns_eq, Focus.patterns, Focus.patterns, hafter]
        rfl
      rw [hafter] at hsearch
      refine ⟨_, _, hstep, ⟨byte, rest, h.placed, h.emitted, hpatterns, h.text_eq, hsearch⟩, ?_⟩
      simp only [callsLeft, Focus.index, List.length_cons] at hindex ⊢
      omega

theorem Underway.put {q : Recognizer} (h : Underway source f s byte rest start)
    (hq : q.atRest = f.inHand.atRest) : Underway source (f.put q) s byte rest start := by
  have hkind : q.kind? = f.inHand.kind? := by
    rw [← Recognizer.kind?_atRest, hq, Recognizer.kind?_atRest]
  have hacc := h.accepts
  have hextent := h.extent_eq
  have hmarked := h.marked
  have hpatterns := h.patterns_eq
  rw [← Recognizer.accepts_atRest, ← hq, Recognizer.accepts_atRest] at hacc
  rw [← hkind, ← Recognizer.extent_eq_of_atRest hq] at hextent
  rw [← hkind] at hmarked
  rw [← hq] at hpatterns
  exact ⟨h.placed, h.emitted, hpatterns, h.text_eq, hacc, hextent, hmarked⟩

theorem Underway.moved {pos : Nat} (h : Underway source f s byte rest start)
    (hpos : pos ≤ source.length) : Underway source f (s.moved pos) byte rest start := by
  have hplaced : (s.moved pos).Placed :=
    Scanner.placed_moved (by rw [h.emitted.source_eq]; exact hpos)
  exact ⟨hplaced, ⟨h.emitted.source_eq, h.emitted.spans_eq, h.emitted.placed⟩, h.patterns_eq,
    h.text_eq, h.accepts, h.extent_eq, h.marked⟩

theorem Searching.underway (h : Searching source f s byte rest)
    (hacc : f.inHand.accepts byte rest = true) :
    Underway source f (f.inHand.entered s) byte rest s.pos := by
  have hextent : Lexeme.extent byte rest = (f.inHand.kind?, f.inHand.extent byte rest) := by
    obtain ⟨r, hr, hextent⟩ := Recognizer.find?_fresh byte rest
    have hsearch := h.search_eq
    rw [List.find?_cons, hacc, hr] at hsearch
    cases hsearch
    exact hextent
  have hpatterns : (f.put f.inHand.atRest).patterns = fresh := by
    rw [h.atRest]
    exact h.patterns_eq
  have hposition : s.position = .after (source.bytes.take s.pos) := by
    rw [h.placed.position_eq, h.emitted.source_eq]
  unfold Recognizer.entered
  cases hkind : f.inHand.kind? with
  | none =>
    refine ⟨h.placed, h.emitted, hpatterns, h.text_eq, hacc, hextent, ?_⟩
    rw [hkind]
    intro hsome
    cases hsome
  | some kind =>
    exact ⟨⟨h.placed.pos_le, h.placed.position_eq⟩,
      ⟨h.emitted.source_eq, h.emitted.spans_eq, h.emitted.placed⟩, hpatterns, h.text_eq, hacc,
      hextent, fun _ => ⟨rfl, hposition⟩⟩

theorem Searching.entering (hahead : f.inHand.kind? = some .operator → s.pos + 2 < Offset.bound)
    (h : Searching source f s byte rest) (hacc : f.inHand.accepts byte rest = true) :
    Proceeds source .entering f s := by
  have hlt := h.pos_lt
  have hsource := h.emitted.source_eq
  obtain ⟨q, henter, hrest, hholds⟩ := Recognizer.enter_eq hahead
    (by rw [hsource]; exact h.text_eq) hacc h.atRest
  have hstep : Engine.step Recognizer.hooks Scanner.atEnd .entering f s =
      .ok (.enter f.index, .running .advancing (f.put q) (f.inHand.entered s)) := by
    simp only [Engine.step, Recognizer.hooks, henter]
  have hunder := (h.underway hacc).put (q := q) (by rw [hrest, h.atRest])
  have hpos : (f.inHand.entered s).pos = s.pos := by
    unfold Recognizer.entered
    cases f.inHand.kind? <;> rfl
  refine ⟨_, _, hstep, ⟨byte, rest, s.pos, 0, hunder, hpos, Nat.zero_le _, hholds⟩, ?_⟩
  simp only [callsLeft, hpos]
  omega

theorem Underway.length_eq (h : Underway source f s byte rest start) :
    start + 1 + rest.length = source.length := Buffer.length_of_drop_eq h.text_eq

theorem Underway.extent_le (h : Underway source f s byte rest start) :
    f.inHand.extent byte rest ≤ rest.length := by
  have hle := Lexeme.extent_le byte rest
  rw [h.extent_eq] at hle
  exact hle

theorem Underway.span_mem {kind : Kind} (h : Underway source f s byte rest start)
    (hkind : f.inHand.kind? = some kind) :
    (kind, ⟨start, start + 1 + f.inHand.extent byte rest⟩) ∈ spans 0 (cut source.bytes) := by
  have hhead : (head byte rest).kind = some kind := by rw [head, h.extent_eq, hkind]
  have hlength : start + (head byte rest).bytes.length =
      start + 1 + f.inHand.extent byte rest := by
    rw [length_head, h.extent_eq]
    omega
  rw [← h.emitted.spans_eq, h.text_eq, cut_cons, spans_cons_of_some hhead, hlength]
  exact List.mem_append_right _ List.mem_cons_self

theorem Underway.ahead (hc : source.Fits) (h : Underway source f s byte rest start)
    (hpos : s.pos ≤ start + f.inHand.extent byte rest)
    (hkind : f.inHand.kind? = some .operator) : s.pos + 2 < Offset.bound := by
  have hstop := hc.operators _ (h.span_mem hkind)
  dsimp only at hstop
  omega

theorem Underway.pos_lt {done : Nat} (h : Underway source f s byte rest start)
    (hpos : s.pos = start + done) (hdone : done ≤ f.inHand.extent byte rest) :
    s.pos < source.length := by
  have hlen := h.length_eq
  have hext := h.extent_le
  omega

theorem Underway.advancing {done : Nat} (hfits : Position.Fits (source.bytes.take (s.pos + 1)))
    (h : Underway source f s byte rest start) (hpos : s.pos = start + done)
    (hdone : done ≤ f.inHand.extent byte rest) (hholds : f.inHand.Holds byte rest start done) :
    Proceeds source .advancing f s := by
  have hlen := h.length_eq
  have hext := h.extent_le
  have hsource := h.emitted.source_eq
  have hadvance := h.placed.advance (by rw [hsource]; exact hfits) (by rw [hsource]; omega)
  have hle : s.pos + 1 ≤ source.length := by omega
  have hunder := h.moved hle
  have hpos' : (s.moved (s.pos + 1)).pos = start + 1 + done := by
    change s.pos + 1 = _
    omega
  have hgoal : (s.moved (s.pos + 1)).atEnd = decide (source.length ≤ start + 1 + done) := by
    rw [Scanner.atEnd, hpos', ← hsource]
    rfl
  by_cases hend : source.length ≤ start + 1 + done
  · have hstep : Engine.step Recognizer.hooks Scanner.atEnd .advancing f s =
        .ok (.advance, .running (.leaving true) f (s.moved (s.pos + 1))) := by
      simp only [Engine.step, Recognizer.hooks, hadvance, hgoal, decide_eq_true hend, if_true]
    refine ⟨_, _, hstep, ⟨byte, rest, start, hunder, ?_, ?_⟩, ?_⟩
    · rw [hpos']
      omega
    · rw [hgoal, decide_eq_true hend]
    · simp only [callsLeft, hpos']
      omega
  · have hstep : Engine.step Recognizer.hooks Scanner.atEnd .advancing f s =
        .ok (.advance, .running .testing f (s.moved (s.pos + 1))) := by
      simp only [Engine.step, Recognizer.hooks, hadvance, hgoal, decide_eq_false hend,
        Bool.false_eq_true, if_false]
    refine ⟨_, _, hstep, ⟨byte, rest, start, done, hunder, hpos', by omega, hdone, hholds⟩, ?_⟩
    simp only [callsLeft, hpos']
    omega

theorem Underway.testing {done : Nat} (h : Underway source f s byte rest start)
    (hpos : s.pos = start + 1 + done) (hlt : s.pos < source.length)
    (hdone : done ≤ f.inHand.extent byte rest) (hholds : f.inHand.Holds byte rest start done) :
    Proceeds source .testing f s := by
  have hsource := h.emitted.source_eq
  obtain ⟨q, hask, hq, htested⟩ := Recognizer.ask_holds (by rw [hsource]; exact h.text_eq) hpos
    (by rw [hsource]; exact hlt) hdone hholds
  have hextent : q.extent byte rest = f.inHand.extent byte rest :=
    Recognizer.extent_eq_of_atRest hq
  by_cases hmore : done < f.inHand.extent byte rest
  · have hstep : Engine.step Recognizer.hooks Scanner.atEnd .testing f s =
        .ok (.ask f.index true, .running .staying (f.put q) s) := by
      simp only [Engine.step, Recognizer.hooks, hask, decide_eq_true hmore, if_true]
    have hmore' : done < q.extent byte rest := by
      rw [hextent]
      exact hmore
    refine ⟨_, _, hstep,
      ⟨byte, rest, start, done, h.put hq, hpos, hlt, hmore', htested hmore⟩, ?_⟩
    simp only [callsLeft]
    omega
  · have hstep : Engine.step Recognizer.hooks Scanner.atEnd .testing f s =
        .ok (.ask f.index false, .running (.leaving false) (f.put q) s) := by
      simp only [Engine.step, Recognizer.hooks, hask, decide_eq_false hmore, Bool.false_eq_true,
        if_false]
    refine ⟨_, _, hstep, ⟨byte, rest, start, h.put hq, ?_, ?_⟩, ?_⟩
    · change s.pos = start + 1 + q.extent byte rest
      omega
    · rw [Scanner.atEnd, hsource, decide_eq_false (by omega)]
    · simp only [callsLeft]
      omega

theorem Underway.staying {done : Nat}
    (hahead : f.inHand.kind? = some .operator → s.pos + 2 < Offset.bound)
    (h : Underway source f s byte rest start) (hpos : s.pos = start + 1 + done)
    (hlt : s.pos < source.length) (hmore : done < f.inHand.extent byte rest)
    (htested : f.inHand.Tested byte rest start done) : Proceeds source .staying f s := by
  have hlen := h.length_eq
  have hext := h.extent_le
  have hsource := h.emitted.source_eq
  obtain ⟨q, n, hstay, hq, hn, hle, hholds⟩ := Recognizer.stay_tested hahead h.placed
    (by rw [hsource]; exact h.text_eq) (fun hkind => (h.marked hkind).1) hpos
    (by rw [hsource]; exact hlt) h.accepts hmore htested
  have hstep : Engine.step Recognizer.hooks Scanner.atEnd .staying f s =
      .ok (.stay f.index, .running .advancing (f.put q) (s.moved (start + n))) := by
    simp only [Engine.step, Recognizer.hooks, hstay]
  have hle' : n ≤ q.extent byte rest := by
    rw [Recognizer.extent_eq_of_atRest hq]
    exact hle
  have hin : start + n ≤ source.length := by omega
  have hunder := (h.put hq).moved hin
  refine ⟨_, _, hstep, ⟨byte, rest, start, n, hunder, rfl, hle', hholds⟩, ?_⟩
  simp only [callsLeft, Scanner.moved]
  omega

theorem Underway.cut_eq (h : Underway source f s byte rest start)
    (hpos : s.pos = start + 1 + f.inHand.extent byte rest) :
    cut (source.bytes.drop start) = head byte rest :: cut (source.bytes.drop s.pos) := by
  have htail : source.bytes.drop s.pos = tail byte rest := by
    rw [hpos, Nat.add_assoc, ← List.drop_drop, h.text_eq, Nat.add_comm 1, List.drop_succ_cons,
      tail, h.extent_eq]
  rw [htail, h.text_eq, cut_cons]

theorem Underway.emitted_left (h : Underway source f s byte rest start)
    (hpos : s.pos = start + 1 + f.inHand.extent byte rest) (hle : s.pos ≤ s.source.length) :
    (f.inHand.left s hle).Emitted source s.pos := by
  have hspans := h.emitted.spans_eq
  have hlength : start + (head byte rest).bytes.length = s.pos := by
    rw [length_head, h.extent_eq, hpos]
    omega
  have hhead : (head byte rest).kind = f.inHand.kind? := by rw [head, h.extent_eq]
  rw [h.cut_eq hpos, spans, hlength, hhead] at hspans
  unfold Recognizer.left
  cases hkind : f.inHand.kind? with
  | none =>
    rw [hkind] at hspans
    exact ⟨h.emitted.source_eq, hspans, h.emitted.placed⟩
  | some kind =>
    obtain ⟨hstart, hposition⟩ := h.marked (by rw [hkind]; rfl)
    rw [hkind] at hspans
    refine ⟨h.emitted.source_eq, ?_, ?_⟩
    · simp only [List.reverse_cons, List.map_append, List.map_cons, List.map_nil,
        List.append_assoc, List.singleton_append, hstart]
      exact hspans
    · intro t ht
      cases ht with
      | head => exact ⟨h.emitted.source_eq, by rw [hposition, hstart]⟩
      | tail _ ht => exact h.emitted.placed t ht

theorem Underway.leaving {last : Bool} (h : Underway source f s byte rest start)
    (hpos : s.pos = start + 1 + f.inHand.extent byte rest) (hlast : last = s.atEnd) :
    Proceeds source (.leaving last) f s := by
  have hlen := h.length_eq
  have hext := h.extent_le
  have hsource : s.source.length = source.length := by rw [h.emitted.source_eq]
  have hle : s.pos ≤ s.source.length := h.placed.pos_le
  have hleave := Recognizer.leave_eq f.inHand hle
  have hemitted := h.emitted_left hpos hle
  have hsame : (f.inHand.left s hle).pos = s.pos ∧ (f.inHand.left s hle).position = s.position ∧
      (f.inHand.left s hle).source = s.source := by
    unfold Recognizer.left
    cases f.inHand.kind? <;> exact ⟨rfl, rfl, rfl⟩
  obtain ⟨hpos', hposition', hsource'⟩ := hsame
  have hplaced : (f.inHand.left s hle).Placed := by
    refine ⟨by rw [hpos', hsource']; exact hle, ?_⟩
    rw [hposition', hsource', hpos', h.placed.position_eq]
  rw [← hpos'] at hemitted
  by_cases hend : s.source.length ≤ s.pos
  · have hstep : Engine.step Recognizer.hooks Scanner.atEnd (.leaving last) f s =
        .ok (.leave f.index, .reached fresh (f.inHand.left s hle)) := by
      simp only [Engine.step, Recognizer.hooks, hleave, hlast, Scanner.atEnd, decide_eq_true hend,
        if_true, h.patterns_eq]
    refine ⟨_, _, hstep, ⟨rfl, hemitted, by omega⟩, ?_⟩
    simp only [callsLeft]
    omega
  · have hstep : Engine.step Recognizer.hooks Scanner.atEnd (.leaving last) f s =
        .ok (.leave f.index, Engine.search fresh (f.inHand.left s hle)) := by
      simp only [Engine.step, Recognizer.hooks, hleave, hlast, Scanner.atEnd, decide_eq_false hend,
        Bool.false_eq_true, if_false, h.patterns_eq]
    refine ⟨_, _, hstep, standing_search hplaced hemitted (by omega), ?_⟩
    rw [callsLeft_search, hpos']
    simp only [callsLeft]
    omega

theorem Searching.ahead (hc : source.Fits) (h : Searching source f s byte rest)
    (hacc : f.inHand.accepts byte rest = true) (hkind : f.inHand.kind? = some .operator) :
    s.pos + 2 < Offset.bound := by
  have hstop := hc.operators _ ((h.underway hacc).span_mem hkind)
  dsimp only at hstop
  omega

/-- Where a run may stand, its next call succeeds and brings it to where it may stand. -/
theorem keeps_standing (hc : source.Fits) :
    Keeps Recognizer.hooks Scanner.atEnd (Standing source) (callsLeft source) := by
  intro phase f s h
  cases phase with
  | asking =>
    obtain ⟨byte, rest, h⟩ := h
    exact h.asking
  | entering =>
    obtain ⟨byte, rest, h, hacc⟩ := h
    exact h.entering (h.ahead hc hacc) hacc
  | advancing =>
    obtain ⟨byte, rest, start, done, h, hpos, hdone, hholds⟩ := h
    have hlt := h.pos_lt hpos hdone
    exact h.advancing (hc.take hlt) hpos hdone hholds
  | testing =>
    obtain ⟨byte, rest, start, done, h, hpos, hlt, hdone, hholds⟩ := h
    exact h.testing hpos hlt hdone hholds
  | staying =>
    obtain ⟨byte, rest, start, done, h, hpos, hlt, hmore, htested⟩ := h
    exact h.staying (h.ahead hc (by omega)) hpos hlt hmore htested
  | leaving last =>
    obtain ⟨byte, rest, start, h, hpos, hlast⟩ := h
    exact h.leaving hpos hlast

theorem standing_start (source : Buffer) :
    Standing source (Engine.start Scanner.atEnd fresh (.ofBuffer source)) ∧
      callsLeft source (Engine.start Scanner.atEnd fresh (.ofBuffer source)) ≤
        Lexeme.fuel source.length := by
  have hemitted : (Scanner.ofBuffer source).Emitted source 0 :=
    ⟨rfl, rfl, fun t ht => by cases ht⟩
  have hgoal : (Scanner.ofBuffer source).atEnd = decide (source.length ≤ 0) := rfl
  rw [Engine.start, hgoal]
  by_cases hend : source.length ≤ 0
  · rw [decide_eq_true hend]
    exact ⟨⟨rfl, hemitted, (Nat.le_zero.1 hend).symm⟩, Nat.zero_le _⟩
  · rw [decide_eq_false hend]
    exact ⟨standing_search (Scanner.placed_ofBuffer source) hemitted (Nat.lt_of_not_le hend),
      Nat.le_refl _⟩

/-- A run over a buffer ends at its end, with all recognizers at rest. -/
theorem scan_fresh (hc : source.Fits) :
    ∃ s, Lexeme.scan fresh source = .ok (fresh, s) ∧ s.pos = source.length ∧
      s.Emitted source source.length := by
  obtain ⟨hstart, hfuel⟩ := standing_start source
  obtain ⟨c, hrun, hc, hended⟩ := (keeps_standing hc).run hstart hfuel
  cases c with
  | running phase f s => exact hended.elim
  | unmatched patterns s => exact hc.elim
  | reached patterns s =>
    obtain ⟨rfl, hemitted, hpos⟩ := hc
    rw [hpos] at hemitted
    refine ⟨s, ?_, hpos, hemitted⟩
    simp only [scan, hrun]

end Lexeme

end FrontEnd
