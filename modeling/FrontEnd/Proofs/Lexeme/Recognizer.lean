import FrontEnd.Proofs.Lexeme.Scanner

namespace FrontEnd.Recognizer

open Lexeme (runLength blockLength literalLength growthLength)

/-- The recognizer as it is between two lexemes. -/
def atRest : Recognizer → Recognizer
  | blockComment _ => blockComment none
  | lineComment _ => lineComment none
  | run bytes kind => run bytes kind
  | literal _ _ => literal none false
  | single bytes kind _ => single bytes kind false
  | operator _ _ => operator false false
  | identifier _ => identifier false

def kind? : Recognizer → Option Kind
  | blockComment _ => none
  | lineComment _ => none
  | run _ kind => some kind
  | literal _ _ => some .literal
  | single _ kind _ => some kind
  | operator _ _ => some .operator
  | identifier _ => some .identifier

def accepts (byte : UInt8) (rest : List UInt8) : Recognizer → Bool
  | blockComment _ => blockOpen.isPrefixOf (byte :: rest)
  | lineComment _ => lineOpen.isPrefixOf (byte :: rest)
  | run bytes _ => ByteClass.ofByte byte == bytes
  | literal _ _ => ByteClass.ofByte byte == .delimiter
  | single none _ _ => true
  | single (some bytes) _ _ => ByteClass.ofByte byte == bytes
  | operator _ _ => ByteClass.ofByte byte == .operatorMark
  | identifier _ => ByteClass.ofByte byte == .identStart

def extent (byte : UInt8) (rest : List UInt8) : Recognizer → Nat
  | blockComment _ => blockLength (rest.drop 1) + 1
  | lineComment _ => runLength (· != lineFeed) rest
  | run bytes _ => runLength (ByteClass.ofByte · == bytes) rest
  | literal _ _ => literalLength byte rest
  | single _ _ _ => 0
  | operator _ _ => growthLength [byte] rest
  | identifier _ => runLength (ByteClass.ofByte · |>.continuesIdent) rest

variable {byte : UInt8} {rest : List UInt8} {r : Recognizer} {s : Scanner} {start done : Nat}

theorem atRest_of_mem_fresh (h : r ∈ fresh) : r.atRest = r := by
  revert r
  decide

@[simp] theorem kind?_atRest (r : Recognizer) : r.atRest.kind? = r.kind? := by
  cases r <;> rfl

@[simp] theorem accepts_atRest (r : Recognizer) :
    r.atRest.accepts byte rest = r.accepts byte rest := by
  cases r with
  | single bytes kind taken => cases bytes <;> rfl
  | _ => rfl

@[simp] theorem extent_atRest (r : Recognizer) :
    r.atRest.extent byte rest = r.extent byte rest := by
  cases r <;> rfl

theorem extent_eq_of_atRest {q : Recognizer} (h : q.atRest = r.atRest) :
    q.extent byte rest = r.extent byte rest := by
  rw [← extent_atRest, h, extent_atRest]

/-- The first recognizer at rest that accepts a text reads its first lexeme. -/
theorem find?_fresh (byte : UInt8) (rest : List UInt8) :
    ∃ r, fresh.find? (accepts byte rest) = some r ∧
      Lexeme.extent byte rest = (r.kind?, r.extent byte rest) := by
  unfold Lexeme.extent
  by_cases hblock : blockOpen.isPrefixOf (byte :: rest)
  · refine ⟨blockComment none, ?_, ?_⟩
    · simp only [fresh, List.find?_cons, accepts, hblock]
    · rw [if_pos hblock]
      rfl
  by_cases hline : lineOpen.isPrefixOf (byte :: rest)
  · refine ⟨lineComment none, ?_, ?_⟩
    · simp only [fresh, List.find?_cons, accepts, hblock, hline]
    · rw [if_neg hblock, if_pos hline]
      rfl
  rw [if_neg hblock, if_neg hline]
  cases hc : ByteClass.ofByte byte <;>
    exact ⟨_, by simp only [fresh, List.find?_cons, accepts, hblock, hline, hc]; rfl, rfl⟩

/-- What a recognizer knows after the first byte of a lexeme and `done` more. -/
def Holds (byte : UInt8) (rest : List UInt8) (start done : Nat) : Recognizer → Prop
  | blockComment stop => stop = some (start + 1 + (blockLength (rest.drop 1) + 1))
  | lineComment stop => stop = some (start + 1 + runLength (· != lineFeed) rest)
  | run bytes _ =>
    runLength (ByteClass.ofByte · == bytes) (rest.drop done) + done =
      runLength (ByteClass.ofByte · == bytes) rest
  | literal opened closed =>
    opened = some byte ∧
      (if closed then 0 else literalLength byte (rest.drop done)) + done = literalLength byte rest
  | single _ _ taken => taken = true
  | operator active grows =>
    active = true ∧ grows = decide (done < growthLength [byte] rest) ∧
      growthLength (byte :: rest.take done) (rest.drop done) + done = growthLength [byte] rest
  | identifier active =>
    active = true ∧
      runLength (ByteClass.ofByte · |>.continuesIdent) (rest.drop done) + done =
        runLength (ByteClass.ofByte · |>.continuesIdent) rest

/-- What it knows once it was asked about the byte after those, and took it. -/
def Tested (byte : UInt8) (rest : List UInt8) (start done : Nat) : Recognizer → Prop
  | literal opened closed =>
    opened = some byte ∧ closed = (rest[done]? == some byte) ∧
      literalLength byte (rest.drop done) + done = literalLength byte rest
  | r => r.Holds byte rest start done

theorem ask_atRest (h : r.atRest = r) (hs : s.source.bytes.drop s.pos = byte :: rest) :
    r.ask s = .ok (r.accepts byte rest, r) := by
  have hle : s.pos ≤ s.source.length := by
    have := Buffer.length_of_drop_eq hs
    omega
  have hcurrent : s.current = .ok byte := by
    apply Scanner.current_eq
    rw [← List.head?_drop, hs]
    rfl
  cases r with
  | blockComment stop =>
    cases h
    simp only [ask, accepts, Scanner.startsWith, Buffer.startsWithAt_eq hle, hs]
  | lineComment stop =>
    cases h
    simp only [ask, accepts, Scanner.startsWith, Buffer.startsWithAt_eq hle, hs]
  | run bytes kind => simp only [ask, accepts, currentClass, hcurrent]; rfl
  | literal opened closed =>
    cases h
    simp only [ask, accepts, currentClass, hcurrent]
    rfl
  | single bytes kind taken =>
    cases h
    cases bytes with
    | none => rfl
    | some bytes => simp only [ask, accepts, currentClass, hcurrent]; rfl
  | operator active grows =>
    cases h
    simp only [ask, accepts, currentClass, hcurrent]
    rfl
  | identifier active =>
    cases h
    simp only [ask, accepts, currentClass, hcurrent]
    rfl

theorem blockStop_eq (hs : s.source.bytes.drop s.pos = byte :: rest)
    (hopen : blockOpen.isPrefixOf (byte :: rest) = true) :
    blockStop s = .ok (s.pos + 1 + (blockLength (rest.drop 1) + 1)) := by
  rw [Lexeme.blockOpen_eq] at hopen
  obtain ⟨_, body, rfl⟩ := Lexeme.pair_isPrefixOf_iff.1 hopen
  have hbound := s.source.length_lt
  have hlen := Buffer.length_of_drop_eq hs
  rw [List.length_cons] at hlen
  have hbody : s.source.bytes.drop (s.pos + 2) = body := by
    rw [← List.drop_drop, hs]
    rfl
  have hle := Lexeme.blockLength_le body
  have hin : s.pos + 2 ≤ s.source.length := by omega
  have hfind := Buffer.find_blockClose hin
  rw [hbody] at hfind
  unfold blockStop
  rw [Offset.add_eq_ok (by omega)]
  simp only [bind, Except.bind, List.drop_one, List.tail_cons]
  cases hf : s.source.find (s.pos + 2) blockClose with
  | none =>
    rw [hf] at hfind
    simp only [Option.map_none, Option.getD_none] at hfind
    change Except.ok s.source.length = _
    rw [hfind]
    congr 1
    omega
  | some close =>
    rw [hf] at hfind
    simp only [Option.map_some, Option.getD_some] at hfind
    change Offset.add close 2 = _
    rw [Offset.add_eq_ok (by omega), hfind]
    congr 1
    omega

theorem growth_eq (hb : s.pos + 2 < Offset.bound)
    (hs : s.source.bytes.drop start = byte :: rest) (hmark : s.markStart = start)
    (hpos : s.pos = start + done) (hle : done ≤ rest.length) :
    growth s = .ok (decide (0 < growthLength (byte :: rest.take done) (rest.drop done))) := by
  rw [growth, Scanner.lexemeWithNext_eq hb hs hmark hpos hle, ← List.head?_drop]
  cases rest.drop done with
  | nil => rfl
  | cons next more =>
    simp only [bind, Except.bind, pure, Except.pure, List.head?_cons, Option.map_some,
      Option.any_some, growthLength, List.cons_append]
    split
    · next h => simp [h]
    · next h => simp [h]

def entered (r : Recognizer) (s : Scanner) : Scanner :=
  match r.kind? with
  | none => s
  | some _ => s.mark

theorem enter_eq (hahead : r.kind? = some .operator → s.pos + 2 < Offset.bound)
    (hs : s.source.bytes.drop s.pos = byte :: rest) (hacc : r.accepts byte rest = true)
    (h : r.atRest = r) :
    ∃ q, r.enter s = .ok (q, r.entered s) ∧ q.atRest = r ∧ q.Holds byte rest s.pos 0 := by
  have hlen := Buffer.length_of_drop_eq hs
  have hcurrent : s.current = .ok byte := by
    apply Scanner.current_eq
    rw [← List.head?_drop, hs]
    rfl
  cases r with
  | blockComment stop =>
    cases h
    refine ⟨blockComment (some _), ?_, rfl, rfl⟩
    simp only [enter, blockStop_eq hs hacc]
    rfl
  | lineComment stop =>
    cases h
    refine ⟨lineComment (some (lineStop s)), rfl, rfl, ?_⟩
    rw [accepts, Lexeme.lineOpen_eq] at hacc
    obtain ⟨rfl, body, rfl⟩ := Lexeme.pair_isPrefixOf_iff.1 hacc
    rw [lineStop, Buffer.findByte_getD _ (by omega), hs, Lexeme.runLength_cons]
    change some (s.pos + (_ + 1)) = some (s.pos + 1 + _)
    congr 1
    omega
  | run bytes kind => exact ⟨_, rfl, h, rfl⟩
  | literal opened closed =>
    cases h
    refine ⟨literal (some byte) false, ?_, rfl, rfl, ?_⟩
    · simp only [enter, hcurrent]
      rfl
    · simp
  | single bytes kind taken =>
    cases h
    exact ⟨single bytes kind true, rfl, rfl, rfl⟩
  | operator active grows =>
    cases h
    have hgrowth : growth s.mark =
        .ok (decide (0 < growthLength (byte :: rest.take 0) (rest.drop 0))) :=
      growth_eq (hahead rfl) hs rfl rfl (Nat.zero_le _)
    refine ⟨operator true _, ?_, rfl, rfl, rfl, ?_⟩
    · simp only [enter, hgrowth]
      rfl
    · simp
  | identifier active =>
    cases h
    exact ⟨identifier true, rfl, rfl, rfl, rfl⟩

theorem getElem?_of_drop_eq (hs : s.source.bytes.drop start = byte :: rest)
    (hpos : s.pos = start + 1 + done) (hlt : s.pos < s.source.length) :
    ∃ next, s.source.bytes[s.pos]? = some next ∧ rest[done]? = some next ∧
      rest.drop done = next :: rest.drop (done + 1) := by
  have hlen := Buffer.length_of_drop_eq hs
  have hdone : done < rest.length := by omega
  refine ⟨rest[done], ?_, List.getElem?_eq_getElem hdone, List.drop_eq_getElem_cons hdone⟩
  rw [hpos, Nat.add_assoc, ← List.getElem?_drop, hs, Nat.add_comm 1, List.getElem?_cons_succ]
  exact List.getElem?_eq_getElem hdone

theorem decide_lt_runLength {test : UInt8 → Bool} {next : UInt8} {more : List UInt8}
    (hdrop : rest.drop done = next :: more)
    (h : runLength test (rest.drop done) + done = runLength test rest) :
    decide (done < runLength test rest) = test next := by
  rw [hdrop, Lexeme.runLength_cons] at h
  split at h
  · next ht => rw [ht, decide_eq_true (by omega)]
  · next ht => rw [Bool.eq_false_iff.2 ht, decide_eq_false (by omega)]

theorem runLength_add_succ {test : UInt8 → Bool} {next : UInt8} {more : List UInt8}
    (hdrop : rest.drop done = next :: more) (hlt : done < runLength test rest)
    (h : runLength test (rest.drop done) + done = runLength test rest) :
    runLength test more + (done + 1) = runLength test rest := by
  rw [hdrop, Lexeme.runLength_cons] at h
  split at h
  · omega
  · omega

theorem ask_holds (hs : s.source.bytes.drop start = byte :: rest)
    (hpos : s.pos = start + 1 + done) (hlt : s.pos < s.source.length)
    (hle : done ≤ r.extent byte rest) (h : r.Holds byte rest start done) :
    ∃ q, r.ask s = .ok (decide (done < r.extent byte rest), q) ∧ q.atRest = r.atRest ∧
      (done < r.extent byte rest → q.Tested byte rest start done) := by
  obtain ⟨next, hbyte, hnext, hdrop⟩ := getElem?_of_drop_eq hs hpos hlt
  have hcurrent := Scanner.current_eq hbyte
  cases r with
  | blockComment stop =>
    cases h
    have hstop : s.pos < start + 1 + (blockLength (rest.drop 1) + 1) ↔
        done < blockLength (rest.drop 1) + 1 := by omega
    refine ⟨_, ?_, rfl, fun _ => rfl⟩
    rw [ask, extent, decide_eq_decide.2 hstop]
  | lineComment stop =>
    cases h
    have hstop : s.pos < start + 1 + runLength (· != lineFeed) rest ↔
        done < runLength (· != lineFeed) rest := by omega
    refine ⟨_, ?_, rfl, fun _ => rfl⟩
    rw [ask, extent, decide_eq_decide.2 hstop]
  | run bytes kind =>
    refine ⟨run bytes kind, ?_, rfl, fun _ => h⟩
    rw [extent, decide_lt_runLength hdrop h]
    simp only [ask, currentClass, hcurrent]
    rfl
  | literal opened closed =>
    obtain ⟨rfl, hlength⟩ := h
    cases closed with
    | true =>
      have hend : ¬done < literalLength byte rest := by
        simp only [if_true] at hlength
        omega
      refine ⟨literal (some byte) true, ?_, rfl, fun h => absurd h hend⟩
      rw [extent, decide_eq_false hend]
      rfl
    | false =>
      simp only [Bool.false_eq_true, if_false] at hlength
      have hmore : done < literalLength byte rest := by
        have := Lexeme.literalLength_pos byte next (rest.drop (done + 1))
        rw [← hdrop] at this
        omega
      refine ⟨literal (some byte) (next == byte), ?_, rfl, fun _ => ⟨rfl, ?_, hlength⟩⟩
      · rw [extent, decide_eq_true hmore]
        simp only [ask, hcurrent]
        rfl
      · rw [hnext]
        rfl
  | single bytes kind taken =>
    cases h
    exact ⟨_, rfl, rfl, fun h => absurd h (Nat.not_lt_zero _)⟩
  | operator active grows =>
    obtain ⟨rfl, rfl, hgrowth⟩ := h
    exact ⟨_, rfl, rfl, fun _ => ⟨rfl, rfl, hgrowth⟩⟩
  | identifier active =>
    obtain ⟨rfl, hrun⟩ := h
    refine ⟨identifier true, ?_, rfl, fun _ => ⟨rfl, hrun⟩⟩
    rw [extent, decide_lt_runLength hdrop hrun]
    simp only [ask, currentClass, hcurrent]
    rfl

theorem stay_literal {opened : Option UInt8} {closed : Bool}
    (hp : s.Placed) (hs : s.source.bytes.drop start = byte :: rest)
    (hpos : s.pos = start + 1 + done) (hlt : s.pos < s.source.length) (hquote : byte ≠ backslash)
    (h : (literal opened closed).Tested byte rest start done) :
    ∃ n, (literal opened closed).stay s = .ok (literal opened closed, s.moved (start + n)) ∧
      done < n ∧ n ≤ literalLength byte rest ∧
      (literal opened closed).Holds byte rest start n := by
  obtain ⟨next, hbyte, hnext, hdrop⟩ := getElem?_of_drop_eq hs hpos hlt
  have hcurrent := Scanner.current_eq hbyte
  have hbound := s.source.length_lt
  have hlen := Buffer.length_of_drop_eq hs
  have hrest := congrArg List.length hdrop
  have hhere : s.moved (start + (done + 1)) = s := by
    rw [show start + (done + 1) = s.pos by omega, hp.moved_pos]
  obtain ⟨rfl, hclosed, hlength⟩ := h
  rw [hnext, Option.some_beq_some] at hclosed
  rw [hdrop] at hlength
  simp only [List.length_drop, List.length_cons] at hrest
  simp only [stay, hcurrent, bind, Except.bind]
  cases hmore : rest.drop (done + 1) with
  | nil =>
    rw [hmore, literalLength] at hlength
    have hlast : rest.length = done + 1 := by
      have := congrArg List.length hmore
      simp only [List.length_drop, List.length_nil] at this
      omega
    refine ⟨done + 1, ?_, by omega, by omega, rfl, ?_⟩
    · rw [Offset.add_eq_ok (by omega), hhere]
      split
      · simp only
        rw [if_neg (by omega)]
        rfl
      · rfl
    · rw [hmore, literalLength]
      split <;> omega
  | cons after more =>
    rw [hmore, literalLength] at hlength
    split at hlength
    · next hend =>
      have hne : next ≠ backslash := by
        rw [hend]
        exact hquote
      refine ⟨done + 1, ?_, by omega, by omega, rfl, ?_⟩
      · rw [if_neg hne, hhere]
        rfl
      · rw [hclosed, if_pos (by simpa using hend)]
        omega
    split at hlength
    · next hend hescape =>
      have hlt' : s.pos + 1 < s.source.length := by
        have := congrArg List.length hmore
        simp only [List.length_drop, List.length_cons] at this
        omega
      refine ⟨done + 2, ?_, by omega, by omega, rfl, ?_⟩
      · rw [if_pos hescape, Offset.add_eq_ok (by omega)]
        simp only
        rw [if_pos hlt', hp.advance (Scanner.fits_of_lt hlt') hlt,
          show s.pos + 1 = start + (done + 2) by omega]
        rfl
      · rw [hclosed, if_neg (by simpa using hend), ← Nat.add_assoc done 1 1, ← List.drop_drop,
          hmore]
        simp only [List.drop_succ_cons, List.drop_zero]
        omega
    · next hend hescape =>
      refine ⟨done + 1, ?_, by omega, by omega, rfl, ?_⟩
      · rw [if_neg hescape, hhere]
        rfl
      · rw [hclosed, if_neg (by simpa using hend), hmore]
        omega

theorem stay_operator {active grows : Bool} (hb : s.pos + 2 < Offset.bound)
    (hs : s.source.bytes.drop start = byte :: rest) (hmark : s.markStart = start)
    (hpos : s.pos = start + 1 + done) (hlt : s.pos < s.source.length)
    (hmore : done < (operator active grows).extent byte rest)
    (h : (operator active grows).Tested byte rest start done) :
    ∃ q, (operator active grows).stay s = .ok (q, s) ∧ q.atRest = (operator active grows).atRest ∧
      q.Holds byte rest start (done + 1) := by
  obtain ⟨next, hbyte, hnext, hdrop⟩ := getElem?_of_drop_eq hs hpos hlt
  obtain ⟨rfl, rfl, hgrowth⟩ := h
  have hlen := Buffer.length_of_drop_eq hs
  have hnext' : s.pos = start + (done + 1) := by omega
  have hnow := growth_eq hb hs hmark hnext' (by omega)
  have htake : rest.take (done + 1) = rest.take done ++ [next] := by
    rw [List.take_add_one, hnext]
    rfl
  rw [hdrop, growthLength] at hgrowth
  simp only [extent] at hmore
  split at hgrowth
  · rw [List.cons_append, ← htake] at hgrowth
    refine ⟨operator true (decide (0 < growthLength (byte :: rest.take (done + 1))
      (rest.drop (done + 1)))), ?_, rfl, rfl, ?_, ?_⟩
    · simp only [stay, hnow]
      rfl
    · rw [decide_eq_decide]
      omega
    · omega
  · omega

theorem stay_tested (hahead : r.kind? = some .operator → s.pos + 2 < Offset.bound)
    (hp : s.Placed) (hs : s.source.bytes.drop start = byte :: rest)
    (hmark : r.kind?.isSome → s.markStart = start)
    (hpos : s.pos = start + 1 + done) (hlt : s.pos < s.source.length)
    (hacc : r.accepts byte rest = true) (hmore : done < r.extent byte rest)
    (h : r.Tested byte rest start done) :
    ∃ q n, r.stay s = .ok (q, s.moved (start + n)) ∧ q.atRest = r.atRest ∧ done < n ∧
      n ≤ r.extent byte rest ∧ q.Holds byte rest start n := by
  obtain ⟨next, hbyte, hnext, hdrop⟩ := getElem?_of_drop_eq hs hpos hlt
  have hcurrent := Scanner.current_eq hbyte
  have hhere : s.moved (start + (done + 1)) = s := by
    rw [show start + (done + 1) = s.pos by omega, hp.moved_pos]
  cases r with
  | blockComment stop =>
    exact ⟨_, done + 1, by rw [hhere]; rfl, rfl, Nat.lt_succ_self _, hmore, h⟩
  | lineComment stop =>
    exact ⟨_, done + 1, by rw [hhere]; rfl, rfl, Nat.lt_succ_self _, hmore, h⟩
  | run bytes kind =>
    exact ⟨_, done + 1, by rw [hhere]; rfl, rfl, Nat.lt_succ_self _, hmore,
      runLength_add_succ hdrop hmore h⟩
  | literal opened closed =>
    have hquote : byte ≠ backslash := by
      rintro rfl
      change (ByteClass.ofByte backslash == .delimiter) = true at hacc
      exact absurd hacc (by decide)
    obtain ⟨n, hstay, hn⟩ := stay_literal hp hs hpos hlt hquote h
    exact ⟨_, n, hstay, rfl, hn⟩
  | single bytes kind taken => exact absurd hmore (Nat.not_lt_zero _)
  | operator active grows =>
    obtain ⟨q, hstay, hq, hholds⟩ := stay_operator (hahead rfl) hs (hmark rfl) hpos hlt hmore
      h
    exact ⟨q, done + 1, by rw [hhere]; exact hstay, hq, Nat.lt_succ_self _, hmore, hholds⟩
  | identifier active =>
    obtain ⟨rfl, hrun⟩ := h
    exact ⟨_, done + 1, by rw [hhere]; rfl, rfl, Nat.lt_succ_self _, hmore, rfl,
      runLength_add_succ hdrop hmore hrun⟩

def left (r : Recognizer) (s : Scanner) (h : s.pos ≤ s.source.length) : Scanner :=
  match r.kind? with
  | none => s
  | some kind =>
    { s with emitted := ⟨kind, ⟨s.markStart, s.pos⟩, s.markPosition, s.source, h⟩ :: s.emitted }

theorem leave_eq (r : Recognizer) (h : s.pos ≤ s.source.length) :
    r.leave s = .ok (r.atRest, r.left s h) := by
  have hemit (kind : Kind) : s.emit kind = .ok
      { s with emitted := ⟨kind, ⟨s.markStart, s.pos⟩, s.markPosition, s.source, h⟩ :: s.emitted }
      := by
    rw [Scanner.emit, Token.make, dif_pos h]
    rfl
  cases r with
  | blockComment stop => rfl
  | lineComment stop => rfl
  | _ =>
    simp only [leave, hemit]
    rfl

end FrontEnd.Recognizer
