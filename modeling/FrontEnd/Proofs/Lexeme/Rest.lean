import FrontEnd.Proofs.Engine.Protocol
import FrontEnd.Proofs.Lexeme.Tokens

namespace FrontEnd

open Engine (Config Focus)
open Recognizer (fresh)

theorem Engine.Focus.getElem?_put {π : Type} (f : Focus π) (p : π) {i : Nat} (h : i ≠ f.index) :
    (f.put p).patterns[i]? = f.patterns[i]? := by
  rw [Focus.patterns_put, List.getElem?_set_ne h.symm]

namespace Lexeme

/-- All recognizers are as they were made, but for the one that is entered and not left. -/
def OthersFresh (c : Config Scanner Recognizer) : Prop :=
  ∀ i, c.active? ≠ some i → c.patterns[i]? = fresh[i]?

/-- Runs recognizers over sources in turn, each time as the run before left them; gives them back
with the tokens of each source. -/
def scanInTurn (recognizers : List Recognizer) :
    List Buffer → Except Fault (List Recognizer × List (List Token))
  | [] => .ok (recognizers, [])
  | source :: rest => do
    let (left, scanner) ← scan recognizers source
    let (last, tokens) ← scanInTurn left rest
    pure (last, scanner.tokens :: tokens)

variable {source : Buffer} {f : Focus Recognizer} {s : Scanner} {byte : UInt8} {rest : List UInt8}
  {start : Nat}

theorem Underway.others (h : Underway source f s byte rest start) {i : Nat}
    (hi : some f.index ≠ some i) : f.patterns[i]? = fresh[i]? := by
  have hne : i ≠ f.index := by
    rintro rfl
    exact hi rfl
  rw [← h.patterns_eq, Focus.getElem?_put f _ hne]

theorem Standing.othersFresh {c : Config Scanner Recognizer} (h : Standing source c) :
    OthersFresh c := by
  intro i hi
  cases c with
  | reached patterns s =>
    obtain ⟨hpatterns, _⟩ := h
    exact congrArg (·[i]?) hpatterns
  | unmatched patterns s => exact h.elim
  | running phase f s =>
    cases phase with
    | asking =>
      obtain ⟨byte, rest, h⟩ := h
      exact congrArg (·[i]?) h.patterns_eq
    | entering =>
      obtain ⟨byte, rest, h, _⟩ := h
      exact congrArg (·[i]?) h.patterns_eq
    | advancing =>
      obtain ⟨byte, rest, start, done, h, _⟩ := h
      exact h.others hi
    | testing =>
      obtain ⟨byte, rest, start, done, h, _⟩ := h
      exact h.others hi
    | staying =>
      obtain ⟨byte, rest, start, done, h, _⟩ := h
      exact h.others hi
    | leaving last =>
      obtain ⟨byte, rest, start, h, _⟩ := h
      exact h.others hi

/-- Each run finds the recognizers as they were made, and leaves them so to the next. -/
theorem scanInTurn_fresh {sources : List Buffer} (h : ∀ source ∈ sources, source.Fits) :
    ∃ tokens, scanInTurn fresh sources = .ok (fresh, tokens) ∧
      sources.mapM Buffer.tokens = .ok tokens := by
  induction sources with
  | nil => exact ⟨[], rfl, rfl⟩
  | cons source sources ih =>
    obtain ⟨s, hscan, _⟩ := scan_fresh (h source List.mem_cons_self)
    obtain ⟨tokens, hturn, heach⟩ := ih fun next hnext => h next (List.mem_cons_of_mem _ hnext)
    have htokens : source.tokens = .ok s.tokens := by
      rw [Buffer.tokens, hscan]
      rfl
    refine ⟨s.tokens :: tokens, ?_, ?_⟩
    · rw [scanInTurn, hscan]
      simp only [bind, Except.bind, hturn]
      rfl
    · rw [List.mapM_cons, htokens, heach]
      rfl

/-- Between two calls of a run no recognizer but the active one keeps anything, and none does after
it; so one set of recognizers reads any sources in turn as a new set reads each. -/
theorem recognizers_keep_nothing (sources : List Buffer)
    (h : ∀ source ∈ sources, source.length ≤ Offset.bound - 2) :
    (∀ source ∈ sources,
      (∀ calls, ∃ c, Engine.run Recognizer.hooks Scanner.atEnd calls
        (Engine.start Scanner.atEnd fresh (.ofBuffer source)) = .ok c ∧ OthersFresh c) ∧
      ∃ s, scan fresh source = .ok (fresh, s)) ∧
    ∃ tokens, scanInTurn fresh sources = .ok (fresh, tokens) ∧
      sources.mapM Buffer.tokens = .ok tokens := by
  have hfits : ∀ source ∈ sources, source.Fits := by
    intro source hsource
    apply Buffer.fits_of_length
    have hle := h source hsource
    simp only [Offset.bound] at hle ⊢
    omega
  refine ⟨?_, scanInTurn_fresh hfits⟩
  intro source hsource
  constructor
  · intro calls
    obtain ⟨c, hrun, hstanding⟩ :=
      (keeps_standing (hfits source hsource)).run_after (standing_start source).1 calls
    exact ⟨c, hrun, hstanding.othersFresh⟩
  · obtain ⟨s, hscan, _⟩ := scan_fresh (hfits source hsource)
    exact ⟨s, hscan⟩

def openSources : List Buffer :=
  [.ofBytes 0 (bytesOf "'a"), .ofBytes 1 (bytesOf "/*"), .ofBytes 2 (bytesOf "b'*/'")]

theorem recognizers_keep_nothing_of_openSources :
    (∀ source ∈ openSources, source.length ≤ Offset.bound - 2) ∧
    (∃ c, Engine.run Recognizer.hooks Scanner.atEnd 8
        (Engine.start Scanner.atEnd fresh (.ofBuffer (.ofBytes 0 (bytesOf "'a")))) = .ok c ∧
      OthersFresh c ∧ c.active? = some 4 ∧ c.patterns[4]? = some (.literal (some 0x27) false)) ∧
    ∃ tokens, scanInTurn fresh openSources = .ok (fresh, tokens) ∧
      tokens.map (·.map fun t => (t.kind, t.span)) =
        [[(.literal, ⟨0, 2⟩)], [], [(.identifier, ⟨0, 1⟩), (.literal, ⟨1, 5⟩)]] := by
  have hlength : ∀ source ∈ openSources, source.length ≤ Offset.bound - 2 := by decide
  obtain ⟨heach, tokens, hturn, htokens⟩ := recognizers_keep_nothing openSources hlength
  obtain ⟨c, hrun, hothers⟩ := (heach _ List.mem_cons_self).1 8
  have hactive : (Engine.run Recognizer.hooks Scanner.atEnd 8
      (Engine.start Scanner.atEnd fresh (.ofBuffer (.ofBytes 0 (bytesOf "'a"))))).map
        (fun c => (c.active?, c.patterns[4]?)) =
      .ok (some 4, some (.literal (some 0x27) false)) :=
    Fault.toOption_eq_some (by decide +kernel)
  have hspans : (openSources.mapM Buffer.tokens).map (·.map (·.map fun t => (t.kind, t.span))) =
      .ok [[(.literal, ⟨0, 2⟩)], [], [(.identifier, ⟨0, 1⟩), (.literal, ⟨1, 5⟩)]] :=
    Fault.toOption_eq_some (by decide +kernel)
  rw [hrun] at hactive
  rw [htokens] at hspans
  injection hactive with hactive
  injection hspans with hspans
  injection hactive with hactive hliteral
  exact ⟨hlength, ⟨c, hrun, hothers, hactive, hliteral⟩, tokens, hturn, hspans⟩

end Lexeme

end FrontEnd
