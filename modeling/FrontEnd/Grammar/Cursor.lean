import FrontEnd.Journal
import FrontEnd.Token.Pattern
import FrontEnd.Tree.SyntaxError

namespace FrontEnd

/-- A place in a token list, and the log of the rules that ran. -/
structure Cursor where
  pos : Nat
  rest : List Token
  /-- Newest first. -/
  journal : List Record

namespace Cursor

def ofTokens (tokens : List Token) : Cursor := ⟨0, tokens, []⟩

def note (c : Cursor) (r : Record) : Cursor := { c with journal := r :: c.journal }

/-- Moves past tokens; each of them is logged. -/
def pass (c : Cursor) (passed rest : List Token) : Cursor where
  pos := c.pos + passed.length
  rest := rest
  journal := (passed.map Record.advanced).reverse ++ c.journal

/-- Goes back to the place where `start` is, and keeps the log. -/
def rewind (c start : Cursor) : Cursor := { c with pos := start.pos, rest := start.rest }

def restore (c : Cursor) (tokens : List Token) (saved : Nat) : Except Fault Cursor :=
  if saved ≤ tokens.length then .ok { c with pos := saved, rest := tokens.drop saved }
  else .error (.snapshotBeyondEnd saved tokens.length)

def nextSignificant (c : Cursor) : Option Token := c.rest.find? (!·.isWhitespace)

/-- Only whitespace is left. -/
def allParsed (c : Cursor) : Bool := c.nextSignificant.isNone

/-- The error at this place: the next token that is not whitespace, or the end. -/
def syntaxError (c : Cursor) : Except Fault SyntaxError :=
  match c.nextSignificant with
  | some token => SyntaxError.ofToken token
  | none => .ok .endOfInput

def peek (c : Cursor) (ps : List Pattern) : Except Fault Bool := do
  let found ← Pattern.matchAll .skipped ps c.rest
  pure found.isSome

def passing (c : Cursor) (found : Option Match) : Option (List Token) × Cursor :=
  match found with
  | some m => (some m.matched, c.pass m.passed m.rest)
  | none => (none, c)

/-- Consumes one token per pattern, or nothing. -/
def consume (c : Cursor) (ps : List Pattern) (spacing : Spacing) :
    Except Fault (Option (List Token) × Cursor) := do
  let found ← Pattern.matchAll spacing ps c.rest
  pure (c.passing found)

/-- Consumes the tokens up to one that the pattern accepts, and that one, or nothing. -/
def consumeUntil (c : Cursor) (p : Pattern) (spacing : Spacing) :
    Except Fault (Option (List Token) × Cursor) := do
  let found ← p.matchUntil spacing c.rest
  pure (c.passing found)

def take? (c : Cursor) (p : Pattern) (spacing : Spacing) : Except Fault (Option Token × Cursor) :=
  match p.take? spacing c.rest with
  | .ok (some t) => .ok (some t.token, c.pass t.passed t.rest)
  | .ok none => .ok (none, c)
  | .error fault => .error fault

/-- One place is at or after another in the same token list, and its log goes on from there. -/
def Reaches (c d : Cursor) : Prop :=
  ∃ passed, c.rest = passed ++ d.rest ∧ d.pos = c.pos + passed.length ∧ c.journal <:+ d.journal

theorem Reaches.refl (c : Cursor) : c.Reaches c := ⟨[], rfl, rfl, List.suffix_rfl⟩

theorem Reaches.trans {c d e : Cursor} (h : c.Reaches d) (h' : d.Reaches e) : c.Reaches e := by
  obtain ⟨ts, hts, hp, hj⟩ := h
  obtain ⟨us, hus, hq, hk⟩ := h'
  refine ⟨ts ++ us, by rw [hts, hus, List.append_assoc], ?_, hj.trans hk⟩
  rw [hq, hp, List.length_append, Nat.add_assoc]

theorem Reaches.length_le {c d : Cursor} (h : c.Reaches d) : d.rest.length ≤ c.rest.length := by
  obtain ⟨ts, hts, _⟩ := h
  rw [hts, List.length_append]
  omega

theorem Reaches.not_mem {c d : Cursor} {r : Record} (h : c.Reaches d) (hr : r ∉ d.journal) :
    r ∉ c.journal := by
  obtain ⟨_, _, _, hjournal⟩ := h
  exact fun hmem => hr (hjournal.mem hmem)

theorem reaches_pass {c : Cursor} {passed rest : List Token} (h : passed ++ rest = c.rest) :
    c.Reaches (c.pass passed rest) := ⟨passed, h.symm, rfl, List.suffix_append _ _⟩

theorem reaches_consume {c d : Cursor} {ps : List Pattern} {spacing : Spacing}
    {tokens : Option (List Token)} (h : c.consume ps spacing = .ok (tokens, d)) : c.Reaches d := by
  unfold consume at h
  cases hm : Pattern.matchAll spacing ps c.rest with
  | error fault => simp [hm, bind, Except.bind] at h
  | ok found =>
    cases found with
    | none =>
      simp only [hm, bind, Except.bind, pure, Except.pure, passing] at h
      cases h
      exact .refl c
    | some m =>
      simp only [hm, bind, Except.bind, pure, Except.pure, passing] at h
      cases h
      exact reaches_pass (Pattern.matchAll_append hm).1

theorem reaches_consumeUntil {c d : Cursor} {p : Pattern} {spacing : Spacing}
    {tokens : Option (List Token)} (h : c.consumeUntil p spacing = .ok (tokens, d)) :
    c.Reaches d := by
  unfold consumeUntil at h
  cases hm : p.matchUntil spacing c.rest with
  | error fault => simp [hm, bind, Except.bind] at h
  | ok found =>
    cases found with
    | none =>
      simp only [hm, bind, Except.bind, pure, Except.pure, passing] at h
      cases h
      exact .refl c
    | some m =>
      simp only [hm, bind, Except.bind, pure, Except.pure, passing] at h
      cases h
      exact reaches_pass (Pattern.matchUntil_append hm)

theorem reaches_take? {c d : Cursor} {p : Pattern} {spacing : Spacing} {token : Option Token}
    (h : c.take? p spacing = .ok (token, d)) : c.Reaches d := by
  unfold take? at h
  split at h
  · next t ht => cases h; exact reaches_pass (Pattern.take?_append ht)
  · cases h; exact .refl c
  · simp at h

theorem length_of_consume {c d : Cursor} {p : Pattern} {ps : List Pattern} {spacing : Spacing}
    {tokens : List Token} (h : c.consume (p :: ps) spacing = .ok (some tokens, d)) :
    d.rest.length < c.rest.length := by
  unfold consume at h
  cases hm : Pattern.matchAll spacing (p :: ps) c.rest with
  | error fault => simp [hm, bind, Except.bind] at h
  | ok found =>
    cases found with
    | none => simp [hm, bind, Except.bind, pure, Except.pure, passing] at h
    | some m =>
      simp only [hm, bind, Except.bind, pure, Except.pure, passing] at h
      cases h
      obtain ⟨happ, hlen⟩ := Pattern.matchAll_append hm
      have := congrArg List.length happ
      simp only [List.length_append, List.length_cons] at this hlen
      simp only [pass]
      omega

theorem length_of_take? {c d : Cursor} {p : Pattern} {spacing : Spacing} {token : Token}
    (h : c.take? p spacing = .ok (some token, d)) : d.rest.length < c.rest.length := by
  unfold take? at h
  split at h
  · next t ht =>
    cases h
    have := congrArg List.length (Pattern.take?_append ht)
    simp only [Taken.passed, List.length_append, List.length_cons, List.length_nil] at this
    simp only [pass]
    omega
  · cases h
  · simp at h

end Cursor

end FrontEnd
