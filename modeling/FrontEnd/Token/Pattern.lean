import FrontEnd.Token.Basic

namespace FrontEnd

/-- What a rule may ask of a single token: its kind, or its kind and its bytes. -/
inductive Pattern where
  | ofKind (kind : Kind)
  | exact (kind : Kind) (text : List UInt8)
  deriving DecidableEq, Repr

namespace Pattern

def mark (text : String) : Pattern := exact .scopeOperator (bytesOf text)

def keyword (text : String) : Pattern := exact .identifier (bytesOf text)

/-- The bytes are read only of a token of the right kind. -/
def accepts (p : Pattern) (t : Token) : Except Fault Bool :=
  match p with
  | ofKind kind => .ok (t.kind == kind)
  | exact kind text => if t.kind = kind then t.isText text else .ok false

end Pattern

/-- Whether whitespace tokens take part in matching or are passed over. -/
inductive Spacing where
  | skipped
  | significant
  deriving DecidableEq, Repr

namespace Spacing

def skips (spacing : Spacing) (t : Token) : Bool :=
  match spacing with
  | skipped => t.isWhitespace
  | significant => false

end Spacing

structure Taken where
  skipped : List Token
  token : Token
  rest : List Token

namespace Taken

def passed (t : Taken) : List Token := t.skipped ++ [t.token]

end Taken

/-- Tokens matched at the front of a list: what was passed over for them and what is left. -/
structure Match where
  matched : List Token
  passed : List Token
  rest : List Token

namespace Pattern

def take? (p : Pattern) (spacing : Spacing) (tokens : List Token) : Except Fault (Option Taken) :=
  match tokens.dropWhile spacing.skips with
  | [] => .ok none
  | token :: rest =>
    match p.accepts token with
    | .error fault => .error fault
    | .ok true => .ok (some ⟨tokens.takeWhile spacing.skips, token, rest⟩)
    | .ok false => .ok none

def matchAll (spacing : Spacing) : List Pattern → List Token → Except Fault (Option Match)
  | [], tokens => .ok (some ⟨[], [], tokens⟩)
  | p :: ps, tokens =>
    match p.take? spacing tokens with
    | .error fault => .error fault
    | .ok none => .ok none
    | .ok (some first) =>
      match matchAll spacing ps first.rest with
      | .error fault => .error fault
      | .ok none => .ok none
      | .ok (some more) =>
        .ok (some ⟨first.token :: more.matched, first.passed ++ more.passed, more.rest⟩)

/-- The search of `matchUntil`, with what it has collected and passed so far, newest first. -/
def searchUntil (p : Pattern) (spacing : Spacing) (collected passed : List Token) :
    List Token → Except Fault (Option Match)
  | [] => .ok none
  | token :: rest =>
    if spacing.skips token then p.searchUntil spacing collected (token :: passed) rest
    else
      match p.accepts token with
      | .error fault => .error fault
      | .ok true => .ok (some ⟨collected.reverse, (token :: passed).reverse, rest⟩)
      | .ok false => p.searchUntil spacing (token :: collected) (token :: passed) rest

/-- Collects tokens up to the first that the pattern accepts. A skipped token is neither collected
nor able to end the search. -/
def matchUntil (p : Pattern) (spacing : Spacing) (tokens : List Token) :
    Except Fault (Option Match) :=
  p.searchUntil spacing [] [] tokens

theorem take?_append {p : Pattern} {spacing : Spacing} {tokens : List Token} {t : Taken}
    (h : p.take? spacing tokens = .ok (some t)) : t.passed ++ t.rest = tokens := by
  unfold take? at h
  cases hd : tokens.dropWhile spacing.skips with
  | nil => simp [hd] at h
  | cons token rest =>
    cases ha : p.accepts token with
    | error fault => simp [hd, ha] at h
    | ok accepted =>
      cases accepted with
      | false => simp [hd, ha] at h
      | true =>
        simp only [hd, ha, Except.ok.injEq, Option.some.injEq] at h
        subst h
        simp only [Taken.passed, List.append_assoc, List.singleton_append, ← hd,
          List.takeWhile_append_dropWhile]

theorem matchAll_append {spacing : Spacing} {ps : List Pattern} {tokens : List Token} {m : Match}
    (h : matchAll spacing ps tokens = .ok (some m)) :
    m.passed ++ m.rest = tokens ∧ ps.length ≤ m.passed.length := by
  induction ps generalizing tokens m with
  | nil =>
    simp only [matchAll, Except.ok.injEq, Option.some.injEq] at h
    subst h
    exact ⟨rfl, Nat.le_refl _⟩
  | cons p ps ih =>
    unfold matchAll at h
    cases hf : p.take? spacing tokens with
    | error fault => simp [hf] at h
    | ok taken =>
      cases taken with
      | none => simp [hf] at h
      | some first =>
        cases hm : matchAll spacing ps first.rest with
        | error fault => simp [hf, hm] at h
        | ok found =>
          cases found with
          | none => simp [hf, hm] at h
          | some more =>
            simp only [hf, hm, Except.ok.injEq, Option.some.injEq] at h
            subst h
            obtain ⟨happ, hlen⟩ := ih hm
            refine ⟨by rw [List.append_assoc, happ, take?_append hf], ?_⟩
            simp only [Taken.passed, List.length_append, List.length_cons, List.length_nil]
            omega

theorem searchUntil_append {p : Pattern} {spacing : Spacing} {tokens collected passed : List Token}
    {m : Match} (h : p.searchUntil spacing collected passed tokens = .ok (some m)) :
    m.passed ++ m.rest = passed.reverse ++ tokens := by
  induction tokens generalizing collected passed with
  | nil => simp [searchUntil] at h
  | cons token rest ih =>
    unfold searchUntil at h
    split at h
    · rw [ih h, List.reverse_cons, List.append_assoc, List.singleton_append]
    · split at h
      · simp at h
      · simp only [Except.ok.injEq, Option.some.injEq] at h
        subst h
        simp
      · rw [ih h, List.reverse_cons, List.append_assoc, List.singleton_append]

theorem matchUntil_append {p : Pattern} {spacing : Spacing} {tokens : List Token} {m : Match}
    (h : p.matchUntil spacing tokens = .ok (some m)) : m.passed ++ m.rest = tokens :=
  searchUntil_append h

end Pattern

end FrontEnd
