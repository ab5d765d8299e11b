import FrontEnd.Grammar.Rule
import FrontEnd.Tree.Scope

namespace FrontEnd.Rule

def openBrace : Pattern := .mark "\x7b"

def closeBrace : Pattern := .mark "\x7d"

/-- Where a scope is read: the entries of the innermost open scope, and those of each scope around
it, innermost first; each newest first. -/
structure OpenScopes where
  entries : List Scope
  around : List (List Scope)

namespace OpenScopes

def outermost : OpenScopes := ⟨[], []⟩

def enter (o : OpenScopes) : OpenScopes := ⟨[], o.entries :: o.around⟩

/-- Closes the innermost scope: it is the result, or an entry of the scope around it. -/
def close (o : OpenScopes) : Round OpenScopes Scope :=
  match o.around with
  | [] => .done (.closed o.entries)
  | before :: around => .again ⟨.closed o.entries :: before, around⟩

end OpenScopes

def braceRound (o : OpenScopes) : Rule (Round OpenScopes Scope) := do
  match ← take? closeBrace .skipped with
  | some _ => pure o.close
  | none =>
    match ← take? openBrace .skipped with
    | some _ => pure (.again o.enter)
    | none => reject

theorem advancing_braceRound : Advancing braceRound := by
  intro o c p e h
  obtain ⟨closed, d, hc, h⟩ := bind_eq_ok h
  cases closed with
  | some token =>
    obtain ⟨_, rfl⟩ := pure_eq_ok h
    exact length_of_take? hc
  | none =>
    obtain ⟨opened, e, ho, h⟩ := bind_eq_ok h
    cases opened with
    | some token =>
      obtain ⟨_, rfl⟩ := pure_eq_ok h
      exact Nat.lt_of_lt_of_le (length_of_take? ho) (forward_take? _ _ hc).length_le
    | none => exact absurd h reject_ne_ok

theorem forward_braceRound (o : OpenScopes) : Forward (braceRound o) := by
  refine (forward_take? _ _).bind fun closed => ?_
  cases closed with
  | some token => exact .pure _
  | none =>
    refine (forward_take? _ _).bind fun opened => ?_
    cases opened with
    | some token => exact .pure _
    | none => exact forward_reject

/-- Reads a scope after its opening brace, through the brace that closes it. -/
def nestedScope : Rule Scope := rewinding (loop braceRound advancing_braceRound .outermost)

theorem forward_nestedScope : Forward nestedScope := (forward_loop forward_braceRound _).rewinding

def entryRound (found : List Scope) : Rule (Round (List Scope) Scope) := do
  let c ← get
  if c.allParsed then pure (.done (.global found.reverse))
  else
    match ← take? openBrace .skipped with
    | some _ => do
      let entry ← nestedScope
      pure (.again (entry :: found))
    | none => reject

theorem forward_get : Forward (get : Rule Cursor) := by
  intro c a d h
  cases h
  exact .refl c

theorem advancing_entryRound : Advancing entryRound := by
  intro found start more e h
  obtain ⟨c, b, hg, h⟩ := bind_eq_ok h
  cases hg
  split at h
  · cases h
  · obtain ⟨opened, d, ho, h⟩ := bind_eq_ok h
    cases opened with
    | some token =>
      obtain ⟨entry, e, hn, h⟩ := bind_eq_ok h
      obtain ⟨_, rfl⟩ := pure_eq_ok h
      exact Nat.lt_of_le_of_lt (forward_nestedScope hn).length_le (length_of_take? ho)
    | none => exact absurd h reject_ne_ok

theorem forward_entryRound (found : List Scope) : Forward (entryRound found) := by
  refine forward_get.bind fun c => ?_
  split
  · exact .pure _
  · refine (forward_take? _ _).bind fun opened => ?_
    cases opened with
    | some token => exact forward_nestedScope.bind fun _ => .pure _
    | none => exact forward_reject

/-- Reads all that is left as the global scope, which only the end closes. -/
def globalScope : Rule Scope := do
  note fun c => .readingGlobal c.pos
  rewinding (loop entryRound advancing_entryRound [])

end FrontEnd.Rule
