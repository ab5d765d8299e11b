import FrontEnd.Grammar.Rule
import FrontEnd.Tree.Name

namespace FrontEnd.Rule

def anyWhitespace : Pattern := .ofKind .whitespace

def anyIdentifier : Pattern := .ofKind .identifier

def colon : Pattern := .mark ":"

def separator : List Pattern := [colon, colon]

def unitRound (found : List NameUnit) : Rule (Round (List NameUnit) (List NameUnit)) := do
  match ← consume separator .significant with
  | some _ => pure (.again (.separator :: found))
  | none =>
    match ← take? anyIdentifier .significant with
    | some token => pure (.again (.ident token :: found))
    | none => pure (.done found.reverse)

theorem advancing_unitRound : Advancing unitRound := by
  intro found c more e h
  obtain ⟨colons, d, hs, h⟩ := bind_eq_ok h
  cases colons with
  | some tokens =>
    obtain ⟨_, rfl⟩ := pure_eq_ok h
    exact length_of_consume hs
  | none =>
    obtain ⟨token, e, hi, h⟩ := bind_eq_ok h
    cases token with
    | some token =>
      obtain ⟨_, rfl⟩ := pure_eq_ok h
      exact Nat.lt_of_lt_of_le (length_of_take? hi) (forward_consume _ _ hs).length_le
    | none => cases h

theorem forward_unitRound (found : List NameUnit) : Forward (unitRound found) := by
  refine (forward_consume _ _).bind fun colons => ?_
  cases colons with
  | some tokens => exact .pure _
  | none =>
    refine (forward_take? _ _).bind fun token => ?_
    cases token with
    | some token => exact .pure _
    | none => exact .pure _

def units : Rule (List NameUnit) := loop unitRound advancing_unitRound []

def nameOf (units : List NameUnit) : Rule QualifiedName :=
  match units.getLast? with
  | some (.ident _) => pure ⟨units⟩
  | _ => reject

/-- Reads a name after at most one whitespace token. -/
def name : Rule QualifiedName := do
  note fun c => .readingName c.pos
  rewinding do
    let _ ← take? anyWhitespace .significant
    let units ← units
    nameOf units

theorem forward_nameOf (units : List NameUnit) : Forward (nameOf units) := by
  unfold nameOf
  split
  · exact .pure _
  · exact forward_reject

theorem forward_name : Forward name :=
  (forward_note _).bind fun _ => Forward.rewinding <|
    (forward_take? _ _).bind fun _ => (forward_loop forward_unitRound _).bind forward_nameOf

end FrontEnd.Rule
