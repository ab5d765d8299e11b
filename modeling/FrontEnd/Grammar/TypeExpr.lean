import FrontEnd.Grammar.Name
import FrontEnd.Tree.TypeExpr

namespace FrontEnd.Rule

def constKeyword : Pattern := .keyword "const"

def star : Pattern := .exact .operator (bytesOf "*")

/-- Reads one level of a type below pointers whose `const` flags are given, innermost first. -/
def typeRound (around : List Bool) : Rule (Round (List Bool) TypeExpr) := do
  note fun c => .readingType c.pos
  let qualifier ← take? constKeyword .skipped
  match ← take? star .skipped with
  | some _ => pure (.again (qualifier.isSome :: around))
  | none => do
    let name ← name
    pure (.done (.under around (.named qualifier.isSome name)))

theorem advancing_typeRound : Advancing typeRound := by
  intro around start flags e h
  obtain ⟨_, b, hn, h⟩ := bind_eq_ok h
  obtain ⟨qualifier, c, hc, h⟩ := bind_eq_ok h
  obtain ⟨pointer, d, hs, h⟩ := bind_eq_ok h
  cases pointer with
  | some token =>
    obtain ⟨_, rfl⟩ := pure_eq_ok h
    have := (forward_note _ hn).length_le
    have := (forward_take? _ _ hc).length_le
    have := length_of_take? hs
    omega
  | none =>
    obtain ⟨name, e, _, h⟩ := bind_eq_ok h
    cases h

theorem forward_typeRound (around : List Bool) : Forward (typeRound around) := by
  refine (forward_note _).bind fun _ => (forward_take? _ _).bind fun qualifier =>
    (forward_take? _ _).bind fun pointer => ?_
  cases pointer with
  | some token => exact .pure _
  | none => exact forward_name.bind fun _ => .pure _

/-- Reads a type: `const` belongs to the level right behind it. -/
def typeExpr : Rule TypeExpr := rewinding (loop typeRound advancing_typeRound [])

theorem forward_typeExpr : Forward typeExpr := (forward_loop forward_typeRound _).rewinding

end FrontEnd.Rule
