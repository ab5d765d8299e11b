import FrontEnd.Grammar.TypeExpr
import FrontEnd.Tree.Argument

namespace FrontEnd.Rule

def comma : Pattern := .mark ","

def closeParen : Pattern := .mark ")"

def modeAmong : List Mode → Rule Mode
  | [] => pure .default
  | m :: ms => do
    match ← take? (.keyword m.keyword) .skipped with
    | some _ => pure m
    | none => modeAmong ms

def argumentType : Rule (Option TypeExpr) := do
  match ← take? colon .skipped with
  | some _ => do
    let type ← typeExpr
    pure (some type)
  | none => pure none

/-- An argument without a name is dropped. -/
def argumentOf (mode : Mode) (name : Option Token) (type : Option TypeExpr) :
    Rule (Option Argument) :=
  match name with
  | some name => pure (some ⟨mode, name, type⟩)
  | none => do
    note fun _ => .unnamedDropped
    pure none

def argument : Rule (Option Argument) := do
  let mode ← modeAmong Mode.all
  let name ← take? anyIdentifier .skipped
  let type ← argumentType
  argumentOf mode name type

theorem forward_modeAmong (modes : List Mode) : Forward (modeAmong modes) := by
  induction modes with
  | nil => exact .pure _
  | cons m ms ih =>
    refine (forward_take? _ _).bind fun found => ?_
    cases found with
    | some token => exact .pure _
    | none => exact ih

theorem forward_argumentType : Forward argumentType := by
  refine (forward_take? _ _).bind fun found => ?_
  cases found with
  | some token => exact forward_typeExpr.bind fun _ => .pure _
  | none => exact .pure _

theorem forward_argumentOf (mode : Mode) (name : Option Token) (type : Option TypeExpr) :
    Forward (argumentOf mode name type) := by
  cases name with
  | some name => exact .pure _
  | none => exact (forward_note _).bind fun _ => .pure _

theorem forward_argument : Forward argument :=
  (forward_modeAmong _).bind fun _ => (forward_take? _ _).bind fun _ =>
    forward_argumentType.bind fun _ => forward_argumentOf _ _ _

/-- After a comma there is another argument, so a parenthesis may not close the list. -/
def afterComma (found : List Argument) : Rule (Round (List Argument) (List Argument)) := do
  let closed ← ask (·.peek [closeParen])
  if closed then reject else pure (.again found)

def afterLast (found : List Argument) : Rule (Round (List Argument) (List Argument)) := do
  match ← take? closeParen .skipped with
  | some _ => pure (.done found.reverse)
  | none => reject

def argumentRound (found : List Argument) : Rule (Round (List Argument) (List Argument)) := do
  let read ← argument
  match ← take? comma .skipped with
  | some _ => afterComma (read.toList ++ found)
  | none => afterLast (read.toList ++ found)

theorem forward_afterComma (found : List Argument) : Forward (afterComma found) := by
  refine (forward_ask _).bind fun closed => ?_
  cases closed with
  | true => exact forward_reject
  | false => exact .pure _

theorem forward_afterLast (found : List Argument) : Forward (afterLast found) := by
  refine (forward_take? _ _).bind fun closed => ?_
  cases closed with
  | some token => exact .pure _
  | none => exact forward_reject

theorem advancing_argumentRound : Advancing argumentRound := by
  intro found start more f h
  obtain ⟨read, c, ha, h⟩ := bind_eq_ok h
  obtain ⟨separator, d, hc, h⟩ := bind_eq_ok h
  cases separator with
  | some token =>
    have := (forward_argument ha).length_le
    have := length_of_take? hc
    have := (forward_afterComma _ h).length_le
    omega
  | none =>
    obtain ⟨closed, e, _, h⟩ := bind_eq_ok h
    cases closed with
    | some token => cases h
    | none => exact absurd h reject_ne_ok

theorem forward_argumentRound (found : List Argument) : Forward (argumentRound found) := by
  refine forward_argument.bind fun read => (forward_take? _ _).bind fun separator => ?_
  cases separator with
  | some token => exact forward_afterComma _
  | none => exact forward_afterLast _

/-- Reads arguments through the closing parenthesis, which no comma may come right before. -/
def arguments : Rule (List Argument) := do
  note fun c => .readingArguments c.pos
  rewinding (loop argumentRound advancing_argumentRound [])

theorem forward_arguments : Forward arguments :=
  (forward_note _).bind fun _ => (forward_loop forward_argumentRound _).rewinding

end FrontEnd.Rule
