namespace FrontEnd

/-- Why an operation has no answer: a caller broke its contract, or a count left its range. -/
inductive Fault where
  | readPastPadding (pos : Nat)
  | sliceReversed (start stop : Nat)
  | sliceBeyondEnd (stop length : Nat)
  | tokenBeyondEnd (start stop length : Nat)
  | advancedPastEnd
  | snapshotBeyondEnd (pos length : Nat)
  | missing (index : Nat)
  | uncovered (patterns : Nat)
  | stalled
  | overflow
  deriving DecidableEq, Repr

namespace Fault

def uncoveredText (patterns : Nat) : String :=
  "none of the " ++ toString patterns ++ " patterns matched the current state"

def message : Fault → String
  | readPastPadding pos => "byte_at(" ++ toString pos ++ ") reads past the lookahead padding"
  | sliceReversed start stop => "slice start " ++ toString start ++ " exceeds end " ++ toString stop
  | sliceBeyondEnd stop length =>
    "slice end " ++ toString stop ++ " exceeds source length " ++ toString length
  | tokenBeyondEnd start stop length =>
    "token span " ++ toString start ++ ".." ++ toString stop ++ " exceeds source length "
      ++ toString length
  | advancedPastEnd => "scanner advanced past the end of input"
  | snapshotBeyondEnd pos length =>
    "snapshot position " ++ toString pos ++ " out of bounds (max " ++ toString length ++ ")"
  | missing index => "there is no entry " ++ toString index
  | uncovered patterns => "tokenizer patterns are not exhaustive: " ++ uncoveredText patterns
  | stalled => "the engine did not come to an end"
  | overflow => "a count left its range"

/-- An action on a state that may end in a fault. -/
def lift {σ α : Type} (result : Except Fault α) : EStateM Fault σ α := fun s =>
  match result with
  | .ok a => .ok a s
  | .error fault => .error fault s

@[simp] theorem get_bind {σ α : Type} (next : σ → EStateM Fault σ α) (s : σ) :
    (get >>= next) s = next s s := rfl

@[simp] theorem set_bind {σ α : Type} (t : σ) (next : PUnit → EStateM Fault σ α) (s : σ) :
    (set t >>= next) s = next ⟨⟩ t := rfl

theorem lift_bind {σ α β : Type} {result : Except Fault α} {a : α} (h : result = .ok a)
    (next : α → EStateM Fault σ β) (s : σ) : (lift result >>= next) s = next a s := by
  rw [h]
  rfl

theorem bind_eq_ok {α β : Type} {result : Except Fault α} {next : α → Except Fault β} {b : β} :
    result >>= next = .ok b ↔ ∃ a, result = .ok a ∧ next a = .ok b := by
  cases result with
  | error fault => simp [bind, Except.bind]
  | ok a => simp [bind, Except.bind]

theorem toOption_eq_some {α : Type} {result : Except Fault α} {a : α}
    (h : result.toOption = some a) : result = .ok a := by
  cases result with
  | error fault => cases h
  | ok b =>
    cases h
    rfl

end Fault

end FrontEnd
