import FrontEnd.Fault

namespace FrontEnd.Offset

/-- Offsets, rows and columns are below this bound. -/
def bound : Nat := 4294967296

def add (m n : Nat) : Except Fault Nat :=
  if m + n < bound then .ok (m + n) else .error .overflow

def sub (m n : Nat) : Except Fault Nat :=
  if n ≤ m then .ok (m - n) else .error .overflow

theorem add_eq_ok {m n : Nat} (h : m + n < bound) : add m n = .ok (m + n) := if_pos h

theorem add_eq_error_iff {m n : Nat} {f : Fault} :
    add m n = .error f ↔ bound ≤ m + n ∧ f = .overflow := by
  unfold add
  split
  · simp only [reduceCtorEq, false_iff, not_and]
    omega
  · simp only [Except.error.injEq]
    constructor
    · rintro rfl
      exact ⟨by omega, rfl⟩
    · rintro ⟨_, rfl⟩
      rfl

end FrontEnd.Offset
