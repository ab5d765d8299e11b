import FrontEnd.Engine.Basic

namespace FrontEnd.Engine

variable {ε σ π : Type} {hooks : Hooks ε σ π} {goal : σ → Bool}

def Config.Ended : Config σ π → Prop
  | .running .. => False
  | _ => True

/-- Where the invariant holds the next call succeeds, keeps it, and leaves less to do. -/
def Keeps (hooks : Hooks ε σ π) (goal : σ → Bool) (I : Config σ π → Prop)
    (cost : Config σ π → Nat) : Prop :=
  ∀ phase focus state, I (.running phase focus state) →
    ∃ call next, step hooks goal phase focus state = .ok (call, next) ∧ I next ∧
      cost next < cost (.running phase focus state)

/-- As `Keeps`, but the next call may also fail in a way that is foreseen. -/
def KeepsOr (foreseen : ε → Prop) (hooks : Hooks ε σ π) (goal : σ → Bool) (I : Config σ π → Prop)
    (cost : Config σ π → Nat) : Prop :=
  ∀ phase focus state, I (.running phase focus state) →
    (∃ call next, step hooks goal phase focus state = .ok (call, next) ∧ I next ∧
      cost next < cost (.running phase focus state)) ∨
    ∃ e, step hooks goal phase focus state = .error e ∧ foreseen e ∧
      0 < cost (.running phase focus state)

theorem KeepsOr.run {foreseen : ε → Prop} {I : Config σ π → Prop} {cost : Config σ π → Nat}
    (h : KeepsOr foreseen hooks goal I cost) {fuel : Nat} {c : Config σ π} (hc : I c)
    (hf : cost c ≤ fuel) :
    (∃ d, Engine.run hooks goal fuel c = .ok d ∧ I d ∧ d.Ended) ∨
      ∃ e, Engine.run hooks goal fuel c = .error e ∧ foreseen e := by
  induction fuel generalizing c with
  | zero =>
    cases c with
    | running phase focus state =>
      rcases h phase focus state hc with ⟨_, _, _, _, hlt⟩ | ⟨_, _, _, hlt⟩
      · omega
      · omega
    | reached patterns state => exact .inl ⟨_, rfl, hc, trivial⟩
    | unmatched patterns state => exact .inl ⟨_, rfl, hc, trivial⟩
  | succ fuel ih =>
    cases c with
    | running phase focus state =>
      rcases h phase focus state hc with ⟨call, next, hs, hn, hlt⟩ | ⟨e, hs, he, _⟩
      · rw [run_succ hs]
        exact ih hn (by omega)
      · exact .inr ⟨e, by rw [Engine.run, hs], he⟩
    | reached patterns state => exact .inl ⟨_, rfl, hc, trivial⟩
    | unmatched patterns state => exact .inl ⟨_, rfl, hc, trivial⟩

theorem Keeps.run {I : Config σ π → Prop} {cost : Config σ π → Nat}
    (h : Keeps hooks goal I cost) {fuel : Nat} {c : Config σ π} (hc : I c) (hf : cost c ≤ fuel) :
    ∃ d, run hooks goal fuel c = .ok d ∧ I d ∧ d.Ended := by
  have hnone : KeepsOr (fun _ => False) hooks goal I cost :=
    fun phase focus state hI => .inl (h phase focus state hI)
  rcases hnone.run hc hf with hd | ⟨e, _, hfalse⟩
  · exact hd
  · exact hfalse.elim

/-- The invariant holds after any number of calls, and none of them fails. -/
theorem Keeps.run_after {I : Config σ π → Prop} {cost : Config σ π → Nat}
    (h : Keeps hooks goal I cost) {c : Config σ π} (hc : I c) (calls : Nat) :
    ∃ d, Engine.run hooks goal calls c = .ok d ∧ I d := by
  induction calls generalizing c with
  | zero => exact ⟨c, by cases c <;> rfl, hc⟩
  | succ calls ih =>
    cases c with
    | running phase focus state =>
      obtain ⟨call, next, hs, hn, _⟩ := h phase focus state hc
      rw [run_succ hs]
      exact ih hn
    | reached patterns state => exact ⟨_, rfl, hc⟩
    | unmatched patterns state => exact ⟨_, rfl, hc⟩

end FrontEnd.Engine
