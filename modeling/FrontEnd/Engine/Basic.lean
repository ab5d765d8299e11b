namespace FrontEnd.Engine

/-- What an engine calls: the step of its state, and four hooks of its patterns. Every hook may
change the pattern it is called on; asking leaves the state alone. -/
structure Hooks (ε σ π : Type) where
  advance : σ → Except ε σ
  ask : π → σ → Except ε (Bool × π)
  enter : π → σ → Except ε (π × σ)
  stay : π → σ → Except ε (π × σ)
  leave : π → σ → Except ε (π × σ)

/-- The patterns with one of them in hand; the ones before it are kept nearest first. -/
structure Focus (π : Type) where
  before : List π
  inHand : π
  after : List π

namespace Focus

variable {π : Type}

def patterns (f : Focus π) : List π := f.before.reverseAux (f.inHand :: f.after)

def index (f : Focus π) : Nat := f.before.length

def put (f : Focus π) (p : π) : Focus π := ⟨f.before, p, f.after⟩

theorem patterns_eq (f : Focus π) : f.patterns = f.before.reverse ++ f.inHand :: f.after :=
  List.reverseAux_eq

@[simp] theorem getElem?_index (f : Focus π) : f.patterns[f.index]? = some f.inHand := by
  rw [patterns_eq, index, List.getElem?_append_right (by simp)]
  simp

@[simp] theorem patterns_put (f : Focus π) (p : π) :
    (f.put p).patterns = f.patterns.set f.index p := by
  rw [patterns_eq, patterns_eq, index, ← List.length_reverse]
  simp [put]

end Focus

/-- Which call comes next for the pattern in hand. -/
inductive Phase where
  | asking
  | entering
  | advancing
  | testing
  | staying
  | leaving (last : Bool)
  deriving DecidableEq, Repr

/-- Where a run stands: between two calls, at its goal, or at a state that no pattern accepts. -/
inductive Config (σ π : Type) where
  | running (phase : Phase) (focus : Focus π) (state : σ)
  | reached (patterns : List π) (state : σ)
  | unmatched (patterns : List π) (state : σ)

namespace Config

variable {σ π : Type}

def patterns : Config σ π → List π
  | running _ focus _ => focus.patterns
  | reached patterns _ => patterns
  | unmatched patterns _ => patterns

def state : Config σ π → σ
  | running _ _ state => state
  | reached _ state => state
  | unmatched _ state => state

end Config

inductive Call where
  | ask (pattern : Nat) (accepted : Bool)
  | enter (pattern : Nat)
  | advance
  | stay (pattern : Nat)
  | leave (pattern : Nat)
  deriving DecidableEq, Repr

section

variable {ε σ π : Type}

def searchFrom (before after : List π) (state : σ) : Config σ π :=
  match after with
  | [] => .unmatched before.reverse state
  | p :: rest => .running .asking ⟨before, p, rest⟩ state

def search (patterns : List π) (state : σ) : Config σ π := searchFrom [] patterns state

/-- A state that is at the goal from the start is left alone. -/
def start (goal : σ → Bool) (patterns : List π) (state : σ) : Config σ π :=
  if goal state then .reached patterns state else search patterns state

/-- Makes the next call. A pattern in hand is entered once, then the state advances and the pattern
stays for as long as it accepts, and it is left once, at the goal or when it refuses. -/
def step (hooks : Hooks ε σ π) (goal : σ → Bool) (phase : Phase) (focus : Focus π) (state : σ) :
    Except ε (Call × Config σ π) :=
  match phase with
  | .asking =>
    match hooks.ask focus.inHand state with
    | .error e => .error e
    | .ok (true, p) => .ok (.ask focus.index true, .running .entering (focus.put p) state)
    | .ok (false, p) =>
      .ok (.ask focus.index false, searchFrom (p :: focus.before) focus.after state)
  | .entering =>
    match hooks.enter focus.inHand state with
    | .error e => .error e
    | .ok (p, s) => .ok (.enter focus.index, .running .advancing (focus.put p) s)
  | .advancing =>
    match hooks.advance state with
    | .error e => .error e
    | .ok s => .ok (.advance, .running (if goal s then .leaving true else .testing) focus s)
  | .testing =>
    match hooks.ask focus.inHand state with
    | .error e => .error e
    | .ok (accepted, p) =>
      .ok (.ask focus.index accepted,
        .running (if accepted then .staying else .leaving false) (focus.put p) state)
  | .staying =>
    match hooks.stay focus.inHand state with
    | .error e => .error e
    | .ok (p, s) => .ok (.stay focus.index, .running .advancing (focus.put p) s)
  | .leaving last =>
    match hooks.leave focus.inHand state with
    | .error e => .error e
    | .ok (p, s) =>
      let patterns := (focus.put p).patterns
      .ok (.leave focus.index, if last then .reached patterns s else search patterns s)

/-- Makes calls until the run ends, but at most `fuel` of them. -/
def run (hooks : Hooks ε σ π) (goal : σ → Bool) : Nat → Config σ π → Except ε (Config σ π)
  | fuel + 1, .running phase focus state =>
    match step hooks goal phase focus state with
    | .error e => .error e
    | .ok (_, next) => run hooks goal fuel next
  | _, config => .ok config

/-- The calls that `run` makes, each with the configuration after it. -/
def trace (hooks : Hooks ε σ π) (goal : σ → Bool) : Nat → Config σ π → List (Call × Config σ π)
  | fuel + 1, .running phase focus state =>
    match step hooks goal phase focus state with
    | .error _ => []
    | .ok (call, next) => (call, next) :: trace hooks goal fuel next
  | _, _ => []

variable {hooks : Hooks ε σ π} {goal : σ → Bool}

@[simp] theorem patterns_searchFrom (before after : List π) (state : σ) :
    (searchFrom before after state).patterns = before.reverse ++ after := by
  cases after with
  | nil => exact (List.append_nil _).symm
  | cons p rest => exact Focus.patterns_eq _

@[simp] theorem state_searchFrom (before after : List π) (state : σ) :
    (searchFrom before after state).state = state := by
  cases after <;> rfl

@[simp] theorem patterns_search (patterns : List π) (state : σ) :
    (search patterns state).patterns = patterns := patterns_searchFrom [] patterns state

@[simp] theorem state_search (patterns : List π) (state : σ) :
    (search patterns state).state = state := state_searchFrom [] patterns state

@[simp] theorem patterns_start (goal : σ → Bool) (patterns : List π) (state : σ) :
    (start goal patterns state).patterns = patterns := by
  unfold start
  split
  · rfl
  · exact patterns_search patterns state

@[simp] theorem state_start (goal : σ → Bool) (patterns : List π) (state : σ) :
    (start goal patterns state).state = state := by
  unfold start
  split
  · rfl
  · exact state_search patterns state

@[simp] theorem run_reached (fuel : Nat) (patterns : List π) (state : σ) :
    run hooks goal fuel (.reached patterns state) = .ok (.reached patterns state) := by
  cases fuel <;> rfl

theorem run_succ {fuel : Nat} {phase : Phase} {focus : Focus π} {state : σ} {call : Call}
    {next : Config σ π} (h : step hooks goal phase focus state = .ok (call, next)) :
    run hooks goal (fuel + 1) (.running phase focus state) = run hooks goal fuel next := by
  rw [run, h]

end

end FrontEnd.Engine
