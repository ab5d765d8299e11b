import FrontEnd.Engine.Basic
import FrontEnd.Fault

namespace FrontEnd.Engine

structure Counter where
  value : Int
  steps : Nat
  deriving DecidableEq, Repr

/-- A pattern that holds on ranges of values, up to `budget` times in a row if it has one, and moves
the counter when it is entered, kept and left. -/
structure Watcher where
  name : String
  ranges : List (Int × Int)
  budget : Option Int
  onEnter : Int
  onStay : Int
  onLeave : Int
  used : Int

namespace Watcher

def accepts (w : Watcher) (c : Counter) : Bool :=
  w.ranges.any (fun (low, high) => low ≤ c.value && c.value ≤ high)
    && w.budget.all (fun budget => w.used < budget)

def moved (c : Counter) (shift : Int) : Counter := { c with value := c.value + shift }

/-- The hooks of watchers over a counter that advances by `stride`; none of them can fail. -/
def hooks (stride : Int) : Hooks Empty Counter Watcher where
  advance c := .ok ⟨c.value + stride, c.steps + 1⟩
  ask w c := .ok (w.accepts c, w)
  enter w c := .ok ({ w with used := 1 }, moved c w.onEnter)
  stay w c := .ok ({ w with used := w.used + 1 }, moved c w.onStay)
  leave w c := .ok ({ w with used := 0 }, moved c w.onLeave)

end Watcher

/-- One run of a counter: from `first`, by `stride`, to `goal` or for `limit` steps. -/
structure Course where
  first : Int
  goal : Int
  limit : Nat
  stride : Int

namespace Course

def atGoal (course : Course) (c : Counter) : Bool :=
  c.value == course.goal || course.limit ≤ c.steps

def fuel (course : Course) (watchers : Nat) : Nat := (course.limit + 1) * (watchers + 5)

end Course

structure CounterRun where
  last : Config Counter Watcher
  calls : List (Call × Config Counter Watcher)

namespace CounterRun

def ofCourse (watchers : List Watcher) (course : Course) : CounterRun :=
  let hooks := Watcher.hooks course.stride
  let start := start course.atGoal watchers ⟨course.first, 0⟩
  let fuel := course.fuel watchers.length
  { last := match run hooks course.atGoal fuel start with
      | .ok config => config
      | .error e => nomatch e
    calls := trace hooks course.atGoal fuel start }

def inTurn (watchers : List Watcher) : List Course → List CounterRun
  | [] => []
  | course :: rest =>
    let run := ofCourse watchers course
    run :: inTurn run.last.patterns rest

def nameAt (config : Config Counter Watcher) (index : Nat) : String :=
  match config.patterns[index]? with
  | some w => w.name
  | none => ""

def line (call : Call) (config : Config Counter Watcher) : String :=
  let value := toString config.state.value
  match call with
  | .ask i accepted => nameAt config i ++ (if accepted then " yes" else " no")
  | .enter i => nameAt config i ++ " begin " ++ value
  | .advance => "advance " ++ value
  | .stay i => nameAt config i ++ " continue " ++ value
  | .leave i => nameAt config i ++ " end " ++ value

def log (r : CounterRun) : List String := r.calls.map fun (call, config) => line call config

end CounterRun

structure Tally where
  asked : Nat
  entered : Nat
  stayed : Nat
  left : Nat
  deriving DecidableEq, Repr

namespace Tally

def ofCalls (pattern : Nat) (calls : List Call) : Tally where
  asked := calls.countP fun call => call == .ask pattern true || call == .ask pattern false
  entered := calls.count (.enter pattern)
  stayed := calls.count (.stay pattern)
  left := calls.count (.leave pattern)

end Tally

end FrontEnd.Engine
