import FrontEnd.Engine.Counter
import FrontEnd.Proofs.Engine.Invariant

namespace FrontEnd.Engine

def refusals (count : Nat) : List Call := (List.range count).map (.ask · false)

/-- A pattern from its call of entry to its call of leave; it stays through some rounds. -/
structure Activation where
  pattern : Nat
  rounds : Nat

namespace Activation

def round (pattern : Nat) : List Call := [.advance, .ask pattern true, .stay pattern]

/-- The calls before the last step: the patterns before this one refuse, and it accepts. -/
def opening (a : Activation) : List Call :=
  refusals a.pattern ++
    (.ask a.pattern true :: .enter a.pattern :: (List.replicate a.rounds (round a.pattern)).flatten)

/-- After the last step the pattern is asked once more, unless the state is at the goal. -/
def ending (pattern : Nat) (atGoal : Bool) : List Call :=
  if atGoal then [.advance, .leave pattern]
  else [.advance, .ask pattern false, .leave pattern]

def calls (a : Activation) (atGoal : Bool) : List Call := a.opening ++ ending a.pattern atGoal

end Activation

/-- The calls of a run from its first search on: activations that end by a refusal, and then one
that ends at the goal, or a search that no pattern ends. -/
inductive Log (patterns : Nat) : Bool → List Call → Prop where
  | goal {a : Activation} (pattern_lt : a.pattern < patterns) : Log patterns true (a.calls true)
  | hole : Log patterns false (refusals patterns)
  | next {a : Activation} {reached : Bool} {log : List Call} (pattern_lt : a.pattern < patterns)
      (rest : Log patterns reached log) : Log patterns reached (a.calls false ++ log)

/-- What calls do to the patterns in all: each is left as often as it is entered, and on the way at
most one is entered and not left. -/
structure Balanced (log : List Call) : Prop where
  settled : ∀ i, log.count (.enter i) = log.count (.leave i)
  single : ∀ p, p <+: log → ∃ active : Option Nat, ∀ i,
    p.count (.enter i) = p.count (.leave i) + if active = some i then 1 else 0

theorem refusals_succ (count : Nat) :
    refusals (count + 1) = refusals count ++ [.ask count false] := by
  rw [refusals, List.range_succ, List.map_append]
  rfl

theorem Activation.opening_succ (pattern rounds : Nat) :
    opening ⟨pattern, rounds + 1⟩ = opening ⟨pattern, rounds⟩ ++ round pattern := by
  simp only [opening, List.replicate_succ', List.flatten_append, List.flatten_singleton,
    List.append_assoc, List.cons_append]

theorem Log.getLast?_goal {patterns : Nat} {log : List Call} (h : Log patterns true log) :
    0 < patterns ∧ ∃ i, log.getLast? = some (.leave i) := by
  generalize hreached : true = reached at h
  induction h with
  | @goal a pattern_lt =>
    refine ⟨Nat.zero_lt_of_lt pattern_lt, a.pattern, ?_⟩
    rw [Activation.calls, List.getLast?_append]
    rfl
  | hole => cases hreached
  | next pattern_lt _ ih =>
    obtain ⟨_, i, hi⟩ := ih hreached
    exact ⟨Nat.zero_lt_of_lt pattern_lt, i, by rw [List.getLast?_append, hi, Option.some_or]⟩

theorem Log.getLast?_hole {patterns : Nat} {log : List Call} (h : Log patterns false log)
    (hp : 0 < patterns) : ∃ i, log.getLast? = some (.ask i false) := by
  generalize hreached : false = reached at h
  induction h with
  | goal _ => cases hreached
  | hole =>
    obtain ⟨count, rfl⟩ := Nat.exists_eq_add_one.2 hp
    exact ⟨count, by rw [refusals_succ, List.getLast?_concat]⟩
  | next _ _ ih =>
    obtain ⟨i, hi⟩ := ih hreached
    exact ⟨i, by rw [List.getLast?_append, hi, Option.some_or]⟩

/-- The calls tell how a run ended. -/
theorem Log.not_hole_of_goal {patterns : Nat} {log : List Call} (h : Log patterns true log) :
    ¬Log patterns false log := by
  intro h'
  obtain ⟨hp, i, hleave⟩ := h.getLast?_goal
  obtain ⟨j, hask⟩ := h'.getLast?_hole hp
  cases hleave.symm.trans hask

section

variable {ε σ π : Type} {hooks : Hooks ε σ π} {goal : σ → Bool}

/-- All that a call can come to, with what its hook answered on the pattern in hand and the state. -/
inductive Stepped (hooks : Hooks ε σ π) (goal : σ → Bool) (focus : Focus π) (state : σ) :
    Phase → Call → Config σ π → Prop where
  | accepted {p : π} (answer : hooks.ask focus.inHand state = .ok (true, p)) :
      Stepped hooks goal focus state .asking (.ask focus.index true)
        (.running .entering (focus.put p) state)
  | refused {p : π} (answer : hooks.ask focus.inHand state = .ok (false, p)) :
      Stepped hooks goal focus state .asking (.ask focus.index false)
        (searchFrom (p :: focus.before) focus.after state)
  | entered {p : π} {s : σ} (effect : hooks.enter focus.inHand state = .ok (p, s)) :
      Stepped hooks goal focus state .entering (.enter focus.index)
        (.running .advancing (focus.put p) s)
  | advanced {s : σ} (effect : hooks.advance state = .ok s) :
      Stepped hooks goal focus state .advancing .advance
        (.running (if goal s then .leaving true else .testing) focus s)
  | kept {p : π} (answer : hooks.ask focus.inHand state = .ok (true, p)) :
      Stepped hooks goal focus state .testing (.ask focus.index true)
        (.running .staying (focus.put p) state)
  | dropped {p : π} (answer : hooks.ask focus.inHand state = .ok (false, p)) :
      Stepped hooks goal focus state .testing (.ask focus.index false)
        (.running (.leaving false) (focus.put p) state)
  | stayed {p : π} {s : σ} (effect : hooks.stay focus.inHand state = .ok (p, s)) :
      Stepped hooks goal focus state .staying (.stay focus.index)
        (.running .advancing (focus.put p) s)
  | leftAtGoal {p : π} {s : σ} (effect : hooks.leave focus.inHand state = .ok (p, s)) :
      Stepped hooks goal focus state (.leaving true) (.leave focus.index)
        (.reached (focus.put p).patterns s)
  | left {p : π} {s : σ} (effect : hooks.leave focus.inHand state = .ok (p, s)) :
      Stepped hooks goal focus state (.leaving false) (.leave focus.index)
        (search (focus.put p).patterns s)

theorem stepped_of_step {phase : Phase} {focus : Focus π} {state : σ} {call : Call}
    {next : Config σ π} (h : step hooks goal phase focus state = .ok (call, next)) :
    Stepped hooks goal focus state phase call next := by
  cases phase with
  | asking =>
    simp only [step] at h
    split at h
    · cases h
    · next p hanswer =>
      cases h
      exact .accepted hanswer
    · next p hanswer =>
      cases h
      exact .refused hanswer
  | entering =>
    simp only [step] at h
    split at h
    · cases h
    · next p s heffect =>
      cases h
      exact .entered heffect
  | advancing =>
    simp only [step] at h
    split at h
    · cases h
    · next s heffect =>
      cases h
      exact .advanced heffect
  | testing =>
    simp only [step] at h
    split at h
    · cases h
    · next accepted p hanswer =>
      cases h
      cases accepted with
      | true => exact .kept hanswer
      | false => exact .dropped hanswer
  | staying =>
    simp only [step] at h
    split at h
    · cases h
    · next p s heffect =>
      cases h
      exact .stayed heffect
  | leaving last =>
    simp only [step] at h
    split at h
    · cases h
    · next p s heffect =>
      cases h
      cases last with
      | true => exact .leftAtGoal heffect
      | false => exact .left heffect

theorem trace_induction {P : Config σ π → List (Call × Config σ π) → Prop} {d : Config σ π}
    (hd : d.Ended) (ended : P d [])
    (stepped : ∀ {phase focus state call next events},
      Stepped hooks goal focus state phase call next → P next events →
        P (.running phase focus state) ((call, next) :: events))
    {fuel : Nat} {c : Config σ π} (hrun : run hooks goal fuel c = .ok d) :
    P c (trace hooks goal fuel c) := by
  induction fuel generalizing c with
  | zero =>
    have htrace : trace hooks goal 0 c = [] := by cases c <;> rfl
    have hlast : run hooks goal 0 c = .ok c := by cases c <;> rfl
    cases hlast.symm.trans hrun
    rw [htrace]
    exact ended
  | succ fuel ih =>
    cases c with
    | reached patterns state =>
      cases hrun
      exact ended
    | unmatched patterns state =>
      cases hrun
      exact ended
    | running phase focus state =>
      cases hstep : step hooks goal phase focus state with
      | error e =>
        rw [run, hstep] at hrun
        cases hrun
      | ok result =>
        obtain ⟨call, next⟩ := result
        rw [run_succ hstep] at hrun
        rw [trace, hstep]
        exact stepped (stepped_of_step hstep) (ih hrun)

theorem Focus.length_patterns (f : Focus π) :
    f.patterns.length = f.before.length + (f.after.length + 1) := by
  rw [patterns, List.reverseAux_eq, List.length_append, List.length_reverse, List.length_cons]

theorem Focus.index_lt (f : Focus π) : f.index < f.patterns.length := by
  rw [length_patterns, index]
  omega

@[simp] theorem Focus.length_put (f : Focus π) (p : π) :
    (f.put p).patterns.length = f.patterns.length := by
  rw [patterns_put, List.length_set]

def opened (pattern rounds : Nat) : Phase → List Call
  | .asking => refusals pattern
  | .entering => refusals pattern ++ [.ask pattern true]
  | .advancing => Activation.opening ⟨pattern, rounds⟩
  | .testing => Activation.opening ⟨pattern, rounds⟩ ++ [.advance]
  | .staying => Activation.opening ⟨pattern, rounds⟩ ++ [.advance, .ask pattern true]
  | .leaving true => Activation.opening ⟨pattern, rounds⟩ ++ [.advance]
  | .leaving false => Activation.opening ⟨pattern, rounds⟩ ++ [.advance, .ask pattern false]

/-- The calls made since the last activation that ended by a refusal. -/
def Made (count : Nat) : Config σ π → List Call → Prop
  | .running phase focus _, log =>
    focus.patterns.length = count ∧ ∃ rounds, log = opened focus.index rounds phase
  | .reached patterns _, log =>
    patterns.length = count ∧ ∃ a : Activation, a.pattern < count ∧ log = a.calls true
  | .unmatched patterns _, log => patterns.length = count ∧ log = refusals count

theorem made_searchFrom (before after : List π) (state : σ) :
    Made (before.length + after.length) (searchFrom before after state)
      (refusals before.length) := by
  cases after with
  | nil => exact ⟨List.length_reverse, rfl⟩
  | cons p rest => exact ⟨Focus.length_patterns _, 0, rfl⟩

theorem made_search (patterns : List π) (state : σ) :
    Made patterns.length (search patterns state) [] := by
  have h := made_searchFrom [] patterns state
  rw [List.length_nil, Nat.zero_add] at h
  exact h

theorem Made.step {count : Nat} {phase : Phase} {focus : Focus π} {state : σ} {call : Call}
    {next : Config σ π} {log : List Call} (h : Made count (.running phase focus state) log)
    (hstep : Stepped hooks goal focus state phase call next) :
    Made count next (log ++ [call]) ∨
      ∃ a : Activation, a.pattern < count ∧ log ++ [call] = a.calls false ∧ Made count next [] := by
  obtain ⟨rfl, rounds, rfl⟩ := h
  have hlt := focus.index_lt
  cases hstep with
  | accepted _ => exact .inl ⟨focus.length_put _, rounds, rfl⟩
  | @refused p _ =>
    have hmade := made_searchFrom (p :: focus.before) focus.after state
    rw [List.length_cons, Nat.add_right_comm, Nat.add_assoc, ← focus.length_patterns,
      refusals_succ] at hmade
    exact .inl hmade
  | entered _ =>
    refine .inl ⟨focus.length_put _, 0, ?_⟩
    rw [opened, List.append_assoc]
    rfl
  | advanced _ =>
    refine .inl ⟨rfl, rounds, ?_⟩
    split <;> rfl
  | kept _ => exact .inl ⟨focus.length_put _, rounds, List.append_assoc _ _ _⟩
  | dropped _ => exact .inl ⟨focus.length_put _, rounds, List.append_assoc _ _ _⟩
  | stayed _ =>
    exact .inl ⟨focus.length_put _, rounds + 1,
      (List.append_assoc _ _ _).trans (Activation.opening_succ focus.index rounds).symm⟩
  | leftAtGoal _ =>
    exact .inl ⟨focus.length_put _, ⟨focus.index, rounds⟩, hlt, List.append_assoc _ _ _⟩
  | @left p s _ =>
    refine .inr ⟨⟨focus.index, rounds⟩, hlt, List.append_assoc _ _ _, ?_⟩
    rw [← focus.length_put p]
    exact made_search _ s

def Config.isReached : Config σ π → Bool
  | .reached _ _ => true
  | _ => false

theorem log_of_run {count fuel : Nat} {c d : Config σ π} {log : List Call} (h : Made count c log)
    (hrun : run hooks goal fuel c = .ok d) (hd : d.Ended) :
    d.patterns.length = count ∧
      Log count d.isReached (log ++ (trace hooks goal fuel c).map Prod.fst) := by
  refine trace_induction (P := fun c events => ∀ log, Made count c log → d.patterns.length = count ∧
    Log count d.isReached (log ++ events.map Prod.fst)) hd ?_ ?_ hrun log h
  · intro log h
    rw [List.map_nil, List.append_nil]
    cases d with
    | running phase focus state => exact hd.elim
    | reached patterns state =>
      obtain ⟨hlength, a, hlt, rfl⟩ := h
      exact ⟨hlength, .goal hlt⟩
    | unmatched patterns state =>
      obtain ⟨hlength, rfl⟩ := h
      exact ⟨hlength, .hole⟩
  · intro phase focus state call next events hstep ih log h
    rw [List.map_cons, ← List.singleton_append, ← List.append_assoc]
    rcases h.step hstep with hnext | ⟨a, hlt, hcalls, hnext⟩
    · exact ih _ hnext
    · obtain ⟨hlength, hrest⟩ := ih _ hnext
      rw [hcalls]
      exact ⟨hlength, .next hlt hrest⟩

/-- The pattern that is entered and not left. -/
def Config.active? : Config σ π → Option Nat
  | .running .asking _ _ => none
  | .running .entering _ _ => none
  | .running _ focus _ => some focus.index
  | _ => none

def held (active : Option Nat) (i : Nat) : Nat := if active = some i then 1 else 0

theorem count_enter (j i : Nat) : [Call.enter j].count (.enter i) = held (some j) i := by
  simp [held, List.count_singleton]

theorem count_leave (j i : Nat) : [Call.leave j].count (.leave i) = held (some j) i := by
  simp [held, List.count_singleton]

@[simp] theorem active?_searchFrom (before after : List π) (state : σ) :
    (searchFrom before after state).active? = none := by
  cases after <;> rfl

theorem Stepped.held_eq {phase : Phase} {focus : Focus π} {state : σ} {call : Call}
    {next : Config σ π} (h : Stepped hooks goal focus state phase call next) (i : Nat) :
    [call].count (.enter i) + held (Config.running phase focus state).active? i =
      [call].count (.leave i) + held next.active? i := by
  cases h with
  | accepted | kept | dropped | stayed => rfl
  | refused _ =>
    rw [active?_searchFrom]
    rfl
  | @advanced s _ =>
    have hnext : (Config.running (if goal s then .leaving true else .testing) focus s).active? =
        some focus.index := by
      split <;> rfl
    rw [hnext]
    rfl
  | entered _ =>
    rw [count_enter]
    exact (Nat.zero_add _).symm
  | leftAtGoal _ =>
    rw [count_leave]
    exact Nat.zero_add _
  | left _ =>
    rw [count_leave, search, active?_searchFrom]
    exact Nat.zero_add _

theorem held_of_prefix {fuel : Nat} {c d : Config σ π} (hrun : run hooks goal fuel c = .ok d)
    (hd : d.Ended) : ∀ p, p <+: (trace hooks goal fuel c).map Prod.fst → ∃ active, ∀ i,
      p.count (.enter i) + held c.active? i = p.count (.leave i) + held active i := by
  refine trace_induction (P := fun c events => ∀ p, p <+: events.map Prod.fst → ∃ active, ∀ i,
    p.count (.enter i) + held c.active? i = p.count (.leave i) + held active i) hd ?_ ?_ hrun
  · intro p hp
    rw [List.prefix_nil.1 hp]
    exact ⟨d.active?, fun _ => rfl⟩
  · intro phase focus state call next events hstep ih p hp
    rcases List.prefix_cons_iff.1 hp with rfl | ⟨q, rfl, hq⟩
    · exact ⟨_, fun _ => rfl⟩
    · obtain ⟨active, hactive⟩ := ih q hq
      refine ⟨active, fun i => ?_⟩
      have hcall := hstep.held_eq i
      have hmore := hactive i
      rw [← List.singleton_append, List.count_append, List.count_append]
      dsimp only
      omega

theorem held_of_run {fuel : Nat} {c d : Config σ π} (hrun : run hooks goal fuel c = .ok d)
    (hd : d.Ended) (i : Nat) : ((trace hooks goal fuel c).map Prod.fst).count (.enter i) +
      held c.active? i = ((trace hooks goal fuel c).map Prod.fst).count (.leave i) := by
  refine trace_induction (P := fun c events => (events.map Prod.fst).count (.enter i) +
    held c.active? i = (events.map Prod.fst).count (.leave i)) hd ?_ ?_ hrun
  · cases d with
    | running phase focus state => exact hd.elim
    | reached patterns state => rfl
    | unmatched patterns state => rfl
  · intro phase focus state call next events hstep ih
    have hcall := hstep.held_eq i
    rw [List.map_cons, ← List.singleton_append, List.count_append, List.count_append]
    dsimp only
    omega

theorem balanced_nil : Balanced [] where
  settled := fun _ => rfl
  single := by
    intro p hp
    rw [List.prefix_nil.1 hp]
    exact ⟨none, fun _ => rfl⟩

theorem balanced_of_run {fuel : Nat} {c d : Config σ π} (hrun : run hooks goal fuel c = .ok d)
    (hd : d.Ended) (hc : c.active? = none) : Balanced ((trace hooks goal fuel c).map Prod.fst) where
  settled := by
    intro i
    have h := held_of_run hrun hd i
    rw [hc] at h
    exact h
  single := by
    intro p hp
    obtain ⟨active, h⟩ := held_of_prefix hrun hd p hp
    rw [hc] at h
    exact ⟨active, h⟩

/-- A call runs its hook on the pattern of its number and on the state, and puts down what the hook
makes of them; an asked pattern answers what the call says. -/
inductive Performs (hooks : Hooks ε σ π) : Call → List π → σ → List π → σ → Prop where
  | ask {i : Nat} {accepted : Bool} {ps : List π} {p q : π} {s : σ} (at_index : ps[i]? = some p)
      (answer : hooks.ask p s = .ok (accepted, q)) :
      Performs hooks (.ask i accepted) ps s (ps.set i q) s
  | enter {i : Nat} {ps : List π} {p q : π} {s t : σ} (at_index : ps[i]? = some p)
      (effect : hooks.enter p s = .ok (q, t)) : Performs hooks (.enter i) ps s (ps.set i q) t
  | advance {ps : List π} {s t : σ} (effect : hooks.advance s = .ok t) :
      Performs hooks .advance ps s ps t
  | stay {i : Nat} {ps : List π} {p q : π} {s t : σ} (at_index : ps[i]? = some p)
      (effect : hooks.stay p s = .ok (q, t)) : Performs hooks (.stay i) ps s (ps.set i q) t
  | leave {i : Nat} {ps : List π} {p q : π} {s t : σ} (at_index : ps[i]? = some p)
      (effect : hooks.leave p s = .ok (q, t)) : Performs hooks (.leave i) ps s (ps.set i q) t

/-- Calls performed one after the other, each on what the one before it led to. -/
inductive Performed (hooks : Hooks ε σ π) :
    List π → σ → List (Call × Config σ π) → List π → σ → Prop where
  | nil (ps : List π) (s : σ) : Performed hooks ps s [] ps s
  | cons {call : Call} {next : Config σ π} {events : List (Call × Config σ π)} {ps qs : List π}
      {s t : σ} (first : Performs hooks call ps s next.patterns next.state)
      (rest : Performed hooks next.patterns next.state events qs t) :
      Performed hooks ps s ((call, next) :: events) qs t

theorem Stepped.performs {phase : Phase} {focus : Focus π} {state : σ} {call : Call}
    {next : Config σ π} (h : Stepped hooks goal focus state phase call next) :
    Performs hooks call focus.patterns state next.patterns next.state := by
  have hhand := focus.getElem?_index
  cases h with
  | @refused p answer =>
    have hput : (p :: focus.before).reverse ++ focus.after = focus.patterns.set focus.index p := by
      rw [← focus.patterns_put p, Focus.patterns_eq, List.reverse_cons, List.append_assoc]
      rfl
    rw [patterns_searchFrom, state_searchFrom, hput]
    exact .ask hhand answer
  | accepted answer | kept answer | dropped answer =>
    rw [Config.patterns, Focus.patterns_put]
    exact .ask hhand answer
  | entered effect =>
    rw [Config.patterns, Focus.patterns_put]
    exact .enter hhand effect
  | advanced effect => exact .advance effect
  | stayed effect =>
    rw [Config.patterns, Focus.patterns_put]
    exact .stay hhand effect
  | leftAtGoal effect =>
    rw [Config.patterns, Focus.patterns_put]
    exact .leave hhand effect
  | left effect =>
    rw [patterns_search, state_search, Focus.patterns_put]
    exact .leave hhand effect

/-- The calls of a run are all that happens to the patterns and to the state. -/
theorem performed_of_run {fuel : Nat} {c d : Config σ π} (hrun : run hooks goal fuel c = .ok d)
    (hd : d.Ended) :
    Performed hooks c.patterns c.state (trace hooks goal fuel c) d.patterns d.state := by
  refine trace_induction
    (P := fun c events => Performed hooks c.patterns c.state events d.patterns d.state)
    hd (.nil _ _) ?_ hrun
  intro phase focus state call next events hstep ih
  exact .cons hstep.performs ih

/-- What is called next, where the last step of the state decides it. -/
def Follows : Config σ π → List Call → Prop
  | .running .testing _ _, log => ∃ i accepted more, log = .ask i accepted :: more
  | .running (.leaving true) _ _, log => ∃ i, log = [.leave i]
  | .reached _ _, log => log = []
  | _, _ => True

theorem Stepped.follows {phase : Phase} {focus : Focus π} {state : σ} {call : Call}
    {next : Config σ π} {log : List Call} (h : Stepped hooks goal focus state phase call next)
    (hnext : Follows next log) : Follows (.running phase focus state) (call :: log) := by
  cases h with
  | kept | dropped => exact ⟨_, _, _, rfl⟩
  | leftAtGoal _ =>
    rw [Follows] at hnext
    rw [hnext]
    exact ⟨_, rfl⟩
  | accepted | refused | entered | advanced | stayed | left => trivial

theorem stepped_of_trace {fuel : Nat} {c d : Config σ π} (hrun : run hooks goal fuel c = .ok d)
    (hd : d.Ended) : Follows c ((trace hooks goal fuel c).map Prod.fst) ∧
      ∀ before call e after, trace hooks goal fuel c = before ++ (call, e) :: after →
        (∃ phase focus state, Stepped hooks goal focus state phase call e) ∧
          Follows e (after.map Prod.fst) := by
  refine trace_induction (P := fun c events => Follows c (events.map Prod.fst) ∧
    ∀ before call e after, events = before ++ (call, e) :: after →
      (∃ phase focus state, Stepped hooks goal focus state phase call e) ∧
        Follows e (after.map Prod.fst)) hd ?_ ?_ hrun
  · constructor
    · cases d with
      | running phase focus state => exact hd.elim
      | reached patterns state => rfl
      | unmatched patterns state => trivial
    · intro before call e after hsplit
      cases before <;> cases hsplit
  · intro phase focus state call next events hstep ih
    constructor
    · exact hstep.follows ih.1
    · intro before call' e after hsplit
      cases before with
      | nil =>
        cases hsplit
        exact ⟨⟨phase, focus, state, hstep⟩, ih.1⟩
      | cons event before =>
        cases hsplit
        exact ih.2 before call' e after rfl

/-- After a step of the state the pattern in hand is left at once if the state is at the goal, and
asked if it is not. -/
theorem goal_iff_of_advance {fuel : Nat} {c d e : Config σ π}
    {before after : List (Call × Config σ π)}
    (hrun : run hooks goal fuel c = .ok d) (hd : d.Ended)
    (hsplit : trace hooks goal fuel c = before ++ (.advance, e) :: after) :
    goal e.state = true ↔ ∃ i, after.map Prod.fst = [.leave i] := by
  obtain ⟨⟨phase, focus, state, hstep⟩, hfollows⟩ :=
    (stepped_of_trace hrun hd).2 before .advance e after hsplit
  cases hstep with
  | @advanced s _ =>
    cases hgoal : goal s with
    | true =>
      rw [hgoal] at hfollows
      exact ⟨fun _ => hfollows, fun _ => hgoal⟩
    | false =>
      rw [hgoal] at hfollows
      obtain ⟨i, accepted, more, hlog⟩ := hfollows
      constructor
      · intro hreached
        exact Bool.noConfusion (hgoal.symm.trans hreached)
      · rintro ⟨j, hleave⟩
        cases hlog.symm.trans hleave

/-- The calls of a run that ends. None is made if the state starts at the goal. Else the run
reaches its goal by the last of some activations, or a search finds no pattern. Each call that is
told runs its hook, and nothing else changes the patterns or the state. -/
theorem log_keeps_protocol (patterns : List π) (state : σ) (fuel : Nat) (d : Config σ π)
    (hrun : run hooks goal fuel (start goal patterns state) = .ok d) (hd : d.Ended) :
    let events := trace hooks goal fuel (start goal patterns state)
    let log := events.map Prod.fst
    (goal state = true → log = [] ∧ d = .reached patterns state) ∧
      ((∃ ps s, d = .reached ps s) ↔ goal state = true ∨ Log patterns.length true log) ∧
      ((∃ ps s, d = .unmatched ps s) ↔ goal state = false ∧ Log patterns.length false log) ∧
      d.patterns.length = patterns.length ∧
      Performed hooks patterns state events d.patterns d.state ∧
      (∀ before c after, events = before ++ (.advance, c) :: after →
        (goal c.state = true ↔ ∃ i, after.map Prod.fst = [.leave i])) ∧
      Balanced log := by
  have hperformed := performed_of_run hrun hd
  rw [patterns_start, state_start] at hperformed
  cases hgoal : goal state with
  | true =>
    have hstart : start goal patterns state = .reached patterns state := by
      rw [start, if_pos hgoal]
    rw [hstart, run_reached] at hrun
    cases hrun
    have htrace : trace hooks goal fuel (.reached patterns state) = [] := by cases fuel <;> rfl
    rw [hstart, htrace]
    refine ⟨fun _ => ⟨rfl, rfl⟩, ⟨fun _ => .inl rfl, fun _ => ⟨_, _, rfl⟩⟩, ?_, rfl, .nil _ _, ?_,
      balanced_nil⟩
    · constructor
      · rintro ⟨ps, s, hunmatched⟩
        cases hunmatched
      · rintro ⟨hfalse, _⟩
        cases hfalse
    · intro before c after hsplit
      cases before <;> cases hsplit
  | false =>
    have hstart : start goal patterns state = search patterns state := by
      rw [start, if_neg (Bool.eq_false_iff.1 hgoal)]
    rw [hstart] at hrun hperformed ⊢
    obtain ⟨hlength, hlog⟩ := log_of_run (made_search patterns state) hrun hd
    rw [List.nil_append] at hlog
    refine ⟨(nomatch ·), ?_, ?_, hlength, hperformed, ?_, ?_⟩
    · constructor
      · rintro ⟨ps, s, rfl⟩
        exact .inr hlog
      · rintro (htrue | hgoal)
        · cases htrue
        · cases d with
          | running phase focus s => exact hd.elim
          | reached ps s => exact ⟨ps, s, rfl⟩
          | unmatched ps s => exact absurd hlog hgoal.not_hole_of_goal
    · constructor
      · rintro ⟨ps, s, rfl⟩
        exact ⟨rfl, hlog⟩
      · rintro ⟨_, hhole⟩
        cases d with
        | running phase focus s => exact hd.elim
        | reached ps s => exact absurd hhole (Log.not_hole_of_goal hlog)
        | unmatched ps s => exact ⟨ps, s, rfl⟩
    · intro before c after hsplit
      exact goal_iff_of_advance hrun hd hsplit
    · exact balanced_of_run hrun hd (active?_searchFrom [] patterns state)

end

/-- A watcher of the values up to six that moves the counter at each of its hooks. -/
def lowWatcher : Watcher := ⟨"low", [(0, 6)], some 3, 1, 2, 10, 0⟩

def highWatcher : Watcher := ⟨"high", [(18, 18)], none, 1, 0, 3, 0⟩

theorem log_keeps_protocol_to_hole :
    let hooks := Watcher.hooks 1
    let goal (c : Counter) : Bool := c.value == 50
    let start := start goal [lowWatcher, highWatcher] ⟨0, 0⟩
    let events := trace hooks goal 20 start
    let log := events.map Prod.fst
    let last : Config Counter Watcher := .unmatched [lowWatcher, highWatcher] ⟨23, 4⟩
    (run hooks goal 20 start = .ok last ∧ last.Ended) ∧
      Log 2 false log ∧ log.count (.enter 0) = log.count (.leave 0) ∧
      Performed hooks [lowWatcher, highWatcher] ⟨0, 0⟩ events [lowWatcher, highWatcher] ⟨23, 4⟩ ∧
      events.map (fun event => (event.1, event.2.state.value, event.2.patterns.map (·.used))) =
        [(.ask 0 true, 0, [0, 0]), (.enter 0, 1, [1, 0]), (.advance, 2, [1, 0]),
          (.ask 0 true, 2, [1, 0]), (.stay 0, 4, [2, 0]), (.advance, 5, [2, 0]),
          (.ask 0 true, 5, [2, 0]), (.stay 0, 7, [3, 0]), (.advance, 8, [3, 0]),
          (.ask 0 false, 8, [3, 0]), (.leave 0, 18, [0, 0]), (.ask 0 false, 18, [0, 0]),
          (.ask 1 true, 18, [0, 0]), (.enter 1, 19, [0, 1]), (.advance, 20, [0, 1]),
          (.ask 1 false, 20, [0, 1]), (.leave 1, 23, [0, 0]), (.ask 0 false, 23, [0, 0]),
          (.ask 1 false, 23, [0, 0])] := by
  intro hooks goal start events log last
  have hrun : run hooks goal 20 start = .ok last := rfl
  obtain ⟨_, _, hunmatched, _, hperformed, _, hbalanced⟩ := log_keeps_protocol _ _ _ _ hrun trivial
  obtain ⟨_, hlog⟩ := hunmatched.1 ⟨_, _, rfl⟩
  exact ⟨⟨hrun, trivial⟩, hlog, hbalanced.settled 0, hperformed, rfl⟩

end FrontEnd.Engine
