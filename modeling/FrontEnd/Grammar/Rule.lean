import FrontEnd.Grammar.Cursor

namespace FrontEnd

/-- Why a rule gives no node: it rejects its input, or it cannot read a token. -/
inductive Failure where
  | rejected (error : SyntaxError)
  | broken (fault : Fault)

/-- A rule of the grammar reads a node at a cursor and moves past it, or fails. -/
abbrev Rule (α : Type) := EStateM Failure Cursor α

abbrev Outcome (α : Type) := EStateM.Result Failure Cursor α

namespace Rule

variable {α β : Type}

def moving (move : Cursor → Except Fault (α × Cursor)) : Rule α := fun c =>
  match move c with
  | .ok (a, d) => .ok a d
  | .error fault => .error (.broken fault) c

def consume (ps : List Pattern) (spacing : Spacing) : Rule (Option (List Token)) :=
  moving (·.consume ps spacing)

def take? (p : Pattern) (spacing : Spacing) : Rule (Option Token) := moving (·.take? p spacing)

def note (record : Cursor → Record) : Rule Unit := fun c => .ok () (c.note (record c))

def ask (question : Cursor → Except Fault α) : Rule α := fun c =>
  match question c with
  | .ok a => .ok a c
  | .error fault => .error (.broken fault) c

def reject : Rule α := fun c =>
  match c.syntaxError with
  | .ok error => .error (.rejected error) c
  | .error fault => .error (.broken fault) c

/-- Runs a rule; if it fails, the cursor goes back to where it was. -/
def rewinding (rule : Rule α) : Rule α := fun c =>
  match rule c with
  | .ok a d => .ok a d
  | .error e d => .error e (d.rewind c)

theorem moving_eq_ok {move : Cursor → Except Fault (α × Cursor)} {c d : Cursor} {a : α}
    (h : moving move c = .ok a d) : move c = .ok (a, d) := by
  unfold moving at h
  split at h
  · next hm => cases h; exact hm
  · simp at h

theorem pure_eq_ok {a b : α} {c d : Cursor} (h : (pure a : Rule α) c = .ok b d) :
    a = b ∧ c = d := by
  cases h
  exact ⟨rfl, rfl⟩

theorem bind_eq_ok {rule : Rule α} {next : α → Rule β} {c e : Cursor} {b : β}
    (h : (rule >>= next) c = .ok b e) : ∃ a d, rule c = .ok a d ∧ next a d = .ok b e := by
  change EStateM.bind rule next c = _ at h
  unfold EStateM.bind at h
  split at h
  · next a d hd => exact ⟨a, d, hd, h⟩
  · simp at h

theorem reject_ne_ok {a : α} {c d : Cursor} : (reject : Rule α) c ≠ .ok a d := by
  unfold reject
  split <;> simp

/-- A rule that succeeds never moves back. -/
def Forward (rule : Rule α) : Prop := ∀ ⦃c a d⦄, rule c = .ok a d → c.Reaches d

theorem Forward.pure (a : α) : Forward (pure a : Rule α) := by
  intro c b d h
  obtain ⟨_, rfl⟩ := pure_eq_ok h
  exact .refl c

theorem Forward.bind {rule : Rule α} {next : α → Rule β} (h : Forward rule)
    (h' : ∀ a, Forward (next a)) : Forward (rule >>= next) := by
  intro c b e he
  obtain ⟨a, d, hd, he⟩ := bind_eq_ok he
  exact (h hd).trans (h' a he)

theorem Forward.rewinding {rule : Rule α} (h : Forward rule) : Forward rule.rewinding := by
  intro c a d hd
  unfold Rule.rewinding at hd
  split at hd
  · next hr => cases hd; exact h hr
  · simp at hd

theorem forward_moving {move : Cursor → Except Fault (α × Cursor)}
    (h : ∀ ⦃c a d⦄, move c = .ok (a, d) → c.Reaches d) : Forward (moving move) :=
  fun _ _ _ hm => h (moving_eq_ok hm)

theorem forward_note (record : Cursor → Record) : Forward (note record) := by
  intro c a d h
  cases h
  exact ⟨[], rfl, rfl, List.suffix_cons _ _⟩

theorem forward_reject : Forward (reject : Rule α) := fun _ _ _ h => absurd h reject_ne_ok

theorem forward_consume (ps : List Pattern) (spacing : Spacing) : Forward (consume ps spacing) :=
  forward_moving fun _ _ _ h => Cursor.reaches_consume h

theorem forward_take? (p : Pattern) (spacing : Spacing) : Forward (take? p spacing) :=
  forward_moving fun _ _ _ h => Cursor.reaches_take? h

theorem forward_ask (question : Cursor → Except Fault α) : Forward (ask question) := by
  intro c a d h
  unfold ask at h
  split at h
  · cases h; exact .refl c
  · simp at h

theorem length_of_consume {p : Pattern} {ps : List Pattern} {spacing : Spacing} {c d : Cursor}
    {tokens : List Token} (h : consume (p :: ps) spacing c = .ok (some tokens) d) :
    d.rest.length < c.rest.length :=
  Cursor.length_of_consume (moving_eq_ok h)

theorem length_of_take? {p : Pattern} {spacing : Spacing} {c d : Cursor} {token : Token}
    (h : take? p spacing c = .ok (some token) d) : d.rest.length < c.rest.length :=
  Cursor.length_of_take? (moving_eq_ok h)

end Rule

/-- What a round of a loop comes to: another round, or the end of the loop. -/
inductive Round (σ α : Type) where
  | again (state : σ)
  | done (result : α)

namespace Rule

variable {σ α : Type}

/-- A round that leads to another one moves past a token. -/
def Advancing (body : σ → Rule (Round σ α)) : Prop :=
  ∀ ⦃s c t d⦄, body s c = .ok (.again t) d → d.rest.length < c.rest.length

/-- Makes rounds until one ends the loop or fails. -/
def loop (body : σ → Rule (Round σ α)) (h : Advancing body) (s : σ) (c : Cursor) : Outcome α :=
  match _hb : body s c with
  | .error e d => .error e d
  | .ok (.done a) d => .ok a d
  | .ok (.again t) d => loop body h t d
termination_by c.rest.length
decreasing_by exact h _hb

/-- What the rounds keep holds of the loop. -/
theorem loop_induction {body : σ → Rule (Round σ α)} {h : Advancing body}
    {P : σ → Cursor → Outcome α → Prop}
    (fails : ∀ s c e d, body s c = .error e d → P s c (.error e d))
    (ends : ∀ s c a d, body s c = .ok (.done a) d → P s c (.ok a d))
    (goesOn : ∀ s c t d, body s c = .ok (.again t) d → P t d (loop body h t d) →
      P s c (loop body h t d)) (s : σ) (c : Cursor) : P s c (loop body h s c) := by
  fun_induction loop body h s c with
  | case1 s c e d hb => exact fails s c e d hb
  | case2 s c a d hb => exact ends s c a d hb
  | case3 s c t d hb ih => exact goesOn s c t d hb ih

theorem forward_loop {body : σ → Rule (Round σ α)} {h : Advancing body}
    (hf : ∀ s, Forward (body s)) (s : σ) : Forward (loop body h s) := by
  intro c a d
  refine loop_induction (P := fun _ c o => o = .ok a d → c.Reaches d) ?_ ?_ ?_ s c
  · intro s c e f _ hc
    cases hc
  · intro s c b e hb hc
    cases hc
    exact hf s hb
  · intro s c t e hb ih hc
    exact (hf s hb).trans (ih hc)

end Rule

end FrontEnd
