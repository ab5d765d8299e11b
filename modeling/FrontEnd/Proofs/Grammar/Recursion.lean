import FrontEnd.Grammar.Argument
import FrontEnd.Proofs.Scope.Reading

namespace FrontEnd.Rule

variable {α β : Type} {c d : Cursor}

/-- Two outcomes that differ at most in where a failure leaves the cursor. -/
inductive SameEnd : Outcome α → Outcome α → Prop where
  | ok (a : α) (d : Cursor) : SameEnd (.ok a d) (.ok a d)
  | error (f : Failure) {d e : Cursor} (journal_eq : d.journal = e.journal) :
      SameEnd (.error f d) (.error f e)

theorem SameEnd.rewinding {rule other : Rule α} (h : SameEnd (rule c) (other c)) :
    rewinding rule c = rewinding other c := by
  generalize hrule : rule c = o at h
  generalize hother : other c = o' at h
  cases h with
  | ok a d => rw [rewinding_of_ok hrule, rewinding_of_ok hother]
  | @error f d e journal_eq =>
    rw [rewinding_of_error hrule, rewinding_of_error hother, Cursor.rewind, Cursor.rewind,
      journal_eq]

theorem map_of_ok {rule : Rule α} {f : α → β} {a : α} (h : rule c = .ok a d) :
    (f <$> rule) c = .ok (f a) d := by
  rw [← bind_pure_comp, bind_of_ok h]
  rfl

theorem map_of_error {rule : Rule α} {f : α → β} {e : Failure} (h : rule c = .error e d) :
    (f <$> rule) c = .error e d := by
  rw [← bind_pure_comp, bind_of_error h]

theorem reject_bind {next : α → Rule β} : (reject >>= next) = reject := by
  funext c
  cases herror : c.syntaxError with
  | error fault =>
    have hreject : (reject : Rule α) c = .error (.broken fault) c := by rw [reject, herror]
    rw [bind_of_error hreject, reject, herror]
  | ok error =>
    have hreject : (reject : Rule α) c = .error (.rejected error) c := by rw [reject, herror]
    rw [bind_of_error hreject, reject, herror]

theorem bind_congr_first {rule other : Rule α} {next : α → Rule β} (h : rule c = other c) :
    (rule >>= next) c = (other >>= next) c := by
  change EStateM.bind rule next c = EStateM.bind other next c
  rw [EStateM.bind, EStateM.bind, h]

theorem bind_congr_next {rule : Rule α} {next other : α → Rule β}
    (h : ∀ a d, rule c = .ok a d → next a d = other a d) :
    (rule >>= next) c = (rule >>= other) c := by
  cases hrule : rule c with
  | ok a d =>
    rw [bind_of_ok hrule, bind_of_ok hrule]
    exact h a d hrule
  | error f d => rw [bind_of_error hrule, bind_of_error hrule]

section Types

def levelUnder (around : List Bool) : Round (List Bool) TypeExpr → Round (List Bool) TypeExpr
  | .again flags => .again (flags ++ around)
  | .done t => .done (t.under around)

theorem typeRound_under (around : List Bool) :
    typeRound around = levelUnder around <$> typeRound [] := by
  rw [typeRound, typeRound, map_bind]
  apply bind_congr
  intro _
  rw [map_bind]
  apply bind_congr
  intro qualifier
  rw [map_bind]
  apply bind_congr
  intro pointer
  cases pointer with
  | some token => rfl
  | none =>
    rw [map_bind]
    apply bind_congr
    intro name
    rfl

def typeLoop (around : List Bool) : Rule TypeExpr := loop typeRound advancing_typeRound around

theorem typeLoop_under (around : List Bool) (c : Cursor) :
    typeLoop around c = (TypeExpr.under around <$> typeLoop []) c := by
  generalize hlength : c.rest.length = n
  induction n using Nat.strongRecOn generalizing around c with
  | ind n ih =>
    have hunder := congrFun (typeRound_under around) c
    cases hround : typeRound [] c with
    | error f d =>
      rw [map_of_error hround] at hunder
      have houter : typeLoop around c = .error f d := loop_of_error hunder
      have hinner : typeLoop [] c = .error f d := loop_of_error hround
      rw [houter, map_of_error hinner]
    | ok round d =>
      rw [map_of_ok hround] at hunder
      cases round with
      | done t =>
        have houter : typeLoop around c = .ok (t.under around) d := loop_of_done hunder
        have hinner : typeLoop [] c = .ok t d := loop_of_done hround
        rw [houter, map_of_ok hinner]
      | again flags =>
        have hlt : d.rest.length < n := hlength ▸ advancing_typeRound hround
        have houter : typeLoop around c = typeLoop (flags ++ around) d := loop_of_again hunder
        have hinner : typeLoop [] c = typeLoop flags d := loop_of_again hround
        rw [houter, ih _ hlt (flags ++ around) d rfl]
        rw [ih _ hlt flags d rfl] at hinner
        cases hmore : typeLoop [] d with
        | error f e =>
          rw [map_of_error hmore] at hinner
          rw [map_of_error hmore, map_of_error hinner]
        | ok t e =>
          rw [map_of_ok hmore] at hinner
          rw [map_of_ok hmore, map_of_ok hinner, TypeExpr.under, TypeExpr.under, TypeExpr.under,
            List.foldl_append]

/-- One level of a type, which calls a rule for the type behind a star. -/
def typeLevel (inner : Rule TypeExpr) : Rule TypeExpr := do
  note fun c => .readingType c.pos
  let qualifier ← take? constKeyword .skipped
  match ← take? star .skipped with
  | some _ => do
    let pointee ← inner
    pure (.pointer qualifier.isSome pointee)
  | none => do
    let name ← name
    pure (.named qualifier.isSome name)

def typeAfter : Round (List Bool) TypeExpr → Rule TypeExpr
  | .again flags => do
    let pointee ← typeExpr
    pure (pointee.under flags)
  | .done t => pure t

theorem typeLevel_eq : typeLevel typeExpr = typeRound [] >>= typeAfter := by
  rw [typeLevel, typeRound, bind_assoc]
  apply bind_congr
  intro _
  rw [bind_assoc]
  apply bind_congr
  intro qualifier
  rw [bind_assoc]
  apply bind_congr
  intro pointer
  cases pointer with
  | some token => rfl
  | none =>
    rw [bind_assoc]
    rfl

/-- A type is read by calls of the rule for types. -/
theorem typeExpr_eq_level : typeExpr = rewinding (typeLevel typeExpr) := by
  funext c
  apply SameEnd.rewinding
  rw [typeLevel_eq]
  cases hround : typeRound [] c with
  | error f d =>
    rw [loop_of_error hround, bind_of_error hround]
    exact .error f rfl
  | ok round d =>
    rw [bind_of_ok hround]
    cases round with
    | done t =>
      rw [loop_of_done hround]
      exact .ok t d
    | again flags =>
      have hmore := typeLoop_under flags d
      rw [typeLoop] at hmore
      rw [loop_of_again hround, hmore, typeAfter]
      cases hinner : typeLoop [] d with
      | error f e =>
        have htype : typeExpr d = .error f (e.rewind d) := rewinding_of_error hinner
        rw [map_of_error hinner, bind_of_error htype]
        exact .error f rfl
      | ok t e =>
        have htype : typeExpr d = .ok t e := rewinding_of_ok hinner
        rw [map_of_ok hinner, bind_of_ok htype]
        exact .ok _ e

def argumentTypeWith (inner : Rule TypeExpr) : Rule (Option TypeExpr) := do
  match ← take? colon .skipped with
  | some _ => do
    let type ← inner
    pure (some type)
  | none => pure none

def argumentRoundWith (inner : Rule TypeExpr) (found : List Argument) :
    Rule (Round (List Argument) (List Argument)) := do
  let mode ← modeAmong Mode.all
  let name ← take? anyIdentifier .skipped
  let type ← argumentTypeWith inner
  let read ← argumentOf mode name type
  match ← take? comma .skipped with
  | some _ => afterComma (read.toList ++ found)
  | none => afterLast (read.toList ++ found)

theorem argumentRound_eq_with (found : List Argument) :
    argumentRound found = argumentRoundWith typeExpr found := by
  rw [argumentRound, argument, bind_assoc]
  apply bind_congr
  intro mode
  rw [bind_assoc]
  apply bind_congr
  intro name
  rw [bind_assoc]
  rfl

end Types

section Scopes

def brace : Rule Brace := do
  match ← take? closeBrace .skipped with
  | some _ => pure .closing
  | none =>
    match ← take? openBrace .skipped with
    | some _ => pure .opening
    | none => reject

theorem braceRound_eq (o : OpenScopes) : braceRound o = o.turn <$> brace := by
  rw [braceRound, brace, map_bind]
  apply bind_congr
  intro closed
  cases closed with
  | some token => rfl
  | none =>
    rw [map_bind]
    apply bind_congr
    intro opened
    cases opened with
    | some token => rfl
    | none =>
      dsimp only
      rw [← bind_pure_comp, reject_bind]

def braceLoop (o : OpenScopes) : Rule Scope := loop braceRound advancing_braceRound o

/-- Scopes that are open around some others wait until those are closed. -/
theorem braceLoop_frame (inner : List (List Scope)) (entries before : List Scope)
    (around : List (List Scope)) (c : Cursor) :
    braceLoop ⟨entries, inner ++ before :: around⟩ c =
      (braceLoop ⟨entries, inner⟩ >>= fun s => braceLoop ⟨s :: before, around⟩) c := by
  generalize hlength : c.rest.length = n
  induction n using Nat.strongRecOn generalizing inner entries c with
  | ind n ih =>
    have houter := congrFun (braceRound_eq ⟨entries, inner ++ before :: around⟩) c
    have hinner := congrFun (braceRound_eq ⟨entries, inner⟩) c
    cases hbrace : brace c with
    | error f d =>
      rw [map_of_error hbrace] at houter hinner
      have hloop : braceLoop ⟨entries, inner⟩ c = .error f d := loop_of_error hinner
      rw [bind_of_error hloop]
      exact loop_of_error houter
    | ok b d =>
      rw [map_of_ok hbrace] at houter hinner
      -- A round of the inner scopes is one of all of them, until the outermost of them closes.
      have hgoesOn : ∀ o : OpenScopes, OpenScopes.turn ⟨entries, inner⟩ b = .again o →
          OpenScopes.turn ⟨entries, inner ++ before :: around⟩ b =
            .again ⟨o.entries, o.around ++ before :: around⟩ →
          braceLoop ⟨entries, inner ++ before :: around⟩ c =
            (braceLoop ⟨entries, inner⟩ >>= fun s => braceLoop ⟨s :: before, around⟩) c := by
        intro o hturn hturn'
        rw [hturn] at hinner
        rw [hturn'] at houter
        have hlt : d.rest.length < n := hlength ▸ advancing_braceRound hinner
        have hloop : braceLoop ⟨entries, inner⟩ c = braceLoop o d := loop_of_again hinner
        refine (loop_of_again houter).trans ((ih _ hlt o.around o.entries d rfl).trans ?_)
        cases hmore : braceLoop o d with
        | error f e => rw [bind_of_error hmore, bind_of_error (hloop.trans hmore)]
        | ok s e => rw [bind_of_ok hmore, bind_of_ok (hloop.trans hmore)]
      cases b with
      | opening => exact hgoesOn _ rfl rfl
      | closing =>
        cases inner with
        | cons entries' inner => exact hgoesOn _ rfl rfl
        | nil =>
          have hloop : braceLoop ⟨entries, []⟩ c = .ok (.closed entries) d := loop_of_done hinner
          rw [bind_of_ok hloop]
          exact loop_of_again houter

/-- One round of a scope, which calls a rule for the scope behind an opening brace. -/
def scopeRound (inner : Rule Scope) (found : List Scope) : Rule (Round (List Scope) Scope) := do
  match ← take? closeBrace .skipped with
  | some _ => pure (.done (.closed found))
  | none =>
    match ← take? openBrace .skipped with
    | some _ => do
      let entry ← inner
      pure (.again (entry :: found))
    | none => reject

def scopeAfter (found : List Scope) : Brace → Rule (Round (List Scope) Scope)
  | .closing => pure (.done (.closed found))
  | .opening => do
    let entry ← nestedScope
    pure (.again (entry :: found))

theorem scopeRound_eq (found : List Scope) :
    scopeRound nestedScope found = brace >>= scopeAfter found := by
  rw [scopeRound, brace, bind_assoc]
  apply bind_congr
  intro closed
  cases closed with
  | some token => rfl
  | none =>
    rw [bind_assoc]
    apply bind_congr
    intro opened
    cases opened with
    | some token => rfl
    | none =>
      dsimp only
      rw [reject_bind]

theorem advancing_scopeRound : Advancing (scopeRound nestedScope) := by
  intro found c more e h
  obtain ⟨closed, d, hc, h⟩ := bind_eq_ok h
  cases closed with
  | some token => cases h
  | none =>
    obtain ⟨opened, d', ho, h⟩ := bind_eq_ok h
    cases opened with
    | some token =>
      obtain ⟨entry, e, hn, h⟩ := bind_eq_ok h
      obtain ⟨_, rfl⟩ := pure_eq_ok h
      have := (forward_take? _ _ hc).length_le
      have := length_of_take? ho
      have := (forward_nestedScope hn).length_le
      omega
    | none => exact absurd h reject_ne_ok

theorem forward_scopeRound (found : List Scope) : Forward (scopeRound nestedScope found) := by
  refine (forward_take? _ _).bind fun closed => ?_
  cases closed with
  | some token => exact .pure _
  | none =>
    refine (forward_take? _ _).bind fun opened => ?_
    cases opened with
    | some token => exact forward_nestedScope.bind fun _ => .pure _
    | none => exact forward_reject

theorem sameEnd_scopeLoop (found : List Scope) (c : Cursor) :
    SameEnd (braceLoop ⟨found, []⟩ c)
      (loop (scopeRound nestedScope) advancing_scopeRound found c) := by
  generalize hlength : c.rest.length = n
  induction n using Nat.strongRecOn generalizing found c with
  | ind n ih =>
    have hturn := congrFun (braceRound_eq ⟨found, []⟩) c
    have hround := congrFun (scopeRound_eq found) c
    cases hbrace : brace c with
    | error f d =>
      rw [map_of_error hbrace] at hturn
      rw [bind_of_error hbrace] at hround
      rw [braceLoop, loop_of_error hturn, loop_of_error hround]
      exact .error f rfl
    | ok b d =>
      rw [map_of_ok hbrace] at hturn
      rw [bind_of_ok hbrace] at hround
      cases b with
      | closing =>
        rw [braceLoop, loop_of_done hturn, loop_of_done hround]
        exact .ok _ d
      | opening =>
        have hloop : braceLoop ⟨found, []⟩ c = braceLoop ⟨[], [] ++ found :: []⟩ d :=
          loop_of_again hturn
        rw [hloop, braceLoop_frame]
        cases hinner : braceLoop ⟨[], []⟩ d with
        | error f e =>
          have hnested : nestedScope d = .error f (e.rewind d) := rewinding_of_error hinner
          rw [scopeAfter, bind_of_error hnested] at hround
          rw [bind_of_error hinner, loop_of_error hround]
          exact .error f rfl
        | ok s e =>
          have hnested : nestedScope d = .ok s e := rewinding_of_ok hinner
          rw [scopeAfter, bind_of_ok hnested] at hround
          rw [bind_of_ok hinner, loop_of_again hround]
          exact ih _ (hlength ▸ advancing_scopeRound hround) (s :: found) e rfl

/-- A nested scope is read by calls of the rule for nested scopes. -/
theorem nestedScope_eq_loop :
    nestedScope = rewinding (loop (scopeRound nestedScope) advancing_scopeRound []) := by
  funext c
  exact (sameEnd_scopeLoop [] c).rewinding

def entryRoundWith (inner : Rule Scope) (found : List Scope) :
    Rule (Round (List Scope) Scope) := do
  let c ← get
  if c.allParsed then pure (.done (.global found.reverse))
  else
    match ← take? openBrace .skipped with
    | some _ => do
      let entry ← inner
      pure (.again (entry :: found))
    | none => reject

theorem entryRound_eq_with (found : List Scope) :
    entryRound found = entryRoundWith nestedScope found := rfl

end Scopes

end FrontEnd.Rule
