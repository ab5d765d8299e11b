import FrontEnd.Proofs.Session.Basic

namespace FrontEnd

namespace Pattern

variable {tokens : List Token} {spacing : Spacing} {m : Match}

theorem mem_of_matchAll {ps : List Pattern} (h : matchAll spacing ps tokens = .ok (some m)) :
    ∀ t ∈ m.matched, t ∈ tokens := by
  induction ps generalizing tokens m with
  | nil =>
    cases h
    intro t ht
    cases ht
  | cons p ps ih =>
    rcases matchAll_cons_eq_ok.1 h with ⟨_, hnone⟩ | ⟨first, more, htake, hmore, hm⟩
    · cases hnone
    · cases more with
      | none => cases hm
      | some last =>
        cases hm
        intro t ht
        rw [← take?_append htake]
        rcases List.mem_cons.1 ht with rfl | ht
        · exact List.mem_append_left _ (List.mem_append_right _ (List.mem_singleton_self _))
        · exact List.mem_append_right _ (ih hmore t ht)

end Pattern

section

variable {tokens : List Token} {c : Cursor}

theorem Cursor.Within.beside_self (h : c.Within tokens)
    (ht : ∀ t ∈ tokens, t.span.start ≤ t.span.stop) :
    c.Beside (List.Forall₂ Token.Alike) tokens tokens c where
  left := h
  right := h
  ahead := List.forall₂_same.2 fun t hmem => Token.alike_self (h.ordered ht t hmem)

end

namespace Rule

variable {α : Type} {tokens : List Token} {c : Cursor}

theorem exists_runAt {S : α → α → Prop} {rule : Rule α} (h : InStep tokens tokens S rule rule)
    (hrestoring : Restoring rule) (ht : ∀ t ∈ tokens, t.span.start ≤ t.span.stop)
    (hc : c.Within tokens) :
    ∃ result d, rule.runAt c = (.ok result, d) ∧ d.Within tokens ∧ c.pos ≤ d.pos ∧
      (∀ a, result = .ok a → S a a) ∧ ∀ e, result = .error e → d.pos = c.pos := by
  have hrun := h.run (hc.beside_self ht)
  unfold runAt
  cases hrule : rule c with
  | ok a d =>
    rw [hrule] at hrun
    cases hrun with
    | ok result place =>
      refine ⟨.ok a, d, rfl, place.left, (h.forward hrule).pos_le, ?_, ?_⟩
      · intro b hb
        cases hb
        exact result
      · intro e he
        cases he
  | error f d =>
    obtain ⟨hpos, hrest⟩ := hrestoring hrule
    rw [hrule] at hrun
    cases hrun with
    | rejected =>
      refine ⟨.error _, d, rfl, hc.of_same_place hpos hrest, Nat.le_of_eq hpos.symm, ?_, ?_⟩
      · intro b hb
        cases hb
      · intro _ _
        exact hpos

end Rule

def Answer.Declines : Answer → Prop
  | .tokens none | .token none | .reading (.error _) => True
  | _ => False

def Step.Asks : Step → Prop
  | .peek _ | .allParsed | .next | .remaining | .syntaxError | .snapshot _ | .same _ _ => True
  | _ => False

/-- A step of the cursor; comparing two readings is none. -/
def Step.OfCursor : Step → Prop
  | .same _ _ => False
  | _ => True

namespace Rule

variable {α : Type} {tokens : List Token} {c : Cursor}

theorem exists_reading {S : α → α → Prop} {rule : Rule α}
    {wrap : Except SyntaxError α → Reading} (h : InStep tokens tokens S rule rule)
    (hrestoring : Restoring rule)
    (hnode : ∀ a, S a a → ∃ report, (wrap (.ok a)).report = .ok report ∧
      ¬(Answer.reading report).Declines)
    (herror : ∀ e, (wrap (.error e)).report = .ok (.error e))
    (ht : ∀ t ∈ tokens, t.span.start ≤ t.span.stop) (hc : c.Within tokens) :
    ∃ reading d report, (rule.runAt c).map (·.map wrap) id = (.ok reading, d) ∧
      reading.report = .ok report ∧ d.Within tokens ∧ c.pos ≤ d.pos ∧
      ((Answer.reading report).Declines → d.pos = c.pos) := by
  obtain ⟨result, d, hrun, hwithin, hle, hok, hfail⟩ := exists_runAt h hrestoring ht hc
  rw [hrun]
  cases result with
  | ok a =>
    obtain ⟨report, hreport, hnot⟩ := hnode a (hok a rfl)
    exact ⟨_, d, report, rfl, hreport, hwithin, hle, fun hdeclines => absurd hdeclines hnot⟩
  | error e => exact ⟨_, d, _, rfl, herror e, hwithin, hle, fun _ => hfail e rfl⟩

end Rule

theorem Start.exists_readAt (start : Start) {tokens : List Token} {c : Cursor}
    (ht : ∀ t ∈ tokens, t.span.start ≤ t.span.stop) (hc : c.Within tokens) :
    ∃ reading d report, start.readAt c = (.ok reading, d) ∧ reading.report = .ok report ∧
      d.Within tokens ∧ c.pos ≤ d.pos ∧ ((Answer.reading report).Declines → d.pos = c.pos) := by
  cases start with
  | name =>
    refine Rule.exists_reading (Rule.inStep_name rfl) Rule.restoring_name ?_ (fun _ => rfl) ht hc
    intro n hn
    obtain ⟨report, hreport⟩ := hn.exists_report
    exact ⟨.name report, congrArg (Functor.map ReadingReport.name) hreport, id⟩
  | type =>
    refine Rule.exists_reading (Rule.inStep_typeExpr rfl) Rule.restoring_typeExpr ?_ (fun _ => rfl)
      ht hc
    intro t htype
    obtain ⟨report, hreport⟩ := htype.exists_report
    exact ⟨.type report, congrArg (Functor.map ReadingReport.type) hreport, id⟩
  | arguments =>
    refine Rule.exists_reading (Rule.inStep_arguments rfl) Rule.restoring_arguments ?_
      (fun _ => rfl) ht hc
    intro as has
    obtain ⟨reports, hreports⟩ :=
      Fault.exists_mapM fun a ha => (List.forall₂_same.1 has a ha).exists_report
    exact ⟨.arguments reports, congrArg (Functor.map ReadingReport.arguments) hreports, id⟩
  | globalScope =>
    exact Rule.exists_reading (Rule.inStep_globalScope rfl) Rule.restoring_globalScope
      (fun s _ => ⟨.scope s.report, rfl, id⟩) (fun _ => rfl) ht hc
  | nestedScope =>
    exact Rule.exists_reading (Rule.inStep_nestedScope rfl) Rule.restoring_nestedScope
      (fun s _ => ⟨.scope s.report, rfl, id⟩) (fun _ => rfl) ht hc

def Step.savedAfter (step : Step) (s : Session) : List (String × Nat) :=
  match step with
  | .snapshot name => (name, s.cursor.pos) :: s.saved
  | _ => s.saved

namespace Session

variable {tokens : List Token} {s t : Session} {step : Step} {answer : Answer} {name : String}

/-- A session over these tokens stands in them, and so do the places that it saved. -/
structure Sound (tokens : List Token) (s : Session) : Prop where
  tokens_eq : s.tokens = tokens
  within : s.cursor.Within tokens
  saved_le : ∀ name pos, s.saved.lookup name = some pos → pos ≤ tokens.length

/-- A step has an answer and stays in the tokens. It goes nowhere if it only asks or finds nothing,
back only to a saved place, and to no other if there is one. -/
structure Moves (tokens : List Token) (s : Session) (step : Step) (answer : Answer) (t : Session) :
    Prop where
  tokens_eq : t.tokens = s.tokens
  saved_eq : t.saved = step.savedAfter s
  within : t.cursor.Within tokens
  not_fault : ∀ fault, answer ≠ .fault fault
  stays : step.Asks ∨ answer.Declines → t.cursor.pos = s.cursor.pos
  forward : (∀ name, step ≠ .restore name) → s.cursor.pos ≤ t.cursor.pos
  restored : ∀ name pos, step = .restore name → s.saved.lookup name = some pos → t.cursor.pos = pos

theorem sound_ofTokens (tokens : List Token) : (ofTokens tokens).Sound tokens where
  tokens_eq := rfl
  within := .ofTokens tokens
  saved_le := nofun

theorem Sound.of_moves (h : s.Sound tokens) (hmoves : Moves tokens s step answer t) :
    t.Sound tokens where
  tokens_eq := hmoves.tokens_eq.trans h.tokens_eq
  within := hmoves.within
  saved_le := by
    intro name pos hpos
    rw [hmoves.saved_eq] at hpos
    cases step with
    | snapshot saved =>
      rw [Step.savedAfter, List.lookup_cons] at hpos
      split at hpos
      · cases hpos
        exact h.within.pos_le
      · exact h.saved_le name pos hpos
    | _ => exact h.saved_le name pos hpos

theorem Moves.of_ask (h : s.Sound tokens) (hasks : step.Asks) (hsaved : step.savedAfter s = s.saved)
    (hfault : ∀ fault, answer ≠ .fault fault) : Moves tokens s step answer s where
  tokens_eq := rfl
  saved_eq := hsaved.symm
  within := h.within
  not_fault := hfault
  stays := fun _ => rfl
  forward := fun _ => Nat.le_refl _
  restored := by
    rintro name pos rfl
    cases hasks

theorem Moves.of_advance (hrestore : ∀ name, step ≠ .restore name) (hasks : ¬step.Asks)
    (htokens : t.tokens = s.tokens) (hsaved : t.saved = step.savedAfter s)
    (hwithin : t.cursor.Within tokens) (hle : s.cursor.pos ≤ t.cursor.pos)
    (hdeclines : answer.Declines → t.cursor.pos = s.cursor.pos)
    (hfault : ∀ fault, answer ≠ .fault fault) : Moves tokens s step answer t where
  tokens_eq := htokens
  saved_eq := hsaved
  within := hwithin
  not_fault := hfault
  stays := fun h => hdeclines (h.resolve_left hasks)
  forward := fun _ => hle
  restored := fun name _ hstep => absurd hstep (hrestore name)

theorem exists_moving (step : Step)
    (move : Cursor → Except Fault (Option (List Token) × Cursor)) {found : Option Match}
    (h : s.Sound tokens) (hrestore : ∀ name, step ≠ .restore name)
    (hasks : ¬step.Asks) (hsaved : step.savedAfter s = s.saved)
    (hmove : move s.cursor = .ok (s.cursor.passing found))
    (hreaches : s.cursor.Reaches (s.cursor.passing found).2)
    (hmatched : ∀ m, found = some m → ∀ t ∈ m.matched, t.span.start ≤ t.span.stop) :
    ∃ answer t, moving move s = .ok answer t ∧ Moves tokens s step answer t := by
  have hwithin := h.within.of_reaches hreaches
  cases found with
  | none =>
    refine ⟨_, _, moving_of_ok hmove rfl, ?_⟩
    exact .of_advance hrestore hasks rfl hsaved.symm hwithin (Nat.le_refl _) (fun _ => rfl) nofun
  | some m =>
    obtain ⟨reports, hanswer⟩ := exists_reportTokens (hmatched m rfl)
    refine ⟨_, _, moving_of_ok hmove hanswer, ?_⟩
    exact .of_advance hrestore hasks rfl hsaved.symm hwithin hreaches.pos_le False.elim nofun

section Steps

variable (h : s.Sound tokens) (ht : ∀ t ∈ tokens, t.span.start ≤ t.span.stop)

include h ht

theorem Sound.consume (ps : List Pattern) (spacing : Spacing) :
    ∃ answer t, attempt (.consume ps spacing) s = .ok answer t ∧
      Moves tokens s (.consume ps spacing) answer t := by
  have hordered := h.within.ordered ht
  obtain ⟨found, hmatch⟩ := Pattern.exists_matchAll ps spacing hordered
  have hmove : s.cursor.consume ps spacing = .ok (s.cursor.passing found) :=
    Fault.bind_eq_ok.2 ⟨found, hmatch, rfl⟩
  refine exists_moving (.consume ps spacing) (·.consume ps spacing) h nofun id rfl hmove
    (Cursor.reaches_consume hmove) ?_
  rintro m rfl t hmem
  exact hordered t (Pattern.mem_of_matchAll hmatch t hmem)

theorem Sound.consumeUntil (p : Pattern) (spacing : Spacing) :
    ∃ answer t, attempt (.consumeUntil p spacing) s = .ok answer t ∧
      Moves tokens s (.consumeUntil p spacing) answer t := by
  obtain ⟨found, hmatch, hmatched⟩ :=
    Pattern.exists_searchUntil p spacing [] [] (h.within.ordered ht) nofun
  have hmove : s.cursor.consumeUntil p spacing = .ok (s.cursor.passing found) :=
    Fault.bind_eq_ok.2 ⟨found, hmatch, rfl⟩
  exact exists_moving (.consumeUntil p spacing) (·.consumeUntil p spacing) h nofun id rfl hmove
    (Cursor.reaches_consumeUntil hmove) hmatched

theorem Sound.exists_asking (hasks : step.Asks) (hstep : step.OfCursor)
    (hsnapshot : ∀ name, step ≠ .snapshot name) :
    ∃ answer, attempt step s = .ok answer s ∧ ∀ fault, answer ≠ .fault fault := by
  have hordered := h.within.ordered ht
  cases step with
  | peek ps =>
    obtain ⟨found, hmatch⟩ := Pattern.exists_matchAll ps .skipped hordered
    have hpeek : s.cursor.peek ps = .ok found.isSome := Fault.bind_eq_ok.2 ⟨found, hmatch, rfl⟩
    exact ⟨_, asking_of_ok (congrArg (Functor.map Answer.flag) hpeek), nofun⟩
  | allParsed => exact ⟨_, asking_of_ok rfl, nofun⟩
  | next =>
    obtain ⟨report, hreport⟩ := hordered.exists_report
    exact ⟨_, asking_of_ok (congrArg (Functor.map Answer.token) hreport), nofun⟩
  | remaining =>
    obtain ⟨texts, htexts⟩ := Fault.exists_mapM fun t hmem => Token.exists_text (hordered t hmem)
    exact ⟨_, asking_of_ok (congrArg (Functor.map Answer.texts) htexts), nofun⟩
  | syntaxError =>
    obtain ⟨error, herror, _⟩ := hordered.exists_syntaxError
    exact ⟨_, asking_of_ok (congrArg (Functor.map (Answer.reading ∘ .error)) herror), nofun⟩
  | snapshot name => exact absurd rfl (hsnapshot name)
  | same left right => cases hstep
  | consume ps spacing => cases hasks
  | consumeUntil p spacing => cases hasks
  | restore name => cases hasks
  | read start => cases hasks

theorem Sound.exists_attempt (step : Step) (hstep : step.OfCursor) :
    ∃ answer t, attempt step s = .ok answer t ∧ Moves tokens s step answer t := by
  have hasking : step.Asks → (∀ name, step ≠ .snapshot name) → step.savedAfter s = s.saved →
      ∃ answer t, attempt step s = .ok answer t ∧ Moves tokens s step answer t := by
    intro hasks hsnapshot hsaved
    obtain ⟨answer, hattempt, hfault⟩ := h.exists_asking ht hasks hstep hsnapshot
    exact ⟨answer, s, hattempt, .of_ask h hasks hsaved hfault⟩
  cases step with
  | consume ps spacing => exact h.consume ht ps spacing
  | consumeUntil p spacing => exact h.consumeUntil ht p spacing
  | peek ps => exact hasking trivial nofun rfl
  | allParsed => exact hasking trivial nofun rfl
  | next => exact hasking trivial nofun rfl
  | remaining => exact hasking trivial nofun rfl
  | syntaxError => exact hasking trivial nofun rfl
  | same left right => cases hstep
  | snapshot name =>
    refine ⟨_, _, attempt_snapshot s name, ?_⟩
    exact ⟨rfl, rfl, h.within, nofun, fun _ => rfl, fun _ => Nat.le_refl _, nofun⟩
  | restore name =>
    cases hpos : s.saved.lookup name with
    | none =>
      refine ⟨_, _, attempt_restore_nothing hpos, rfl, rfl, h.within, nofun, fun _ => rfl,
        fun _ => Nat.le_refl _, ?_⟩
      rintro _ pos ⟨⟩ hsome
      cases hpos.symm.trans hsome
    | some pos =>
      have hle := h.saved_le name pos hpos
      refine ⟨_, _, attempt_restore h.tokens_eq hpos hle, rfl, rfl, ⟨hle, rfl⟩, nofun, ?_, ?_, ?_⟩
      · rintro (hasks | hdeclines)
        · cases hasks
        · cases hdeclines
      · intro hrestore
        exact absurd rfl (hrestore name)
      · rintro _ _ ⟨⟩ hsome
        exact Option.some.inj (hpos.symm.trans hsome)
  | read start =>
    obtain ⟨reading, d, report, hread, hreport, hwithin, hle, hdeclines⟩ :=
      start.exists_readAt ht h.within
    refine ⟨_, _, attempt_read hread hreport, ?_⟩
    exact .of_advance nofun id rfl rfl hwithin hle hdeclines nofun

theorem Sound.moves (step : Step) (hstep : step.OfCursor) :
    Moves tokens s step (s.step step).1 (s.step step).2 := by
  obtain ⟨answer, t, hattempt, hmoves⟩ := h.exists_attempt ht step hstep
  rw [step_of_attempt hattempt]
  exact ⟨hmoves.tokens_eq, hmoves.saved_eq, hmoves.within, hmoves.not_fault, hmoves.stays,
    hmoves.forward, hmoves.restored⟩

theorem Sound.run {steps : List Step} (hsteps : ∀ step ∈ steps, step.OfCursor) :
    (s.run steps).2.Sound tokens := by
  induction steps generalizing s with
  | nil => exact h
  | cons step steps ih =>
    obtain ⟨hstep, hsteps⟩ := List.forall_mem_cons.1 hsteps
    exact ih (h.of_moves (h.moves ht step hstep)) hsteps

/-- A saved place is kept until another is saved by its name. -/
theorem Sound.lookup_run {steps : List Step} (hsteps : ∀ step ∈ steps, step.OfCursor)
    (hname : .snapshot name ∉ steps) :
    (s.run steps).2.saved.lookup name = s.saved.lookup name := by
  induction steps generalizing s with
  | nil => rfl
  | cons step steps ih =>
    obtain ⟨hstep, hsteps⟩ := List.forall_mem_cons.1 hsteps
    obtain ⟨hfirst, hname⟩ := List.ne_and_not_mem_of_not_mem_cons hname
    have hmoves := h.moves ht step hstep
    rw [run_cons, ih (h.of_moves hmoves) hsteps hname, hmoves.saved_eq]
    cases step with
    | snapshot other =>
      rw [Step.savedAfter, List.lookup_cons, beq_eq_false_iff_ne.2]
      rintro rfl
      exact hfirst rfl
    | _ => rfl

end Steps

/-- Wherever a session has come to, its next step has an answer and stays in the tokens. It goes
nowhere if it only asks, finds nothing or fails, and back only to a place saved by a name, which is
where the session was when it was last saved by it. -/
theorem steps_keep_place (tokens : List Token) (h : ∀ t ∈ tokens, t.span.start ≤ t.span.stop)
    (before : List Step) (hbefore : ∀ step ∈ before, step.OfCursor) (step : Step)
    (hstep : step.OfCursor) :
    let s := ((ofTokens tokens).run before).2
    Moves tokens s step (s.step step).1 (s.step step).2 ∧
      ∀ name first between, step = .restore name → before = first ++ .snapshot name :: between →
        .snapshot name ∉ between →
        (s.step step).2.cursor.pos = ((ofTokens tokens).run first).2.cursor.pos := by
  intro s
  have hstart := sound_ofTokens tokens
  have hmoves := (hstart.run h hbefore).moves h step hstep
  refine ⟨hmoves, ?_⟩
  rintro name first between hrestore rfl hbetween
  obtain ⟨hfirst, hmore⟩ := List.forall_mem_append.1 hbefore
  obtain ⟨hsnapshot, hmore⟩ := List.forall_mem_cons.1 hmore
  have hsaving := hstart.run h hfirst
  have hsaved := hsaving.moves h (.snapshot name) hsnapshot
  apply hmoves.restored name _ hrestore
  have hlookup := (hsaving.of_moves hsaved).lookup_run h hmore hbetween
  rw [hsaved.saved_eq, Step.savedAfter, List.lookup_cons, beq_self_eq_true] at hlookup
  exact (congrArg (fun t : Session => t.saved.lookup name) (run_append _ _ _)).trans hlookup

theorem steps_keep_place_of_forthTokens :
    let opening : List Step := [.consume [.ofKind .identifier, .mark ":"] .significant]
    let reading : List Step := [.read .type, .read .arguments]
    let before := opening ++ .snapshot "type" :: reading
    let s := ((ofTokens Rule.forthTokens).run before).2
    ((∀ t ∈ Rule.forthTokens, t.span.start ≤ t.span.stop) ∧ (∀ step ∈ before, step.OfCursor) ∧
      (Step.restore "type").OfCursor) ∧
    s.cursor.pos = 4 ∧ (s.step (.restore "type")).2.cursor.pos = 2 ∧
    ∀ fault, (s.step (.restore "type")).1 ≠ .fault fault := by
  intro opening reading before s
  have hordered : ∀ t ∈ Rule.forthTokens, t.span.start ≤ t.span.stop := by decide
  have hbefore : ∀ step ∈ before, step.OfCursor := by
    simp only [before, opening, reading, List.cons_append, List.nil_append, List.forall_mem_cons]
    exact ⟨trivial, trivial, trivial, trivial, nofun⟩
  have hplace : s.cursor.pos = 4 := by decide +kernel
  have hsaved : ((ofTokens Rule.forthTokens).run opening).2.cursor.pos = 2 := by decide +kernel
  have hbetween : .snapshot "type" ∉ reading := by simp [reading]
  obtain ⟨hmoves, hback⟩ :=
    steps_keep_place Rule.forthTokens hordered before hbefore (.restore "type") trivial
  exact ⟨⟨hordered, hbefore, trivial⟩, hplace,
    (hback "type" opening reading rfl rfl hbetween).trans hsaved, hmoves.not_fault⟩

end Session

end FrontEnd
