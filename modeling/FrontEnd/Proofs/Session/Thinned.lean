import FrontEnd.Proofs.Grammar.Thinned
import FrontEnd.Proofs.Session.Basic

namespace FrontEnd

/-- A step to which whitespace does not matter. -/
def Step.SkipsBlanks : Step → Prop
  | .consume _ .skipped | .consumeUntil _ .skipped | .peek _ | .allParsed | .next | .syntaxError
  | .snapshot _ | .restore _ | .read .globalScope | .read .nestedScope => True
  | _ => False

structure Thins.At (ts us : List Token) (p q : Nat) : Prop where
  left_le : p ≤ ts.length
  right_le : q ≤ us.length
  ahead : Thins (ts.drop p) (us.drop q)

theorem Cursor.Beside.thins_at {ts us : List Token} {c d : Cursor} (h : c.Beside Thins ts us d) :
    Thins.At ts us c.pos d.pos where
  left_le := h.left.pos_le
  right_le := h.right.pos_le
  ahead := by
    rw [← h.left.rest_eq, ← h.right.rest_eq]
    exact h.ahead

theorem Thins.lookup {ts us : List Token} {saved saved' : List (String × Nat)}
    (h : List.Forall₂ (fun m n => m.1 = n.1 ∧ At ts us m.2 n.2) saved saved') (name : String) :
    Option.Rel (At ts us) (saved.lookup name) (saved'.lookup name) := by
  induction h with
  | nil => exact .none
  | @cons m n saved saved' hboth _ ih =>
    obtain ⟨key, p⟩ := m
    obtain ⟨_, q⟩ := n
    obtain ⟨rfl, hplaces⟩ := hboth
    rw [List.lookup_cons, List.lookup_cons]
    cases name == key with
    | true => exact .some hplaces
    | false => exact ih

namespace Session

variable {ts us : List Token} {s t : Session}

/-- Sessions over a token list and over what is left of it without whitespace that have come to the
same. -/
structure Mirrors (ts us : List Token) (s t : Session) : Prop where
  left_eq : s.tokens = ts
  right_eq : t.tokens = us
  place : s.cursor.Beside Thins ts us t.cursor
  saved : List.Forall₂ (fun m n => m.1 = n.1 ∧ Thins.At ts us m.2 n.2) s.saved t.saved
  readings_eq : s.readings = t.readings
  steps_eq : s.steps = t.steps

def MirrorsAfter (ts us : List Token) (action : EStateM Fault Session Answer) (s t : Session) :
    Prop :=
  ∃ answer s' t', action s = .ok answer s' ∧ action t = .ok answer t' ∧
    (∀ fault, answer ≠ .fault fault) ∧ Mirrors ts us s' t'

theorem mirrors_ofTokens (h : Thins ts us) : Mirrors ts us (ofTokens ts) (ofTokens us) where
  left_eq := rfl
  right_eq := rfl
  place := ⟨.ofTokens ts, .ofTokens us, h⟩
  saved := .nil
  readings_eq := rfl
  steps_eq := rfl

namespace Mirrors

theorem moving (h : Mirrors ts us s t)
    (move : Cursor → Except Fault (Option (List Token) × Cursor))
    (hmove : ∃ found found' d d', move s.cursor = .ok (found, d) ∧
      move t.cursor = .ok (found', d') ∧ Option.Rel (List.Forall₂ Token.Twin) found found' ∧
      d.Beside Thins ts us d') : MirrorsAfter ts us (Session.moving move) s t := by
  obtain ⟨found, found', d, d', hleft, hright, hfound, hplace⟩ := hmove
  have hafter : Mirrors ts us { s with cursor := d } { t with cursor := d' } :=
    ⟨h.left_eq, h.right_eq, hplace, h.saved, h.readings_eq, h.steps_eq⟩
  cases hfound with
  | none => exact ⟨_, _, _, moving_of_ok hleft rfl, moving_of_ok hright rfl, nofun, hafter⟩
  | @some matched matched' hmatched =>
    obtain rfl := Token.Twin.eq_of_forall₂ hmatched
    obtain ⟨reports, hanswer⟩ :=
      exists_reportTokens fun t ht => (List.forall₂_same.1 hmatched t ht).2
    exact ⟨_, _, _, moving_of_ok hleft hanswer, moving_of_ok hright hanswer, nofun, hafter⟩

theorem asking (h : Mirrors ts us s t) (question : Session → Except Fault Answer)
    {answer : Answer} (hleft : question s = .ok answer) (hright : question t = .ok answer)
    (hfault : ∀ fault, answer ≠ .fault fault) :
    MirrorsAfter ts us (Session.asking question) s t :=
  ⟨answer, s, t, asking_of_ok hleft, asking_of_ok hright, hfault, h⟩

theorem snapshot (h : Mirrors ts us s t) (name : String) :
    MirrorsAfter ts us (attempt (.snapshot name)) s t :=
  ⟨_, _, _, attempt_snapshot s name, attempt_snapshot t name, nofun, h.left_eq, h.right_eq,
    h.place, .cons ⟨rfl, h.place.thins_at⟩ h.saved, h.readings_eq, h.steps_eq⟩

theorem restore (h : Mirrors ts us s t) (name : String) :
    MirrorsAfter ts us (attempt (.restore name)) s t := by
  have hlookup := Thins.lookup h.saved name
  generalize hleft : s.saved.lookup name = p at hlookup
  generalize hright : t.saved.lookup name = q at hlookup
  cases hlookup with
  | none =>
    exact ⟨_, _, _, attempt_restore_nothing hleft, attempt_restore_nothing hright, nofun, h⟩
  | some hplaces =>
    exact ⟨_, _, _, attempt_restore h.left_eq hleft hplaces.left_le,
      attempt_restore h.right_eq hright hplaces.right_le, nofun, h.left_eq, h.right_eq,
      ⟨⟨hplaces.left_le, rfl⟩, ⟨hplaces.right_le, rfl⟩, hplaces.ahead⟩, h.saved, h.readings_eq,
      h.steps_eq⟩

theorem readScope (h : Mirrors ts us s t) {start : Start} {rule : Rule Scope}
    (hstart : ∀ c, start.readAt c = (rule.runAt c).map (·.map .scope) id)
    (hrule : Rule.Tandem (Cursor.Beside Thins ts us) Eq Eq rule rule)
    (hrestoring : Rule.Restoring rule) : MirrorsAfter ts us (attempt (.read start)) s t := by
  obtain ⟨result, d, d', hleft, hright, hplace⟩ := hrule.exists_runAt hrestoring h.place
  have hread : start.readAt s.cursor = (.ok (.scope result), d) := by
    rw [hstart, hleft]
    rfl
  have hread' : start.readAt t.cursor = (.ok (.scope result), d') := by
    rw [hstart, hright]
    rfl
  have hreport : ∃ report, (Reading.scope result).report = .ok report := by
    cases result with
    | ok scope => exact ⟨_, rfl⟩
    | error error => exact ⟨_, rfl⟩
  obtain ⟨report, hreport⟩ := hreport
  refine ⟨_, _, _, attempt_read hread hreport, attempt_read hread' hreport, nofun, h.left_eq,
    h.right_eq, hplace, h.saved, ?_, h.steps_eq⟩
  rw [h.readings_eq, h.steps_eq]

theorem exists_attempt (h : Mirrors ts us s t) (step : Step) (hstep : step.SkipsBlanks) :
    MirrorsAfter ts us (attempt step) s t := by
  cases step with
  | consume ps spacing =>
    cases spacing with
    | skipped => exact h.moving (·.consume ps .skipped) (h.place.consume Thins.tracks ps)
    | significant => cases hstep
  | consumeUntil p spacing =>
    cases spacing with
    | skipped => exact h.moving (·.consumeUntil p .skipped) (h.place.consumeUntil p)
    | significant => cases hstep
  | peek ps =>
    obtain ⟨found, hleft, hright⟩ := h.place.peek Thins.tracks ps
    exact h.asking _ (congrArg (Functor.map Answer.flag) hleft)
      (congrArg (Functor.map Answer.flag) hright) nofun
  | allParsed =>
    exact h.asking _ rfl (congrArg (Except.ok ∘ Answer.flag) h.place.allParsed_eq.symm) nofun
  | next =>
    obtain ⟨report, hreport⟩ := h.place.ordered_left.exists_report
    have hreport' := h.place.nextSignificant_eq ▸ hreport
    exact h.asking _ (congrArg (Functor.map Answer.token) hreport)
      (congrArg (Functor.map Answer.token) hreport') nofun
  | syntaxError =>
    obtain ⟨error, herror, _⟩ := h.place.ordered_left.exists_syntaxError
    have herror' := h.place.syntaxError_eq.symm.trans herror
    exact h.asking _ (congrArg (Functor.map (Answer.reading ∘ .error)) herror)
      (congrArg (Functor.map (Answer.reading ∘ .error)) herror') nofun
  | snapshot name => exact h.snapshot name
  | restore name => exact h.restore name
  | read start =>
    cases start with
    | globalScope =>
      exact h.readScope (fun _ => rfl) Rule.thins_globalScope Rule.restoring_globalScope
    | nestedScope =>
      exact h.readScope (fun _ => rfl) Rule.thins_nestedScope Rule.restoring_nestedScope
    | name => cases hstep
    | type => cases hstep
    | arguments => cases hstep
  | remaining => cases hstep
  | same left right => cases hstep

theorem step (h : Mirrors ts us s t) (step : Step) (hstep : step.SkipsBlanks) :
    (s.step step).1 = (t.step step).1 ∧ (∀ fault, (s.step step).1 ≠ .fault fault) ∧
      Mirrors ts us (s.step step).2 (t.step step).2 := by
  obtain ⟨answer, s', t', hleft, hright, hfault, hafter⟩ := h.exists_attempt step hstep
  rw [step_of_attempt hleft, step_of_attempt hright]
  exact ⟨rfl, hfault, hafter.left_eq, hafter.right_eq, hafter.place, hafter.saved,
    hafter.readings_eq, congrArg (· + 1) h.steps_eq⟩

theorem run {steps : List Step} (h : Mirrors ts us s t)
    (hsteps : ∀ step ∈ steps, step.SkipsBlanks) :
    (s.run steps).1.map Prod.fst = (t.run steps).1.map Prod.fst ∧
      (∀ answer ∈ (s.run steps).1.map Prod.fst, ∀ fault, answer ≠ .fault fault) ∧
      Mirrors ts us (s.run steps).2 (t.run steps).2 := by
  induction steps generalizing s t with
  | nil => exact ⟨rfl, nofun, h⟩
  | cons step steps ih =>
    obtain ⟨hstep, hsteps⟩ := List.forall_mem_cons.1 hsteps
    obtain ⟨hanswer, hfault, hafter⟩ := h.step step hstep
    obtain ⟨hanswers, hfaults, hlast⟩ := ih hafter hsteps
    rw [run_cons, run_cons]
    exact ⟨List.cons_eq_cons.2 ⟨hanswer, hanswers⟩, List.forall_mem_cons.2 ⟨hfault, hfaults⟩,
      hlast⟩

end Mirrors

/-- To skip whitespace is not to have it: the same steps over a token list and over what is left of
it without whitespace have the same answers, none of them a fault, come to the same place, and find
the same tokens from there on. -/
theorem steps_skip_blanks (tokens : List Token) (h : ∀ t ∈ tokens, t.span.start ≤ t.span.stop)
    (steps : List Step) (hsteps : ∀ step ∈ steps, step.SkipsBlanks) :
    let left := (ofTokens tokens).run steps
    let right := (ofTokens (tokens.filter (!·.isWhitespace))).run steps
    left.1.map Prod.fst = right.1.map Prod.fst ∧
      (∀ answer ∈ left.1.map Prod.fst, ∀ fault, answer ≠ .fault fault) ∧
      right.2.cursor.rest = left.2.cursor.significant ∧ left.2.readings = right.2.readings ∧
      left.2.cursor.nextSignificant = right.2.cursor.nextSignificant ∧
      (∀ ps, ∃ found c d, left.2.cursor.consume ps .skipped = .ok (found, c) ∧
        right.2.cursor.consume ps .skipped = .ok (found, d)) ∧
      ∀ p, ∃ found c d, left.2.cursor.consumeUntil p .skipped = .ok (found, c) ∧
        right.2.cursor.consumeUntil p .skipped = .ok (found, d) := by
  intro left right
  obtain ⟨hanswers, hfaults, hmirrors⟩ := (mirrors_ofTokens (⟨h, rfl⟩ : Thins tokens _)).run hsteps
  have hplace := hmirrors.place
  refine ⟨hanswers, hfaults, hplace.ahead.filter_eq.symm, hmirrors.readings_eq,
    hplace.nextSignificant_eq, ?_, ?_⟩
  · intro ps
    obtain ⟨found, found', c, d, hleft, hright, hfound, _⟩ := hplace.consume Thins.tracks ps
    obtain rfl := Token.Twin.eq_of_rel hfound
    exact ⟨found, c, d, hleft, hright⟩
  · intro p
    obtain ⟨found, found', c, d, hleft, hright, hfound, _⟩ := hplace.consumeUntil p
    obtain rfl := Token.Twin.eq_of_rel hfound
    exact ⟨found, c, d, hleft, hright⟩

def spacedTokens : List Token :=
  let source := Buffer.ofBytes 0 (bytesOf "\x7b \x7d a")
  [⟨.scopeOperator, ⟨0, 1⟩, ⟨1, 1⟩, source, by decide⟩,
    ⟨.whitespace, ⟨1, 2⟩, ⟨1, 2⟩, source, by decide⟩,
    ⟨.scopeOperator, ⟨2, 3⟩, ⟨1, 3⟩, source, by decide⟩,
    ⟨.whitespace, ⟨3, 4⟩, ⟨1, 4⟩, source, by decide⟩,
    ⟨.identifier, ⟨4, 5⟩, ⟨1, 5⟩, source, by decide⟩]

theorem steps_skip_blanks_of_spacedTokens :
    let steps : List Step := [.read .globalScope, .consume [Rule.openBrace] .skipped,
      .consume [.ofKind .whitespace] .skipped, .snapshot "block", .read .nestedScope,
      .consumeUntil (.ofKind .identifier) .skipped, .allParsed, .restore "block"]
    let left := (ofTokens spacedTokens).run steps
    let right := (ofTokens (spacedTokens.filter (!·.isWhitespace))).run steps
    ((∀ t ∈ spacedTokens, t.span.start ≤ t.span.stop) ∧ ∀ step ∈ steps, step.SkipsBlanks) ∧
      left.1.map Prod.snd = [0, 1, 1, 1, 3, 5, 5, 1] ∧
      right.1.map Prod.snd = [0, 1, 1, 1, 2, 3, 3, 1] ∧
      left.1.map Prod.fst = right.1.map Prod.fst ∧
      right.2.cursor.rest = left.2.cursor.significant := by
  intro steps left right
  have hordered : ∀ t ∈ spacedTokens, t.span.start ≤ t.span.stop := by decide
  have hsteps : ∀ step ∈ steps, step.SkipsBlanks := by
    simp only [steps, List.forall_mem_cons]
    exact ⟨trivial, trivial, trivial, trivial, trivial, trivial, trivial, trivial, nofun⟩
  have hleft : left.1.map Prod.snd = [0, 1, 1, 1, 3, 5, 5, 1] := by decide +kernel
  have hright : right.1.map Prod.snd = [0, 1, 1, 1, 2, 3, 3, 1] := by decide +kernel
  obtain ⟨hanswers, _, hrest, _⟩ := steps_skip_blanks spacedTokens hordered steps hsteps
  exact ⟨⟨hordered, hsteps⟩, hleft, hright, hanswers, hrest⟩

end Session

end FrontEnd
