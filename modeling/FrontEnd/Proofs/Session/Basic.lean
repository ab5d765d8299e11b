import FrontEnd.Proofs.Grammar.Content
import FrontEnd.Proofs.Tree.Report
import FrontEnd.Session

namespace FrontEnd

theorem Cursor.Ordered.exists_report {c : Cursor} (h : c.Ordered) :
    ∃ report, Token.report? c.nextSignificant = .ok report := by
  cases hnext : c.nextSignificant with
  | none => exact ⟨none, rfl⟩
  | some t =>
    have ht := h t (List.mem_of_find?_eq_some hnext)
    exact Fault.exists_map _ (Token.alike_self ht).exists_report

namespace Session

open Fault (get_bind set_bind lift_bind)

variable {s t : Session} {step : Step} {answer : Answer} {name : String}

theorem step_of_attempt (h : attempt step s = .ok answer t) :
    s.step step = (answer, { t with steps := s.steps + 1 }) := by
  rw [Session.step, h]

@[simp] theorem run_cons (s : Session) (step : Step) (steps : List Step) :
    s.run (step :: steps) =
      (((s.step step).1, (s.step step).2.cursor.pos) :: ((s.step step).2.run steps).1,
        ((s.step step).2.run steps).2) := rfl

theorem run_append (s : Session) (before after : List Step) :
    (s.run (before ++ after)).2 = ((s.run before).2.run after).2 := by
  induction before generalizing s with
  | nil => rfl
  | cons step before ih => rw [List.cons_append, run_cons, run_cons, ih]

theorem exists_reportTokens {matched : List Token}
    (h : ∀ t ∈ matched, t.span.start ≤ t.span.stop) :
    ∃ reports, reportTokens (some matched) = .ok (.tokens (some reports)) := by
  obtain ⟨reports, hreports⟩ := Token.exists_reportAll fun t ht => Token.alike_self (h t ht)
  exact ⟨reports, congrArg (Functor.map fun reports => Answer.tokens (some reports)) hreports⟩

theorem moving_of_ok {move : Cursor → Except Fault (Option (List Token) × Cursor)}
    {found : Option (List Token)} {d : Cursor} (hmove : move s.cursor = .ok (found, d))
    (hreport : reportTokens found = .ok answer) :
    moving move s = .ok answer { s with cursor := d } := by
  rw [moving, get_bind, lift_bind hmove]
  dsimp only
  rw [set_bind, hreport]
  rfl

theorem asking_of_ok {question : Session → Except Fault Answer} (h : question s = .ok answer) :
    asking question s = .ok answer s := by
  rw [asking, get_bind, h]
  rfl

@[simp] theorem attempt_snapshot (s : Session) (name : String) : attempt (.snapshot name) s =
    .ok .nothing { s with saved := (name, s.cursor.pos) :: s.saved } := rfl

theorem attempt_restore {tokens : List Token} {pos : Nat} (htokens : s.tokens = tokens)
    (h : s.saved.lookup name = some pos) (hle : pos ≤ tokens.length) : attempt (.restore name) s =
      .ok .nothing { s with cursor := { s.cursor with pos := pos, rest := tokens.drop pos } } := by
  subst htokens
  have hrestore : s.cursor.restore s.tokens pos =
      .ok { s.cursor with pos := pos, rest := s.tokens.drop pos } := if_pos hle
  rw [attempt, get_bind, h]
  dsimp only
  rw [lift_bind hrestore, set_bind]
  rfl

theorem attempt_restore_nothing (h : s.saved.lookup name = none) :
    attempt (.restore name) s = .ok .nothing s := by
  rw [attempt, get_bind, h]
  rfl

theorem attempt_read {start : Start} {reading : Reading} {d : Cursor} {report : ReadingReport}
    (hread : start.readAt s.cursor = (.ok reading, d)) (hreport : reading.report = .ok report) :
    attempt (.read start) s = .ok (.reading report)
      { s with cursor := d, readings := (s.steps, reading) :: s.readings } := by
  rw [attempt, get_bind, hread]
  dsimp only
  rw [set_bind, lift_bind rfl, lift_bind hreport]
  rfl

end Session

end FrontEnd
