import FrontEnd.Proofs.Grammar.Congruence
import FrontEnd.Proofs.Grammar.Rule

namespace FrontEnd

namespace Rule

variable {α β γ δ σ τ : Type} {R : Cursor → Cursor → Prop} {barred : Record}
  {S : α → β → Prop} {T : γ → δ → Prop}

/-- Where a rule succeeds without logging what is barred, another succeeds at a related cursor, with
a related result. -/
structure Simulates (R : Cursor → Cursor → Prop) (barred : Record) (S : α → β → Prop)
    (rule : Rule α) (other : Rule β) : Prop where
  forward : Forward rule
  run : ∀ ⦃c d c' a⦄, R c c' → rule c = .ok a d → barred ∉ d.journal →
    ∃ b d', other c' = .ok b d' ∧ S a b ∧ R d d'

namespace Simulates

variable {rule : Rule α} {other : Rule β}

theorem pure {a : α} {b : β} (h : S a b) : Simulates R barred S (pure a) (pure b) where
  forward := .pure a
  run := by
    intro c d c' a' hR hrule _
    obtain ⟨rfl, rfl⟩ := pure_eq_ok hrule
    exact ⟨b, c', rfl, h, hR⟩

theorem reject : Simulates R barred S reject reject where
  forward := forward_reject
  run := by
    intro c d c' a _ hrule _
    exact absurd hrule reject_ne_ok

theorem bind {next : α → Rule γ} {next' : β → Rule δ} (h : Simulates R barred S rule other)
    (hforward : ∀ a, Forward (next a))
    (h' : ∀ a b, S a b → Simulates R barred T (next a) (next' b)) :
    Simulates R barred T (rule >>= next) (other >>= next') where
  forward := h.forward.bind hforward
  run := by
    intro c e c' x hR hrule hbarred
    obtain ⟨a, d, hfirst, hnext⟩ := bind_eq_ok hrule
    -- The log only grows, so what is barred is not logged before the second rule either.
    have hbefore := (hforward a hnext).not_mem hbarred
    obtain ⟨b, d', hother, hS, hR⟩ := h.run hR hfirst hbefore
    obtain ⟨y, e', hnext', hT, hR⟩ := (h' a b hS).run hR hnext hbarred
    exact ⟨y, e', (bind_of_ok hother).trans hnext', hT, hR⟩

theorem rewinding (h : Simulates R barred S rule other) :
    Simulates R barred S (rewinding rule) (rewinding other) where
  forward := h.forward.rewinding
  run := by
    intro c d c' a hR hrule hbarred
    unfold Rule.rewinding at hrule
    split at hrule
    · next hok =>
      cases hrule
      obtain ⟨b, d', hother, hS, hR⟩ := h.run hR hok hbarred
      exact ⟨b, d', rewinding_of_ok hother, hS, hR⟩
    · cases hrule

theorem loop {body : σ → Rule (Round σ α)} {body' : τ → Rule (Round τ β)}
    {hbody : Advancing body} {hbody' : Advancing body'} {P : σ → τ → Prop}
    (hforward : ∀ s, Forward (body s))
    (h : ∀ s t, P s t → Simulates R barred (Round.Rel P S) (body s) (body' t)) {s : σ} {t : τ}
    (hst : P s t) : Simulates R barred S (loop body hbody s) (loop body' hbody' t) where
  forward := forward_loop hforward s
  run := by
    intro c d c' a hR hrule hbarred
    refine loop_induction (P := fun s c o => ∀ t c', P s t → R c c' → o = .ok a d →
      ∃ b d', Rule.loop body' hbody' t c' = .ok b d' ∧ S a b ∧ R d d') ?_ ?_ ?_ s c t c' hst hR
      hrule
    · intro s c e f _ t c' _ _ hfails
      cases hfails
    · intro s c a' e hround t c' hst hR hends
      cases hends
      obtain ⟨r, d', hother, hrel, hR⟩ := (h s t hst).run hR hround hbarred
      cases hrel with
      | done hS => exact ⟨_, d', loop_of_done hother, hS, hR⟩
    · intro s c s' e hround ih t c' hst hR hends
      have hbefore := (forward_loop hforward s' hends).not_mem hbarred
      obtain ⟨r, e', hother, hrel, hR⟩ := (h s t hst).run hR hround hbefore
      cases hrel with
      | again hst =>
        obtain ⟨b, d', hmore, hS, hR⟩ := ih _ e' hst hR hends
        exact ⟨b, d', (loop_of_again hother).trans hmore, hS, hR⟩

theorem noting (hnote : ∀ ⦃c c'⦄ (r r' : Record), R c c' → R (c.note r) (c'.note r'))
    (h : Simulates R barred S rule other) {record record' : Cursor → Record} :
    Simulates R barred S (note record >>= fun _ => rule) (note record' >>= fun _ => other) where
  forward := (forward_note record).bind fun _ => h.forward
  run := by
    intro c d c' a hR hrun hbarred
    obtain ⟨_, _, hnoted, hrun⟩ := bind_eq_ok hrun
    cases hnoted
    exact h.run (hnote (record c) (record' c') hR) hrun hbarred

theorem congruence (hnote : ∀ ⦃c c'⦄ (r r' : Record), R c c' → R (c.note r) (c'.note r'))
    (htake : ∀ p, Simulates R barred (Option.Rel Token.Alike) (take? p .skipped)
      (take? p .skipped)) : Congruence fun _ _ => Simulates R barred where
  forward := Simulates.forward
  pure := pure
  reject := reject
  bind := bind
  rewinding := rewinding
  noting := fun h => h.noting hnote
  loop := loop
  take? := htake

end Simulates

/-- The steps that a type and arguments are read with, each followed at a related cursor. -/
structure Simulation (R : Cursor → Cursor → Prop) (barred : Record) : Prop where
  note : ∀ ⦃c c'⦄ (r r' : Record), R c c' → R (c.note r) (c'.note r')
  take? : ∀ p, Simulates R barred (Option.Rel Token.Alike) (take? p .skipped) (take? p .skipped)
  peek : ∀ ps, Simulates R barred Eq (ask (·.peek ps)) (ask (·.peek ps))
  name : Simulates R barred QualifiedName.Alike name name

namespace Simulation

theorem congruence (h : Simulation R barred) : Congruence fun _ _ => Simulates R barred :=
  Simulates.congruence h.note h.take?

theorem typeExpr (h : Simulation R barred) :
    Simulates R barred TypeExpr.Alike typeExpr typeExpr := h.congruence.typeExpr h.name

theorem arguments (h : Simulation R barred) :
    Simulates R barred (List.Forall₂ Argument.Alike) arguments arguments :=
  h.congruence.arguments h.name h.peek

end Simulation

end Rule

end FrontEnd
