import FrontEnd.Proofs.Grammar.Tandem
import FrontEnd.Proofs.Grammar.Trail

namespace FrontEnd

/-- The same tokens are ahead of two cursors, and can be read. -/
structure Cursor.Level (c d : Cursor) : Prop where
  ordered : c.Ordered
  rest_eq : c.rest = d.rest

namespace Cursor.Level

variable {c d c' d' : Cursor}

theorem note (h : c.Level d) (r r' : Record) : (c.note r).Level (d.note r') :=
  ⟨h.ordered, h.rest_eq⟩

theorem of_reaches (h : c.Level d) (hc : c.Reaches c') (hrest : c'.rest = d'.rest) :
    c'.Level d' := by
  obtain ⟨passed, hpassed, _⟩ := hc
  exact ⟨h.ordered.of_append hpassed, hrest⟩

end Cursor.Level

namespace Rule

variable {α β σ : Type} {S : α → α → Prop}

/-- What a rule reads is told from the tokens ahead, not from where they stand or from the log. -/
abbrev Placeless (S : α → α → Prop) (rule : Rule α) : Prop := Tandem Cursor.Level Eq S rule rule

theorem Placeless.bind {T : β → β → Prop} {rule : Rule α} {next : α → Rule β}
    (h : Placeless Eq rule) (hnext : ∀ a, Placeless T (next a)) : Placeless T (rule >>= next) := by
  apply Tandem.bind h
  · intro a
    exact (hnext a).forward
  · rintro a _ rfl
    exact hnext a

theorem Placeless.loop {body : σ → Rule (Round σ α)} {hbody : Advancing body}
    (h : ∀ s, Placeless (Round.Rel Eq Eq) (body s)) (s : σ) : Placeless Eq (loop body hbody s) := by
  have hround : ∀ s t, s = t → Tandem Cursor.Level Eq (Round.Rel Eq Eq) (body s) (body t) := by
    rintro s _ rfl
    exact h s
  exact Tandem.loop (fun s => (h s).forward) hround rfl

theorem placeless_take? (p : Pattern) (spacing : Spacing) : Placeless Eq (take? p spacing) where
  forward := forward_take? p spacing
  run := by
    intro c c' h
    obtain ⟨taken, htaken⟩ := p.exists_take? spacing h.ordered
    have htaken' := htaken
    rw [h.rest_eq] at htaken'
    have htake : take? p spacing c = .ok _ _ := take?_eq_ok.2 ⟨taken, htaken, rfl, rfl⟩
    have htake' : take? p spacing c' = .ok _ _ := take?_eq_ok.2 ⟨taken, htaken', rfl, rfl⟩
    have hreaches := forward_take? p spacing htake
    rw [htake, htake']
    refine .ok rfl (h.of_reaches hreaches ?_)
    cases taken with
    | none => exact h.rest_eq
    | some t => rfl

theorem placeless_consume (ps : List Pattern) (spacing : Spacing) :
    Placeless Eq (consume ps spacing) where
  forward := forward_consume ps spacing
  run := by
    intro c c' h
    obtain ⟨found, hfound⟩ := Pattern.exists_matchAll ps spacing h.ordered
    have hfound' := hfound
    rw [h.rest_eq] at hfound'
    have hconsume : consume ps spacing c = .ok (c.passing found).1 (c.passing found).2 :=
      consume_eq_ok.2 ⟨found, hfound, rfl⟩
    have hconsume' : consume ps spacing c' = .ok (c'.passing found).1 (c'.passing found).2 :=
      consume_eq_ok.2 ⟨found, hfound', rfl⟩
    have hreaches := forward_consume ps spacing hconsume
    rw [hconsume, hconsume']
    cases found with
    | none => exact .ok rfl h
    | some m => exact .ok rfl (h.of_reaches hreaches rfl)

theorem placeless_reject : Placeless S (reject : Rule α) := by
  apply Tandem.reject
  intro c c' h
  obtain ⟨error, herror, _⟩ := h.ordered.exists_syntaxError
  refine ⟨error, error, herror, ?_, rfl⟩
  rw [← herror, Cursor.syntaxError, Cursor.syntaxError, Cursor.nextSignificant,
    Cursor.nextSignificant, h.rest_eq]

theorem placeless_unitRound (found : List NameUnit) :
    Placeless (Round.Rel Eq Eq) (unitRound found) := by
  apply (placeless_consume _ _).bind
  intro colons
  cases colons with
  | some tokens => exact .pure (.again rfl)
  | none =>
    apply (placeless_take? _ _).bind
    intro token
    cases token with
    | some token => exact .pure (.again rfl)
    | none => exact .pure (.done rfl)

theorem placeless_nameOf (units : List NameUnit) : Placeless Eq (nameOf units) := by
  unfold nameOf
  split
  · exact .pure rfl
  · exact placeless_reject

theorem placeless_name : Placeless Eq name := by
  apply Tandem.noting fun _ _ r r' h => h.note r r'
  apply Tandem.rewinding
  apply (placeless_take? _ _).bind
  intro _
  exact (Placeless.loop placeless_unitRound _).bind placeless_nameOf

theorem placeless_typeRound (around : List Bool) :
    Placeless (Round.Rel Eq Eq) (typeRound around) := by
  apply Tandem.noting fun _ _ r r' h => h.note r r'
  apply (placeless_take? _ _).bind
  intro qualifier
  apply (placeless_take? _ _).bind
  intro pointer
  cases pointer with
  | some token => exact .pure (.again rfl)
  | none => exact placeless_name.bind fun _ => .pure (.done rfl)

/-- A type is read from the tokens ahead as it is from a list of these tokens alone. -/
theorem placeless_typeExpr : Placeless Eq typeExpr :=
  Tandem.rewinding (Placeless.loop placeless_typeRound _)

end Rule

end FrontEnd
