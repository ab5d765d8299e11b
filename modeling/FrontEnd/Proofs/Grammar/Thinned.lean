import FrontEnd.Proofs.Grammar.Content

namespace FrontEnd

/-- One list is what is left of the other without whitespace. No token ends before it starts. -/
structure Thins (ts us : List Token) : Prop where
  ordered : ∀ t ∈ ts, t.span.start ≤ t.span.stop
  filter_eq : ts.filter (!·.isWhitespace) = us

def Token.Twin (t u : Token) : Prop := t = u ∧ t.span.start ≤ t.span.stop

namespace Token.Twin

variable {t u : Token} {ts us : List Token}

theorem alike (h : t.Twin u) : t.Alike u := by
  obtain ⟨rfl, ht⟩ := h
  exact alike_self ht

theorem eq_of_forall₂ (h : List.Forall₂ Token.Twin ts us) : ts = us :=
  List.forall₂_eq_eq_eq ▸ h.imp fun _ _ => And.left

theorem eq_of_rel {found found' : Option (List Token)}
    (h : Option.Rel (List.Forall₂ Token.Twin) found found') : found = found' := by
  cases h with
  | none => rfl
  | some htwins => exact congrArg some (eq_of_forall₂ htwins)

end Token.Twin

namespace Thins

variable {t : Token} {ts us : List Token} {p : Pattern}

theorem cons (h : Thins (t :: ts) us) :
    t.isWhitespace = true ∧ Thins ts us ∨
      ∃ more, us = t :: more ∧ t.isWhitespace = false ∧ Thins ts more := by
  obtain ⟨_, hordered⟩ := List.forall_mem_cons.1 h.ordered
  cases hblank : t.isWhitespace with
  | true =>
    have hfilter := h.filter_eq
    rw [List.filter_cons_of_neg (by rw [hblank]; decide)] at hfilter
    exact .inl ⟨rfl, hordered, hfilter⟩
  | false =>
    have hfilter := h.filter_eq
    rw [List.filter_cons_of_pos (by rw [hblank]; decide)] at hfilter
    exact .inr ⟨_, hfilter.symm, rfl, hordered, rfl⟩

theorem tracks : Spacing.skipped.Tracks Thins Token.Twin := by
  intro ts us h p
  cases us with
  | nil => exact ⟨none, none, Pattern.take?_of_nothing h.filter_eq, rfl, .none⟩
  | cons t us =>
    obtain ⟨blank, rest, rfl, hblank, htake⟩ := Pattern.take?_of_token (p := p) h.filter_eq
    obtain ⟨_, hordered⟩ := List.forall_mem_append.1 h.ordered
    obtain ⟨ht, hordered⟩ := List.forall_mem_cons.1 hordered
    have hvisible : t ∈ (blank ++ t :: rest).filter (!·.isWhitespace) := by
      rw [h.filter_eq]
      exact List.mem_cons_self
    have hrest := h.filter_eq
    rw [List.filter_append, hblank, List.nil_append, Token.filter_cons_of_mem hvisible] at hrest
    obtain ⟨accepted, haccepts⟩ := p.exists_accepts ht
    have hstays := Bool.not_eq_true' _ ▸ (List.mem_filter.1 hvisible).2
    refine ⟨_, _, htake accepted haccepts,
      Pattern.take?_of_blank (List.forall_mem_nil _) hstays haccepts, ?_⟩
    cases accepted with
    | false => exact .none
    | true => exact .some ⟨⟨rfl, ht⟩, hordered, List.tail_eq_of_cons_eq hrest⟩

theorem searchUntil (h : Thins ts us) (p : Pattern) {collected collected' : List Token}
    (hcollected : List.Forall₂ Token.Twin collected collected') (passed passed' : List Token) :
    ∃ found found', p.searchUntil .skipped collected passed ts = .ok found ∧
      p.searchUntil .skipped collected' passed' us = .ok found' ∧
      Option.Rel (fun x y => List.Forall₂ Token.Twin x.matched y.matched ∧ Thins x.rest y.rest)
        found found' := by
  induction ts generalizing us collected collected' passed passed' with
  | nil =>
    cases h.filter_eq
    exact ⟨none, none, rfl, rfl, .none⟩
  | cons t ts ih =>
    have ht := h.ordered t List.mem_cons_self
    rcases h.cons with ⟨hblank, hmore⟩ | ⟨more, rfl, hvisible, hmore⟩
    · have hskips : Spacing.skipped.skips t = true := hblank
      rw [Pattern.searchUntil, if_pos hskips]
      exact ih hmore hcollected _ _
    · have hstays : ¬Spacing.skipped.skips t = true := Bool.eq_false_iff.1 hvisible
      obtain ⟨accepted, haccepts⟩ := p.exists_accepts ht
      rw [Pattern.searchUntil, if_neg hstays, Pattern.searchUntil, if_neg hstays, haccepts]
      cases accepted with
      | true => exact ⟨_, _, rfl, rfl, .some ⟨List.rel_reverse hcollected, hmore⟩⟩
      | false => exact ih hmore (.cons ⟨rfl, ht⟩ hcollected) _ _

end Thins

namespace Cursor.Beside

variable {ts us : List Token} {c d : Cursor}

theorem consumeUntil (h : c.Beside Thins ts us d) (p : Pattern) :
    ∃ found found' e e', c.consumeUntil p .skipped = .ok (found, e) ∧
      d.consumeUntil p .skipped = .ok (found', e') ∧
      Option.Rel (List.Forall₂ Token.Twin) found found' ∧ e.Beside Thins ts us e' := by
  obtain ⟨found, found', hmatch, hmatch', hrel⟩ := h.ahead.searchUntil p .nil [] []
  have hmove : c.consumeUntil p .skipped = .ok (c.passing found) :=
    Fault.bind_eq_ok.2 ⟨found, hmatch, rfl⟩
  have hmove' : d.consumeUntil p .skipped = .ok (d.passing found') :=
    Fault.bind_eq_ok.2 ⟨found', hmatch', rfl⟩
  exact ⟨_, _, _, _, hmove, hmove',
    h.passing hrel (reaches_consumeUntil hmove) (reaches_consumeUntil hmove')⟩

theorem ordered_left (h : c.Beside Thins ts us d) : c.Ordered := h.ahead.ordered

theorem nextSignificant_eq (h : c.Beside Thins ts us d) :
    c.nextSignificant = d.nextSignificant := by
  have hsame : d.significant = c.significant := by
    rw [significant, ← h.ahead.filter_eq, List.filter_filter]
    simp only [Bool.and_self]
    rfl
  rw [c.nextSignificant_eq, d.nextSignificant_eq, hsame]

theorem syntaxError_eq (h : c.Beside Thins ts us d) : c.syntaxError = d.syntaxError := by
  rw [Cursor.syntaxError, h.nextSignificant_eq, Cursor.syntaxError]

theorem allParsed_eq (h : c.Beside Thins ts us d) : c.allParsed = d.allParsed :=
  congrArg Option.isNone h.nextSignificant_eq

end Cursor.Beside

namespace Rule

variable {α : Type} {ts us : List Token} {c d : Cursor}

theorem Tandem.exists_runAt {L : List Token → List Token → Prop} {rule : Rule α}
    (h : Tandem (Cursor.Beside L ts us) Eq Eq rule rule) (hrestoring : Restoring rule)
    (hcd : c.Beside L ts us d) :
    ∃ result e e', rule.runAt c = (.ok result, e) ∧ rule.runAt d = (.ok result, e') ∧
      e.Beside L ts us e' := by
  have hrun := h.run hcd
  unfold runAt
  generalize hleft : rule c = o at hrun
  generalize hright : rule d = o' at hrun
  cases hrun with
  | ok result place =>
    cases result
    exact ⟨_, _, _, rfl, rfl, place⟩
  | rejected error =>
    cases error
    exact ⟨_, _, _, rfl, rfl, hcd.of_same_place (hrestoring hleft) (hrestoring hright)⟩

theorem congruence_thins : Congruence fun _ _ => Tandem (Cursor.Beside Thins ts us) Eq := by
  apply Tandem.congruence Thins.tracks fun _ _ h => h.alike
  intro c d hR
  obtain ⟨error, herror, _⟩ := hR.ordered_left.exists_syntaxError
  exact ⟨error, error, herror, hR.syntaxError_eq.symm.trans herror, rfl⟩

theorem thins_nestedScope : Tandem (Cursor.Beside Thins ts us) Eq Eq nestedScope nestedScope :=
  congruence_thins.nestedScope

theorem thins_globalScope : Tandem (Cursor.Beside Thins ts us) Eq Eq globalScope globalScope :=
  congruence_thins.globalScope (Tandem.get fun _ _ hR => hR.allParsed_eq)

end Rule

end FrontEnd
