import FrontEnd.Proofs.Grammar.Trail

namespace FrontEnd

/-- A token that is not whitespace, what comes behind it in two lists of tokens, and how many tokens
are logged as passed where it is next. -/
structure Wall where
  token : Token
  stays : token.isWhitespace = false
  left : List Token
  more : List Token
  limit : Nat

def Cursor.passings (c : Cursor) : Nat := (c.journal.filterMap Record.advanced?).length

/-- Two cursors before the wall, which differ only in what comes behind it. -/
structure Cursor.Before (w : Wall) (c c' : Cursor) : Prop where
  ordered : c.Ordered
  pos_eq : c'.pos = c.pos
  journal_eq : c'.journal = c.journal
  ahead : ∃ ahead, c.rest = ahead ++ w.token :: w.left ∧ c'.rest = ahead ++ w.token :: w.more ∧
    c.passings + ahead.length = w.limit

structure Cursor.Behind (w : Wall) (c c' : Cursor) : Prop where
  pos_eq : c'.pos = c.pos
  journal_eq : c'.journal = c.journal
  left_eq : c.rest = w.left
  more_eq : c'.rest = w.more

inductive Taken.Along (w : Wall) (p : Pattern) (ahead : List Token) :
    Option Taken → Option Taken → Prop where
  | none : Along w p ahead none none
  | before {skipped behind : List Token} {t : Token} (split : ahead = skipped ++ [t] ++ behind) :
      Along w p ahead (some ⟨skipped, t, behind ++ w.token :: w.left⟩)
        (some ⟨skipped, t, behind ++ w.token :: w.more⟩)
  | wall (accepts : p.accepts w.token = .ok true) :
      Along w p ahead (some ⟨ahead, w.token, w.left⟩) (some ⟨ahead, w.token, w.more⟩)

inductive Match.Along (w : Wall) (ahead : List Token) : Option Match → Option Match → Prop where
  | none : Along w ahead none none
  | before {matched passed behind : List Token} (split : ahead = passed ++ behind) :
      Along w ahead (some ⟨matched, passed, behind ++ w.token :: w.left⟩)
        (some ⟨matched, passed, behind ++ w.token :: w.more⟩)

namespace Wall

variable {w : Wall} {ahead : List Token} {p : Pattern} {ps : List Pattern} {spacing : Spacing}

@[simp] theorem not_skipped (w : Wall) (spacing : Spacing) : spacing.skips w.token = false := by
  cases spacing with
  | skipped => exact w.stays
  | significant => rfl

theorem exists_take? (w : Wall) (p : Pattern) (spacing : Spacing)
    (h : ∀ t ∈ ahead ++ w.token :: w.left, t.span.start ≤ t.span.stop) :
    ∃ found found', p.take? spacing (ahead ++ w.token :: w.left) = .ok found ∧
      p.take? spacing (ahead ++ w.token :: w.more) = .ok found' ∧
      Taken.Along w p ahead found found' := by
  cases hfirst : ahead.find? (!spacing.skips ·) with
  | none =>
    have hblank : ∀ b ∈ ahead, spacing.skips b = true := by
      intro b hb
      simpa using List.find?_eq_none.1 hfirst b hb
    obtain ⟨accepted, haccepts⟩ :=
      p.exists_accepts (h w.token (List.mem_append_right _ List.mem_cons_self))
    refine ⟨_, _, Pattern.take?_of_blank hblank (w.not_skipped spacing) haccepts,
      Pattern.take?_of_blank hblank (w.not_skipped spacing) haccepts, ?_⟩
    cases accepted with
    | false => exact .none
    | true => exact .wall haccepts
  | some t =>
    obtain ⟨hstays, blank, behind, rfl, hskipped⟩ := List.find?_eq_some_iff_append.1 hfirst
    have hblank : ∀ b ∈ blank, spacing.skips b = true := by
      intro b hb
      simpa using hskipped b hb
    have hstays : spacing.skips t = false := by simpa using hstays
    have hmem : t ∈ (blank ++ t :: behind) ++ w.token :: w.left :=
      List.mem_append_left _ (List.mem_append_right _ List.mem_cons_self)
    obtain ⟨accepted, haccepts⟩ := p.exists_accepts (h t hmem)
    rw [List.append_assoc, List.append_assoc, List.cons_append, List.cons_append]
    refine ⟨_, _, Pattern.take?_of_blank hblank hstays haccepts,
      Pattern.take?_of_blank hblank hstays haccepts, ?_⟩
    cases accepted with
    | false => exact .none
    | true => exact .before (List.append_cons _ _ _)

theorem exists_matchAll (w : Wall) (spacing : Spacing)
    (h : ∀ t ∈ ahead ++ w.token :: w.left, t.span.start ≤ t.span.stop)
    (hrefuses : ∀ p ∈ ps, p.accepts w.token = .ok false) :
    ∃ found found', Pattern.matchAll spacing ps (ahead ++ w.token :: w.left) = .ok found ∧
      Pattern.matchAll spacing ps (ahead ++ w.token :: w.more) = .ok found' ∧
      Match.Along w ahead found found' := by
  induction ps generalizing ahead with
  | nil => exact ⟨_, _, rfl, rfl, .before (List.nil_append ahead).symm⟩
  | cons p ps ih =>
    obtain ⟨hfirst, hothers⟩ := List.forall_mem_cons.1 hrefuses
    obtain ⟨found, found', htake, htake', halong⟩ := w.exists_take? p spacing h
    cases halong with
    | none =>
      exact ⟨none, none, Pattern.matchAll_cons_eq_ok.2 (.inl ⟨htake, rfl⟩),
        Pattern.matchAll_cons_eq_ok.2 (.inl ⟨htake', rfl⟩), .none⟩
    | wall accepts => cases accepts.symm.trans hfirst
    | @before skipped behind t split =>
      have hbehind : ∀ x ∈ behind ++ w.token :: w.left, x.span.start ≤ x.span.stop := by
        intro x hx
        apply h x
        rw [split, List.append_assoc]
        exact List.mem_append_right _ hx
      obtain ⟨more, more', hmore, hmore', halong⟩ := ih hbehind hothers
      refine ⟨_, _, Pattern.matchAll_cons_eq_ok.2 (.inr ⟨_, more, htake, hmore, rfl⟩),
        Pattern.matchAll_cons_eq_ok.2 (.inr ⟨_, more', htake', hmore', rfl⟩), ?_⟩
      cases halong with
      | none => exact .none
      | before split' =>
        apply Match.Along.before
        rw [split, split', Taken.passed, List.append_assoc (skipped ++ [t])]

end Wall

namespace Cursor

variable {w : Wall} {c c' d : Cursor} {passed behind : List Token}

theorem Logs.passings_eq (h : c.Logs d passed) : d.passings = c.passings + passed.length := by
  obtain ⟨records, hjournal, rfl⟩ := h
  rw [passings, hjournal, List.filterMap_append, List.filterMap_reverse, List.length_append,
    List.length_reverse, Nat.add_comm]
  rfl

namespace Before

theorem note (h : c.Before w c') {r : Record} (hr : r.advanced? = none) :
    (c.note r).Before w (c'.note r) where
  ordered := h.ordered
  pos_eq := h.pos_eq
  journal_eq := congrArg (r :: ·) h.journal_eq
  ahead := by
    obtain ⟨ahead, hrest, hrest', hlimit⟩ := h.ahead
    refine ⟨ahead, hrest, hrest', ?_⟩
    rw [(logs_note hr).passings_eq]
    exact hlimit

theorem pass (h : c.Before w c') (hrest : c.rest = passed ++ behind ++ w.token :: w.left)
    (hlimit : c.passings + (passed ++ behind).length = w.limit) :
    (c.pass passed (behind ++ w.token :: w.left)).Before w
      (c'.pass passed (behind ++ w.token :: w.more)) where
  ordered := h.ordered.of_append (hrest.trans (List.append_assoc _ _ _))
  pos_eq := congrArg (· + passed.length) h.pos_eq
  journal_eq := congrArg ((passed.map Record.advanced).reverse ++ ·) h.journal_eq
  ahead := by
    refine ⟨behind, rfl, rfl, ?_⟩
    rw [(logs_pass c passed _).passings_eq, Nat.add_assoc, ← List.length_append]
    exact hlimit

theorem nextSignificant_eq (h : c.Before w c') :
    ∃ t ∈ c.rest, c.nextSignificant = some t ∧ c'.nextSignificant = some t := by
  obtain ⟨ahead, hrest, hrest', _⟩ := h.ahead
  rw [nextSignificant, nextSignificant, hrest, hrest', List.find?_append, List.find?_append]
  cases hfirst : ahead.find? (!·.isWhitespace) with
  | some t => exact ⟨t, List.mem_append_left _ (List.mem_of_find?_eq_some hfirst), rfl, rfl⟩
  | none =>
    have hfind : ∀ behind, (w.token :: behind).find? (!·.isWhitespace) = some w.token := by
      intro behind
      rw [List.find?_cons_of_pos]
      rw [w.stays]
      rfl
    exact ⟨w.token, List.mem_append_right _ List.mem_cons_self, hfind w.left, hfind w.more⟩

theorem exists_take? (h : c.Before w c') (p : Pattern) (spacing : Spacing) :
    ∃ ahead found found', c.rest = ahead ++ w.token :: w.left ∧
      c.passings + ahead.length = w.limit ∧ p.take? spacing c.rest = .ok found ∧
      p.take? spacing c'.rest = .ok found' ∧ Taken.Along w p ahead found found' := by
  obtain ⟨ahead, hrest, hrest', hlimit⟩ := h.ahead
  obtain ⟨found, found', htake, htake', halong⟩ :=
    w.exists_take? p spacing fun t ht => h.ordered t (hrest ▸ ht)
  rw [← hrest] at htake
  rw [← hrest'] at htake'
  exact ⟨ahead, found, found', hrest, hlimit, htake, htake', halong⟩

end Before

end Cursor

namespace Rule

variable {α β σ : Type} {w : Wall} {c c' d d' : Cursor}

/-- What a rule comes to on two lists that are the same up to the wall: the same, unless it passes
the wall. -/
inductive Along (w : Wall) : Outcome α → Outcome α → Prop where
  | ok {a : α} {d d' : Cursor} (place : d.Before w d') : Along w (.ok a d) (.ok a d')
  | rejected {e : SyntaxError} {d d' : Cursor} (journal_eq : d'.journal = d.journal) :
      Along w (.error (.rejected e) d) (.error (.rejected e) d')
  | past {a : α} {d : Cursor} {o : Outcome α} (passed : w.limit < d.passings)
      (short : d.rest.length ≤ w.left.length) : Along w (.ok a d) o
  | lost {f : Failure} {d : Cursor} {o : Outcome α} (passed : w.limit < d.passings) :
      Along w (.error f d) o

/-- A rule decides on what comes before the wall without what comes behind it. -/
structure Local (w : Wall) (rule : Rule α) : Prop where
  trails : Trails rule
  run : ∀ ⦃c c'⦄, c.Before w c' → Along w (rule c) (rule c')

theorem Along.of_past {o o' : Outcome α} (hpassed : w.limit < d.passings)
    (hshort : d.rest.length ≤ w.left.length) (h : Trail d o) : Along w o o' := by
  cases h with
  | ok passed split pos_eq logs =>
    have hpassings := logs.passings_eq
    have hlength := congrArg List.length split
    rw [List.length_append] at hlength
    exact .past (by omega) (by omega)
  | rejected passed left split logs blames =>
    have hpassings := logs.passings_eq
    exact .lost (by omega)

namespace Local

theorem pure (a : α) : Local w (pure a) where
  trails := .pure a
  run := fun _ _ h => .ok h

theorem reject : Local w (reject : Rule α) where
  trails := trails_reject
  run := by
    intro c c' h
    obtain ⟨t, ht, hnext, hnext'⟩ := h.nextSignificant_eq
    obtain ⟨text, htext⟩ := Token.exists_text (h.ordered t ht)
    have herror : SyntaxError.ofToken t = .ok (.unexpected t.position t.kind text) := by
      rw [SyntaxError.ofToken, htext]
      rfl
    rw [Rule.reject, Rule.reject, Cursor.syntaxError, Cursor.syntaxError, hnext, hnext']
    dsimp only
    rw [herror]
    exact .rejected h.journal_eq

theorem bind {rule : Rule α} {next : α → Rule β} (h : Local w rule)
    (h' : ∀ a, Local w (next a)) : Local w (rule >>= next) where
  trails := h.trails.bind fun a => (h' a).trails
  run := by
    intro c c' hbefore
    have hfirst := h.run hbefore
    have htrail := h.trails c hbefore.ordered
    generalize hrule : rule c = o at hfirst htrail
    generalize hrule' : rule c' = o' at hfirst
    cases hfirst with
    | ok place =>
      rw [bind_of_ok hrule, bind_of_ok hrule']
      exact (h' _).run place
    | rejected journal_eq =>
      rw [bind_of_error hrule, bind_of_error hrule']
      exact .rejected journal_eq
    | @past a d _ passed short =>
      rw [bind_of_ok hrule]
      exact .of_past passed short ((h' a).trails d (htrail.ordered hbefore.ordered))
    | lost passed =>
      rw [bind_of_error hrule]
      exact .lost passed

theorem rewinding {rule : Rule α} (h : Local w rule) : Local w (rewinding rule) where
  trails := h.trails.rewinding
  run := by
    intro c c' hbefore
    have hrun := h.run hbefore
    generalize hrule : rule c = o at hrun
    generalize hrule' : rule c' = o' at hrun
    cases hrun with
    | ok place =>
      rw [rewinding_of_ok hrule, rewinding_of_ok hrule']
      exact .ok place
    | rejected journal_eq =>
      rw [rewinding_of_error hrule, rewinding_of_error hrule']
      exact .rejected journal_eq
    | past passed short =>
      rw [rewinding_of_ok hrule]
      exact .past passed short
    | lost passed =>
      rw [rewinding_of_error hrule]
      exact .lost passed

theorem noting {rule : Rule α} {record : Nat → Record} (hrecord : ∀ n, (record n).advanced? = none)
    (h : Local w rule) : Local w (note (fun c => record c.pos) >>= fun _ => rule) where
  trails := (trails_note fun c => hrecord c.pos).bind fun _ => h.trails
  run := by
    intro c c' hbefore
    rw [bind_of_ok (note_eq _), bind_of_ok (note_eq _), hbefore.pos_eq]
    exact h.run (hbefore.note (hrecord c.pos))

theorem loop {body : σ → Rule (Round σ α)} {hbody : Advancing body} (h : ∀ s, Local w (body s))
    (s : σ) : Local w (loop body hbody s) where
  trails := trails_loop (fun s => (h s).trails) s
  run := by
    intro c c' hbefore
    refine loop_induction (P := fun s c o => ∀ c', c.Before w c' →
      Along w o (Rule.loop body hbody s c')) ?_ ?_ ?_ s c c' hbefore
    · intro s c f d hround c' hbefore
      have hboth := (h s).run hbefore
      rw [hround] at hboth
      generalize hround' : body s c' = o' at hboth
      cases hboth with
      | rejected journal_eq =>
        rw [loop_of_error hround']
        exact .rejected journal_eq
      | lost passed => exact .lost passed
    · intro s c a d hround c' hbefore
      have hboth := (h s).run hbefore
      rw [hround] at hboth
      generalize hround' : body s c' = o' at hboth
      cases hboth with
      | ok place =>
        rw [loop_of_done hround']
        exact .ok place
      | past passed short => exact .past passed short
    · intro s c t d hround ih c' hbefore
      have hboth := (h s).run hbefore
      have htrail := (h s).trails c hbefore.ordered
      rw [hround] at hboth htrail
      generalize hround' : body s c' = o' at hboth
      cases hboth with
      | ok place =>
        rw [loop_of_again hround']
        exact ih _ place
      | past passed short =>
        exact .of_past passed short (trails_loop (fun s => (h s).trails) t d
          (htrail.ordered hbefore.ordered))

theorem take? (p : Pattern) (spacing : Spacing) : Local w (take? p spacing) where
  trails := trails_take? p spacing
  run := by
    intro c c' h
    obtain ⟨ahead, found, found', hrest, hlimit, htaken, htaken', halong⟩ := h.exists_take? p spacing
    have htake : Rule.take? p spacing c = .ok _ _ := take?_eq_ok.2 ⟨found, htaken, rfl, rfl⟩
    have htake' : Rule.take? p spacing c' = .ok _ _ := take?_eq_ok.2 ⟨found', htaken', rfl, rfl⟩
    rw [htake, htake']
    cases halong with
    | none => exact .ok h
    | before split =>
      rw [split] at hrest hlimit
      exact .ok (h.pass hrest hlimit)
    | wall accepts =>
      apply Along.past
      · rw [Option.elim_some, (c.logs_pass _ _).passings_eq, Taken.passed, List.length_append,
          ← Nat.add_assoc, hlimit]
        exact Nat.lt_succ_self _
      · exact Nat.le_refl _

theorem consume {ps : List Pattern} (spacing : Spacing)
    (hrefuses : ∀ p ∈ ps, p.accepts w.token = .ok false) : Local w (consume ps spacing) where
  trails := trails_consume ps spacing
  run := by
    intro c c' h
    obtain ⟨ahead, hrest, hrest', hlimit⟩ := h.ahead
    obtain ⟨found, found', hfound, hfound', halong⟩ :=
      w.exists_matchAll spacing (fun t ht => h.ordered t (hrest ▸ ht)) hrefuses
    rw [← hrest] at hfound
    rw [← hrest'] at hfound'
    have hconsume : Rule.consume ps spacing c = .ok (c.passing found).1 (c.passing found).2 :=
      consume_eq_ok.2 ⟨found, hfound, rfl⟩
    have hconsume' : Rule.consume ps spacing c' = .ok (c'.passing found').1 (c'.passing found').2 :=
      consume_eq_ok.2 ⟨found', hfound', rfl⟩
    rw [hconsume, hconsume']
    cases halong with
    | none => exact .ok h
    | before split =>
      rw [split] at hrest hlimit
      exact .ok (h.pass hrest hlimit)

theorem peek (p : Pattern) : Local w (ask (·.peek [p])) where
  trails := trails_peek [p]
  run := by
    intro c c' h
    obtain ⟨_, found, found', _, _, htaken, htaken', halong⟩ := h.exists_take? p .skipped
    rw [ask, ask, Cursor.peek, Cursor.peek, Pattern.matchAll, Pattern.matchAll, htaken, htaken']
    cases halong with
    | none => exact .ok h
    | before split => exact .ok h
    | wall accepts => exact .ok h

end Local

section Walk

variable (hcolon : colon.accepts w.token = .ok false)

include hcolon

theorem local_unitRound (found : List NameUnit) : Local w (unitRound found) := by
  have hseparator : ∀ p ∈ separator, p.accepts w.token = .ok false :=
    List.forall_mem_cons.2 ⟨hcolon, List.forall_mem_singleton.2 hcolon⟩
  apply (Local.consume .significant hseparator).bind
  intro colons
  cases colons with
  | some tokens => exact .pure _
  | none =>
    apply (Local.take? _ _).bind
    intro token
    cases token with
    | some token => exact .pure _
    | none => exact .pure _

omit hcolon in
theorem local_nameOf (units : List NameUnit) : Local w (nameOf units) := by
  unfold nameOf
  split
  · exact .pure _
  · exact .reject

theorem local_name : Local w name := by
  apply Local.noting fun _ => rfl
  apply Local.rewinding
  apply (Local.take? _ _).bind
  intro _
  exact (Local.loop (local_unitRound hcolon) _).bind local_nameOf

theorem local_typeRound (around : List Bool) : Local w (typeRound around) := by
  apply Local.noting fun _ => rfl
  apply (Local.take? _ _).bind
  intro qualifier
  apply (Local.take? _ _).bind
  intro pointer
  cases pointer with
  | some token => exact .pure _
  | none => exact (local_name hcolon).bind fun _ => .pure _

theorem local_typeExpr : Local w typeExpr := (Local.loop (local_typeRound hcolon) _).rewinding

omit hcolon in
theorem local_modeAmong (modes : List Mode) : Local w (modeAmong modes) := by
  induction modes with
  | nil => exact .pure _
  | cons m ms ih =>
    apply (Local.take? _ _).bind
    intro found
    cases found with
    | some token => exact .pure _
    | none => exact ih

theorem local_argumentType : Local w argumentType := by
  apply (Local.take? _ _).bind
  intro found
  cases found with
  | some token => exact (local_typeExpr hcolon).bind fun _ => .pure _
  | none => exact .pure _

omit hcolon in
theorem local_argumentOf (mode : Mode) (name : Option Token) (type : Option TypeExpr) :
    Local w (argumentOf mode name type) := by
  cases name with
  | some name => exact .pure _
  | none =>
    have hrecord : ∀ _ : Nat, Record.unnamedDropped.advanced? = none := fun _ => rfl
    exact Local.noting hrecord (.pure _)

theorem local_argument : Local w argument := by
  apply (local_modeAmong _).bind
  intro mode
  apply (Local.take? _ _).bind
  intro name
  apply (local_argumentType hcolon).bind
  intro type
  exact local_argumentOf mode name type

theorem local_argumentRound (found : List Argument) : Local w (argumentRound found) := by
  apply (local_argument hcolon).bind
  intro read
  apply (Local.take? _ _).bind
  intro separator
  cases separator with
  | some token =>
    apply (Local.peek _).bind
    intro closed
    cases closed with
    | true => exact .reject
    | false => exact .pure _
  | none =>
    apply (Local.take? _ _).bind
    intro closed
    cases closed with
    | some token => exact .pure _
    | none => exact .reject

end Walk

theorem local_braceRound (o : OpenScopes) : Local w (braceRound o) := by
  apply (Local.take? _ _).bind
  intro closed
  cases closed with
  | some token => exact .pure _
  | none =>
    apply (Local.take? _ _).bind
    intro opened
    cases opened with
    | some token => exact .pure _
    | none => exact .reject

theorem local_nestedScope : Local w nestedScope := (Local.loop local_braceRound _).rewinding

theorem local_entryRound (found : List Scope) : Local w (entryRound found) where
  trails := trails_entryRound found
  run := by
    intro c c' h
    obtain ⟨t, _, hnext, hnext'⟩ := h.nextSignificant_eq
    have hget : ∀ c : Cursor, (get : Rule Cursor) c = .ok c c := fun _ => rfl
    rw [entryRound, bind_of_ok (hget c), bind_of_ok (hget c'), Cursor.allParsed, Cursor.allParsed,
      hnext, hnext', Option.isNone_some, if_neg Bool.false_ne_true]
    refine Local.run ?_ h
    apply (Local.take? _ _).bind
    intro opened
    cases opened with
    | some token => exact local_nestedScope.bind fun _ => .pure _
    | none => exact .reject

theorem local_globalScope : Local w globalScope := by
  apply Local.noting fun _ => rfl
  exact (Local.loop local_entryRound _).rewinding

end Rule

end FrontEnd
