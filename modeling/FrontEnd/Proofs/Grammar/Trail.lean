import FrontEnd.Grammar.Reading
import FrontEnd.Proofs.Grammar.Rule

namespace FrontEnd

def Record.advanced? : Record → Option Token
  | .advanced t => some t
  | _ => none

/-- The log of one cursor goes on to that of another, and says that these tokens were passed, each
once and in order. -/
def Cursor.Logs (c d : Cursor) (passed : List Token) : Prop :=
  ∃ records : List Record, d.journal = records.reverse ++ c.journal ∧
    records.filterMap Record.advanced? = passed

/-- The error is about the first of some tokens that is not whitespace, or about the end. -/
inductive SyntaxError.Blames (left : List Token) : SyntaxError → Prop where
  | token {t : Token} {text : String} (first : left.find? (!·.isWhitespace) = some t)
      (readable : t.text = .ok text) : Blames left (.unexpected t.position t.kind text)
  | endOfInput (nothing : left.find? (!·.isWhitespace) = none) : Blames left .endOfInput

namespace Cursor

variable {c d e : Cursor} {ts us : List Token}

theorem Logs.refl (c : Cursor) : c.Logs c [] := ⟨[], rfl, rfl⟩

theorem Logs.trans (h : c.Logs d ts) (h' : d.Logs e us) : c.Logs e (ts ++ us) := by
  obtain ⟨records, hd, rfl⟩ := h
  obtain ⟨more, he, rfl⟩ := h'
  refine ⟨records ++ more, ?_, List.filterMap_append⟩
  rw [he, hd, List.reverse_append, List.append_assoc]

theorem logs_pass (c : Cursor) (passed rest : List Token) : c.Logs (c.pass passed rest) passed := by
  refine ⟨passed.map .advanced, rfl, ?_⟩
  rw [List.filterMap_map]
  exact List.filterMap_some

theorem logs_note {r : Record} (h : r.advanced? = none) : c.Logs (c.note r) [] := by
  refine ⟨[r], rfl, ?_⟩
  rw [List.filterMap_cons_none h, List.filterMap_nil]

theorem Ordered.of_append (h : c.Ordered) (hrest : c.rest = ts ++ d.rest) : d.Ordered := by
  intro t ht
  apply h t
  rw [hrest]
  exact List.mem_append_right ts ht

theorem Ordered.exists_syntaxError (h : c.Ordered) :
    ∃ error, c.syntaxError = .ok error ∧ error.Blames c.rest := by
  rw [syntaxError]
  cases hnext : c.nextSignificant with
  | none => exact ⟨.endOfInput, rfl, .endOfInput hnext⟩
  | some t =>
    obtain ⟨text, htext⟩ := Token.exists_text (h t (List.mem_of_find?_eq_some hnext))
    refine ⟨_, ?_, .token hnext htext⟩
    simp only [SyntaxError.ofToken, htext]
    rfl

end Cursor

namespace Pattern

variable {tokens : List Token}

theorem exists_accepts (p : Pattern) {t : Token} (h : t.span.start ≤ t.span.stop) :
    ∃ accepted, p.accepts t = .ok accepted := by
  cases p with
  | ofKind kind => exact ⟨_, rfl⟩
  | exact kind text =>
    rw [accepts, Token.isText, Token.bytes_eq h]
    split <;> exact ⟨_, rfl⟩

theorem exists_take? (p : Pattern) (spacing : Spacing)
    (h : ∀ t ∈ tokens, t.span.start ≤ t.span.stop) :
    ∃ found, p.take? spacing tokens = .ok found := by
  rw [take?]
  cases hdrop : tokens.dropWhile spacing.skips with
  | nil => exact ⟨none, rfl⟩
  | cons t rest =>
    have ht : t ∈ tokens := (List.dropWhile_sublist _).mem (by rw [hdrop]; exact List.mem_cons_self)
    obtain ⟨accepted, haccepts⟩ := p.exists_accepts (h t ht)
    simp only [haccepts]
    cases accepted with
    | true => exact ⟨_, rfl⟩
    | false => exact ⟨none, rfl⟩

theorem exists_matchAll (ps : List Pattern) (spacing : Spacing)
    (h : ∀ t ∈ tokens, t.span.start ≤ t.span.stop) :
    ∃ found, matchAll spacing ps tokens = .ok found := by
  induction ps generalizing tokens with
  | nil => exact ⟨_, rfl⟩
  | cons p ps ih =>
    obtain ⟨taken, htake⟩ := p.exists_take? spacing h
    cases taken with
    | none => exact ⟨none, matchAll_cons_eq_ok.2 (.inl ⟨htake, rfl⟩)⟩
    | some first =>
      have hrest : ∀ t ∈ first.rest, t.span.start ≤ t.span.stop := by
        intro t ht
        apply h t
        rw [← take?_append htake]
        exact List.mem_append_right _ ht
      obtain ⟨more, hmore⟩ := ih hrest
      exact ⟨_, matchAll_cons_eq_ok.2 (.inr ⟨first, more, htake, hmore, rfl⟩)⟩

theorem exists_searchUntil (p : Pattern) (spacing : Spacing) (collected passed : List Token)
    (h : ∀ t ∈ tokens, t.span.start ≤ t.span.stop)
    (hcollected : ∀ t ∈ collected, t.span.start ≤ t.span.stop) :
    ∃ found, p.searchUntil spacing collected passed tokens = .ok found ∧
      ∀ m, found = some m → ∀ t ∈ m.matched, t.span.start ≤ t.span.stop := by
  induction tokens generalizing collected passed with
  | nil => exact ⟨none, rfl, fun m hm => by cases hm⟩
  | cons token rest ih =>
    obtain ⟨htoken, hrest⟩ := List.forall_mem_cons.1 h
    rw [searchUntil]
    split
    · exact ih _ _ hrest hcollected
    · obtain ⟨accepted, haccepts⟩ := p.exists_accepts htoken
      rw [haccepts]
      cases accepted with
      | true =>
        refine ⟨_, rfl, fun m hm t ht => ?_⟩
        cases hm
        exact hcollected t (List.mem_reverse.1 ht)
      | false => exact ih _ _ hrest (List.forall_mem_cons.2 ⟨htoken, hcollected⟩)

end Pattern

namespace Rule

variable {α β σ : Type} {c d : Cursor}

/-- What a rule comes to: it passes tokens one after the other and logs them. If it rejects, the
error is about what comes after the tokens that it passed. -/
inductive Trail (c : Cursor) : Outcome α → Prop where
  | ok {a : α} {d : Cursor} (passed : List Token) (split : c.rest = passed ++ d.rest)
      (pos_eq : d.pos = c.pos + passed.length) (logs : c.Logs d passed) : Trail c (.ok a d)
  | rejected {error : SyntaxError} {d : Cursor} (passed left : List Token)
      (split : c.rest = passed ++ left) (logs : c.Logs d passed) (blames : error.Blames left) :
      Trail c (.error (.rejected error) d)

def Trails (rule : Rule α) : Prop := ∀ c : Cursor, c.Ordered → Trail c (rule c)

theorem Trail.after {a : α} {o : Outcome β} (h : Trail c (.ok a d)) (h' : Trail d o) :
    Trail c o := by
  cases h with
  | ok passed split pos_eq logs =>
    cases h' with
    | ok more split' pos_eq' logs' =>
      apply Trail.ok (passed ++ more)
      · rw [split, split', List.append_assoc]
      · rw [pos_eq', pos_eq, List.length_append, Nat.add_assoc]
      · exact logs.trans logs'
    | rejected more left split' logs' blames =>
      apply Trail.rejected (passed ++ more) left
      · rw [split, split', List.append_assoc]
      · exact logs.trans logs'
      · exact blames

theorem Trail.ordered {a : α} (h : Trail c (.ok a d)) (hc : c.Ordered) : d.Ordered := by
  cases h with
  | ok passed split => exact hc.of_append split

theorem Trails.pure (a : α) : Trails (pure a : Rule α) := fun c _ => .ok [] rfl rfl (.refl c)

theorem Trails.bind {rule : Rule α} {next : α → Rule β} (h : Trails rule)
    (h' : ∀ a, Trails (next a)) : Trails (rule >>= next) := by
  intro c hc
  have hfirst := h c hc
  cases hrule : rule c with
  | ok a d =>
    rw [hrule] at hfirst
    rw [bind_of_ok hrule]
    exact hfirst.after (h' a d (hfirst.ordered hc))
  | error f d =>
    rw [hrule] at hfirst
    rw [bind_of_error hrule]
    cases hfirst with
    | rejected passed left split logs blames => exact .rejected passed left split logs blames

theorem Trails.rewinding {rule : Rule α} (h : Trails rule) : Trails (rewinding rule) := by
  intro c hc
  have htrail := h c hc
  cases hrule : rule c with
  | ok a d =>
    rw [hrule] at htrail
    rw [rewinding_of_ok hrule]
    exact htrail
  | error f d =>
    rw [hrule] at htrail
    rw [rewinding_of_error hrule]
    cases htrail with
    | rejected passed left split logs blames => exact .rejected passed left split logs blames

theorem trails_note {record : Cursor → Record} (h : ∀ c, (record c).advanced? = none) :
    Trails (note record) :=
  fun c _ => .ok [] rfl rfl (Cursor.logs_note (h c))

theorem trails_reject : Trails (reject : Rule α) := by
  intro c hc
  obtain ⟨error, herror, hblames⟩ := hc.exists_syntaxError
  rw [reject, herror]
  exact .rejected [] c.rest rfl (.refl c) hblames

theorem trails_get : Trails (get : Rule Cursor) := fun c _ => .ok [] rfl rfl (.refl c)

theorem trails_peek (ps : List Pattern) : Trails (ask (·.peek ps)) := by
  intro c hc
  obtain ⟨found, hmatch⟩ := Pattern.exists_matchAll ps .skipped hc
  rw [ask, Cursor.peek, hmatch]
  exact .ok [] rfl rfl (.refl c)

theorem trails_take? (p : Pattern) (spacing : Spacing) : Trails (take? p spacing) := by
  intro c hc
  obtain ⟨taken, htaken⟩ := p.exists_take? spacing hc
  have htake : take? p spacing c = .ok _ _ := take?_eq_ok.2 ⟨taken, htaken, rfl, rfl⟩
  rw [htake]
  cases taken with
  | none => exact .ok [] rfl rfl (.refl c)
  | some t =>
    exact .ok t.passed (Pattern.take?_append htaken).symm rfl (Cursor.logs_pass c t.passed t.rest)

theorem trails_consume (ps : List Pattern) (spacing : Spacing) : Trails (consume ps spacing) := by
  intro c hc
  obtain ⟨found, hmatch⟩ := Pattern.exists_matchAll ps spacing hc
  have hconsume : consume ps spacing c = .ok _ _ := consume_eq_ok.2 ⟨found, hmatch, rfl⟩
  rw [hconsume]
  cases found with
  | none => exact .ok [] rfl rfl (.refl c)
  | some m =>
    exact .ok m.passed (Pattern.matchAll_append hmatch).1.symm rfl
      (Cursor.logs_pass c m.passed m.rest)

theorem trails_loop {body : σ → Rule (Round σ α)} {h : Advancing body} (hb : ∀ s, Trails (body s))
    (s : σ) : Trails (loop body h s) := by
  intro c
  refine loop_induction (P := fun _ c o => c.Ordered → Trail c o) ?_ ?_ ?_ s c
  · intro s c e d hround hc
    have hfirst := hb s c hc
    rw [hround] at hfirst
    cases hfirst with
    | rejected passed left split logs blames => exact .rejected passed left split logs blames
  · intro s c a d hround hc
    have hfirst := hb s c hc
    rw [hround] at hfirst
    cases hfirst with
    | ok passed split pos_eq logs => exact .ok passed split pos_eq logs
  · intro s c t d hround ih hc
    have hfirst := hb s c hc
    rw [hround] at hfirst
    exact hfirst.after (ih (hfirst.ordered hc))

theorem trails_unitRound (found : List NameUnit) : Trails (unitRound found) := by
  refine (trails_consume _ _).bind fun colons => ?_
  cases colons with
  | some tokens => exact .pure _
  | none =>
    refine (trails_take? _ _).bind fun token => ?_
    cases token with
    | some token => exact .pure _
    | none => exact .pure _

theorem trails_nameOf (units : List NameUnit) : Trails (nameOf units) := by
  unfold nameOf
  split
  · exact .pure _
  · exact trails_reject

theorem trails_name : Trails name :=
  (trails_note fun _ => rfl).bind fun _ => Trails.rewinding <|
    (trails_take? _ _).bind fun _ => (trails_loop trails_unitRound _).bind trails_nameOf

theorem trails_typeRound (around : List Bool) : Trails (typeRound around) := by
  refine (trails_note fun _ => rfl).bind fun _ => (trails_take? _ _).bind fun qualifier =>
    (trails_take? _ _).bind fun pointer => ?_
  cases pointer with
  | some token => exact .pure _
  | none => exact trails_name.bind fun _ => .pure _

theorem trails_typeExpr : Trails typeExpr := (trails_loop trails_typeRound _).rewinding

theorem trails_modeAmong (modes : List Mode) : Trails (modeAmong modes) := by
  induction modes with
  | nil => exact .pure _
  | cons m ms ih =>
    refine (trails_take? _ _).bind fun found => ?_
    cases found with
    | some token => exact .pure _
    | none => exact ih

theorem trails_argumentType : Trails argumentType := by
  refine (trails_take? _ _).bind fun found => ?_
  cases found with
  | some token => exact trails_typeExpr.bind fun _ => .pure _
  | none => exact .pure _

theorem trails_argumentOf (mode : Mode) (name : Option Token) (type : Option TypeExpr) :
    Trails (argumentOf mode name type) := by
  cases name with
  | some name => exact .pure _
  | none => exact (trails_note fun _ => rfl).bind fun _ => .pure _

theorem trails_argument : Trails argument :=
  (trails_modeAmong _).bind fun _ => (trails_take? _ _).bind fun _ =>
    trails_argumentType.bind fun _ => trails_argumentOf _ _ _

theorem trails_afterComma (found : List Argument) : Trails (afterComma found) := by
  refine (trails_peek _).bind fun closed => ?_
  cases closed with
  | true => exact trails_reject
  | false => exact .pure _

theorem trails_afterLast (found : List Argument) : Trails (afterLast found) := by
  refine (trails_take? _ _).bind fun closed => ?_
  cases closed with
  | some token => exact .pure _
  | none => exact trails_reject

theorem trails_argumentRound (found : List Argument) : Trails (argumentRound found) := by
  refine trails_argument.bind fun read => (trails_take? _ _).bind fun separator => ?_
  cases separator with
  | some token => exact trails_afterComma _
  | none => exact trails_afterLast _

theorem trails_arguments : Trails arguments :=
  (trails_note fun _ => rfl).bind fun _ => (trails_loop trails_argumentRound _).rewinding

theorem trails_braceRound (o : OpenScopes) : Trails (braceRound o) := by
  refine (trails_take? _ _).bind fun closed => ?_
  cases closed with
  | some token => exact .pure _
  | none =>
    refine (trails_take? _ _).bind fun opened => ?_
    cases opened with
    | some token => exact .pure _
    | none => exact trails_reject

theorem trails_nestedScope : Trails nestedScope := (trails_loop trails_braceRound _).rewinding

theorem trails_entryRound (found : List Scope) : Trails (entryRound found) := by
  refine trails_get.bind fun c => ?_
  split
  · exact .pure _
  · refine (trails_take? _ _).bind fun opened => ?_
    cases opened with
    | some token => exact trails_nestedScope.bind fun _ => .pure _
    | none => exact trails_reject

theorem trails_globalScope : Trails globalScope :=
  (trails_note fun _ => rfl).bind fun _ => (trails_loop trails_entryRound _).rewinding

def Restoring (rule : Rule α) : Prop :=
  ∀ ⦃c d f⦄, rule c = .error f d → d.pos = c.pos ∧ d.rest = c.rest

theorem restoring_rewinding (rule : Rule α) : Restoring (rewinding rule) := by
  intro c d f h
  unfold rewinding at h
  split at h
  · cases h
  · cases h
    exact ⟨rfl, rfl⟩

theorem Restoring.noting {rule : Rule α} (h : Restoring rule) (record : Cursor → Record) :
    Restoring (note record >>= fun _ => rule) := by
  intro c d f hrule
  rw [bind_of_ok (note_eq record)] at hrule
  obtain ⟨hpos, hrest⟩ := h hrule
  exact ⟨hpos, hrest⟩

/-- A rule at place `p` of a token list passes the tokens up to a place `k`, and logs each of them
once, in order. If it succeeds, it stops at `k`. If it fails, it goes back to `p`, and the error is
about the first token from `k` on that is not whitespace. -/
def FollowsTokens (tokens : List Token) (p : Nat) (log : List Record) (o : Outcome α) : Prop :=
  ∃ (k : Nat) (records : List Record), p ≤ k ∧ k ≤ tokens.length ∧
    records.filterMap Record.advanced? = (tokens.drop p).take (k - p) ∧
    ((∃ a, o = .ok a ⟨k, tokens.drop k, records.reverse ++ log⟩) ∨
      ∃ error, o = .error (.rejected error) ⟨p, tokens.drop p, records.reverse ++ log⟩ ∧
        error.Blames (tokens.drop k))

theorem slice_of_drop {tokens passed left : List Token} {p : Nat} (hp : p ≤ tokens.length)
    (hsplit : tokens.drop p = passed ++ left) :
    p + passed.length ≤ tokens.length ∧
      (tokens.drop p).take (p + passed.length - p) = passed ∧
      tokens.drop (p + passed.length) = left := by
  have hlength := congrArg List.length hsplit
  rw [List.length_drop, List.length_append] at hlength
  refine ⟨by omega, ?_, ?_⟩
  · rw [Nat.add_sub_cancel_left, hsplit, List.take_left]
  · rw [← List.drop_drop, hsplit, List.drop_left]

theorem Trails.followsTokens {rule : Rule α} {tokens : List Token} {p : Nat} (h : Trails rule)
    (h' : Restoring rule) (ht : ∀ t ∈ tokens, t.span.start ≤ t.span.stop) (hp : p ≤ tokens.length)
    (log : List Record) : FollowsTokens tokens p log (rule ⟨p, tokens.drop p, log⟩) := by
  have htrail : Trail ⟨p, tokens.drop p, log⟩ (rule ⟨p, tokens.drop p, log⟩) :=
    h _ fun t hmem => ht t (List.mem_of_mem_drop hmem)
  cases hrule : rule ⟨p, tokens.drop p, log⟩ with
  | ok a d =>
    rw [hrule] at htrail
    cases htrail with
    | ok passed split pos_eq logs =>
      obtain ⟨records, hjournal, hpassed⟩ := logs
      obtain ⟨hle, htake, hdrop⟩ := slice_of_drop hp split
      obtain ⟨pos, rest, journal⟩ := d
      dsimp only at pos_eq hjournal hdrop
      refine ⟨p + passed.length, records, Nat.le_add_right _ _, hle, hpassed.trans htake.symm, ?_⟩
      rw [pos_eq, hdrop, hjournal]
      exact .inl ⟨a, rfl⟩
  | error f d =>
    obtain ⟨hpos, hrest⟩ := h' hrule
    rw [hrule] at htrail
    cases htrail with
    | rejected passed left split logs blames =>
      obtain ⟨records, hjournal, hpassed⟩ := logs
      obtain ⟨hle, htake, hdrop⟩ := slice_of_drop hp split
      obtain ⟨pos, rest, journal⟩ := d
      dsimp only at hpos hrest hjournal
      refine ⟨p + passed.length, records, Nat.le_add_right _ _, hle, hpassed.trans htake.symm, ?_⟩
      rw [hpos, hrest, hjournal, hdrop]
      exact .inr ⟨_, rfl, blames⟩

/-- No rule looks again at a token that it passed, and an error is about the furthest place that was
reached. -/
theorem rules_follow_tokens (tokens : List Token) (h : ∀ t ∈ tokens, t.span.start ≤ t.span.stop)
    (p : Nat) (hp : p ≤ tokens.length) (log : List Record) :
    FollowsTokens tokens p log (name ⟨p, tokens.drop p, log⟩) ∧
      FollowsTokens tokens p log (typeExpr ⟨p, tokens.drop p, log⟩) ∧
      FollowsTokens tokens p log (arguments ⟨p, tokens.drop p, log⟩) ∧
      FollowsTokens tokens p log (globalScope ⟨p, tokens.drop p, log⟩) ∧
      FollowsTokens tokens p log (nestedScope ⟨p, tokens.drop p, log⟩) :=
  ⟨trails_name.followsTokens ((restoring_rewinding _).noting _) h hp log,
    trails_typeExpr.followsTokens (restoring_rewinding _) h hp log,
    trails_arguments.followsTokens ((restoring_rewinding _).noting _) h hp log,
    trails_globalScope.followsTokens ((restoring_rewinding _).noting _) h hp log,
    trails_nestedScope.followsTokens (restoring_rewinding _) h hp log⟩

def looseType : List Token :=
  let source := Buffer.ofBytes 0 (bytesOf "(* const::)")
  [⟨.scopeOperator, ⟨0, 1⟩, ⟨1, 1⟩, source, by decide⟩,
    ⟨.operator, ⟨1, 2⟩, ⟨1, 2⟩, source, by decide⟩,
    ⟨.whitespace, ⟨2, 3⟩, ⟨1, 3⟩, source, by decide⟩,
    ⟨.identifier, ⟨3, 8⟩, ⟨1, 4⟩, source, by decide⟩,
    ⟨.scopeOperator, ⟨8, 9⟩, ⟨1, 9⟩, source, by decide⟩,
    ⟨.scopeOperator, ⟨9, 10⟩, ⟨1, 10⟩, source, by decide⟩,
    ⟨.scopeOperator, ⟨10, 11⟩, ⟨1, 11⟩, source, by decide⟩]

theorem rules_follow_loose_type :
    ((∀ t ∈ looseType, t.span.start ≤ t.span.stop) ∧ 1 ≤ looseType.length) ∧
    ∃ error d, typeExpr ⟨1, looseType.drop 1, []⟩ = .error (.rejected error) d ∧ d.pos = 1 ∧
      d.journal.reverse.filterMap Record.advanced? = (looseType.drop 1).take 5 ∧
      error.Blames (looseType.drop 6) := by
  have hordered : ∀ t ∈ looseType, t.span.start ≤ t.span.stop := by decide
  have hlength : 1 ≤ looseType.length := by decide
  have hrun : (match typeExpr ⟨1, looseType.drop 1, []⟩ with
      | .ok _ _ => false
      | .error _ d => (d.journal.reverse.filterMap Record.advanced?).length == 5) = true := by
    decide +kernel
  obtain ⟨_, htype, _⟩ := rules_follow_tokens looseType hordered 1 hlength []
  obtain ⟨k, records, _, _, hpassed, hend⟩ := htype
  refine ⟨⟨hordered, hlength⟩, ?_⟩
  rcases hend with ⟨t, hok⟩ | ⟨error, herror, hblames⟩
  · rw [hok] at hrun
    cases hrun
  · rw [herror] at hrun
    have hcount := beq_iff_eq.1 hrun
    dsimp only at hcount
    rw [List.append_nil, List.reverse_reverse, hpassed, List.length_take] at hcount
    have hleft : (looseType.drop 1).length = 6 := rfl
    have hk : k = 6 := by omega
    rw [hk] at hpassed hblames
    refine ⟨error, _, herror, rfl, ?_, hblames⟩
    dsimp only
    rw [List.append_nil, List.reverse_reverse, hpassed]

end Rule

end FrontEnd
