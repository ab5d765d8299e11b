import FrontEnd.Proofs.Grammar.Tandem

namespace FrontEnd

/-- Errors of two readings that are about the tokens at one index of two lists, and say the same of
them but for where they stand. -/
inductive SyntaxError.Corresponds (ts us : List Token) : SyntaxError → SyntaxError → Prop where
  | unexpected {i : Nat} {t u : Token} {text : String} (left : ts[i]? = some t)
      (right : us[i]? = some u) (kind_eq : t.kind = u.kind) (text_eq : t.text = .ok text)
      (text_eq' : u.text = .ok text) :
      Corresponds ts us (.unexpected t.position t.kind text) (.unexpected u.position u.kind text)
  | endOfInput : Corresponds ts us .endOfInput .endOfInput

def Argument.Matches (a b : Argument) : Prop :=
  a.mode = b.mode ∧ (∃ bytes, a.name.bytes = .ok bytes ∧ b.name.bytes = .ok bytes) ∧
    sameTypes a.type b.type = .ok true

theorem Argument.Alike.matches {a b : Argument} (h : a.Alike b) : a.Matches b :=
  ⟨h.mode_eq, h.name.exists_bytes, sameTypes_of_alike h.type⟩

section Alike

variable {ts us : List Token} {c d : Cursor}

theorem Token.alike_of_bytes {t u : Token} (h : t.span.start ≤ t.span.stop)
    (hkind : t.kind = u.kind) (hbytes : t.bytes = u.bytes) : t.Alike u := by
  have hread := bytes_eq h
  refine ⟨(t.kind, (t.source.bytes.drop t.span.start).take (t.span.stop - t.span.start)), ?_, ?_⟩
  · rw [content, hread]
    rfl
  · rw [content, ← hbytes, hread, hkind]
    rfl

theorem Token.alike_self {t : Token} (h : t.span.start ≤ t.span.stop) : t.Alike t :=
  alike_of_bytes h rfl rfl

theorem Token.forall₂_alike_of_bytes (h : ∀ t ∈ ts, t.span.start ≤ t.span.stop)
    (hcontents : List.Forall₂ (fun t u => t.kind = u.kind ∧ t.bytes = u.bytes) ts us) :
    List.Forall₂ Token.Alike ts us := by
  induction hcontents with
  | nil => exact .nil
  | cons hboth _ ih =>
    obtain ⟨hhead, hmore⟩ := List.forall_mem_cons.1 h
    exact .cons (alike_of_bytes hhead hboth.1 hboth.2) (ih hmore)

theorem Token.Alike.tracks (spacing : Spacing) :
    spacing.Tracks (List.Forall₂ Token.Alike) Token.Alike := by
  intro ts us h p
  have hdrop := Token.Alike.dropWhile h spacing
  unfold Pattern.take?
  generalize ts.dropWhile spacing.skips = left at hdrop
  generalize us.dropWhile spacing.skips = right at hdrop
  cases hdrop with
  | nil => exact ⟨none, none, rfl, rfl, .none⟩
  | cons halike hrest =>
    obtain ⟨accepted, hleft, hright⟩ := halike.exists_accepts p
    dsimp only
    rw [hleft, hright]
    cases accepted with
    | true => exact ⟨_, _, rfl, rfl, .some ⟨halike, hrest⟩⟩
    | false => exact ⟨none, none, rfl, rfl, .none⟩

theorem Token.Alike.find? (h : List.Forall₂ Token.Alike ts us) :
    ts.find? (!·.isWhitespace) = none ∧ us.find? (!·.isWhitespace) = none ∨
      ∃ (i : Nat) (t u : Token), ts.find? (!·.isWhitespace) = some t ∧
        us.find? (!·.isWhitespace) = some u ∧ ts[i]? = some t ∧ us[i]? = some u ∧ t.Alike u := by
  induction h with
  | nil => exact .inl ⟨rfl, rfl⟩
  | @cons t u ts us halike _ ih =>
    have hblank : t.isWhitespace = u.isWhitespace := halike.skips_eq .skipped
    rw [List.find?_cons, List.find?_cons, ← hblank]
    cases t.isWhitespace with
    | false => exact .inr ⟨0, t, u, rfl, rfl, rfl, rfl, halike⟩
    | true =>
      rcases ih with hnone | ⟨i, x, y, hx, hy, hi, hi', hxy⟩
      · exact .inl hnone
      · exact .inr ⟨i + 1, x, y, hx, hy, hi, hi', hxy⟩

theorem Cursor.Beside.pos_eq (h : c.Beside (List.Forall₂ Token.Alike) ts us d)
    (hlength : ts.length = us.length) : c.pos = d.pos := by
  have hahead := h.ahead.length_eq
  rw [h.left.rest_eq, h.right.rest_eq, List.length_drop, List.length_drop] at hahead
  have := h.left.pos_le
  have := h.right.pos_le
  omega

theorem Cursor.Beside.syntaxError (h : c.Beside (List.Forall₂ Token.Alike) ts us d)
    (hlength : ts.length = us.length) :
    ∃ e e', c.syntaxError = .ok e ∧ d.syntaxError = .ok e' ∧ e.Corresponds ts us e' := by
  unfold Cursor.syntaxError Cursor.nextSignificant
  rcases Token.Alike.find? h.ahead with ⟨hleft, hright⟩ | ⟨i, t, u, hleft, hright, hi, hi', halike⟩
  · rw [hleft, hright]
    exact ⟨_, _, rfl, rfl, .endOfInput⟩
  · obtain ⟨text, ht, hu⟩ := halike.exists_text
    rw [h.left.rest_eq, List.getElem?_drop] at hi
    rw [h.right.rest_eq, List.getElem?_drop, ← h.pos_eq hlength] at hi'
    rw [hleft, hright]
    refine ⟨_, _, ?_, ?_, .unexpected hi hi' halike.kind_eq ht hu⟩
    · simp only [SyntaxError.ofToken, ht]
      rfl
    · simp only [SyntaxError.ofToken, hu]
      rfl

end Alike

namespace Rule

variable {α β : Type} {ts us : List Token}

/-- What a rule comes to at the same index of two token lists: nodes that are the same or errors
about tokens at the same index, and the same index in the end. -/
inductive SameOutcome (ts us : List Token) (Same : α → α → Prop) :
    Outcome α → Outcome α → Prop where
  | ok {a b : α} {d e : Cursor} (node : Same a b) (left : d.Within ts) (right : e.Within us)
      (pos_eq : d.pos = e.pos) : SameOutcome ts us Same (.ok a d) (.ok b e)
  | rejected {error error' : SyntaxError} {d e : Cursor} (error_eq : error.Corresponds ts us error')
      (left : d.Within ts) (right : e.Within us) (pos_eq : d.pos = e.pos) :
      SameOutcome ts us Same (.error (.rejected error) d) (.error (.rejected error') e)

/-- Runs over token lists that hold the same, from places beside each other. -/
abbrev InStep (ts us : List Token) (S : α → β → Prop) (rule : Rule α) (other : Rule β) : Prop :=
  Tandem (Cursor.Beside (List.Forall₂ Token.Alike) ts us) (SyntaxError.Corresponds ts us) S rule
    other

theorem Tandem.sameOutcome {S Same : α → α → Prop} {rule : Rule α} (h : InStep ts us S rule rule)
    (hrestoring : Restoring rule) (hsame : ∀ ⦃a b⦄, S a b → Same a b)
    (halike : List.Forall₂ Token.Alike ts us) {p : Nat} (hp : p ≤ ts.length)
    (log log' : List Record) :
    SameOutcome ts us Same (rule ⟨p, ts.drop p, log⟩) (rule ⟨p, us.drop p, log'⟩) := by
  have hlength := halike.length_eq
  have hstart : Cursor.Beside (List.Forall₂ Token.Alike) ts us ⟨p, ts.drop p, log⟩
      ⟨p, us.drop p, log'⟩ :=
    ⟨⟨hp, rfl⟩, ⟨hlength ▸ hp, rfl⟩, List.forall₂_drop p halike⟩
  have hrun := h.run hstart
  generalize hleft : rule ⟨p, ts.drop p, log⟩ = o at hrun
  generalize hright : rule ⟨p, us.drop p, log'⟩ = o' at hrun
  cases hrun with
  | ok result place => exact .ok (hsame result) place.left place.right (place.pos_eq hlength)
  | rejected error =>
    have hend := hstart.of_same_place (hrestoring hleft) (hrestoring hright)
    exact .rejected error hend.left hend.right (hend.pos_eq hlength)

section InStep

variable (hlength : ts.length = us.length)

include hlength

theorem congruence_inStep : Congruence fun _ _ => InStep ts us :=
  Tandem.congruence (Token.Alike.tracks .skipped) (fun _ _ h => h)
    fun _ _ hR => hR.syntaxError hlength

theorem inStep_name : InStep ts us QualifiedName.Alike name name := by
  have hcongruence := congruence_inStep hlength
  have hsignificant := Token.Alike.tracks .significant
  apply hcongruence.noting
  apply hcongruence.rewinding
  apply hcongruence.bind (Tandem.take? hsignificant (fun _ _ h => h) anyWhitespace)
  · intro blank
    exact (forward_loop forward_unitRound _).bind forward_nameOf
  · intro _ _ _
    have hunits := hcongruence.units (Tandem.consume hsignificant (fun _ _ h => h) separator)
      (Tandem.take? hsignificant (fun _ _ h => h) anyIdentifier)
    exact hcongruence.bind hunits forward_nameOf fun _ _ => hcongruence.nameOf

theorem inStep_typeExpr : InStep ts us TypeExpr.Alike typeExpr typeExpr :=
  (congruence_inStep hlength).typeExpr (inStep_name hlength)

theorem inStep_arguments : InStep ts us (List.Forall₂ Argument.Alike) arguments arguments :=
  (congruence_inStep hlength).arguments (inStep_name hlength)
    (Tandem.peek (Token.Alike.tracks .skipped))

theorem inStep_nestedScope : InStep ts us Eq nestedScope nestedScope :=
  (congruence_inStep hlength).nestedScope

theorem inStep_globalScope : InStep ts us Eq globalScope globalScope := by
  apply (congruence_inStep hlength).globalScope
  apply Tandem.get
  intro c d hR
  rw [Cursor.allParsed, Cursor.allParsed, Cursor.nextSignificant, Cursor.nextSignificant]
  rcases Token.Alike.find? hR.ahead with ⟨hleft, hright⟩ | ⟨_, _, _, hleft, hright, _⟩
  · rw [hleft, hright]
  · rw [hleft, hright]
    rfl

end InStep

/-- What a rule comes to is decided by the kinds and the bytes of the tokens. -/
theorem rules_read_contents (ts us : List Token) (ht : ∀ t ∈ ts, t.span.start ≤ t.span.stop)
    (hcontents : List.Forall₂ (fun t u => t.kind = u.kind ∧ t.bytes = u.bytes) ts us) (p : Nat)
    (hp : p ≤ ts.length) (log log' : List Record) :
    SameOutcome ts us (fun m n => m.same n = .ok true) (name ⟨p, ts.drop p, log⟩)
        (name ⟨p, us.drop p, log'⟩) ∧
      SameOutcome ts us (fun s t => s.same t = .ok true) (typeExpr ⟨p, ts.drop p, log⟩)
        (typeExpr ⟨p, us.drop p, log'⟩) ∧
      SameOutcome ts us (List.Forall₂ Argument.Matches) (arguments ⟨p, ts.drop p, log⟩)
        (arguments ⟨p, us.drop p, log'⟩) ∧
      SameOutcome ts us Eq (globalScope ⟨p, ts.drop p, log⟩) (globalScope ⟨p, us.drop p, log'⟩) ∧
      SameOutcome ts us Eq (nestedScope ⟨p, ts.drop p, log⟩)
        (nestedScope ⟨p, us.drop p, log'⟩) := by
  have hlength := hcontents.length_eq
  have halike := Token.forall₂_alike_of_bytes ht hcontents
  refine ⟨?_, ?_, ?_, ?_, ?_⟩
  · exact (inStep_name hlength).sameOutcome restoring_name (fun _ _ h => h.same_eq) halike hp log
      log'
  · exact (inStep_typeExpr hlength).sameOutcome restoring_typeExpr (fun _ _ h => h.same_eq) halike
      hp log log'
  · exact (inStep_arguments hlength).sameOutcome restoring_arguments
      (fun _ _ h => h.imp fun _ _ => Argument.Alike.matches) halike hp log log'
  · exact (inStep_globalScope hlength).sameOutcome restoring_globalScope (fun _ _ h => h) halike hp
      log log'
  · exact (inStep_nestedScope hlength).sameOutcome restoring_nestedScope (fun _ _ h => h) halike hp
      log log'

/-- The start of an argument list that a parenthesis closes after a comma, and the same tokens put
together by hand over a text that holds them the other way round. -/
def forthTokens : List Token :=
  let source := Buffer.ofBytes 0 (bytesOf "a:*b,)")
  [⟨.identifier, ⟨0, 1⟩, ⟨1, 1⟩, source, by decide⟩,
    ⟨.scopeOperator, ⟨1, 2⟩, ⟨1, 2⟩, source, by decide⟩,
    ⟨.operator, ⟨2, 3⟩, ⟨1, 3⟩, source, by decide⟩,
    ⟨.identifier, ⟨3, 4⟩, ⟨1, 4⟩, source, by decide⟩,
    ⟨.scopeOperator, ⟨4, 5⟩, ⟨1, 5⟩, source, by decide⟩,
    ⟨.scopeOperator, ⟨5, 6⟩, ⟨1, 6⟩, source, by decide⟩]

def backTokens : List Token :=
  let source := Buffer.ofBytes 1 (bytesOf " ),b*:a")
  [⟨.identifier, ⟨6, 7⟩, ⟨1, 7⟩, source, by decide⟩,
    ⟨.scopeOperator, ⟨5, 6⟩, ⟨1, 6⟩, source, by decide⟩,
    ⟨.operator, ⟨4, 5⟩, ⟨1, 5⟩, source, by decide⟩,
    ⟨.identifier, ⟨3, 4⟩, ⟨1, 4⟩, source, by decide⟩,
    ⟨.scopeOperator, ⟨2, 3⟩, ⟨1, 3⟩, source, by decide⟩,
    ⟨.scopeOperator, ⟨1, 2⟩, ⟨1, 2⟩, source, by decide⟩]

theorem rules_read_contents_of_forthTokens :
    ((∀ t ∈ forthTokens, t.span.start ≤ t.span.stop) ∧
      List.Forall₂ (fun t u => t.kind = u.kind ∧ t.bytes = u.bytes) forthTokens backTokens ∧
      2 ≤ forthTokens.length) ∧
    (∃ s t d e, typeExpr ⟨2, forthTokens.drop 2, []⟩ = .ok s d ∧
      typeExpr ⟨2, backTokens.drop 2, []⟩ = .ok t e ∧ s.same t = .ok true ∧ d.pos = e.pos) ∧
    ∃ error error' d e, arguments ⟨0, forthTokens, []⟩ = .error (.rejected error) d ∧
      arguments ⟨0, backTokens, []⟩ = .error (.rejected error') e ∧
      error.Corresponds forthTokens backTokens error' := by
  have hordered : ∀ t ∈ forthTokens, t.span.start ≤ t.span.stop := by decide
  have hcontents :
      List.Forall₂ (fun t u => t.kind = u.kind ∧ t.bytes = u.bytes) forthTokens backTokens := by
    refine .cons ⟨rfl, ?_⟩ (.cons ⟨rfl, ?_⟩ (.cons ⟨rfl, ?_⟩ (.cons ⟨rfl, ?_⟩ (.cons ⟨rfl, ?_⟩
      (.cons ⟨rfl, ?_⟩ .nil)))))
    all_goals decide +kernel
  have htwo : 2 ≤ forthTokens.length := by decide
  have htype : (typeExpr ⟨2, forthTokens.drop 2, []⟩ matches .ok _ _) = true := by decide +kernel
  have harguments : (arguments ⟨0, forthTokens, []⟩ matches .ok _ _) = false := by decide +kernel
  refine ⟨⟨hordered, hcontents, htwo⟩, ?_, ?_⟩
  · obtain ⟨_, hsame, _⟩ := rules_read_contents _ _ hordered hcontents 2 htwo [] []
    generalize hleft : typeExpr ⟨2, forthTokens.drop 2, []⟩ = o at hsame htype
    generalize hright : typeExpr ⟨2, backTokens.drop 2, []⟩ = o' at hsame
    cases hsame with
    | ok node _ _ pos_eq => exact ⟨_, _, _, _, rfl, rfl, node, pos_eq⟩
    | rejected => cases htype
  · obtain ⟨_, _, hsame, _⟩ := rules_read_contents _ _ hordered hcontents 0 (Nat.zero_le _) [] []
    rw [List.drop_zero, List.drop_zero] at hsame
    generalize hleft : arguments ⟨0, forthTokens, []⟩ = o at hsame harguments
    generalize hright : arguments ⟨0, backTokens, []⟩ = o' at hsame
    cases hsame with
    | ok => cases harguments
    | rejected error_eq => exact ⟨_, _, _, _, rfl, rfl, error_eq⟩

end Rule

end FrontEnd
