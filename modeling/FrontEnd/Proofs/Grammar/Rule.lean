import FrontEnd.Grammar.Rule
import FrontEnd.Proofs.Lexeme.Tokens

namespace FrontEnd

namespace Token

theorem exists_text {t : Token} (h : t.span.start ≤ t.span.stop) : ∃ text, t.text = .ok text := by
  rw [text, bytes_eq h]
  exact ⟨_, rfl⟩

theorem filter_cons_of_mem {t : Token} {ts us : List Token} (h : t ∈ us.filter (!·.isWhitespace)) :
    (t :: ts).filter (!·.isWhitespace) = t :: ts.filter (!·.isWhitespace) :=
  List.filter_cons_of_pos (List.mem_filter.1 h).2

end Token

namespace Cursor

variable {c d e : Cursor} {t : Token} {ts : List Token}

/-- The tokens ahead that are not whitespace. -/
def significant (c : Cursor) : List Token := c.rest.filter (!·.isWhitespace)

/-- No token ahead ends before it starts. -/
def Ordered (c : Cursor) : Prop := ∀ t ∈ c.rest, t.span.start ≤ t.span.stop

/-- A place directly after a significant token of another, whose index is given. -/
def After (c : Cursor) (k : Nat) (d : Cursor) : Prop :=
  ∃ passed t, c.rest = passed ++ t :: d.rest ∧ c.significant[k]? = some t ∧
    passed.filter (!·.isWhitespace) = c.significant.take k ∧ d.pos = c.pos + passed.length + 1

theorem nextSignificant_eq (c : Cursor) : c.nextSignificant = c.significant.head? :=
  List.head?_filter.symm

theorem Ordered.of_significant (h : c.Ordered) (hs : c.significant = t :: ts) :
    t.span.start ≤ t.span.stop := by
  have ht : t ∈ c.significant := by
    rw [hs]
    exact List.mem_cons_self
  exact h t (List.mem_filter.1 ht).1

theorem After.ordered {k : Nat} (h : c.After k d) (hc : c.Ordered) : d.Ordered := by
  obtain ⟨passed, t, hrest, _⟩ := h
  intro x hx
  apply hc x
  rw [hrest]
  exact List.mem_append_right _ (List.mem_cons_of_mem _ hx)

theorem After.significant_eq {k : Nat} (h : c.After k d) :
    d.significant = c.significant.drop (k + 1) := by
  obtain ⟨passed, t, hrest, hk, hpassed, _⟩ := h
  have ht : t ∈ c.significant := List.mem_of_getElem? hk
  have hsplit : c.significant = passed.filter (!·.isWhitespace) ++ t :: d.significant := by
    rw [significant, hrest, List.filter_append, Token.filter_cons_of_mem ht]
    rfl
  obtain ⟨hlt, _⟩ := List.getElem?_eq_some_iff.1 hk
  have hlen : (passed.filter (!·.isWhitespace)).length = k := by
    rw [hpassed, List.length_take]
    omega
  rw [hsplit, ← hlen, ← List.drop_drop, List.drop_left]
  rfl

theorem After.step {k : Nat} (h : c.After 0 d) (h' : d.After k e) : c.After (k + 1) e := by
  have hdrop := h.significant_eq
  obtain ⟨blank, t, hrest, hfirst, hblank, hpos⟩ := h
  obtain ⟨passed, u, hmore, hk, hpassed, hlast⟩ := h'
  have hcons : c.significant = t :: d.significant := by
    rw [hdrop]
    cases hs : c.significant with
    | nil => simp [hs] at hfirst
    | cons x xs =>
      rw [hs] at hfirst
      cases hfirst
      rfl
  have ht : t ∈ c.significant := List.mem_of_getElem? hfirst
  refine ⟨blank ++ t :: passed, u, ?_, ?_, ?_, ?_⟩
  · rw [hrest, hmore, List.append_assoc, List.cons_append]
  · rw [hcons, List.getElem?_cons_succ, hk]
  · rw [List.filter_append, hblank, Token.filter_cons_of_mem ht, hpassed, hcons,
      List.take_zero, List.nil_append, List.take_succ_cons]
  · rw [hlast, hpos, List.length_append, List.length_cons]
    omega

theorem syntaxError_of_nothing (h : c.significant = []) : c.syntaxError = .ok .endOfInput := by
  rw [syntaxError, nextSignificant_eq, h]
  rfl

theorem syntaxError_of_token {text : String} (h : c.significant = t :: ts)
    (ht : t.text = .ok text) :
    c.syntaxError = .ok (.unexpected t.position t.kind text) := by
  rw [syntaxError, nextSignificant_eq, h]
  simp only [List.head?_cons]
  rw [SyntaxError.ofToken, ht]
  rfl

theorem allParsed_eq (c : Cursor) : c.allParsed = c.significant.isEmpty := by
  rw [allParsed, nextSignificant_eq]
  cases c.significant <;> rfl

end Cursor

namespace Pattern

variable {p : Pattern} {tokens ts : List Token} {t : Token}

theorem take?_of_nothing (h : tokens.filter (!·.isWhitespace) = []) :
    p.take? .skipped tokens = .ok none := by
  have hskips : ∀ x ∈ tokens, Spacing.skipped.skips x = true := by
    intro x hx
    have := List.filter_eq_nil_iff.1 h x hx
    simpa [Spacing.skips] using this
  have hdrop : tokens.dropWhile Spacing.skipped.skips = [] := by
    rw [← List.append_nil tokens, List.dropWhile_append_of_pos hskips]
    rfl
  rw [take?, hdrop]

theorem take?_of_blank {spacing : Spacing} {blank rest : List Token} {accepted : Bool}
    (hblank : ∀ b ∈ blank, spacing.skips b = true) (hstays : spacing.skips t = false)
    (haccepts : p.accepts t = .ok accepted) :
    p.take? spacing (blank ++ t :: rest) =
      .ok (if accepted then some ⟨blank, t, rest⟩ else none) := by
  have hdrop : (blank ++ t :: rest).dropWhile spacing.skips = t :: rest := by
    rw [List.dropWhile_append_of_pos hblank, List.dropWhile_cons_of_neg (by simp [hstays])]
  have htake : (blank ++ t :: rest).takeWhile spacing.skips = blank := by
    rw [List.takeWhile_append_of_pos hblank, List.takeWhile_cons_of_neg (by simp [hstays]),
      List.append_nil]
  cases accepted with
  | true => simp [take?, hdrop, htake, haccepts]
  | false => simp [take?, hdrop, haccepts]

theorem take?_of_token (h : tokens.filter (!·.isWhitespace) = t :: ts) :
    ∃ blank rest, tokens = blank ++ t :: rest ∧ blank.filter (!·.isWhitespace) = [] ∧
      ∀ accepted, p.accepts t = .ok accepted →
        p.take? .skipped tokens = .ok (if accepted then some ⟨blank, t, rest⟩ else none) := by
  obtain ⟨blank, rest, rfl, hblank, ht, _⟩ := List.filter_eq_cons_iff.1 h
  have hskips : ∀ x ∈ blank, Spacing.skipped.skips x = true := by
    intro x hx
    have := hblank x hx
    simpa [Spacing.skips] using this
  have hstays : Spacing.skipped.skips t = false := by simpa [Spacing.skips] using ht
  exact ⟨blank, rest, rfl, List.filter_eq_nil_iff.2 hblank, fun _ => take?_of_blank hskips hstays⟩

theorem kind_of_accepts {kind : Kind} {text : List UInt8}
    (h : (exact kind text).accepts t = .ok true) : t.kind = kind := by
  by_cases hkind : t.kind = kind
  · exact hkind
  · rw [accepts, if_neg hkind] at h
    cases h

theorem bytes_of_accepts {kind : Kind} {text : List UInt8}
    (h : (exact kind text).accepts t = .ok true) : t.bytes = .ok text := by
  rw [accepts, if_pos (kind_of_accepts h)] at h
  obtain ⟨bytes, hbytes, hsame⟩ := Fault.bind_eq_ok.1 h
  rw [hbytes, beq_iff_eq.1 (Except.ok.inj hsame)]

theorem refuses_other {kind : Kind} {text other : List UInt8}
    (h : (exact kind text).accepts t = .ok true) (hne : text ≠ other) :
    (exact kind other).accepts t = .ok false := by
  rw [accepts, if_pos (kind_of_accepts h), Token.isText, bytes_of_accepts h]
  exact congrArg Except.ok (beq_eq_false_iff_ne.2 hne)

theorem matchAll_cons_eq_ok {ps : List Pattern} {spacing : Spacing} {found : Option Match} :
    matchAll spacing (p :: ps) tokens = .ok found ↔
      p.take? spacing tokens = .ok none ∧ found = none ∨
      ∃ first more, p.take? spacing tokens = .ok (some first) ∧
        matchAll spacing ps first.rest = .ok more ∧
        found = more.map fun m => ⟨first.token :: m.matched, first.passed ++ m.passed, m.rest⟩ := by
  rw [matchAll]
  constructor
  · intro h
    split at h
    · cases h
    · next htake =>
      cases h
      exact .inl ⟨htake, rfl⟩
    · next first htake =>
      split at h
      · cases h
      · next hmore =>
        cases h
        exact .inr ⟨first, none, htake, hmore, rfl⟩
      · next more hmore =>
        cases h
        exact .inr ⟨first, some more, htake, hmore, rfl⟩
  · rintro (⟨htake, rfl⟩ | ⟨first, more, htake, hmore, rfl⟩)
    · rw [htake]
    · rw [htake]
      dsimp only
      rw [hmore]
      cases more with
      | none => rfl
      | some more => rfl

end Pattern

namespace Rule

variable {α β σ : Type} {c d : Cursor} {p : Pattern} {t : Token} {ts : List Token}

theorem bind_of_ok {rule : Rule α} {next : α → Rule β} {a : α} (h : rule c = .ok a d) :
    (rule >>= next) c = next a d := by
  change EStateM.bind rule next c = _
  rw [EStateM.bind, h]

theorem bind_of_error {rule : Rule α} {next : α → Rule β} {e : Failure} (h : rule c = .error e d) :
    (rule >>= next) c = .error e d := by
  change EStateM.bind rule next c = _
  rw [EStateM.bind, h]

@[simp] theorem note_eq (record : Cursor → Record) :
    note record c = .ok () (c.note (record c)) := rfl

theorem rewinding_of_ok {rule : Rule α} {a : α} (h : rule c = .ok a d) :
    rewinding rule c = .ok a d := by
  unfold rewinding
  rw [h]

theorem rewinding_of_error {rule : Rule α} {e : Failure} (h : rule c = .error e d) :
    rewinding rule c = .error e (d.rewind c) := by
  unfold rewinding
  rw [h]

theorem loop_of_done {body : σ → Rule (Round σ α)} {h : Advancing body} {s : σ} {a : α}
    (hround : body s c = .ok (.done a) d) : loop body h s c = .ok a d := by
  unfold loop
  split
  · next hb => rw [hround] at hb; cases hb
  · next hb => rw [hround] at hb; cases hb; rfl
  · next hb => rw [hround] at hb; cases hb

theorem loop_of_error {body : σ → Rule (Round σ α)} {h : Advancing body} {s : σ} {e : Failure}
    (hround : body s c = .error e d) : loop body h s c = .error e d := by
  unfold loop
  split
  · next hb => rw [hround] at hb; cases hb; rfl
  · next hb => rw [hround] at hb; cases hb
  · next hb => rw [hround] at hb; cases hb

theorem loop_of_again {body : σ → Rule (Round σ α)} {h : Advancing body} {s t : σ}
    (hround : body s c = .ok (.again t) d) : loop body h s c = loop body h t d := by
  conv => lhs; unfold loop
  split
  · next hb => rw [hround] at hb; cases hb
  · next hb => rw [hround] at hb; cases hb
  · next hb => rw [hround] at hb; cases hb; rfl

theorem take?_eq_ok {spacing : Spacing} {found : Option Token} :
    take? p spacing c = .ok found d ↔ ∃ taken, p.take? spacing c.rest = .ok taken ∧
      found = taken.map Taken.token ∧ d = taken.elim c fun t => c.pass t.passed t.rest := by
  constructor
  · intro h
    have hmove := moving_eq_ok h
    unfold Cursor.take? at hmove
    split at hmove
    · next taken htaken =>
      cases hmove
      exact ⟨some taken, htaken, rfl, rfl⟩
    · next hnone =>
      cases hmove
      exact ⟨none, hnone, rfl, rfl⟩
    · cases hmove
  · rintro ⟨taken, htaken, rfl, rfl⟩
    rw [take?, moving, Cursor.take?, htaken]
    cases taken with
    | none => rfl
    | some taken => rfl

theorem consume_eq_ok {ps : List Pattern} {spacing : Spacing} {found : Option (List Token)} :
    consume ps spacing c = .ok found d ↔
      ∃ taken, Pattern.matchAll spacing ps c.rest = .ok taken ∧ c.passing taken = (found, d) := by
  constructor
  · intro h
    obtain ⟨taken, hmatch, hpass⟩ := Fault.bind_eq_ok.1 (moving_eq_ok h)
    exact ⟨taken, hmatch, Except.ok.inj hpass⟩
  · rintro ⟨taken, hmatch, hpass⟩
    have hmove : c.consume ps spacing = .ok (found, d) :=
      Fault.bind_eq_ok.2 ⟨taken, hmatch, congrArg Except.ok hpass⟩
    rw [consume, moving, hmove]

theorem take?_of_nothing (h : c.significant = []) : take? p .skipped c = .ok none c := by
  rw [take?, moving, Cursor.take?, Pattern.take?_of_nothing h]

theorem take?_of_accepts (h : c.significant = t :: ts) (ha : p.accepts t = .ok true) :
    ∃ d, take? p .skipped c = .ok (some t) d ∧ c.After 0 d := by
  obtain ⟨blank, rest, hrest, hblank, htake⟩ := Pattern.take?_of_token (p := p) h
  refine ⟨c.pass (blank ++ [t]) rest, ?_, blank, t, hrest, ?_, hblank, ?_⟩
  · rw [take?, moving, Cursor.take?, htake true ha]
    rfl
  · rw [h]
    rfl
  · simp only [Cursor.pass, List.length_append, List.length_singleton]
    omega

theorem take?_of_rejects (h : c.significant = t :: ts) (ha : p.accepts t = .ok false) :
    take? p .skipped c = .ok none c := by
  obtain ⟨blank, rest, _, _, htake⟩ := Pattern.take?_of_token (p := p) h
  rw [take?, moving, Cursor.take?, htake false ha]
  rfl

theorem reject_of_nothing (h : c.significant = []) :
    (reject : Rule α) c = .error (.rejected .endOfInput) c := by
  rw [reject, Cursor.syntaxError_of_nothing h]

theorem reject_of_token {text : String} (h : c.significant = t :: ts) (ht : t.text = .ok text) :
    (reject : Rule α) c = .error (.rejected (.unexpected t.position t.kind text)) c := by
  rw [reject, Cursor.syntaxError_of_token h ht]

def succeedsAt (rule : Rule α) (c : Cursor) (test : α → Cursor → Bool) : Bool :=
  match rule c with
  | .error _ _ => false
  | .ok a d => test a d

theorem exists_of_succeedsAt {rule : Rule α} {test : α → Cursor → Bool}
    (h : succeedsAt rule c test = true) : ∃ a d, rule c = .ok a d ∧ test a d = true := by
  unfold succeedsAt at h
  split at h
  · cases h
  · next a d hrule => exact ⟨a, d, hrule, h⟩

def succeedsOn (rule : Rule α) (id : Nat) (text : List UInt8) (test : α → Cursor → Bool) : Bool :=
  match (Buffer.ofBytes id text).tokens with
  | .error _ => false
  | .ok tokens =>
    match rule (.ofTokens tokens) with
    | .error _ _ => false
    | .ok a d => test a d

theorem exists_of_succeedsOn {rule : Rule α} {id : Nat} {text : List UInt8}
    {test : α → Cursor → Bool} (h : succeedsOn rule id text test = true) :
    ∃ tokens a d, (Buffer.ofBytes id text).tokens = .ok tokens ∧
      rule (.ofTokens tokens) = .ok a d ∧ test a d = true := by
  unfold succeedsOn at h
  split at h
  · cases h
  · next tokens htokens =>
    split at h
    · cases h
    · next a d hrule => exact ⟨tokens, a, d, htokens, hrule, h⟩

end Rule

end FrontEnd
