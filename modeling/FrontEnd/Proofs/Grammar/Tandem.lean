import FrontEnd.Proofs.Grammar.Congruence
import FrontEnd.Proofs.Grammar.Place

namespace FrontEnd

/-- On related token lists a pattern takes related tokens and leaves related lists, or takes none
from either. -/
def Spacing.Tracks (spacing : Spacing) (L : List Token → List Token → Prop)
    (V : Token → Token → Prop) : Prop :=
  ∀ ⦃ts us⦄, L ts us → ∀ p : Pattern, ∃ found found', p.take? spacing ts = .ok found ∧
    p.take? spacing us = .ok found' ∧
    Option.Rel (fun x y => V x.token y.token ∧ L x.rest y.rest) found found'

/-- Two cursors stand in two token lists, and what is ahead of them is related. -/
structure Cursor.Beside (L : List Token → List Token → Prop) (ts us : List Token) (c d : Cursor) :
    Prop where
  left : c.Within ts
  right : d.Within us
  ahead : L c.rest d.rest

section Tracks

variable {L : List Token → List Token → Prop} {V : Token → Token → Prop} {spacing : Spacing}
  {ts us : List Token} {c c' d d' : Cursor}

theorem Spacing.Tracks.matchAll (h : spacing.Tracks L V) (ps : List Pattern) (hL : L ts us) :
    ∃ found found', Pattern.matchAll spacing ps ts = .ok found ∧
      Pattern.matchAll spacing ps us = .ok found' ∧
      Option.Rel (fun x y => List.Forall₂ V x.matched y.matched ∧ L x.rest y.rest) found
        found' := by
  induction ps generalizing ts us with
  | nil => exact ⟨_, _, rfl, rfl, .some ⟨.nil, hL⟩⟩
  | cons p ps ih =>
    obtain ⟨first, first', htake, htake', hrel⟩ := h hL p
    cases hrel with
    | none =>
      exact ⟨none, none, Pattern.matchAll_cons_eq_ok.2 (.inl ⟨htake, rfl⟩),
        Pattern.matchAll_cons_eq_ok.2 (.inl ⟨htake', rfl⟩), .none⟩
    | some hfirst =>
      obtain ⟨more, more', hmore, hmore', hrel⟩ := ih hfirst.2
      refine ⟨_, _, Pattern.matchAll_cons_eq_ok.2 (.inr ⟨_, more, htake, hmore, rfl⟩),
        Pattern.matchAll_cons_eq_ok.2 (.inr ⟨_, more', htake', hmore', rfl⟩), ?_⟩
      cases hrel with
      | none => exact .none
      | some hlast => exact .some ⟨.cons hfirst.1 hlast.1, hlast.2⟩

namespace Cursor.Beside

theorem of_reaches (h : c.Beside L ts us c') (hc : c.Reaches d) (hc' : c'.Reaches d')
    (hL : L d.rest d'.rest) : d.Beside L ts us d' :=
  ⟨h.left.of_reaches hc, h.right.of_reaches hc', hL⟩

theorem note (h : c.Beside L ts us c') (r r' : Record) :
    (c.note r).Beside L ts us (c'.note r') :=
  ⟨⟨h.left.pos_le, h.left.rest_eq⟩, ⟨h.right.pos_le, h.right.rest_eq⟩, h.ahead⟩

theorem of_same_place (h : c.Beside L ts us c') (hc : d.pos = c.pos ∧ d.rest = c.rest)
    (hc' : d'.pos = c'.pos ∧ d'.rest = c'.rest) : d.Beside L ts us d' where
  left := h.left.of_same_place hc.1 hc.2
  right := h.right.of_same_place hc'.1 hc'.2
  ahead := by
    rw [hc.2, hc'.2]
    exact h.ahead

theorem passing {found found' : Option Match} (h : c.Beside L ts us c')
    (hrel : Option.Rel (fun x y => List.Forall₂ V x.matched y.matched ∧ L x.rest y.rest) found
      found')
    (hreaches : c.Reaches (c.passing found).2) (hreaches' : c'.Reaches (c'.passing found').2) :
    Option.Rel (List.Forall₂ V) (c.passing found).1 (c'.passing found').1 ∧
      (c.passing found).2.Beside L ts us (c'.passing found').2 := by
  cases hrel with
  | none => exact ⟨.none, h⟩
  | some hboth => exact ⟨.some hboth.1, h.of_reaches hreaches hreaches' hboth.2⟩

theorem consume (h : c.Beside L ts us c') (ht : spacing.Tracks L V) (ps : List Pattern) :
    ∃ found found' d d', c.consume ps spacing = .ok (found, d) ∧
      c'.consume ps spacing = .ok (found', d') ∧ Option.Rel (List.Forall₂ V) found found' ∧
      d.Beside L ts us d' := by
  obtain ⟨found, found', hmatch, hmatch', hrel⟩ := ht.matchAll ps h.ahead
  have hmove : c.consume ps spacing = .ok (c.passing found) :=
    Fault.bind_eq_ok.2 ⟨found, hmatch, rfl⟩
  have hmove' : c'.consume ps spacing = .ok (c'.passing found') :=
    Fault.bind_eq_ok.2 ⟨found', hmatch', rfl⟩
  exact ⟨_, _, _, _, hmove, hmove',
    h.passing hrel (reaches_consume hmove) (reaches_consume hmove')⟩

theorem peek (h : c.Beside L ts us c') (ht : Spacing.skipped.Tracks L V) (ps : List Pattern) :
    ∃ found, c.peek ps = .ok found ∧ c'.peek ps = .ok found := by
  obtain ⟨found, found', hmatch, hmatch', hrel⟩ := ht.matchAll ps h.ahead
  refine ⟨found.isSome, Fault.bind_eq_ok.2 ⟨_, hmatch, rfl⟩, ?_⟩
  have hsame : found.isSome = found'.isSome := by
    cases hrel with
    | none => rfl
    | some _ => rfl
  rw [hsame]
  exact Fault.bind_eq_ok.2 ⟨_, hmatch', rfl⟩

end Cursor.Beside

end Tracks

namespace Rule

variable {α β γ δ σ τ : Type} {R : Cursor → Cursor → Prop} {E : SyntaxError → SyntaxError → Prop}
  {S : α → β → Prop} {T : γ → δ → Prop}

inductive Tied (R : Cursor → Cursor → Prop) (E : SyntaxError → SyntaxError → Prop)
    (S : α → β → Prop) : Outcome α → Outcome β → Prop where
  | ok {a : α} {b : β} {d d' : Cursor} (result : S a b) (place : R d d') :
      Tied R E S (.ok a d) (.ok b d')
  | rejected {e e' : SyntaxError} {d d' : Cursor} (error : E e e') :
      Tied R E S (.error (.rejected e) d) (.error (.rejected e') d')

/-- Two rules that come to the same wherever they start at related places. -/
structure Tandem (R : Cursor → Cursor → Prop) (E : SyntaxError → SyntaxError → Prop)
    (S : α → β → Prop) (rule : Rule α) (other : Rule β) : Prop where
  forward : Forward rule
  run : ∀ ⦃c c'⦄, R c c' → Tied R E S (rule c) (other c')

namespace Tandem

variable {rule : Rule α} {other : Rule β}

theorem pure {a : α} {b : β} (h : S a b) : Tandem R E S (pure a) (pure b) where
  forward := .pure a
  run := fun _ _ hR => .ok h hR

theorem bind {next : α → Rule γ} {next' : β → Rule δ} (h : Tandem R E S rule other)
    (hforward : ∀ a, Forward (next a)) (h' : ∀ a b, S a b → Tandem R E T (next a) (next' b)) :
    Tandem R E T (rule >>= next) (other >>= next') where
  forward := h.forward.bind hforward
  run := by
    intro c c' hR
    have hfirst := h.run hR
    generalize hrule : rule c = o at hfirst
    generalize hother : other c' = o' at hfirst
    cases hfirst with
    | ok result place =>
      rw [bind_of_ok hrule, bind_of_ok hother]
      exact (h' _ _ result).run place
    | rejected error =>
      rw [bind_of_error hrule, bind_of_error hother]
      exact .rejected error

theorem rewinding (h : Tandem R E S rule other) :
    Tandem R E S (rewinding rule) (rewinding other) where
  forward := h.forward.rewinding
  run := by
    intro c c' hR
    have hrun := h.run hR
    generalize hrule : rule c = o at hrun
    generalize hother : other c' = o' at hrun
    cases hrun with
    | ok result place =>
      rw [rewinding_of_ok hrule, rewinding_of_ok hother]
      exact .ok result place
    | rejected error =>
      rw [rewinding_of_error hrule, rewinding_of_error hother]
      exact .rejected error

theorem loop {body : σ → Rule (Round σ α)} {body' : τ → Rule (Round τ β)}
    {hbody : Advancing body} {hbody' : Advancing body'} {P : σ → τ → Prop}
    (hforward : ∀ s, Forward (body s))
    (h : ∀ s t, P s t → Tandem R E (Round.Rel P S) (body s) (body' t)) {s : σ} {t : τ}
    (hst : P s t) : Tandem R E S (loop body hbody s) (loop body' hbody' t) where
  forward := forward_loop hforward s
  run := by
    intro c c' hR
    refine loop_induction (P := fun s c o => ∀ t c', P s t → R c c' →
      Tied R E S o (Rule.loop body' hbody' t c')) ?_ ?_ ?_ s c t c' hst hR
    · intro s c f d hround t c' hst hR
      have hboth := (h s t hst).run hR
      rw [hround] at hboth
      generalize hround' : body' t c' = o' at hboth
      cases hboth with
      | rejected error =>
        rw [loop_of_error hround']
        exact .rejected error
    · intro s c a d hround t c' hst hR
      have hboth := (h s t hst).run hR
      rw [hround] at hboth
      generalize hround' : body' t c' = o' at hboth
      cases hboth with
      | ok result place =>
        cases result with
        | done result =>
          rw [loop_of_done hround']
          exact .ok result place
    · intro s c s' d hround ih t c' hst hR
      have hboth := (h s t hst).run hR
      rw [hround] at hboth
      generalize hround' : body' t c' = o' at hboth
      cases hboth with
      | ok result place =>
        cases result with
        | again state =>
          rw [loop_of_again hround']
          exact ih _ _ state place

theorem noting (hnote : ∀ ⦃c c'⦄ (r r' : Record), R c c' → R (c.note r) (c'.note r'))
    (h : Tandem R E S rule other) {record record' : Cursor → Record} :
    Tandem R E S (note record >>= fun _ => rule) (note record' >>= fun _ => other) where
  forward := (forward_note record).bind fun _ => h.forward
  run := by
    intro c c' hR
    rw [bind_of_ok (note_eq record), bind_of_ok (note_eq record')]
    exact h.run (hnote _ _ hR)

theorem reject
    (h : ∀ ⦃c c'⦄, R c c' → ∃ e e', c.syntaxError = .ok e ∧ c'.syntaxError = .ok e' ∧ E e e') :
    Tandem R E S reject reject where
  forward := forward_reject
  run := by
    intro c c' hR
    obtain ⟨e, e', herror, herror', hE⟩ := h hR
    rw [Rule.reject, Rule.reject, herror, herror']
    exact .rejected hE

theorem get (h : ∀ ⦃c c'⦄, R c c' → c.allParsed = c'.allParsed) :
    Tandem R E (fun c d : Cursor => c.allParsed = d.allParsed) get get where
  forward := forward_get
  run := fun _ _ hR => .ok (h hR) hR

section Beside

variable {L : List Token → List Token → Prop} {V : Token → Token → Prop} {spacing : Spacing}
  {ts us : List Token}

theorem consume (h : spacing.Tracks L V) (hV : ∀ ⦃t u⦄, V t u → t.Alike u) (ps : List Pattern) :
    Tandem (Cursor.Beside L ts us) E (Option.Rel (List.Forall₂ Token.Alike)) (consume ps spacing)
      (consume ps spacing) where
  forward := forward_consume ps spacing
  run := by
    intro c c' hR
    obtain ⟨found, found', d, d', hmove, hmove', hfound, hplace⟩ := hR.consume h ps
    rw [Rule.consume, moving, moving, hmove, hmove']
    refine .ok ?_ hplace
    cases hfound with
    | none => exact .none
    | some hall => exact .some (hall.imp fun _ _ hboth => hV hboth)

theorem take? (h : spacing.Tracks L V) (hV : ∀ ⦃t u⦄, V t u → t.Alike u) (p : Pattern) :
    Tandem (Cursor.Beside L ts us) E (Option.Rel Token.Alike) (take? p spacing)
      (take? p spacing) where
  forward := forward_take? p spacing
  run := by
    intro c c' hR
    obtain ⟨found, found', htake, htake', hrel⟩ := h hR.ahead p
    have hmove : Rule.take? p spacing c = .ok _ _ := take?_eq_ok.2 ⟨found, htake, rfl, rfl⟩
    have hmove' : Rule.take? p spacing c' = .ok _ _ := take?_eq_ok.2 ⟨found', htake', rfl, rfl⟩
    have hreaches := forward_take? p spacing hmove
    have hreaches' := forward_take? p spacing hmove'
    rw [hmove, hmove']
    cases hrel with
    | none => exact .ok .none hR
    | some hboth =>
      exact .ok (.some (hV hboth.1)) (hR.of_reaches hreaches hreaches' hboth.2)

theorem peek (h : Spacing.skipped.Tracks L V) (ps : List Pattern) :
    Tandem (Cursor.Beside L ts us) E Eq (ask (·.peek ps)) (ask (·.peek ps)) where
  forward := forward_ask _
  run := by
    intro c c' hR
    obtain ⟨found, hpeek, hpeek'⟩ := hR.peek h ps
    rw [ask, ask, hpeek, hpeek']
    exact .ok rfl hR

theorem congruence (h : Spacing.skipped.Tracks L V) (hV : ∀ ⦃t u⦄, V t u → t.Alike u)
    (herror : ∀ ⦃c c'⦄, Cursor.Beside L ts us c c' →
      ∃ e e', c.syntaxError = .ok e ∧ c'.syntaxError = .ok e' ∧ E e e') :
    Congruence fun _ _ => Tandem (Cursor.Beside L ts us) E where
  forward := Tandem.forward
  pure := pure
  reject := reject herror
  bind := bind
  rewinding := rewinding
  noting := fun hrule => hrule.noting fun _ _ r r' hR => hR.note r r'
  loop := loop
  take? := take? h hV

end Beside

end Tandem

end Rule

end FrontEnd
