import FrontEnd.Grammar.Reading
import FrontEnd.Proofs.Tree.Alike

namespace FrontEnd

inductive Round.Rel {σ τ α β : Type} (S : σ → τ → Prop) (T : α → β → Prop) :
    Round σ α → Round τ β → Prop where
  | again {s : σ} {t : τ} (state : S s t) : Rel S T (.again s) (.again t)
  | done {a : α} {b : β} (result : T a b) : Rel S T (.done a) (.done b)

namespace Rule

/-- A relation between two rules, told from one between what they read. -/
abbrev Relation : Type 1 := ∀ ⦃α β : Type⦄, (α → β → Prop) → Rule α → Rule β → Prop

/-- A relation between rules that is kept by all that the grammar builds rules with, and that taking
a token past whitespace is in. -/
structure Congruence (Rel : Relation) : Prop where
  forward : ∀ {α β : Type} {S : α → β → Prop} {rule : Rule α} {other : Rule β},
    Rel S rule other → Forward rule
  pure : ∀ {α β : Type} {S : α → β → Prop} {a : α} {b : β}, S a b → Rel S (pure a) (pure b)
  reject : ∀ {α β : Type} {S : α → β → Prop}, Rel S reject reject
  bind : ∀ {α β γ δ : Type} {S : α → β → Prop} {T : γ → δ → Prop} {rule : Rule α} {other : Rule β}
    {next : α → Rule γ} {next' : β → Rule δ}, Rel S rule other → (∀ a, Forward (next a)) →
    (∀ a b, S a b → Rel T (next a) (next' b)) → Rel T (rule >>= next) (other >>= next')
  rewinding : ∀ {α β : Type} {S : α → β → Prop} {rule : Rule α} {other : Rule β},
    Rel S rule other → Rel S (rewinding rule) (rewinding other)
  noting : ∀ {α β : Type} {S : α → β → Prop} {rule : Rule α} {other : Rule β}
    {record record' : Cursor → Record}, Rel S rule other →
    Rel S (note record >>= fun _ => rule) (note record' >>= fun _ => other)
  loop : ∀ {α β σ τ : Type} {S : α → β → Prop} {P : σ → τ → Prop} {body : σ → Rule (Round σ α)}
    {body' : τ → Rule (Round τ β)} {hbody : Advancing body} {hbody' : Advancing body'},
    (∀ s, Forward (body s)) → (∀ s t, P s t → Rel (Round.Rel P S) (body s) (body' t)) →
    ∀ {s t}, P s t → Rel S (loop body hbody s) (loop body' hbody' t)
  take? : ∀ p, Rel (Option.Rel Token.Alike) (take? p .skipped) (take? p .skipped)

namespace Congruence

variable {Rel : Relation} {α β γ δ : Type} {S : α → β → Prop} {T : γ → δ → Prop}

theorem optional (h : Congruence Rel) {p : Pattern} {next : Option Token → Rule γ}
    {next' : Option Token → Rule δ}
    (hnext : ∀ s t, s.isSome = t.isSome → Rel T (next s) (next' t)) :
    Rel T (Rule.take? p .skipped >>= next) (Rule.take? p .skipped >>= next') := by
  apply h.bind (h.take? p)
  · intro s
    exact h.forward (hnext s s rfl)
  · intro s t hst
    apply hnext
    cases hst with
    | none => rfl
    | some _ => rfl

theorem choice (h : Congruence Rel) {p : Pattern} {yes no : Rule γ} {yes' no' : Rule δ}
    (hyes : Rel T yes yes') (hno : Rel T no no') :
    Rel T
      (Rule.take? p .skipped >>= fun found => match found with | some _ => yes | none => no)
      (Rule.take? p .skipped >>= fun found => match found with | some _ => yes' | none => no') := by
  apply h.optional
  intro s t hst
  cases s with
  | none =>
    cases t with
    | none => exact hno
    | some _ => cases hst
  | some _ =>
    cases t with
    | none => cases hst
    | some _ => exact hyes

section Names

variable (hseparator : Rel (Option.Rel (List.Forall₂ Token.Alike)) (consume separator .significant)
    (consume separator .significant))
  (hident : Rel (Option.Rel Token.Alike) (Rule.take? anyIdentifier .significant)
    (Rule.take? anyIdentifier .significant))

include hseparator hident

theorem unitRound (h : Congruence Rel) {found found' : List NameUnit}
    (hfound : List.Forall₂ NameUnit.Alike found found') :
    Rel (Round.Rel (List.Forall₂ NameUnit.Alike) (List.Forall₂ NameUnit.Alike)) (unitRound found)
      (unitRound found') := by
  apply h.bind hseparator
  · intro colons
    cases colons with
    | some tokens => exact .pure _
    | none =>
      apply (forward_take? _ _).bind
      intro token
      cases token with
      | some token => exact .pure _
      | none => exact .pure _
  · intro colons colons' hcolons
    cases hcolons with
    | some _ => exact h.pure (.again (.cons .separator hfound))
    | none =>
      apply h.bind hident
      · intro token
        cases token with
        | some token => exact .pure _
        | none => exact .pure _
      · intro t t' ht
        cases ht with
        | some halike => exact h.pure (.again (.cons (.ident halike) hfound))
        | none => exact h.pure (.done (List.rel_reverse hfound))

theorem units (h : Congruence Rel) : Rel (List.Forall₂ NameUnit.Alike) units units :=
  h.loop forward_unitRound (fun _ _ => h.unitRound hseparator hident) .nil

end Names

theorem nameOf (h : Congruence Rel) {us vs : List NameUnit}
    (hunits : List.Forall₂ NameUnit.Alike us vs) :
    Rel QualifiedName.Alike (nameOf us) (nameOf vs) := by
  have hlast := List.rel_reverse hunits
  unfold Rule.nameOf
  rw [← List.head?_reverse, ← List.head?_reverse]
  generalize us.reverse = last at hlast
  generalize vs.reverse = last' at hlast
  cases hlast with
  | nil => exact h.reject
  | cons hunit _ =>
    cases hunit with
    | ident _ => exact h.pure hunits
    | separator => exact h.reject

section Types

variable (hname : Rel QualifiedName.Alike name name)

include hname

theorem typeRound (h : Congruence Rel) (around : List Bool) :
    Rel (Round.Rel Eq TypeExpr.Alike) (typeRound around) (typeRound around) := by
  apply h.noting
  apply h.optional
  intro s t hconst
  rw [hconst]
  apply h.choice
  · exact h.pure (.again rfl)
  · apply h.bind hname fun _ => .pure _
    intro m n hname
    exact h.pure (.done ((TypeExpr.Alike.named hname).under around))

theorem typeExpr (h : Congruence Rel) : Rel TypeExpr.Alike typeExpr typeExpr := by
  have hround : ∀ around around', around = around' →
      Rel (Round.Rel Eq TypeExpr.Alike) (Rule.typeRound around) (Rule.typeRound around') := by
    rintro around _ rfl
    exact h.typeRound hname around
  exact h.rewinding (h.loop forward_typeRound hround rfl)

theorem argumentType (h : Congruence Rel) :
    Rel (Option.Rel TypeExpr.Alike) argumentType argumentType := by
  apply h.choice
  · apply h.bind (h.typeExpr hname) fun _ => .pure _
    intro s t htype
    exact h.pure (.some htype)
  · exact h.pure .none

end Types

theorem modeAmong (h : Congruence Rel) (modes : List Mode) :
    Rel Eq (modeAmong modes) (modeAmong modes) := by
  induction modes with
  | nil => exact h.pure rfl
  | cons m ms ih => exact h.choice (h.pure rfl) ih

theorem argumentOf (h : Congruence Rel) (mode : Mode) {s t : Option Token}
    {type type' : Option TypeExpr} (hname : Option.Rel Token.Alike s t)
    (htype : Option.Rel TypeExpr.Alike type type') :
    Rel (Option.Rel Argument.Alike) (argumentOf mode s type) (argumentOf mode t type') := by
  cases hname with
  | none => exact h.noting (h.pure .none)
  | some hname => exact h.pure (.some ⟨rfl, hname, htype⟩)

section Arguments

variable (hname : Rel QualifiedName.Alike name name)
  (hpeek : ∀ ps, Rel Eq (ask (·.peek ps)) (ask (·.peek ps)))

include hname

theorem argument (h : Congruence Rel) : Rel (Option.Rel Argument.Alike) argument argument := by
  apply h.bind (h.modeAmong Mode.all) fun _ => (forward_take? _ _).bind fun _ =>
    forward_argumentType.bind fun _ => forward_argumentOf _ _ _
  rintro mode _ rfl
  apply h.bind (h.take? anyIdentifier) fun _ =>
    forward_argumentType.bind fun _ => forward_argumentOf _ _ _
  intro s t hident
  apply h.bind (h.argumentType hname) fun _ => forward_argumentOf _ _ _
  intro type type' htype
  exact h.argumentOf mode hident htype

include hpeek

theorem argumentRound (h : Congruence Rel) {found found' : List Argument}
    (hfound : List.Forall₂ Argument.Alike found found') :
    Rel (Round.Rel (List.Forall₂ Argument.Alike) (List.Forall₂ Argument.Alike))
      (argumentRound found) (argumentRound found') := by
  apply h.bind (h.argument hname)
  · intro read
    apply (forward_take? _ _).bind
    intro separator
    cases separator with
    | some token => exact forward_afterComma _
    | none => exact forward_afterLast _
  · intro read read' hread
    have hmore : List.Forall₂ Argument.Alike (read.toList ++ found) (read'.toList ++ found') := by
      cases hread with
      | none => exact hfound
      | some hread => exact .cons hread hfound
    apply h.choice
    · apply h.bind (hpeek [closeParen])
      · intro closed
        cases closed with
        | true => exact forward_reject
        | false => exact .pure _
      · rintro closed _ rfl
        cases closed with
        | true => exact h.reject
        | false => exact h.pure (.again hmore)
    · apply h.choice
      · exact h.pure (.done (List.rel_reverse hmore))
      · exact h.reject

theorem arguments (h : Congruence Rel) :
    Rel (List.Forall₂ Argument.Alike) arguments arguments := by
  apply h.noting
  apply h.rewinding
  apply h.loop forward_argumentRound
  · intro found found' hfound
    exact h.argumentRound hname hpeek hfound
  · exact .nil

end Arguments

theorem braceRound (h : Congruence Rel) (o : OpenScopes) :
    Rel (Round.Rel Eq Eq) (braceRound o) (braceRound o) := by
  apply h.choice
  · apply h.pure
    cases o.close with
    | again state => exact .again rfl
    | done result => exact .done rfl
  · exact h.choice (h.pure (.again rfl)) h.reject

theorem nestedScope (h : Congruence Rel) : Rel Eq nestedScope nestedScope := by
  have hround : ∀ o o', o = o' →
      Rel (Round.Rel Eq Eq) (Rule.braceRound o) (Rule.braceRound o') := by
    rintro o _ rfl
    exact h.braceRound o
  exact h.rewinding (h.loop forward_braceRound hround rfl)

section Global

variable (hparsed : Rel (fun c d : Cursor => c.allParsed = d.allParsed) get get)

include hparsed

theorem entryRound (h : Congruence Rel) (found : List Scope) :
    Rel (Round.Rel Eq Eq) (entryRound found) (entryRound found) := by
  apply h.bind hparsed
  · intro c
    split
    · exact .pure _
    · apply (forward_take? _ _).bind
      intro opened
      cases opened with
      | some token => exact forward_nestedScope.bind fun _ => .pure _
      | none => exact forward_reject
  · intro c d hcd
    rw [hcd]
    split
    · exact h.pure (.done rfl)
    · apply h.choice
      · apply h.bind h.nestedScope fun _ => .pure _
        rintro entry _ rfl
        exact h.pure (.again rfl)
      · exact h.reject

theorem globalScope (h : Congruence Rel) : Rel Eq globalScope globalScope := by
  apply h.noting
  apply h.rewinding
  have hround : ∀ found found', found = found' →
      Rel (Round.Rel Eq Eq) (Rule.entryRound found) (Rule.entryRound found') := by
    rintro found _ rfl
    exact h.entryRound hparsed found
  exact h.loop forward_entryRound hround rfl

end Global

end Congruence

end Rule

end FrontEnd
