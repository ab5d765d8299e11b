import FrontEnd.Proofs.Grammar.Local
import FrontEnd.Proofs.Grammar.Progress

namespace FrontEnd

namespace Rule

variable {α σ : Type} {w : Wall} {c c' d : Cursor}

/-- Where a rule comes to stand right behind the wall, it does so whatever comes there. -/
def Halts (w : Wall) (rule : Rule α) : Prop :=
  ∀ ⦃c c' a d⦄, c.Before w c' → rule c = .ok a d → d.rest = w.left →
    ∃ d', rule c' = .ok a d' ∧ d.Behind w d'

theorem Local.ok_of_long {rule : Rule α} {a : α} (h : Local w rule) (hbefore : c.Before w c')
    (hrule : rule c = .ok a d) (hlong : w.left.length < d.rest.length) :
    ∃ d', rule c' = .ok a d' ∧ d.Before w d' := by
  have hboth := h.run hbefore
  rw [hrule] at hboth
  generalize hrule' : rule c' = o' at hboth
  cases hboth with
  | ok place => exact ⟨_, rfl, place⟩
  | past passed short => omega

theorem Local.rejects_again {rule : Rule α} {e : SyntaxError} (h : Local w rule)
    (hrestoring : Restoring rule) (hbefore : c.Before w c')
    (hrule : rule c = .error (.rejected e) d) (hlimit : d.passings ≤ w.limit) :
    rule c' = .error (.rejected e) ⟨c'.pos, c'.rest, d.journal⟩ := by
  have hboth := h.run hbefore
  rw [hrule] at hboth
  generalize hrule' : rule c' = o' at hboth ⊢
  cases hboth with
  | @rejected _ _ d' journal_eq =>
    obtain ⟨hpos, hrest⟩ := hrestoring hrule'
    rw [← hpos, ← hrest, ← journal_eq]
  | lost passed => exact absurd hlimit (Nat.not_le_of_lt passed)

theorem halts_take? (p : Pattern) (spacing : Spacing) : Halts w (take? p spacing) := by
  intro c c' token d h htake hleft
  obtain ⟨ahead, found, found', hrest, _, htaken, htaken', halong⟩ := h.exists_take? p spacing
  obtain ⟨taken, hfound, rfl, rfl⟩ := take?_eq_ok.1 htake
  cases htaken.symm.trans hfound
  refine ⟨_, take?_eq_ok.2 ⟨found', htaken', ?_, rfl⟩, ?_⟩
  · cases halong with
    | none => rfl
    | before split => rfl
    | wall accepts => rfl
  · have hlonger : ∀ ts : List Token, ts ++ w.token :: w.left ≠ w.left := by
      intro ts hts
      have hlength := congrArg List.length hts
      rw [List.length_append, List.length_cons] at hlength
      omega
    cases halong with
    | none => exact absurd (hrest.symm.trans hleft) (hlonger ahead)
    | @before skipped behind t split => exact absurd hleft (hlonger behind)
    | wall accepts =>
      exact ⟨congrArg (· + _) h.pos_eq, congrArg (_ ++ ·) h.journal_eq, rfl, rfl⟩

theorem halts_loop {body : σ → Rule (Round σ α)} {hbody : Advancing body}
    (h : ∀ s, Local w (body s))
    (hshorter : ∀ ⦃s c a d⦄, loop body hbody s c = .ok a d → d.rest.length < c.rest.length)
    (hends : ∀ ⦃s c c' a d⦄, c.Before w c' → body s c = .ok (.done a) d → d.rest = w.left →
      ∃ d', body s c' = .ok (.done a) d' ∧ d.Behind w d') (s : σ) :
    Halts w (loop body hbody s) := by
  intro c c' a d hbefore hloop hleft
  refine loop_induction (P := fun s c o => ∀ c', c.Before w c' → o = .ok a d →
    ∃ d', loop body hbody s c' = .ok a d' ∧ d.Behind w d') ?_ ?_ ?_ s c c' hbefore hloop
  · intro s c f e _ c' _ hfails
    cases hfails
  · intro s c b e hround c' hbefore hok
    cases hok
    obtain ⟨d', hround', hbehind⟩ := hends hbefore hround hleft
    exact ⟨d', loop_of_done hround', hbehind⟩
  · intro s c t e hround ih c' hbefore hok
    have hlong : w.left.length < e.rest.length := hleft ▸ hshorter hok
    obtain ⟨e', hround', hbefore'⟩ := (h s).ok_of_long hbefore hround hlong
    obtain ⟨d', hmore, hbehind⟩ := ih e' hbefore' hok
    exact ⟨d', (loop_of_again hround').trans hmore, hbehind⟩

theorem Halts.rewinding {rule : Rule α} (h : Halts w rule) : Halts w (rewinding rule) := by
  intro c c' a d hbefore hrule hleft
  unfold Rule.rewinding at hrule
  split at hrule
  · next hok =>
    cases hrule
    obtain ⟨d', hrule', hbehind⟩ := h hbefore hok hleft
    exact ⟨d', rewinding_of_ok hrule', hbehind⟩
  · cases hrule

theorem Halts.noting {rule : Rule α} {record : Nat → Record}
    (hrecord : ∀ n, (record n).advanced? = none) (h : Halts w rule) :
    Halts w (note (fun c => record c.pos) >>= fun _ => rule) := by
  intro c c' a d hbefore hrule hleft
  rw [bind_of_ok (note_eq _)] at hrule ⊢
  rw [hbefore.pos_eq]
  exact h (hbefore.note (hrecord c.pos)) hrule hleft

theorem halts_arguments (hclose : closeParen.accepts w.token = .ok true) : Halts w arguments := by
  have hcolon : colon.accepts w.token = .ok false := Pattern.refuses_other hclose (by decide)
  apply Halts.noting fun _ => rfl
  apply Halts.rewinding
  refine halts_loop (local_argumentRound hcolon) ?_ ?_ _
  · intro found c args d hloop
    exact (closing_argumentLoop found hloop).length_lt
  · intro found c c' args e hbefore hround hleft
    obtain ⟨read, b, d, token, hread, hcomma, hlast, hargs⟩ := argumentRound_eq_done.1 hround
    have hd : w.left.length < d.rest.length := hleft ▸ length_of_take? hlast
    have hb := Nat.lt_of_lt_of_le hd (forward_take? _ _ hcomma).length_le
    obtain ⟨b', hread', hbefore⟩ := (local_argument hcolon).ok_of_long hbefore hread hb
    obtain ⟨d', hcomma', hbefore⟩ := (Local.take? _ _).ok_of_long hbefore hcomma hd
    obtain ⟨e', hlast', hbehind⟩ := halts_take? _ _ hbefore hlast hleft
    exact ⟨e', argumentRound_eq_done.2 ⟨read, b', d', token, hread', hcomma', hlast', hargs⟩,
      hbehind⟩

/-- A nested scope ends at the brace that closes it. -/
theorem halts_nestedScope : Halts w nestedScope := by
  apply Halts.rewinding
  refine halts_loop local_braceRound ?_ ?_ _
  · intro o c s d hloop
    exact (closing_braceLoop o hloop).length_lt
  · intro o c c' s d hbefore hround hleft
    obtain ⟨token, hlast, hdone⟩ := braceRound_eq_done.1 hround
    obtain ⟨d', hlast', hbehind⟩ := halts_take? _ _ hbefore hlast hleft
    exact ⟨d', braceRound_eq_done.2 ⟨token, hlast', hdone⟩, hbehind⟩

section Tokens

variable {tokens ahead left : List Token} {t : Token} {p : Nat}

theorem drop_take_append (more : List Token) (hp : p ≤ tokens.length)
    (h : tokens.drop p = ahead ++ t :: left) :
    (tokens.take (p + ahead.length + 1) ++ more).drop p = ahead ++ t :: more := by
  have hle : p ≤ (tokens.take (p + ahead.length + 1)).length := by
    rw [List.length_take]
    omega
  have hcount : p + ahead.length + 1 - p = (ahead ++ [t]).length := by
    rw [List.length_append, List.length_singleton]
    omega
  rw [List.append_cons] at h
  rw [List.drop_append_of_le_length hle, List.drop_take, h, hcount, List.take_left,
    List.append_assoc, List.singleton_append]

theorem before_of_drop (hordered : ∀ t ∈ tokens, t.span.start ≤ t.span.stop)
    (hp : p ≤ tokens.length) (hstays : t.isWhitespace = false)
    (h : tokens.drop p = ahead ++ t :: left) (more : List Token) (log : List Record) :
    Cursor.Before ⟨t, hstays, left, more, (⟨p, tokens.drop p, log⟩ : Cursor).passings +
      ahead.length⟩ ⟨p, tokens.drop p, log⟩
      ⟨p, (tokens.take (p + ahead.length + 1) ++ more).drop p, log⟩ where
  ordered := fun x hx => hordered x (List.mem_of_mem_drop hx)
  pos_eq := rfl
  journal_eq := rfl
  ahead := ⟨ahead, h, drop_take_append more hp h, rfl⟩

end Tokens

/-- What a rule reads is settled by the tokens up to where it comes to stand: with any others behind
them it reads the same, and stands at the same place. -/
def Encloses (rule : Rule α) (tokens : List Token) (p : Nat) (log : List Record) : Prop :=
  ∀ a d, rule ⟨p, tokens.drop p, log⟩ = .ok a d → d.pos ≤ tokens.length ∧
    ∀ more, rule ⟨p, (tokens.take d.pos ++ more).drop p, log⟩ = .ok a ⟨d.pos, more, d.journal⟩

end Rule

/-- An error about the token at an index: the tokens before it are logged as passed, but for the
whitespace right before it. -/
structure SyntaxError.At (tokens : List Token) (p : Nat) (records : List Record) (i : Nat)
    (error : SyntaxError) : Prop where
  token : ∃ t text, tokens[i]? = some t ∧ t.isWhitespace = false ∧ t.text = .ok text ∧
    error = .unexpected t.position t.kind text
  reached : ∃ k, p ≤ k ∧ k ≤ i ∧
    records.filterMap Record.advanced? = (tokens.drop p).take (k - p) ∧
    ∀ b ∈ (tokens.drop k).take (i - k), b.isWhitespace = true

namespace Rule

variable {α : Type}

/-- What token a rule rejects is settled by the tokens up to it: with any others behind them it
rejects that token. -/
def BreaksOff (rule : Rule α) (tokens : List Token) (p : Nat) (log : List Record) : Prop :=
  ∀ position kind text d,
    rule ⟨p, tokens.drop p, log⟩ = .error (.rejected (.unexpected position kind text)) d →
    ∃ i records, d = ⟨p, tokens.drop p, records.reverse ++ log⟩ ∧
      (SyntaxError.unexpected position kind text).At tokens p records i ∧
      ∀ more, rule ⟨p, (tokens.take (i + 1) ++ more).drop p, log⟩ =
        .error (.rejected (.unexpected position kind text))
          ⟨p, (tokens.take (i + 1) ++ more).drop p, records.reverse ++ log⟩

theorem at_of_drop {tokens passed blank behind : List Token} {t : Token} {text : String} {p : Nat}
    {records : List Record} (hp : p ≤ tokens.length)
    (hsplit : tokens.drop p = passed ++ (blank ++ t :: behind)) (hstays : t.isWhitespace = false)
    (htext : t.text = .ok text) (hpassed : records.filterMap Record.advanced? = passed)
    (hblank : ∀ b ∈ blank, b.isWhitespace = true) :
    (SyntaxError.unexpected t.position t.kind text).At tokens p records
      (p + (passed ++ blank).length) := by
  obtain ⟨hle, htake, hdrop⟩ := slice_of_drop hp hsplit
  have hat : p + (passed ++ blank).length = p + passed.length + blank.length := by
    rw [List.length_append, Nat.add_assoc]
  rw [hat]
  constructor
  · refine ⟨t, text, ?_, hstays, htext, rfl⟩
    rw [← List.getElem?_drop, hdrop, List.getElem?_append_right (Nat.le_refl _), Nat.sub_self]
    rfl
  · refine ⟨p + passed.length, Nat.le_add_right _ _, Nat.le_add_right _ _, ?_, ?_⟩
    · rw [hpassed, htake]
    · rw [Nat.add_sub_cancel_left, hdrop, List.take_left]
      exact hblank

section Assembly

variable {tokens : List Token} {p : Nat} {rule : Rule α}
  (ht : ∀ t ∈ tokens, t.span.start ≤ t.span.stop) (hp : p ≤ tokens.length) (log : List Record)

include ht hp

theorem encloses_of_halts {text : String} (hcloses : Leads (Cursor.Closes (.mark text)) rule)
    (hhalts : ∀ w : Wall, (Pattern.mark text).accepts w.token = .ok true → Halts w rule) :
    Encloses rule tokens p log := by
  intro a d hrule
  obtain ⟨passed, t, hrest, hpos, haccepts⟩ := hcloses hrule
  dsimp only at hrest hpos
  have hstays : t.isWhitespace = false := by
    rw [Token.isWhitespace, Pattern.kind_of_accepts haccepts]
    rfl
  constructor
  · have hlength := congrArg List.length hrest
    rw [List.length_drop, List.length_append, List.length_cons] at hlength
    omega
  · intro more
    have hbefore := before_of_drop ht hp hstays hrest more log
    obtain ⟨d', hrule', hbehind⟩ := hhalts _ haccepts hbefore hrule rfl
    obtain ⟨pos, rest, journal⟩ := d'
    have hplace : pos = d.pos := hbehind.pos_eq
    have hjournal : journal = d.journal := hbehind.journal_eq
    have hmore : rest = more := hbehind.more_eq
    rw [hpos, hrule', hplace, hjournal, hmore, hpos]

theorem breaksOff_of_local (hlocal : ∀ w, Local w rule) (htrails : Trails rule)
    (hrestoring : Restoring rule) :
    BreaksOff rule tokens p log := by
  intro position kind text d hrule
  have hordered : (⟨p, tokens.drop p, log⟩ : Cursor).Ordered :=
    fun t hmem => ht t (List.mem_of_mem_drop hmem)
  have htrail := htrails _ hordered
  rw [hrule] at htrail
  cases htrail with
  | rejected passed left split logs blames =>
    cases blames with
    | @token t text first readable =>
      obtain ⟨hstays, blank, behind, rfl, hblank⟩ := List.find?_eq_some_iff_append.1 first
      have hstays : t.isWhitespace = false := by simpa using hstays
      have hahead : tokens.drop p = (passed ++ blank) ++ t :: behind :=
        split.trans (List.append_assoc _ _ _).symm
      have hpassings := logs.passings_eq
      obtain ⟨records, hjournal, hpassed⟩ := logs
      refine ⟨p + (passed ++ blank).length, records, ?_, ?_, fun more => ?_⟩
      · obtain ⟨hpos, hrest⟩ := hrestoring hrule
        obtain ⟨pos, rest, journal⟩ := d
        cases hpos
        cases hrest
        cases hjournal
        rfl
      · exact at_of_drop hp split hstays readable hpassed fun b hb => by simpa using hblank b hb
      · have hbefore := before_of_drop ht hp hstays hahead more log
        have hsame := (hlocal _).rejects_again hrestoring hbefore hrule <| by
          rw [hpassings, List.length_append]
          exact Nat.add_le_add_left (Nat.le_add_right _ _) _
        rw [hsame, hjournal]

end Assembly

/-- Rules for what is closed do not look past its end, and rules for scopes not past a token that
they reject. -/
theorem rules_look_no_further (tokens : List Token) (h : ∀ t ∈ tokens, t.span.start ≤ t.span.stop)
    (p : Nat) (hp : p ≤ tokens.length) (log : List Record) :
    Encloses arguments tokens p log ∧ Encloses nestedScope tokens p log ∧
      BreaksOff nestedScope tokens p log ∧ BreaksOff globalScope tokens p log := by
  refine ⟨?_, ?_, ?_, ?_⟩
  · apply encloses_of_halts h hp log closing_arguments
    intro w hclose
    exact halts_arguments hclose
  · apply encloses_of_halts h hp log closing_nestedScope
    intro w _
    exact halts_nestedScope
  · apply breaksOff_of_local h hp log _ trails_nestedScope restoring_nestedScope
    intro w
    exact local_nestedScope
  · apply breaksOff_of_local h hp log _ trails_globalScope restoring_globalScope
    intro w
    exact local_globalScope

def enclosedTokens : List Token :=
  let source := Buffer.ofBytes 0 (bytesOf "x:A)\x7b \x7d\x7d::a")
  [⟨.identifier, ⟨0, 1⟩, ⟨1, 1⟩, source, by decide⟩,
    ⟨.scopeOperator, ⟨1, 2⟩, ⟨1, 2⟩, source, by decide⟩,
    ⟨.identifier, ⟨2, 3⟩, ⟨1, 3⟩, source, by decide⟩,
    ⟨.scopeOperator, ⟨3, 4⟩, ⟨1, 4⟩, source, by decide⟩,
    ⟨.scopeOperator, ⟨4, 5⟩, ⟨1, 5⟩, source, by decide⟩,
    ⟨.whitespace, ⟨5, 6⟩, ⟨1, 6⟩, source, by decide⟩,
    ⟨.scopeOperator, ⟨6, 7⟩, ⟨1, 7⟩, source, by decide⟩,
    ⟨.scopeOperator, ⟨7, 8⟩, ⟨1, 8⟩, source, by decide⟩,
    ⟨.scopeOperator, ⟨8, 9⟩, ⟨1, 9⟩, source, by decide⟩,
    ⟨.scopeOperator, ⟨9, 10⟩, ⟨1, 10⟩, source, by decide⟩,
    ⟨.identifier, ⟨10, 11⟩, ⟨1, 11⟩, source, by decide⟩]

def rejectsAt (rule : Rule α) (c : Cursor) (position : Position) : Bool :=
  match rule c with
  | .error (.rejected (.unexpected place _ _)) _ => place == position
  | _ => false

theorem exists_of_rejectsAt {rule : Rule α} {c : Cursor} {position : Position}
    (h : rejectsAt rule c position = true) :
    ∃ kind text d, rule c = .error (.rejected (.unexpected position kind text)) d := by
  unfold rejectsAt at h
  split at h
  · next place kind text d hrule =>
    rw [beq_iff_eq.1 h] at hrule
    exact ⟨kind, text, d, hrule⟩
  · cases h

theorem rules_look_no_further_in_enclosedTokens :
    ((∀ t ∈ enclosedTokens, t.span.start ≤ t.span.stop) ∧ 4 ≤ enclosedTokens.length) ∧
    (∃ args d, arguments ⟨0, enclosedTokens, []⟩ = .ok args d ∧ d.pos = 4 ∧
      arguments ⟨0, enclosedTokens.take 4, []⟩ = .ok args ⟨4, [], d.journal⟩) ∧
    (∃ s d, nestedScope ⟨4, enclosedTokens.drop 4, []⟩ = .ok s d ∧ d.pos = 8 ∧
      nestedScope ⟨4, (enclosedTokens.take 8 ++ enclosedTokens).drop 4, []⟩ =
        .ok s ⟨8, enclosedTokens, d.journal⟩) ∧
    ∃ i kind text d, globalScope ⟨4, enclosedTokens.drop 4, []⟩ =
        .error (.rejected (.unexpected ⟨1, 8⟩ kind text)) d ∧
      ∀ more, ∃ e, globalScope ⟨4, (enclosedTokens.take (i + 1) ++ more).drop 4, []⟩ =
        .error (.rejected (.unexpected ⟨1, 8⟩ kind text)) e := by
  have hordered : ∀ t ∈ enclosedTokens, t.span.start ≤ t.span.stop := by decide
  have hfour : 4 ≤ enclosedTokens.length := by decide
  have harguments : succeedsAt arguments ⟨0, enclosedTokens, []⟩ (fun _ d => d.pos == 4) = true := by
    decide +kernel
  have hnested : succeedsAt nestedScope ⟨4, enclosedTokens.drop 4, []⟩
      (fun _ d => d.pos == 8) = true := by decide +kernel
  have hglobal : rejectsAt globalScope ⟨4, enclosedTokens.drop 4, []⟩ ⟨1, 8⟩ = true := by
    decide +kernel
  refine ⟨⟨hordered, hfour⟩, ?_, ?_, ?_⟩
  · obtain ⟨hends, _⟩ := rules_look_no_further enclosedTokens hordered 0 (Nat.zero_le _) []
    obtain ⟨args, d, hok, hpos⟩ := exists_of_succeedsAt harguments
    obtain ⟨_, hmore⟩ := hends args d hok
    have hcut := hmore []
    rw [beq_iff_eq.1 hpos, List.append_nil] at hcut
    exact ⟨args, d, hok, beq_iff_eq.1 hpos, hcut⟩
  · obtain ⟨_, hends, _⟩ := rules_look_no_further enclosedTokens hordered 4 hfour []
    obtain ⟨s, d, hok, hpos⟩ := exists_of_succeedsAt hnested
    obtain ⟨_, hmore⟩ := hends s d hok
    have hanother := hmore enclosedTokens
    rw [beq_iff_eq.1 hpos] at hanother
    exact ⟨s, d, hok, beq_iff_eq.1 hpos, hanother⟩
  · obtain ⟨_, _, _, hbreaks⟩ := rules_look_no_further enclosedTokens hordered 4 hfour []
    obtain ⟨kind, text, d, herror⟩ := exists_of_rejectsAt hglobal
    obtain ⟨i, _, _, _, hmore⟩ := hbreaks _ kind text d herror
    exact ⟨i, kind, text, d, herror, fun more => ⟨_, hmore more⟩⟩

end Rule

end FrontEnd
