import FrontEnd.Proofs.Grammar.ArgumentText
import FrontEnd.Proofs.Grammar.Placeless

namespace FrontEnd

/-- A token that may be missing: the next one that is not whitespace, where it is accepted. -/
inductive Optional (p : Pattern) : List Token → Option Token → List Token → Prop where
  | present {blank rest : List Token} {t : Token} (skipped : ∀ b ∈ blank, b.isWhitespace = true)
      (stays : t.isWhitespace = false) (accepts : p.accepts t = .ok true) :
      Optional p (blank ++ t :: rest) (some t) rest
  | absent {ts : List Token}
      (refuses : ∀ t ∈ ts.find? (!·.isWhitespace), p.accepts t = .ok false) : Optional p ts none ts

inductive ModeRead : List Token → Mode → List Token → Prop where
  | keyword {ts rest : List Token} {m : Mode} {t : Token}
      (keyword : Optional (.keyword m.keyword) ts (some t) rest) : ModeRead ts m rest
  | default {ts : List Token} (no_keyword : ∀ m : Mode, Optional (.keyword m.keyword) ts none ts) :
      ModeRead ts .input ts

inductive TypeRead : List Token → Option TypeExpr → List Token → Prop where
  | typed {ts left : List Token} {t : Token} {type : TypeExpr} {d : Cursor}
      (colon : Optional Rule.colon ts (some t) left)
      (reads : Rule.typeExpr (.ofTokens left) = .ok type d) : TypeRead ts (some type) d.rest
  | untyped {ts : List Token} (no_colon : Optional Rule.colon ts none ts) : TypeRead ts none ts

/-- An argument as it is written, each part of which may be missing. -/
structure Fragment where
  mode : Mode
  name : Option Token
  type : Option TypeExpr

namespace Fragment

def argument? (f : Fragment) : Option Argument := f.name.map fun name => ⟨f.mode, name, f.type⟩

inductive Read : List Token → Fragment → List Token → Prop where
  | parts {ts named typed rest : List Token} {f : Fragment} (mode : ModeRead ts f.mode named)
      (name : Optional Rule.anyIdentifier named f.name typed) (type : TypeRead typed f.type rest) :
      Read ts f rest

inductive Fails : List Token → SyntaxError → Prop where
  | type {ts named typed left : List Token} {mode : Mode} {name : Option Token} {t : Token}
      {error : SyntaxError} {d : Cursor} (mode : ModeRead ts mode named)
      (name : Optional Rule.anyIdentifier named name typed)
      (colon : Optional Rule.colon typed (some t) left)
      (fails : Rule.typeExpr (.ofTokens left) = .error (.rejected error) d) : Fails ts error

end Fragment

/-- Fragments with commas between them, through a closing parenthesis that does not come right after
a comma. -/
inductive ListRead : List Token → List Fragment → List Token → Prop where
  | last {ts left rest : List Token} {f : Fragment} {t : Token} (fragment : Fragment.Read ts f left)
      (closed : Optional Rule.closeParen left (some t) rest) : ListRead ts [f] rest
  | more {ts left next rest : List Token} {f : Fragment} {fs : List Fragment} {t : Token}
      (fragment : Fragment.Read ts f left) (separator : Optional Rule.comma left (some t) next)
      (goes_on : Optional Rule.closeParen next none next) (list : ListRead next fs rest) :
      ListRead ts (f :: fs) rest

/-- What keeps tokens from being such a list: a type that is rejected, a parenthesis right after a
comma, or else what stands where a comma or the parenthesis should. -/
inductive ListFails : List Token → SyntaxError → Prop where
  | type {ts : List Token} {error : SyntaxError} (fails : Fragment.Fails ts error) :
      ListFails ts error
  | closed {ts left next rest : List Token} {f : Fragment} {t u : Token} {text : String}
      (fragment : Fragment.Read ts f left) (separator : Optional Rule.comma left (some t) next)
      (closed : Optional Rule.closeParen next (some u) rest) (readable : u.text = .ok text) :
      ListFails ts (.unexpected u.position u.kind text)
  | stray {ts left : List Token} {f : Fragment} {error : SyntaxError}
      (fragment : Fragment.Read ts f left) (no_comma : Optional Rule.comma left none left)
      (not_closed : Optional Rule.closeParen left none left) (blames : error.Blames left) :
      ListFails ts error
  | later {ts left next : List Token} {f : Fragment} {t : Token} {error : SyntaxError}
      (fragment : Fragment.Read ts f left) (separator : Optional Rule.comma left (some t) next)
      (goes_on : Optional Rule.closeParen next none next) (list : ListFails next error) :
      ListFails ts error

namespace Optional

variable {p : Pattern} {ts rest : List Token} {t : Token} {found : Option Token} {c : Cursor}

theorem find?_eq (h : Optional p ts (some t) rest) : ts.find? (!·.isWhitespace) = some t := by
  cases h with
  | present skipped stays accepts =>
    rw [List.find?_eq_some_iff_append]
    refine ⟨by rw [stays]; rfl, _, _, rfl, fun b hb => ?_⟩
    rw [skipped b hb]
    rfl

theorem accepts (h : Optional p ts (some t) rest) : p.accepts t = .ok true := by
  cases h with
  | present _ _ accepts => exact accepts

theorem absent_of_refuses {q : Pattern} (h : Optional p ts (some t) rest)
    (hq : q.accepts t = .ok false) : Optional q ts none ts := by
  apply Optional.absent
  intro u hu
  rw [h.find?_eq] at hu
  cases hu
  exact hq

theorem suffix (h : Optional p ts found rest) : rest <:+ ts := by
  cases h with
  | present => exact (List.suffix_cons _ _).trans (List.suffix_append _ _)
  | absent => exact List.suffix_rfl

theorem length_lt (h : Optional p ts (some t) rest) : rest.length < ts.length := by
  cases h with
  | present =>
    rw [List.length_append, List.length_cons]
    omega

theorem cases_of_readable (p : Pattern) (hts : ∀ t ∈ ts, t.span.start ≤ t.span.stop) :
    Optional p ts none ts ∨ ∃ t rest, Optional p ts (some t) rest := by
  cases hfirst : ts.find? (!·.isWhitespace) with
  | none =>
    refine .inl (.absent fun t ht => ?_)
    rw [hfirst] at ht
    cases ht
  | some t =>
    obtain ⟨accepted, haccepts⟩ := p.exists_accepts (hts t (List.mem_of_find?_eq_some hfirst))
    cases accepted with
    | false =>
      refine .inl (.absent fun u hu => ?_)
      rw [hfirst] at hu
      cases hu
      exact haccepts
    | true =>
      obtain ⟨hstays, blank, rest, rfl, hblank⟩ := List.find?_eq_some_iff_append.1 hfirst
      refine .inr ⟨t, rest, .present (fun b hb => ?_) (by simpa using hstays) haccepts⟩
      have hskipped := hblank b hb
      simpa using hskipped

theorem take?_eq (h : Optional p ts found rest) :
    ∃ taken, p.take? .skipped ts = .ok taken ∧ found = taken.map Taken.token ∧
      rest = taken.elim ts Taken.rest := by
  cases h with
  | present skipped stays accepts =>
    exact ⟨_, Pattern.take?_of_blank skipped stays accepts, rfl, rfl⟩
  | absent refuses =>
    refine ⟨none, ?_, rfl, rfl⟩
    have hfirst := List.head?_filter (p := fun t : Token => !t.isWhitespace) (l := ts)
    cases hsignificant : ts.filter (!·.isWhitespace) with
    | nil => exact Pattern.take?_of_nothing hsignificant
    | cons t more =>
      obtain ⟨_, _, _, _, htake⟩ := Pattern.take?_of_token (p := p) hsignificant
      rw [hsignificant] at hfirst
      rw [htake false (refuses t hfirst.symm)]
      rfl

theorem run (h : Optional p ts found rest) (hc : c.Level (.ofTokens ts)) :
    ∃ d, Rule.take? p .skipped c = .ok found d ∧ d.Level (.ofTokens rest) := by
  obtain ⟨taken, htaken, rfl, rfl⟩ := h.take?_eq
  have hrest : c.rest = ts := hc.rest_eq
  rw [← hrest] at htaken
  have htake : Rule.take? p .skipped c = .ok _ _ :=
    Rule.take?_eq_ok.2 ⟨taken, htaken, rfl, rfl⟩
  refine ⟨_, htake, hc.of_reaches (Rule.forward_take? _ _ htake) ?_⟩
  cases taken with
  | none => exact hrest
  | some taken => rfl

theorem peek (h : Optional p ts found rest) (hc : c.Level (.ofTokens ts)) :
    Rule.ask (·.peek [p]) c = .ok found.isSome c := by
  obtain ⟨taken, htaken, rfl, rfl⟩ := h.take?_eq
  have hrest : c.rest = ts := hc.rest_eq
  rw [← hrest] at htaken
  rw [Rule.ask, Cursor.peek, Pattern.matchAll, htaken]
  cases taken with
  | none => rfl
  | some taken => rfl

end Optional

namespace Rule

variable {c d : Cursor} {ts left rest : List Token} {t : Token} {m : Mode} {modes : List Mode}
  {f : Fragment} {fs : List Fragment} {error : SyntaxError} {found : List Argument}

theorem modeAmong_of_optional (hmode : m ∈ modes)
    (h : Optional (.keyword m.keyword) ts (some t) rest) (hc : c.Level (.ofTokens ts)) :
    ∃ d, modeAmong modes c = .ok m d ∧ d.Level (.ofTokens rest) := by
  induction modes generalizing c with
  | nil => cases hmode
  | cons n ns ih =>
    by_cases hfirst : m = n
    · cases hfirst
      obtain ⟨d, htake, hd⟩ := h.run hc
      exact ⟨d, bind_of_ok htake, hd⟩
    · have hother : bytesOf m.keyword ≠ bytesOf n.keyword := fun hsame =>
        hfirst (Mode.keyword_inj (Utf8.bytesOf_inj hsame))
      have hnone := h.absent_of_refuses (Pattern.refuses_other h.accepts hother)
      obtain ⟨d, htake, hd⟩ := hnone.run hc
      obtain ⟨e, hmore, he⟩ := ih ((List.mem_cons.1 hmode).resolve_left hfirst) hd
      exact ⟨e, (bind_of_ok htake).trans hmore, he⟩

theorem modeAmong_of_absent (h : ∀ m : Mode, Optional (.keyword m.keyword) ts none ts)
    (hc : c.Level (.ofTokens ts)) :
    ∃ d, modeAmong modes c = .ok .default d ∧ d.Level (.ofTokens ts) := by
  induction modes generalizing c with
  | nil => exact ⟨c, rfl, hc⟩
  | cons n ns ih =>
    obtain ⟨d, htake, hd⟩ := (h n).run hc
    obtain ⟨e, hmore, he⟩ := ih hd
    exact ⟨e, (bind_of_ok htake).trans hmore, he⟩

theorem modeAmong_of_read (h : ModeRead ts m rest) (hc : c.Level (.ofTokens ts)) :
    ∃ d, modeAmong Mode.all c = .ok m d ∧ d.Level (.ofTokens rest) := by
  cases h with
  | keyword keyword =>
    have hmode : m ∈ Mode.all := by cases m <;> decide
    exact modeAmong_of_optional hmode keyword hc
  | default no_keyword => exact modeAmong_of_absent no_keyword hc

theorem typeExpr_of_level {type : TypeExpr} (hc : c.Level d) {e : Cursor}
    (h : typeExpr d = .ok type e) : ∃ d, typeExpr c = .ok type d ∧ d.Level (.ofTokens e.rest) := by
  have hboth := placeless_typeExpr.run hc
  rw [h] at hboth
  generalize htype : typeExpr c = o at hboth
  cases hboth with
  | ok result place =>
    cases result
    exact ⟨_, rfl, place.ordered, place.rest_eq⟩

theorem typeExpr_fails_of_level (hc : c.Level d) {e : Cursor}
    (h : typeExpr d = .error (.rejected error) e) :
    ∃ d, typeExpr c = .error (.rejected error) d := by
  have hboth := placeless_typeExpr.run hc
  rw [h] at hboth
  generalize htype : typeExpr c = o at hboth
  cases hboth with
  | rejected same =>
    cases same
    exact ⟨_, rfl⟩

theorem argumentType_of_read {type : Option TypeExpr} (h : TypeRead ts type rest)
    (hc : c.Level (.ofTokens ts)) :
    ∃ d, argumentType c = .ok type d ∧ d.Level (.ofTokens rest) := by
  cases h with
  | typed colon reads =>
    obtain ⟨d, htake, hd⟩ := colon.run hc
    obtain ⟨e, htype, he⟩ := typeExpr_of_level hd reads
    exact ⟨e, (bind_of_ok htake).trans (bind_of_ok htype), he⟩
  | untyped no_colon =>
    obtain ⟨d, htake, hd⟩ := no_colon.run hc
    exact ⟨d, bind_of_ok htake, hd⟩

theorem argumentOf_fragment (f : Fragment) (hc : c.Level (.ofTokens ts)) :
    ∃ d, argumentOf f.mode f.name f.type c = .ok f.argument? d ∧ d.Level (.ofTokens ts) := by
  obtain ⟨mode, name, type⟩ := f
  cases name with
  | none => exact ⟨_, rfl, hc.ordered, hc.rest_eq⟩
  | some name => exact ⟨c, rfl, hc⟩

theorem argument_of_read (h : Fragment.Read ts f rest) (hc : c.Level (.ofTokens ts)) :
    ∃ d, argument c = .ok f.argument? d ∧ d.Level (.ofTokens rest) := by
  obtain ⟨mode, name, type⟩ := h
  obtain ⟨c₁, hmode, h₁⟩ := modeAmong_of_read mode hc
  obtain ⟨c₂, hname, h₂⟩ := name.run h₁
  obtain ⟨c₃, htype, h₃⟩ := argumentType_of_read type h₂
  obtain ⟨c₄, hargument, h₄⟩ := argumentOf_fragment f h₃
  refine ⟨c₄, ?_, h₄⟩
  rw [argument, bind_of_ok hmode, bind_of_ok hname, bind_of_ok htype, hargument]

theorem argument_of_fails (h : Fragment.Fails ts error) (hc : c.Level (.ofTokens ts)) :
    ∃ d, argument c = .error (.rejected error) d := by
  obtain ⟨mode, name, colon, fails⟩ := h
  obtain ⟨c₁, hmode, h₁⟩ := modeAmong_of_read mode hc
  obtain ⟨c₂, hname, h₂⟩ := name.run h₁
  obtain ⟨c₃, hcolon, h₃⟩ := colon.run h₂
  obtain ⟨c₄, htype⟩ := typeExpr_fails_of_level h₃ fails
  have hfails : argumentType c₂ = .error (.rejected error) c₄ :=
    (bind_of_ok hcolon).trans (bind_of_error htype)
  refine ⟨c₄, ?_⟩
  rw [argument, bind_of_ok hmode, bind_of_ok hname, bind_of_error hfails]

theorem reject_of_blames {α : Type} (h : error.Blames ts) (hc : c.Level (.ofTokens ts)) :
    (reject : Rule α) c = .error (.rejected error) c := by
  have hrest : c.rest = ts := hc.rest_eq
  rw [reject, Cursor.syntaxError, Cursor.nextSignificant, hrest]
  cases h with
  | token first readable => simp only [first, SyntaxError.ofToken, readable]; rfl
  | endOfInput nothing => simp only [nothing]

theorem argumentRound_last (fragment : Fragment.Read ts f left)
    (closed : Optional closeParen left (some t) rest) (hc : c.Level (.ofTokens ts)) :
    ∃ d, argumentRound found c = .ok (.done (f.argument?.toList ++ found).reverse) d ∧
      d.Level (.ofTokens rest) := by
  obtain ⟨c₁, hread, h₁⟩ := argument_of_read fragment hc
  have hnone : Optional comma left none left :=
    closed.absent_of_refuses (Pattern.refuses_other closed.accepts (by decide))
  obtain ⟨c₂, hcomma, h₂⟩ := hnone.run h₁
  obtain ⟨c₃, hclose, h₃⟩ := closed.run h₂
  refine ⟨c₃, ?_, h₃⟩
  rw [argumentRound, bind_of_ok hread, bind_of_ok hcomma]
  exact bind_of_ok hclose

theorem argumentRound_more {next : List Token} (fragment : Fragment.Read ts f left)
    (separator : Optional comma left (some t) next) (goes_on : Optional closeParen next none next)
    (hc : c.Level (.ofTokens ts)) :
    ∃ d, argumentRound found c = .ok (.again (f.argument?.toList ++ found)) d ∧
      d.Level (.ofTokens next) := by
  obtain ⟨c₁, hread, h₁⟩ := argument_of_read fragment hc
  obtain ⟨c₂, hcomma, h₂⟩ := separator.run h₁
  refine ⟨c₂, ?_, h₂⟩
  rw [argumentRound, bind_of_ok hread, bind_of_ok hcomma]
  exact bind_of_ok (goes_on.peek h₂)

theorem argumentRound_closed {next : List Token} {u : Token} {text : String}
    (fragment : Fragment.Read ts f left) (separator : Optional comma left (some t) next)
    (closed : Optional closeParen next (some u) rest) (readable : u.text = .ok text)
    (hc : c.Level (.ofTokens ts)) :
    ∃ d, argumentRound found c =
      .error (.rejected (.unexpected u.position u.kind text)) d := by
  obtain ⟨c₁, hread, h₁⟩ := argument_of_read fragment hc
  obtain ⟨c₂, hcomma, h₂⟩ := separator.run h₁
  refine ⟨c₂, ?_⟩
  rw [argumentRound, bind_of_ok hread, bind_of_ok hcomma]
  exact (bind_of_ok (closed.peek h₂)).trans (reject_of_blames (.token closed.find?_eq readable) h₂)

theorem argumentRound_stray (fragment : Fragment.Read ts f left)
    (no_comma : Optional comma left none left) (not_closed : Optional closeParen left none left)
    (blames : error.Blames left) (hc : c.Level (.ofTokens ts)) :
    ∃ d, argumentRound found c = .error (.rejected error) d := by
  obtain ⟨c₁, hread, h₁⟩ := argument_of_read fragment hc
  obtain ⟨c₂, hcomma, h₂⟩ := no_comma.run h₁
  obtain ⟨c₃, hclose, h₃⟩ := not_closed.run h₂
  refine ⟨c₃, ?_⟩
  rw [argumentRound, bind_of_ok hread, bind_of_ok hcomma]
  exact (bind_of_ok hclose).trans (reject_of_blames blames h₃)

theorem argumentLoop_of_read (h : ListRead ts fs rest) (hc : c.Level (.ofTokens ts))
    (found : List Argument) :
    ∃ d, loop argumentRound advancing_argumentRound found c =
        .ok (found.reverse ++ fs.filterMap Fragment.argument?) d ∧ d.Level (.ofTokens rest) := by
  induction h generalizing c found with
  | @last ts left rest f t fragment closed =>
    obtain ⟨d, hround, hd⟩ := argumentRound_last fragment closed hc
    refine ⟨d, ?_, hd⟩
    rw [loop_of_done hround, List.reverse_append]
    cases hargument : f.argument? with
    | none => rw [List.filterMap_cons_none hargument]; rfl
    | some a => rw [List.filterMap_cons_some hargument]; rfl
  | @more ts left next rest f fs t fragment separator goes_on _ ih =>
    obtain ⟨d, hround, hd⟩ := argumentRound_more fragment separator goes_on hc
    obtain ⟨e, hloop, he⟩ := ih hd (f.argument?.toList ++ found)
    refine ⟨e, ?_, he⟩
    rw [loop_of_again hround, hloop, List.reverse_append, List.append_assoc]
    cases hargument : f.argument? with
    | none => rw [List.filterMap_cons_none hargument]; rfl
    | some a => rw [List.filterMap_cons_some hargument]; rfl

theorem argumentLoop_of_fails (h : ListFails ts error) (hc : c.Level (.ofTokens ts))
    (found : List Argument) :
    ∃ d, loop argumentRound advancing_argumentRound found c = .error (.rejected error) d := by
  induction h generalizing c found with
  | type fails =>
    obtain ⟨d, hargument⟩ := argument_of_fails fails hc
    exact ⟨d, loop_of_error (bind_of_error hargument)⟩
  | closed fragment separator closed readable =>
    obtain ⟨d, hround⟩ := argumentRound_closed fragment separator closed readable hc
    exact ⟨d, loop_of_error hround⟩
  | stray fragment no_comma not_closed blames =>
    obtain ⟨d, hround⟩ := argumentRound_stray fragment no_comma not_closed blames hc
    exact ⟨d, loop_of_error hround⟩
  | later fragment separator goes_on _ ih =>
    obtain ⟨d, hround, hd⟩ := argumentRound_more fragment separator goes_on hc
    obtain ⟨e, hloop⟩ := ih hd _
    exact ⟨e, (loop_of_again hround).trans hloop⟩

end Rule

section Readable

variable {ts rest : List Token} {f : Fragment} {m : Mode} {type : Option TypeExpr}

theorem ModeRead.suffix (h : ModeRead ts m rest) : rest <:+ ts := by
  cases h with
  | keyword keyword => exact keyword.suffix
  | default => exact List.suffix_rfl

theorem TypeRead.suffix (h : TypeRead ts type rest) : rest <:+ ts := by
  cases h with
  | typed colon reads =>
    obtain ⟨passed, hpassed, _⟩ := Rule.forward_typeExpr reads
    exact List.IsSuffix.trans ⟨passed, hpassed.symm⟩ colon.suffix
  | untyped => exact List.suffix_rfl

theorem Fragment.Read.suffix (h : Fragment.Read ts f rest) : rest <:+ ts := by
  obtain ⟨mode, name, type⟩ := h
  exact (type.suffix.trans name.suffix).trans mode.suffix

variable (hts : ∀ t ∈ ts, t.span.start ≤ t.span.stop)

include hts

theorem exists_modeRead : ∃ m rest, ModeRead ts m rest := by
  by_cases hkeyword : ∃ (m : Mode) (t : Token) (rest : List Token),
      Optional (.keyword m.keyword) ts (some t) rest
  · obtain ⟨m, t, rest, hnext⟩ := hkeyword
    exact ⟨m, rest, .keyword hnext⟩
  · refine ⟨.input, ts, .default fun m => ?_⟩
    rcases Optional.cases_of_readable (.keyword m.keyword) hts with hnone | ⟨t, rest, hnext⟩
    · exact hnone
    · exact absurd ⟨m, t, rest, hnext⟩ hkeyword

theorem exists_optional (p : Pattern) : ∃ found rest, Optional p ts found rest := by
  rcases Optional.cases_of_readable p hts with hnone | ⟨t, rest, hnext⟩
  · exact ⟨none, ts, hnone⟩
  · exact ⟨some t, rest, hnext⟩

theorem Fragment.exists_read_or_fails :
    (∃ f rest, Fragment.Read ts f rest) ∨ ∃ error, Fragment.Fails ts error := by
  obtain ⟨m, named, hmode⟩ := exists_modeRead hts
  have hnamed : ∀ t ∈ named, t.span.start ≤ t.span.stop := fun t ht => hts t (hmode.suffix.mem ht)
  obtain ⟨name, typed, hname⟩ := exists_optional hnamed Rule.anyIdentifier
  have htyped : ∀ t ∈ typed, t.span.start ≤ t.span.stop :=
    fun t ht => hnamed t (hname.suffix.mem ht)
  rcases Optional.cases_of_readable Rule.colon htyped with hnone | ⟨t, left, hcolon⟩
  · exact .inl ⟨⟨m, name, none⟩, typed, .parts hmode hname (.untyped hnone)⟩
  · have htrail := Rule.trails_typeExpr (.ofTokens left) fun t ht => htyped t (hcolon.suffix.mem ht)
    generalize htype : Rule.typeExpr (.ofTokens left) = o at htrail
    cases htrail with
    | @ok type d =>
      exact .inl ⟨⟨m, name, some type⟩, d.rest, .parts hmode hname (.typed hcolon htype)⟩
    | rejected => exact .inr ⟨_, .type hmode hname hcolon htype⟩

/-- Every list of tokens begins with a list of arguments or fails to. -/
theorem exists_listRead_or_listFails :
    (∃ fs rest, ListRead ts fs rest) ∨ ∃ error, ListFails ts error := by
  generalize hlength : ts.length = n
  induction n using Nat.strongRecOn generalizing ts with
  | ind n ih =>
    rcases Fragment.exists_read_or_fails hts with ⟨f, left, hfragment⟩ | ⟨error, hfails⟩
    · have hleft : ∀ t ∈ left, t.span.start ≤ t.span.stop :=
        fun t ht => hts t (hfragment.suffix.mem ht)
      rcases Optional.cases_of_readable Rule.comma hleft with hcomma | ⟨t, next, hcomma⟩
      · rcases Optional.cases_of_readable Rule.closeParen hleft with hopen | ⟨t, rest, hclosed⟩
        · have hordered : (Cursor.ofTokens left).Ordered := hleft
          obtain ⟨error, _, hblames⟩ := hordered.exists_syntaxError
          exact .inr ⟨error, .stray hfragment hcomma hopen hblames⟩
        · exact .inl ⟨[f], rest, .last hfragment hclosed⟩
      · have hnext : ∀ t ∈ next, t.span.start ≤ t.span.stop :=
          fun t ht => hleft t (hcomma.suffix.mem ht)
        rcases Optional.cases_of_readable Rule.closeParen hnext with hopen | ⟨u, rest, hclosed⟩
        · have hlt : next.length < n :=
            hlength ▸ Nat.lt_of_lt_of_le hcomma.length_lt hfragment.suffix.length_le
          rcases ih next.length hlt hnext rfl with ⟨fs, rest, hlist⟩ | ⟨error, hlist⟩
          · exact .inl ⟨f :: fs, rest, .more hfragment hcomma hopen hlist⟩
          · exact .inr ⟨error, .later hfragment hcomma hopen hlist⟩
        · obtain ⟨text, htext⟩ := Token.exists_text
            (hnext u (List.mem_of_find?_eq_some hclosed.find?_eq))
          exact .inr ⟨_, .closed hfragment hcomma hclosed htext⟩
    · exact .inr ⟨error, .type hfails⟩

end Readable

namespace Rule

theorem arguments_of_read {c : Cursor} {fs : List Fragment} {rest : List Token} (hc : c.Ordered)
    (h : ListRead c.rest fs rest) :
    ∃ d, arguments c = .ok (fs.filterMap Fragment.argument?) d ∧ d.rest = rest := by
  have hstart : (c.note (.readingArguments c.pos)).Level (.ofTokens c.rest) := ⟨hc, rfl⟩
  obtain ⟨d, hloop, hd⟩ := argumentLoop_of_read h hstart []
  refine ⟨d, ?_, hd.rest_eq⟩
  rw [arguments, bind_of_ok (note_eq _), rewinding_of_ok hloop]
  rfl

theorem arguments_of_fails {c : Cursor} {error : SyntaxError} (hc : c.Ordered)
    (h : ListFails c.rest error) : ∃ d, arguments c = .error (.rejected error) d := by
  have hstart : (c.note (.readingArguments c.pos)).Level (.ofTokens c.rest) := ⟨hc, rfl⟩
  obtain ⟨d, hloop⟩ := argumentLoop_of_fails h hstart []
  rw [arguments, bind_of_ok (note_eq _), rewinding_of_error hloop]
  exact ⟨_, rfl⟩

/-- Arguments are read where the tokens ahead are fragments with commas between them, closed by a
parenthesis: the fragments with a name are the arguments, and the cursor comes to stand right after
the parenthesis. Elsewhere the reading fails with the error of a type, or about the parenthesis
right after a comma, or about what comes after a fragment, and the cursor goes back. -/
theorem arguments_read_fragments (c : Cursor) (h : c.Ordered) :
    (∀ fs rest, ListRead c.rest fs rest →
      ∃ d, arguments c = .ok (fs.filterMap Fragment.argument?) d ∧ d.rest = rest) ∧
    (∀ args d, arguments c = .ok args d → ∃ fs passed, ListRead c.rest fs d.rest ∧
      args = fs.filterMap Fragment.argument? ∧ c.rest = passed ++ d.rest ∧
      d.pos = c.pos + passed.length) ∧
    (∀ error, ListFails c.rest error → ∃ d, arguments c = .error (.rejected error) d) ∧
    ∀ failure d, arguments c = .error failure d → ∃ error, failure = .rejected error ∧
      ListFails c.rest error ∧ d.pos = c.pos ∧ d.rest = c.rest := by
  refine ⟨fun fs rest hlist => arguments_of_read h hlist, ?_,
    fun error hlist => arguments_of_fails h hlist, ?_⟩
  · intro args d hread
    rcases exists_listRead_or_listFails h with ⟨fs, rest, hlist⟩ | ⟨error, hlist⟩
    · obtain ⟨e, hok, rfl⟩ := arguments_of_read h hlist
      rw [hread] at hok
      cases hok
      obtain ⟨passed, hpassed, hpos, _⟩ := forward_arguments hread
      exact ⟨fs, passed, hlist, rfl, hpassed, hpos⟩
    · obtain ⟨e, hfails⟩ := arguments_of_fails h hlist
      cases hread.symm.trans hfails
  · intro failure d hfails
    rcases exists_listRead_or_listFails h with ⟨fs, rest, hlist⟩ | ⟨error, hlist⟩
    · obtain ⟨e, hok, _⟩ := arguments_of_read h hlist
      cases hok.symm.trans hfails
    · obtain ⟨e, herror⟩ := arguments_of_fails h hlist
      rw [hfails] at herror
      cases herror
      obtain ⟨hpos, hrest⟩ := restoring_arguments hfails
      exact ⟨error, rfl, hlist, hpos, hrest⟩

/-- A list with the keyword `out` for a name, and a fragment without a name; then a list that closes
after a comma. -/
def listedTokens : List Token :=
  let source := Buffer.ofBytes 0 (bytesOf "in out:A,copy,y)z,)")
  [⟨.identifier, ⟨0, 2⟩, ⟨1, 1⟩, source, by decide⟩,
    ⟨.whitespace, ⟨2, 3⟩, ⟨1, 3⟩, source, by decide⟩,
    ⟨.identifier, ⟨3, 6⟩, ⟨1, 4⟩, source, by decide⟩,
    ⟨.scopeOperator, ⟨6, 7⟩, ⟨1, 7⟩, source, by decide⟩,
    ⟨.identifier, ⟨7, 8⟩, ⟨1, 8⟩, source, by decide⟩,
    ⟨.scopeOperator, ⟨8, 9⟩, ⟨1, 9⟩, source, by decide⟩,
    ⟨.identifier, ⟨9, 13⟩, ⟨1, 10⟩, source, by decide⟩,
    ⟨.scopeOperator, ⟨13, 14⟩, ⟨1, 14⟩, source, by decide⟩,
    ⟨.identifier, ⟨14, 15⟩, ⟨1, 15⟩, source, by decide⟩,
    ⟨.scopeOperator, ⟨15, 16⟩, ⟨1, 16⟩, source, by decide⟩,
    ⟨.identifier, ⟨16, 17⟩, ⟨1, 17⟩, source, by decide⟩,
    ⟨.scopeOperator, ⟨17, 18⟩, ⟨1, 18⟩, source, by decide⟩,
    ⟨.scopeOperator, ⟨18, 19⟩, ⟨1, 19⟩, source, by decide⟩]

theorem arguments_read_listed_fragments :
    (∀ t ∈ listedTokens, t.span.start ≤ t.span.stop) ∧
    (∃ args d fs, arguments ⟨0, listedTokens, []⟩ = .ok args d ∧ d.pos = 10 ∧
      args.map (fun a => (a.mode, a.name.span, a.type.isSome)) =
        [(.input, ⟨3, 6⟩, true), (.input, ⟨14, 15⟩, false)] ∧
      ListRead listedTokens fs d.rest ∧ args = fs.filterMap Fragment.argument?) ∧
    ∃ error d, arguments ⟨10, listedTokens.drop 10, []⟩ = .error (.rejected error) d ∧
      ListFails (listedTokens.drop 10) error := by
  have hordered : ∀ t ∈ listedTokens, t.span.start ≤ t.span.stop := by decide
  refine ⟨hordered, ?_, ?_⟩
  · obtain ⟨_, hread, _⟩ := arguments_read_fragments ⟨0, listedTokens, []⟩ hordered
    have hrun : succeedsAt arguments ⟨0, listedTokens, []⟩ (fun args d => d.pos == 10 &&
        args.map (fun a => (a.mode, a.name.span, a.type.isSome)) ==
          [(.input, ⟨3, 6⟩, true), (.input, ⟨14, 15⟩, false)]) = true := by decide +kernel
    obtain ⟨args, d, harguments, htest⟩ := exists_of_succeedsAt hrun
    obtain ⟨hpos, hnexts⟩ := Bool.and_eq_true_iff.1 htest
    obtain ⟨fs, _, hlist, hargs, _⟩ := hread args d harguments
    exact ⟨args, d, fs, harguments, beq_iff_eq.1 hpos, beq_iff_eq.1 hnexts, hlist, hargs⟩
  · have hleft : ∀ t ∈ listedTokens.drop 10, t.span.start ≤ t.span.stop :=
      fun t ht => hordered t (List.mem_of_mem_drop ht)
    obtain ⟨_, _, _, hfails⟩ := arguments_read_fragments ⟨10, listedTokens.drop 10, []⟩ hleft
    have hrun : succeedsAt arguments ⟨10, listedTokens.drop 10, []⟩ (fun _ _ => true) = false := by
      decide +kernel
    cases harguments : arguments ⟨10, listedTokens.drop 10, []⟩ with
    | ok args d =>
      rw [succeedsAt, harguments] at hrun
      cases hrun
    | error failure d =>
      obtain ⟨error, rfl, hlist, _⟩ := hfails failure d harguments
      exact ⟨error, d, rfl, hlist⟩

end Rule

end FrontEnd
