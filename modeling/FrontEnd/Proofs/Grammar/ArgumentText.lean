import FrontEnd.Proofs.Grammar.Blank
import FrontEnd.Proofs.Grammar.TypeText
import FrontEnd.Proofs.Tree.WrittenArgument

namespace FrontEnd

open Lexeme (blank mark word contents Chained)

theorem Mode.keyword_inj {m n : Mode} (h : m.keyword = n.keyword) : m = n := by
  have hfound := ofKeyword?_keyword m
  rw [h, ofKeyword?_keyword] at hfound
  exact (Option.some.inj hfound).symm

theorem Mode.keyword_ne_of_none {text : String} (h : ofKeyword? text = none) (m : Mode) :
    text ≠ m.keyword := by
  rintro rfl
  rw [ofKeyword?_keyword] at h
  cases h

/-- Another scope mark than a colon comes next, so that an argument ends. -/
def EndsArgument (xs : List (Kind × List UInt8)) : Prop :=
  ∀ x ∈ xs.head?, x.1 = .scopeOperator ∧ x.2 ≠ bytesOf ":"

namespace EndsArgument

variable {xs : List (Kind × List UInt8)}

theorem refuses_colon (h : EndsArgument xs) :
    ∀ x ∈ xs.head?, Spacing.skipped.passes x = false ∧ Rule.colon.admits x = false := by
  intro x hx
  obtain ⟨hkind, hbytes⟩ := h x hx
  have hblank : x.1 ≠ .whitespace := by
    rw [hkind]
    decide
  refine ⟨beq_eq_false_iff_ne.2 hblank, Bool.eq_false_iff.2 fun hadmits => ?_⟩
  exact hbytes (beq_iff_eq.1 (Bool.and_eq_true_iff.1 hadmits).2)

theorem endsName (h : EndsArgument xs) : EndsName xs := by
  intro x hx
  refine ⟨?_, (h.refuses_colon x hx).2⟩
  rw [(h x hx).1]
  decide

end EndsArgument

namespace Rule

variable {c : Cursor} {modes : List Mode} {mode : Mode} {a : Argument} {o : Option TypeExpr}
  {ls : List Lexeme} {xs ys : List (Kind × List UInt8)}

theorem modeAmong_of_keyword (hmode : mode ∈ modes)
    (h : Holding c.rest (ys ++ (.identifier, bytesOf mode.keyword) :: xs)) (hys : Indented ys) :
    ∃ d, modeAmong modes c = .ok mode d ∧ Holding d.rest xs := by
  induction modes with
  | nil => cases hmode
  | cons m ms ih =>
    by_cases hfirst : mode = m
    · have hadmits :
          (Pattern.keyword m.keyword).admits (.identifier, bytesOf mode.keyword) = true :=
        Pattern.admits_keyword_iff.2 (congrArg Mode.keyword hfirst)
      obtain ⟨t, d, htake, _, hrest⟩ := take?_of_ahead h hys.passes rfl hadmits
      cases hfirst
      exact ⟨d, bind_of_ok htake, hrest⟩
    · have hrefuses :
          (Pattern.keyword m.keyword).admits (.identifier, bytesOf mode.keyword) = false :=
        Bool.eq_false_iff.2 fun hadmits =>
          hfirst (Mode.keyword_inj (Pattern.admits_keyword_iff.1 hadmits))
      have hnone := take?_of_refused h hys.passes rfl hrefuses
      obtain ⟨d, hmore, hrest⟩ := ih ((List.mem_cons.1 hmode).resolve_left hfirst)
      exact ⟨d, (bind_of_ok hnone).trans hmore, hrest⟩

theorem modeAmong_of_no_keyword {x : Kind × List UInt8} (h : Holding c.rest (ys ++ x :: xs))
    (hys : Indented ys) (hblank : Spacing.skipped.passes x = false)
    (hx : ∀ m : Mode, (Pattern.keyword m.keyword).admits x = false) :
    modeAmong modes c = .ok .default c := by
  induction modes with
  | nil => rfl
  | cons m ms ih => exact (bind_of_ok (take?_of_refused h hys.passes hblank (hx m))).trans ih

theorem modeAmong_of_written {spelled : Bool} {name : String}
    (h : Holding c.rest (ys ++ (contents (mode.lexemes spelled) ++
      (.identifier, bytesOf name) :: xs))) (hys : Indented ys)
    (hplain : spelled = false → mode = .input ∧ Mode.ofKeyword? name = none) :
    ∃ d more, modeAmong Mode.all c = .ok mode d ∧ Indented more ∧
      Holding d.rest (more ++ (.identifier, bytesOf name) :: xs) := by
  cases spelled with
  | false =>
    obtain ⟨rfl, hname⟩ := hplain rfl
    refine ⟨c, ys, modeAmong_of_no_keyword h hys rfl ?_, hys, h⟩
    intro m
    apply Bool.eq_false_iff.2
    intro hadmits
    exact Mode.keyword_ne_of_none hname m (Pattern.admits_keyword_iff.1 hadmits)
  | true =>
    have hmode : mode ∈ Mode.all := by cases mode <;> decide
    have hkeyword : (word mode.keyword).bytes = bytesOf mode.keyword :=
      Lexeme.bytes_word mode.isIdentifier_keyword
    have hahead : Holding c.rest (ys ++ (.identifier, (word mode.keyword).bytes) ::
      (.whitespace, [0x20]) :: (.identifier, bytesOf name) :: xs) := h
    rw [hkeyword] at hahead
    obtain ⟨d, hread, hrest⟩ := modeAmong_of_keyword hmode hahead hys
    exact ⟨d, [(.whitespace, [0x20])], hread, indented_blank, hrest⟩

theorem argumentType_of_written (ho : Argument.TypeWritten o ls)
    (h : Holding c.rest (contents ls ++ xs)) (hxs : EndsArgument xs) :
    ∃ p d, argumentType c = .ok p d ∧ Argument.sameTypes o p = .ok true ∧ Holding d.rest xs := by
  have hahead : Holding c.rest ([] ++ (contents ls ++ xs)) := h
  cases ho with
  | none =>
    have hnone := take?_of_not_ahead hahead indented_nil.passes hxs.refuses_colon
    exact ⟨none, c, bind_of_ok hnone, rfl, h⟩
  | @some t ls ht =>
    obtain ⟨_, d, hcolon, _, hrest⟩ :=
      take?_of_ahead (p := colon) hahead indented_nil.passes rfl rfl
    have htype : Holding d.rest ([(.whitespace, [0x20])] ++ (contents ls ++ xs)) := hrest
    obtain ⟨u, e, hread, hsame, _, hlast⟩ :=
      typeExpr_of_written ht htype indented_blank hxs.endsName
    refine ⟨some u, e, ?_, hsame, hlast⟩
    calc argumentType c = _ := bind_of_ok hcolon
      _ = _ := bind_of_ok hread
      _ = .ok (some u) e := rfl

theorem argument_of_written {x : Argument × Bool} (hx : Argument.Written x ls)
    (h : Holding c.rest (ys ++ (contents ls ++ xs))) (hys : Indented ys) (hxs : EndsArgument xs) :
    ∃ b d, argument c = .ok (some b) d ∧ x.1.Agree b ∧ Holding d.rest xs := by
  cases hx with
  | @mk a spelled name ls hname hid hplain htype =>
    have hword : (word name).bytes = bytesOf name := Lexeme.bytes_word hid
    have hahead : Holding c.rest (ys ++ (contents (a.mode.lexemes spelled) ++
        (.identifier, (word name).bytes) :: (contents ls ++ xs))) := by
      rw [Lexeme.contents_append, List.append_assoc] at h
      exact h
    rw [hword] at hahead
    obtain ⟨d, more, hmode, hmore, hrest⟩ := modeAmong_of_written hahead hys hplain
    obtain ⟨t, e, hident, hcontent, hrest⟩ :=
      take?_of_ahead (p := anyIdentifier) hrest hmore.passes rfl rfl
    obtain ⟨p, f, htyped, hsame, hlast⟩ := argumentType_of_written htype hrest hxs
    have hagree : a.Agree ⟨a.mode, t, p⟩ :=
      ⟨rfl, ⟨name, hname, Token.text_of_content hcontent⟩, hsame⟩
    refine ⟨⟨a.mode, t, p⟩, f, ?_, hagree, hlast⟩
    calc argument c = _ := bind_of_ok hmode
      _ = _ := bind_of_ok hident
      _ = _ := bind_of_ok htyped
      _ = .ok (some ⟨a.mode, t, p⟩) f := rfl

theorem argumentRound_of_comma {x : Argument × Bool} (hx : Argument.Written x ls)
    (h : Holding c.rest (ys ++ (contents ls ++
      (.scopeOperator, [0x2C]) :: (.whitespace, [0x20]) :: xs)))
    (hys : Indented ys)
    (hxs : ∀ x ∈ xs.head?, Spacing.skipped.passes x = false ∧ closeParen.admits x = false)
    (found : List Argument) :
    ∃ b d, argumentRound found c = .ok (.again (b :: found)) d ∧ x.1.Agree b ∧
      Holding d.rest ((.whitespace, [0x20]) :: xs) := by
  have hends : EndsArgument ((.scopeOperator, [0x2C]) :: (.whitespace, [0x20]) :: xs) := by
    rintro _ ⟨⟩
    exact ⟨rfl, by decide⟩
  obtain ⟨b, d, hread, hagree, hrest⟩ := argument_of_written hx h hys hends
  have hahead : Holding d.rest ([] ++ (.scopeOperator, [0x2C]) :: (.whitespace, [0x20]) :: xs) :=
    hrest
  obtain ⟨_, e, hcomma, _, hlast⟩ := take?_of_ahead (p := comma) hahead indented_nil.passes rfl rfl
  have hopen : ask (·.peek [closeParen]) e = .ok false e := by
    have hblank : Holding e.rest ([(.whitespace, [0x20])] ++ xs) := hlast
    rw [ask, Cursor.peek, Pattern.matchAll_of_not_admits hblank indented_blank.passes hxs]
    rfl
  refine ⟨b, e, ?_, hagree, hlast⟩
  calc argumentRound found c = _ := bind_of_ok hread
    _ = _ := bind_of_ok hcomma
    _ = _ := bind_of_ok hopen
    _ = .ok (.again (b :: found)) e := rfl

theorem argumentRound_of_read {d : Cursor} {read : Option Argument} (hread : argument c = .ok read d)
    (h : Holding d.rest ((.scopeOperator, [0x29]) :: xs)) (found : List Argument) :
    ∃ e, argumentRound found c = .ok (.done (read.toList ++ found).reverse) e ∧
      Holding e.rest xs := by
  have hahead : Holding d.rest ([] ++ (.scopeOperator, [0x29]) :: xs) := h
  have hcomma : take? comma .skipped d = .ok none d :=
    take?_of_refused hahead indented_nil.passes rfl rfl
  obtain ⟨_, e, hclose, _, hrest⟩ :=
    take?_of_ahead (p := closeParen) hahead indented_nil.passes rfl rfl
  refine ⟨e, ?_, hrest⟩
  calc argumentRound found c = _ := bind_of_ok hread
    _ = _ := bind_of_ok hcomma
    _ = _ := bind_of_ok hclose
    _ = .ok (.done (read.toList ++ found).reverse) e := rfl

theorem argumentRound_of_close {x : Argument × Bool} (hx : Argument.Written x ls)
    (h : Holding c.rest (ys ++ (contents ls ++ (.scopeOperator, [0x29]) :: xs))) (hys : Indented ys)
    (found : List Argument) :
    ∃ b d, argumentRound found c = .ok (.done (b :: found).reverse) d ∧ x.1.Agree b ∧
      Holding d.rest xs := by
  have hends : EndsArgument ((.scopeOperator, [0x29]) :: xs) := by
    rintro _ ⟨⟩
    exact ⟨rfl, by decide⟩
  obtain ⟨b, d, hread, hagree, hrest⟩ := argument_of_written hx h hys hends
  obtain ⟨e, hround, hlast⟩ := argumentRound_of_read hread hrest found
  exact ⟨b, e, hround, hagree, hlast⟩

theorem argumentRound_of_nothing (h : Holding c.rest ((.scopeOperator, [0x29]) :: xs)) :
    ∃ d, argumentRound [] c = .ok (.done []) d ∧ Holding d.rest xs := by
  have hahead : Holding c.rest ([] ++ (.scopeOperator, [0x29]) :: xs) := h
  have hmode : modeAmong Mode.all c = .ok .default c :=
    modeAmong_of_no_keyword hahead indented_nil rfl fun _ => rfl
  have hident : take? anyIdentifier .skipped c = .ok none c :=
    take?_of_refused hahead indented_nil.passes rfl rfl
  have hcolon : take? colon .skipped c = .ok none c :=
    take?_of_refused hahead indented_nil.passes rfl rfl
  let noted := c.note .unnamedDropped
  have hread : argument c = .ok none noted :=
    calc argument c = _ := bind_of_ok hmode
      _ = _ := bind_of_ok hident
      _ = _ := bind_of_ok (bind_of_ok hcolon)
      _ = .ok none noted := rfl
  exact argumentRound_of_read hread h []

variable {as : List (Argument × Bool)} {lss : List (List Lexeme)}

theorem exists_head_of_list {x : Argument × Bool} (hx : Argument.Written x ls)
    (lss : List (List Lexeme)) :
    ∃ bytes rest, contents (Argument.listLexemes (ls :: lss)) = (.identifier, bytes) :: rest := by
  cases hx with
  | @mk a spelled name ls _ _ _ _ => cases lss <;> cases spelled <;> exact ⟨_, _, rfl⟩

/-- A list of arguments is read as it is written, an argument each round. -/
theorem argumentLoop_of_written {x : Argument × Bool} (hx : Argument.Written x ls)
    (has : List.Forall₂ Argument.Written as lss)
    (h : Holding c.rest (ys ++ (contents (Argument.listLexemes (ls :: lss)) ++ xs)))
    (hys : Indented ys) (found : List Argument) :
    ∃ bs d, loop argumentRound advancing_argumentRound found c = .ok (found.reverse ++ bs) d ∧
      List.Forall₂ Argument.Agree ((x :: as).map Prod.fst) bs ∧ Holding d.rest xs := by
  induction has generalizing x ls c ys found with
  | nil =>
    rw [Argument.listLexemes_singleton, Lexeme.contents_append, List.append_assoc] at h
    obtain ⟨b, d, hround, hagree, hrest⟩ := argumentRound_of_close hx h hys found
    rw [List.reverse_cons] at hround
    exact ⟨[b], d, loop_of_done hround, .cons hagree .nil, hrest⟩
  | @cons y ms as lss hy _ ih =>
    rw [Argument.listLexemes_cons_cons, Lexeme.contents_append, List.append_assoc] at h
    have hopen : ∀ z ∈ (contents (Argument.listLexemes (ms :: lss)) ++ xs).head?,
        Spacing.skipped.passes z = false ∧ closeParen.admits z = false := by
      obtain ⟨bytes, rest, hhead⟩ := exists_head_of_list hy lss
      rw [hhead]
      rintro _ ⟨⟩
      exact ⟨rfl, rfl⟩
    obtain ⟨b, d, hround, hagree, hrest⟩ := argumentRound_of_comma hx h hys hopen found
    obtain ⟨bs, e, hloop, hmore, hlast⟩ := ih hy hrest indented_blank (b :: found)
    rw [List.reverse_cons, List.append_assoc, List.singleton_append] at hloop
    exact ⟨b :: bs, e, (loop_of_again hround).trans hloop, .cons hagree hmore, hlast⟩

theorem arguments_of_written (has : List.Forall₂ Argument.Written as lss)
    (h : Holding c.rest (contents (Argument.listLexemes lss) ++ xs)) :
    ∃ bs d, arguments c = .ok bs d ∧ List.Forall₂ Argument.Agree (as.map Prod.fst) bs ∧
      Holding d.rest xs := by
  let noted := c.note (.readingArguments c.pos)
  have hloop : ∃ bs d, loop argumentRound advancing_argumentRound [] noted = .ok bs d ∧
      List.Forall₂ Argument.Agree (as.map Prod.fst) bs ∧ Holding d.rest xs := by
    cases has with
    | nil =>
      obtain ⟨d, hround, hrest⟩ := argumentRound_of_nothing (c := noted) h
      exact ⟨[], d, loop_of_done hround, .nil, hrest⟩
    | cons hx hmore =>
      have hahead : Holding noted.rest ([] ++ _) := h
      exact argumentLoop_of_written hx hmore hahead indented_nil []
  obtain ⟨bs, d, hread, hagree, hrest⟩ := hloop
  have hread : rewinding (loop argumentRound advancing_argumentRound []) noted = .ok bs d :=
    rewinding_of_ok hread
  exact ⟨bs, d, (bind_of_ok (note_eq _)).trans hread, hagree, hrest⟩

theorem exists_token_of_chained {l : Lexeme} {kind : Kind} {after : List UInt8}
    {tokens : List Token} (h : Chained (ls ++ [l]) after) (hkind : l.kind = some kind)
    (hcovers : Lexeme.Covers ((ls ++ [l]).flatMap Lexeme.bytes ++ after) tokens) :
    ∃ before t rest, tokens = before ++ t :: rest ∧
      t.span = ⟨(ls.flatMap Lexeme.bytes).length, ((ls ++ [l]).flatMap Lexeme.bytes).length⟩ ∧
      rest.length = (contents (Lexeme.cut after)).length := by
  have hspans := hcovers.spans_eq
  rw [h.cut_append, List.append_assoc, List.singleton_append, Lexeme.spans_append,
    Lexeme.spans_cons_of_some hkind, Nat.zero_add] at hspans
  obtain ⟨before, left, rfl, _, hleft⟩ := List.map_eq_append_iff.1 hspans
  obtain ⟨t, rest, rfl, ht, hrest⟩ := List.map_eq_cons_iff.1 hleft
  refine ⟨before, t, rest, rfl, ?_, ?_⟩
  · rw [List.flatMap_append, List.flatMap_singleton, List.length_append]
    exact (Prod.mk.inj ht).2
  · have hlength := congrArg List.length hrest
    rwa [List.length_map, Lexeme.length_spans] at hlength

/-- Well-formed arguments are read back from the text that they are written as, whatever follows its
closing parenthesis, and reading ends right after that parenthesis. -/
theorem arguments_of_text (id : Nat) (as : List (Argument × Bool)) (more : List UInt8)
    (h : ∀ a ∈ as, a.1.WellFormed a.2) :
    ∃ text, Argument.textAll as = .ok text ∧
      ((bytesOf text ++ more).length ≤ Offset.bound - 2 →
        ∃ tokens bs d before close,
          (Buffer.ofBytes id (bytesOf text ++ more)).tokens = .ok tokens ∧
          arguments (.ofTokens tokens) = .ok bs d ∧
          List.Forall₂ Argument.Agree (as.map Prod.fst) bs ∧
          tokens = before ++ close :: d.rest ∧ d.pos = before.length + 1 ∧
          close.span = ⟨(bytesOf text).length - 1, (bytesOf text).length⟩) := by
  obtain ⟨lss, hwritten⟩ := Argument.exists_written h
  obtain ⟨text, htext, hbytes⟩ := Argument.textAll_eq hwritten
  refine ⟨text, htext, ?_⟩
  intro hlength
  have hchained : Chained (Argument.listLexemes lss) more := (Argument.chained_list hwritten).1
  rw [hbytes] at hlength ⊢
  obtain ⟨tokens, htokens, hcovers, hholding⟩ := exists_tokens_of_chained id hchained hlength
  obtain ⟨bs, d, hread, hagree, hrest⟩ :=
    arguments_of_written (c := .ofTokens tokens) hwritten hholding
  obtain ⟨before, close, rest, rfl, hspan, hlast⟩ :=
    exists_token_of_chained (l := mark 0x29) hchained rfl hcovers
  obtain ⟨passed, hpassed, hpos, _⟩ := forward_arguments hread
  have hsame : before ++ [close] ++ rest = passed ++ d.rest := by
    rw [List.append_assoc]
    exact hpassed
  obtain ⟨rfl, rfl⟩ := List.append_inj' hsame (hlast.trans hrest.length_eq.symm)
  refine ⟨_, bs, d, before, close, htokens, hread, hagree, rfl, ?_, ?_⟩
  · rw [hpos, List.length_append]
    exact Nat.zero_add _
  · rw [hspan, Argument.listLexemes, List.flatMap_append, List.length_append]
    rfl

theorem arguments_of_keyword_text :
    ∃ as : List (Argument × Bool), (∀ a ∈ as, a.1.WellFormed a.2) ∧
      Argument.textAll as = .ok "in in, const: const *const const, forward in)" ∧
      (bytesOf "in in, const: const *const const, forward in)" ++ bytesOf ": a").length ≤
        Offset.bound - 2 ∧
      ∃ tokens bs d before close,
        (Buffer.ofBytes 1 (bytesOf "in in, const: const *const const, forward in)" ++
          bytesOf ": a")).tokens = .ok tokens ∧
        arguments (.ofTokens tokens) = .ok bs d ∧
        List.Forall₂ Argument.Agree (as.map Prod.fst) bs ∧
        tokens = before ++ close :: d.rest ∧ d.pos = before.length + 1 ∧ close.span = ⟨44, 45⟩ := by
  let source : Buffer := .ofText 0 "const in"
  let word : Token := ⟨.identifier, ⟨0, 5⟩, ⟨1, 1⟩, source, by decide +kernel⟩
  let mode : Token := ⟨.identifier, ⟨6, 8⟩, ⟨1, 7⟩, source, by decide +kernel⟩
  have hword : word.text = .ok "const" := Fault.toOption_eq_some (by decide +kernel)
  have hmode : mode.text = .ok "in" := Fault.toOption_eq_some (by decide +kernel)
  have hname : QualifiedName.WellFormed ⟨[.ident word]⟩ := by
    refine ⟨⟨word, rfl⟩, fun s t hst => absurd hst.length_le (Nat.not_succ_le_self 1), ?_⟩
    intro t ht
    cases List.mem_singleton.1 ht
    exact ⟨_, hword, TypeExpr.isIdentifier_const⟩
  let type : TypeExpr := .pointer true (.named true ⟨[.ident word]⟩)
  have htype : type.WellFormed := .pointer (.named hname fun _ => rfl)
  let as : List (Argument × Bool) :=
    [(⟨.input, mode, none⟩, true), (⟨.input, word, some type⟩, false),
      (⟨.forward, mode, none⟩, true)]
  have hspelled (m : Mode) : Argument.WellFormed ⟨m, mode, none⟩ true :=
    ⟨⟨_, hmode, Mode.isIdentifier_keyword .input, fun hfalse => nomatch hfalse⟩,
      fun _ ht => nomatch ht⟩
  have hplain : Argument.WellFormed ⟨.input, word, some type⟩ false := by
    refine ⟨⟨_, hword, TypeExpr.isIdentifier_const, fun _ => ⟨rfl, by decide⟩⟩, ?_⟩
    rintro _ ⟨⟩
    exact htype
  have has : ∀ a ∈ as, a.1.WellFormed a.2 :=
    List.forall_mem_cons.2 ⟨hspelled .input, List.forall_mem_cons.2 ⟨hplain,
      List.forall_mem_singleton.2 (hspelled .forward)⟩⟩
  have hshown : Argument.textAll as = .ok "in in, const: const *const const, forward in)" :=
    Fault.toOption_eq_some (by decide +kernel)
  have hlength : (bytesOf "in in, const: const *const const, forward in)" ++ bytesOf ": a").length ≤
      Offset.bound - 2 := by decide
  obtain ⟨text, htext, hread⟩ := arguments_of_text 1 as (bytesOf ": a") has
  cases hshown.symm.trans htext
  exact ⟨as, has, hshown, hlength, hread hlength⟩

end Rule

end FrontEnd
