import FrontEnd.Proofs.Lexeme.Splitting

namespace FrontEnd

open Recognizer (blockOpen blockClose)
open Lexeme (cut spans)

/-- The token is a slash, which a comment right after it would turn into a line comment. -/
def Token.IsSlash (t : Token) : Prop := t.content = .ok (.operator, bytesOf "/")

/-- The token is a literal that the end of the text breaks off. -/
def Token.IsOpenLiteral (t : Token) : Prop :=
  ∃ quote body, t.content = .ok (.literal, quote :: body) ∧ Lexeme.closes quote body = false

namespace Lexeme

/-- A text with a block comment put in at an offset. -/
def commented (text body : List UInt8) (offset : Nat) : List UInt8 :=
  text.take offset ++ (blockOpen ++ (body ++ blockClose) ++ text.drop offset)

/-- A text with a span of it written twice, and a block comment between. -/
def doubled (text body : List UInt8) (span : Span) : List UInt8 :=
  let blank := (text.drop span.start).take (span.stop - span.start)
  text.take span.start ++ (blank ++ (blockOpen ++ (body ++ blockClose)) ++ blank) ++
    text.drop span.stop

def ofComment (body : List UInt8) : Lexeme := ⟨none, 0x2F, 0x2A :: (body ++ blockClose)⟩

variable {text body after : List UInt8} {l : Lexeme} {ls ms : List Lexeme} {tokens : List Token}

theorem length_commented (text body : List UInt8) (offset : Nat) :
    (commented text body offset).length = text.length + body.length + 4 := by
  have hsplit := congrArg List.length (List.take_append_drop offset text)
  have hopen : blockOpen.length = 2 := rfl
  have hclose : blockClose.length = 2 := rfl
  rw [List.length_append] at hsplit
  simp only [commented, List.length_append, hopen, hclose]
  omega

theorem blockLength_body (h : ¬blockClose <:+: body) :
    blockLength (body ++ blockClose) = (body ++ blockClose).length := by
  induction body with
  | nil => rfl
  | cons byte rest ih =>
    -- No closer begins inside the body, not even with its last byte and the star after it.
    have hno : ¬blockClose <+: byte :: (rest ++ blockClose) := by
      intro hprefix
      obtain ⟨hstar, hslash⟩ := List.cons_prefix_cons.1 hprefix
      cases rest with
      | nil => exact absurd hslash (by decide)
      | cons next rest =>
        obtain ⟨hnext, _⟩ := List.cons_prefix_cons.1 hslash
        apply h
        rw [← hstar, ← hnext]
        exact (List.prefix_append blockClose rest).isInfix
    have hrest : ¬blockClose <:+: rest := fun hinfix => h (List.infix_cons hinfix)
    rw [List.cons_append, blockLength, if_neg (mt List.isPrefixOf_iff_prefix.1 hno), ih hrest,
      List.length_cons]

theorem isHead_ofComment (h : ¬blockClose <:+: body) : (ofComment body).IsHead := by
  refine ⟨0x2F, 0x2A :: (body ++ blockClose), ?_⟩
  rw [head, extent_block, blockLength_body h, List.take_succ_cons, List.take_length]
  rfl

theorem cut_comment (h : ¬blockClose <:+: body) (after : List UInt8) :
    cut (blockOpen ++ (body ++ blockClose) ++ after) = ofComment body :: cut after := by
  have hstop : (ofComment body).StopsAt after := by
    intro next _ hopen
    exact hopen (List.suffix_append body blockClose).isInfix
  exact (isHead_ofComment h).cut_append hstop

theorem not_isCataloged_slash (l : Lexeme) : ¬Operator.isCataloged (l.bytes ++ [0x2F]) = true := by
  have hslash : ∀ entry ∈ Operator.entries, entry.getLast? = some 0x2F → entry.length = 1 := by
    decide
  intro hgrows
  have hlength := hslash _ (Operator.isCataloged_iff.1 hgrows) List.getLast?_concat
  rw [List.length_append, length_bytes, List.length_singleton] at hlength
  omega

theorem not_joins_slash {kind : Kind} (hkind : l.kind = some kind)
    (hslash : (kind, l.bytes) ≠ (.operator, [0x2F]))
    (hclosed : kind = .literal → closes l.first l.rest = true) : ¬l.Joins 0x2F := by
  unfold Joins
  rw [hkind]
  cases kind with
  | whitespace => exact (by decide : ByteClass.ofByte 0x2F ≠ .whitespace)
  | integer => exact (by decide : ByteClass.ofByte 0x2F ≠ .digit)
  | identifier => exact (by decide : ¬(ByteClass.ofByte 0x2F).continuesIdent = true)
  | scopeOperator => exact not_false
  | error => exact not_false
  | literal =>
    intro hopen
    exact Bool.noConfusion ((hclosed rfl).symm.trans hopen)
  | operator =>
    rintro (hgrows | ⟨hbytes, _⟩)
    · exact not_isCataloged_slash l hgrows
    · exact hslash (by rw [hbytes])

theorem forall_last {P : Lexeme → Prop} (h : P l) : ∀ m ∈ (ls ++ [l]).getLast?, P m := by
  rw [List.getLast?_concat]
  rintro m ⟨⟩
  exact h

/-- A comment that comes after some of the lexemes of a text leaves all of them as they are. -/
theorem cut_commented (hbody : ¬blockClose <:+: body) (hcut : cut text = ls ++ ms)
    (hlast : ∀ l ∈ ls.getLast?, ¬l.Joins 0x2F) (after : List UInt8) :
    cut (ls.flatMap bytes ++ (blockOpen ++ (body ++ blockClose) ++ after)) =
      ls ++ ofComment body :: cut after := by
  have hstop : ∀ l ∈ ls.getLast?, l.StopsAt (blockOpen ++ (body ++ blockClose) ++ after) := by
    intro l hl next hnext
    cases hnext
    exact hlast l hl
  rw [cut_flatMap_append hcut hstop, cut_comment hbody]

theorem cut_doubled {span : Span} (hbody : ¬blockClose <:+: body) (hcut : cut text = ls ++ l :: ms)
    (hkind : l.kind = some .whitespace) (hstart : span.start = (ls.flatMap bytes).length)
    (hstop : span.stop = ((ls ++ [l]).flatMap bytes).length) :
    cut (doubled text body span) = (ls ++ [l]) ++ ofComment body :: l :: ms := by
  have hafter : cut text = (ls ++ [l]) ++ ms := by
    rw [hcut, List.append_assoc, List.singleton_append]
  have hjoins : ¬l.Joins 0x2F :=
    not_joins_slash hkind (by simp) fun hliteral => nomatch hliteral
  have hcommented := cut_commented hbody hafter (forall_last hjoins) ((l :: ms).flatMap bytes)
  rw [cut_flatMap_right hcut] at hcommented
  have hblank : (text.drop span.start).take (span.stop - span.start) = l.bytes := by
    rw [hstart, (take_of_cut hcut).2, hstop, List.flatMap_append, List.length_append,
      Nat.add_sub_cancel_left, List.flatMap_singleton, List.flatMap_cons, List.take_left]
  have hdoubled : doubled text body span = (ls ++ [l]).flatMap bytes ++
      (blockOpen ++ (body ++ blockClose) ++ (l :: ms).flatMap bytes) := by
    rw [doubled, hblank, hstart, (take_of_cut hcut).1, hstop, (take_of_cut hafter).2]
    simp only [List.flatMap_append, List.flatMap_cons, List.flatMap_nil, List.append_assoc,
      List.nil_append]
  rw [hdoubled, hcommented]

@[simp] theorem contents_comment (ls ms : List Lexeme) (body : List UInt8) :
    contents (ls ++ ofComment body :: ms) = contents ls ++ contents ms := by
  rw [contents_append]
  rfl

@[simp] theorem length_spans (start : Nat) (ls : List Lexeme) :
    (spans start ls).length = (contents ls).length := by
  fun_induction spans start ls with
  | case1 => rfl
  | case2 start l ls hkind ih =>
    rw [contents, List.filterMap_cons_none (by rw [hkind]; rfl)]
    exact ih
  | case3 start l ls kind hkind ih =>
    rw [contents, List.filterMap_cons_some (by rw [hkind]; rfl), List.length_cons, List.length_cons]
    exact congrArg (· + 1) ih

theorem Covers.take_places (h : Covers text tokens) (hcut : cut text = ls ++ ms) :
    (tokens.take (contents ls).length).map Token.place =
      (spans 0 ls).map fun x => (x.1, x.2, .after ((ls.flatMap bytes).take x.2.start)) := by
  have htext := flatMap_cut text
  rw [hcut, List.flatMap_append] at htext
  rw [List.map_take, h.places_eq, hcut, spans_append, List.map_append,
    List.take_left' (by rw [List.length_map, length_spans])]
  apply List.map_congr_left
  intro x hx
  have hbounds := bounds_of_mem_spans hx
  have hle : x.2.start ≤ (ls.flatMap bytes).length := by omega
  rw [← htext, List.take_append_of_le_length hle]

theorem Covers.exists_commented (other : Nat) (h : Covers text tokens)
    (hbody : ¬blockClose <:+: body) (hlength : text.length + body.length + 4 ≤ Offset.bound - 2)
    (hcut : cut text = ls ++ ms) (hlast : ∀ l ∈ ls.getLast?, ¬l.Joins 0x2F) :
    ∃ others, (Buffer.ofBytes other (commented text body (ls.flatMap bytes).length)).tokens =
        .ok others ∧
      others.mapM Token.content = tokens.mapM Token.content ∧
      (others.take (contents ls).length).map Token.place =
        (tokens.take (contents ls).length).map Token.place := by
  obtain ⟨htake, hdrop⟩ := take_of_cut hcut
  have hothers := cut_commented hbody hcut hlast (ms.flatMap bytes)
  rw [cut_flatMap_right hcut] at hothers
  rw [← length_commented text body (ls.flatMap bytes).length] at hlength
  obtain ⟨others, hread, hcovers⟩ := Buffer.exists_tokens_of_text other hlength
  refine ⟨others, hread, ?_, ?_⟩
  · rw [commented, htake, hdrop] at hcovers
    rw [hcovers.mapM_content, hothers, contents_comment, h.mapM_content, hcut, contents_append]
  · rw [commented, htake, hdrop] at hcovers
    rw [hcovers.take_places hothers, h.take_places hcut]

theorem Covers.exists_doubled {i : Nat} {t : Token} (other : Nat) (h : Covers text tokens)
    (hbody : ¬blockClose <:+: body) (ht : tokens[i]? = some t) (hkind : t.kind = .whitespace)
    (hlength : (doubled text body t.span).length ≤ Offset.bound - 2) :
    ∃ others xs x ys, (Buffer.ofBytes other (doubled text body t.span)).tokens = .ok others ∧
      x.1 = Kind.whitespace ∧ xs.length = i ∧
      tokens.mapM Token.content = .ok (xs ++ x :: ys) ∧
      others.mapM Token.content = .ok (xs ++ x :: x :: ys) := by
  obtain ⟨before, l, after, hcut, hl, hcount, hstart, hstop, _⟩ := h.exists_around ht
  rw [hkind] at hl
  obtain ⟨others, hothers, hcovers⟩ := Buffer.exists_tokens_of_text other hlength
  have hone (ls : List Lexeme) : contents (l :: ls) = (.whitespace, l.bytes) :: contents ls := by
    rw [contents, List.filterMap_cons_some (by rw [hl]; rfl)]
    rfl
  refine ⟨others, contents before, (.whitespace, l.bytes), contents after, hothers, rfl, hcount,
    ?_, ?_⟩
  · rw [h.mapM_content, hcut, contents_append, hone]
  · rw [hcovers.mapM_content, cut_doubled hbody hcut hl hstart hstop, contents_comment,
      contents_append, hone, hone, List.append_assoc]
    rfl

end Lexeme

open Lexeme (commented)

/-- A block comment at the start of a text, or right after a token that does not swallow its
opener, changes no token; and the tokens before it stay where they were. -/
theorem Buffer.tokens_commented (id other : Nat) (text body : List UInt8)
    (hbody : ¬blockClose <:+: body) (h : text.length + body.length + 4 ≤ Offset.bound - 2) :
    ∃ tokens contents, (ofBytes id text).tokens = .ok tokens ∧
      tokens.mapM Token.content = .ok contents ∧
      (∃ others, (ofBytes other (commented text body 0)).tokens = .ok others ∧
        others.mapM Token.content = .ok contents) ∧
      ∀ i t, tokens[i]? = some t → ¬t.IsSlash → ¬t.IsOpenLiteral →
        ∃ others, (ofBytes other (commented text body t.span.stop)).tokens = .ok others ∧
          others.mapM Token.content = .ok contents ∧
          (others.take (i + 1)).map Token.place = (tokens.take (i + 1)).map Token.place := by
  have htext : text.length ≤ Offset.bound - 2 := by omega
  obtain ⟨tokens, htokens, hcovers⟩ := exists_tokens_of_text id htext
  refine ⟨tokens, _, htokens, hcovers.mapM_content, ?_, ?_⟩
  · have hstart : cut text = [] ++ cut text := rfl
    obtain ⟨others, hothers, hcontent, _⟩ :=
      hcovers.exists_commented other hbody h hstart fun l hl => nomatch hl
    exact ⟨others, hothers, hcontent.trans hcovers.mapM_content⟩
  · intro i t ht hslash hliteral
    obtain ⟨before, l, after, hcut, hkind, hlength, _, hstop, hbytes⟩ := hcovers.exists_around ht
    have hcontent : t.content = .ok (t.kind, l.bytes) := by
      rw [Token.content, hbytes]
      rfl
    have hjoins : ¬l.Joins 0x2F := by
      apply Lexeme.not_joins_slash hkind
      · intro heq
        exact hslash (hcontent.trans (congrArg Except.ok heq))
      · intro hkind
        rw [hkind] at hcontent
        exact Bool.of_not_eq_false fun hopen => hliteral ⟨l.first, l.rest, hcontent, hopen⟩
    have hcut' : cut text = (before ++ [l]) ++ after := by
      rw [hcut, List.append_assoc, List.singleton_append]
    have hcount : (Lexeme.contents (before ++ [l])).length = i + 1 := by
      rw [Lexeme.contents_append, List.length_append, hlength, Lexeme.contents,
        List.filterMap_cons_some (by rw [hkind]; rfl)]
      rfl
    obtain ⟨others, hothers, hsame, hplaces⟩ :=
      hcovers.exists_commented other hbody h hcut' (Lexeme.forall_last hjoins)
    rw [← hstop] at hothers
    rw [hcount] at hplaces
    exact ⟨others, hothers, hsame.trans hcovers.mapM_content, hplaces⟩

theorem Buffer.tokens_commented_after_operator :
    (¬blockClose <:+: bytesOf "*" ∧
      (bytesOf "<a").length + (bytesOf "*").length + 4 ≤ Offset.bound - 2) ∧
    ∃ others, (ofBytes 1 (bytesOf "</***/a")).tokens = .ok others ∧
      others.mapM Token.content = .ok [(.operator, bytesOf "<"), (.identifier, bytesOf "a")] := by
  have hbody : ¬blockClose <:+: bytesOf "*" := by decide
  have hlength : (bytesOf "<a").length + (bytesOf "*").length + 4 ≤ Offset.bound - 2 := by decide
  obtain ⟨tokens, contents, htokens, hcontents, _, hafter⟩ :=
    tokens_commented 0 1 (bytesOf "<a") (bytesOf "*") hbody hlength
  have htext : (bytesOf "<a").length ≤ Offset.bound - 2 := by decide
  have hcovers := covers_of_tokens htokens htext
  have hplace : (spans 0 (cut (bytesOf "<a")))[0]? = some (.operator, ⟨0, 1⟩) := by decide +kernel
  obtain ⟨t, ht, hkind, hspan⟩ := hcovers.exists_token hplace
  have hknown : contents = [(.operator, bytesOf "<"), (.identifier, bytesOf "a")] := by
    cases hcontents.symm.trans hcovers.mapM_content
    decide +kernel
  have hslash : ¬t.IsSlash := by
    intro hslash
    rw [Token.IsSlash, Token.content, hcovers.bytes_eq (List.mem_of_getElem? ht), hspan, hkind] at hslash
    exact absurd (Except.ok.inj hslash) (by decide +kernel)
  have hliteral : ¬t.IsOpenLiteral := by
    rintro ⟨quote, body, hopen, _⟩
    have := Token.kind_of_content hopen
    rw [hkind] at this
    cases this
  obtain ⟨found, hfound, hsame, _⟩ := hafter 0 t ht hslash hliteral
  rw [hspan] at hfound
  rw [hknown] at hsame
  exact ⟨⟨hbody, hlength⟩, found, hfound, hsame⟩

end FrontEnd
