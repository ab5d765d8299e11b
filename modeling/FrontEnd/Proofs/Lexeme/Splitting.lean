import FrontEnd.Proofs.Lexeme.Boundary

namespace FrontEnd

open Recognizer (lineFeed)
open Lexeme (cut spans runLength)

/-- Kind and bytes of a token: what it holds, without its place. -/
def Token.content (t : Token) : Except Fault (Kind × List UInt8) := do
  let bytes ← t.bytes
  pure (t.kind, bytes)

theorem Token.kind_of_content {t : Token} {x : Kind × List UInt8} (h : t.content = .ok x) :
    t.kind = x.1 := by
  obtain ⟨bytes, _, hx⟩ := Fault.bind_eq_ok.1 h
  cases hx
  rfl

def Token.place (t : Token) : Kind × Span × Position := (t.kind, t.span, t.position)

def Span.shift (s : Span) (offset : Nat) : Span := ⟨s.start + offset, s.stop + offset⟩

/-- The position of a byte of a text, when the first byte of the text stands at `origin`. -/
def Position.translate (p origin : Position) : Position :=
  if p.row = 1 then ⟨origin.row + p.row - 1, origin.column + p.column - 1⟩
  else ⟨origin.row + p.row - 1, p.column⟩

def Token.placeFrom (offset : Nat) (origin : Position) (t : Token) : Kind × Span × Position :=
  (t.kind, t.span.shift offset, t.position.translate origin)

namespace Position

@[simp] theorem translate_after (before more : List UInt8) :
    (after more).translate (after before) = after (before ++ more) := by
  unfold translate after
  rw [List.count_append, List.reverse_append]
  by_cases hfeed : lineFeed ∈ more
  · have hcount : more.count lineFeed ≠ 0 := Nat.pos_iff_ne_zero.1 (List.count_pos_iff.2 hfeed)
    have hrun : runLength (· != lineFeed) (more.reverse ++ before.reverse) =
        runLength (· != lineFeed) more.reverse := by
      rw [runLength, List.takeWhile_append, if_neg, runLength]
      intro hlength
      have hall := List.all_takeWhile (p := (· != lineFeed)) (l := more.reverse)
      rw [(List.takeWhile_prefix _).eq_of_length hlength, List.all_eq_true] at hall
      exact bne_iff_ne.1 (hall lineFeed (List.mem_reverse.2 hfeed)) rfl
    rw [if_neg (by simpa using hcount), hrun]
    congr 1
    dsimp only
    omega
  · have hcount : more.count lineFeed = 0 := List.count_eq_zero.2 hfeed
    have hmore : ∀ byte ∈ more.reverse, (byte != lineFeed) = true := by
      intro byte hbyte
      rw [bne_iff_ne]
      rintro rfl
      exact hfeed (List.mem_reverse.1 hbyte)
    have hrun (rest : List UInt8) : runLength (· != lineFeed) (more.reverse ++ rest) =
        more.length + runLength (· != lineFeed) rest := by
      rw [runLength, List.takeWhile_append_of_pos hmore, List.length_append, List.length_reverse]
      rfl
    have hwhole : runLength (· != lineFeed) more.reverse = more.length := by
      have := hrun []
      rwa [List.append_nil] at this
    rw [if_pos (by rw [hcount]), hrun, hwhole, hcount]
    congr 1
    dsimp only
    omega

theorem foldlM_step (before more : List UInt8) (h : before.length + more.length + 1 < Offset.bound) :
    more.foldlM step (after before) = .ok (after (before ++ more)) := by
  induction more generalizing before with
  | nil => rw [List.append_nil]; rfl
  | cons byte more ih =>
    rw [List.length_cons] at h
    have hmore : (before ++ [byte]).length + more.length + 1 < Offset.bound := by
      rw [List.length_append, List.length_singleton]
      omega
    rw [List.foldlM_cons, step_after byte (by omega)]
    exact (ih _ hmore).trans (by rw [List.append_assoc]; rfl)

end Position

namespace Lexeme

def contents (ls : List Lexeme) : List (Kind × List UInt8) :=
  ls.filterMap fun l => l.kind.map (·, l.bytes)

variable {start : Nat} {text : List UInt8} {ls ms : List Lexeme} {tokens : List Token}

@[simp] theorem contents_append :
    contents (ls ++ ms) = contents ls ++ contents ms := List.filterMap_append

theorem spans_append :
    spans start (ls ++ ms) = spans start ls ++ spans (start + (ls.flatMap bytes).length) ms := by
  fun_induction spans start ls with
  | case1 => rfl
  | case2 start l ls hkind ih =>
    rw [List.cons_append, spans_cons_of_none hkind, ih, List.flatMap_cons, List.length_append,
      Nat.add_assoc]
  | case3 start l ls kind hkind ih =>
    rw [List.cons_append, spans_cons_of_some hkind, ih, List.flatMap_cons, List.length_append,
      Nat.add_assoc, List.cons_append]

theorem spans_shift (offset : Nat) :
    spans (start + offset) ls = (spans start ls).map fun x => (x.1, x.2.shift offset) := by
  fun_induction spans start ls with
  | case1 => rfl
  | case2 start l ls hkind ih =>
    rw [spans_cons_of_none hkind, ← ih]
    congr 1
    omega
  | case3 start l ls kind hkind ih =>
    rw [spans_cons_of_some hkind, List.map_cons, ← ih, Span.shift, Nat.add_right_comm]

theorem exists_around {i : Nat} {x : Kind × Span} (h : (spans start ls)[i]? = some x) :
    ∃ before l after, ls = before ++ l :: after ∧ l.kind = some x.1 ∧
      (contents before).length = i ∧ x.2.start = start + (before.flatMap bytes).length ∧
      x.2.stop = x.2.start + l.bytes.length := by
  revert h
  fun_induction spans start ls generalizing i with
  | case1 =>
    intro h
    cases h
  | case2 start l ls hkind ih =>
    intro h
    obtain ⟨before, m, after, rfl, hm, hlength, hstart, hstop⟩ := ih h
    refine ⟨l :: before, m, after, rfl, hm, ?_, ?_, hstop⟩
    · rw [contents, List.filterMap_cons_none (by rw [hkind]; rfl)]
      exact hlength
    · rw [hstart, List.flatMap_cons, List.length_append, Nat.add_assoc]
  | case3 start l ls kind hkind ih =>
    intro h
    cases i with
    | zero =>
      cases h
      exact ⟨[], l, ls, rfl, hkind, rfl, rfl, rfl⟩
    | succ i =>
      obtain ⟨before, m, after, rfl, hm, hlength, hstart, hstop⟩ := ih h
      refine ⟨l :: before, m, after, rfl, hm, ?_, ?_, hstop⟩
      · rw [contents, List.filterMap_cons_some (by rw [hkind]; rfl), List.length_cons]
        exact congrArg (· + 1) hlength
      · rw [hstart, List.flatMap_cons, List.length_append, Nat.add_assoc]

theorem Covers.mapM_content (h : Covers text tokens) :
    tokens.mapM Token.content = .ok (contents (cut text)) := by
  have hcontent : ∀ t ∈ tokens, t.content =
      .ok (t.kind, (text.drop t.span.start).take (t.span.stop - t.span.start)) := by
    intro t ht
    rw [Token.content, h.bytes_eq ht]
    rfl
  have hwhole : text.drop 0 = (cut text).flatMap bytes := (flatMap_cut text).symm
  have hslices := map_slice_spans hwhole
  rw [← h.spans_eq, List.map_map] at hslices
  rw [Fault.mapM_eq_ok hcontent]
  exact congrArg Except.ok hslices

theorem Covers.places_eq (h : Covers text tokens) :
    tokens.map Token.place =
      (spans 0 (cut text)).map fun x => (x.1, x.2, .after (text.take x.2.start)) := by
  rw [← h.spans_eq, List.map_map]
  apply List.map_congr_left
  intro t ht
  rw [Token.place, h.position_eq t ht]
  rfl

theorem Covers.exists_token {i : Nat} {kind : Kind} {span : Span} (h : Covers text tokens)
    (hspan : (spans 0 (cut text))[i]? = some (kind, span)) :
    ∃ t, tokens[i]? = some t ∧ t.kind = kind ∧ t.span = span := by
  rw [← h.spans_eq, List.getElem?_map] at hspan
  obtain ⟨t, ht, hplace⟩ := Option.map_eq_some_iff.1 hspan
  exact ⟨t, ht, Prod.mk.inj hplace⟩

theorem Covers.exists_around {i : Nat} {t : Token} (h : Covers text tokens)
    (ht : tokens[i]? = some t) :
    ∃ before l after, cut text = before ++ l :: after ∧ l.kind = some t.kind ∧
      (contents before).length = i ∧ t.span.start = (before.flatMap bytes).length ∧
      t.span.stop = ((before ++ [l]).flatMap bytes).length ∧ t.bytes = .ok l.bytes := by
  have hspan : (spans 0 (cut text))[i]? = some (t.kind, t.span) := by
    rw [← h.spans_eq, List.getElem?_map, ht]
    rfl
  obtain ⟨before, l, after, hcut, hkind, hlength, hstart, hstop⟩ := Lexeme.exists_around hspan
  have htext := flatMap_cut text
  rw [hcut, List.flatMap_append, List.flatMap_cons] at htext
  dsimp only at hkind hstart hstop
  rw [Nat.zero_add] at hstart
  refine ⟨before, l, after, hcut, hkind, hlength, hstart, ?_, ?_⟩
  · rw [hstop, hstart, List.flatMap_append, List.length_append, List.flatMap_singleton]
  · rw [h.bytes_eq (List.mem_of_getElem? ht), hstop, Nat.add_sub_cancel_left, hstart, ← htext,
      List.drop_left, List.take_left]

theorem Covers.exists_cut {t : Token} {p : Nat} (h : Covers text tokens) (ht : t ∈ tokens)
    (hp : p = t.span.start ∨ p = t.span.stop) :
    ∃ ls ms, cut text = ls ++ ms ∧ p = (ls.flatMap bytes).length := by
  obtain ⟨i, hi⟩ := List.mem_iff_getElem?.1 ht
  obtain ⟨before, l, after, hcut, _, _, hstart, hstop, _⟩ := h.exists_around hi
  rcases hp with rfl | rfl
  · exact ⟨before, l :: after, hcut, hstart⟩
  · exact ⟨before ++ [l], after, by rw [hcut, List.append_assoc, List.singleton_append], hstop⟩

theorem take_of_cut (h : cut text = ls ++ ms) :
    text.take (ls.flatMap bytes).length = ls.flatMap bytes ∧
      text.drop (ls.flatMap bytes).length = ms.flatMap bytes := by
  have htext := flatMap_cut text
  rw [h, List.flatMap_append] at htext
  rw [← htext]
  exact ⟨List.take_left, List.drop_left⟩

/-- The tokens of a text stand where those of its parts do, if no lexeme goes across the cut. -/
theorem Covers.places_split {left right : List Token} (h : Covers text tokens)
    (hcut : cut text = ls ++ ms) (hleft : Covers (ls.flatMap bytes) left)
    (hright : Covers (ms.flatMap bytes) right) :
    tokens.map Token.place = left.map Token.place ++
      right.map (Token.placeFrom (ls.flatMap bytes).length (.after (ls.flatMap bytes))) := by
  have htext := flatMap_cut text
  rw [hcut, List.flatMap_append] at htext
  have hleftplaces := hleft.places_eq
  have hrightplaces := hright.places_eq
  rw [cut_flatMap_left hcut] at hleftplaces
  rw [cut_flatMap_right hcut] at hrightplaces
  have hfrom : right.map (Token.placeFrom (ls.flatMap bytes).length (.after (ls.flatMap bytes))) =
      (right.map Token.place).map fun x =>
        (x.1, x.2.1.shift (ls.flatMap bytes).length, x.2.2.translate (.after (ls.flatMap bytes))) := by
    rw [List.map_map]
    rfl
  rw [h.places_eq, hcut, spans_append, List.map_append, hleftplaces, hfrom, hrightplaces]
  congr 1
  · apply List.map_congr_left
    intro x hx
    have hbounds := bounds_of_mem_spans hx
    have hle : x.2.start ≤ (ls.flatMap bytes).length := by omega
    rw [← htext, List.take_append_of_le_length hle]
  · rw [spans_shift, List.map_map, List.map_map]
    apply List.map_congr_left
    intro x _
    have htake : text.take (x.2.start + (ls.flatMap bytes).length) =
        ls.flatMap bytes ++ (ms.flatMap bytes).take x.2.start := by
      rw [← htext, Nat.add_comm, List.take_length_add_append]
    simp only [Function.comp, Span.shift, htake, Position.translate_after]

theorem Covers.exists_parts (part : Nat) (h : Covers text tokens) (hcut : cut text = ls ++ ms)
    (hlength : text.length ≤ Offset.bound - 2) :
    ∃ left right, (Buffer.ofBytes part (ls.flatMap bytes)).tokens = .ok left ∧
      (Buffer.ofBytes part (ms.flatMap bytes)).tokens = .ok right ∧
      tokens.map Token.place = left.map Token.place ++
        right.map (Token.placeFrom (ls.flatMap bytes).length (.after (ls.flatMap bytes))) ∧
      tokens.mapM Token.content = .ok (contents (ls ++ ms)) ∧
      (left ++ right).mapM Token.content = .ok (contents (ls ++ ms)) := by
  have htext := congrArg List.length (flatMap_cut text)
  rw [hcut, List.flatMap_append, List.length_append] at htext
  have hls : (ls.flatMap bytes).length ≤ Offset.bound - 2 := by omega
  have hms : (ms.flatMap bytes).length ≤ Offset.bound - 2 := by omega
  obtain ⟨left, hleft, hleftcovers⟩ := Buffer.exists_tokens_of_text part hls
  obtain ⟨right, hright, hrightcovers⟩ := Buffer.exists_tokens_of_text part hms
  have hcontent := h.mapM_content
  rw [hcut] at hcontent
  refine ⟨left, right, hleft, hright, h.places_split hcut hleftcovers hrightcovers, hcontent, ?_⟩
  rw [List.mapM_append, hleftcovers.mapM_content, hrightcovers.mapM_content, cut_flatMap_left hcut,
    cut_flatMap_right hcut, contents_append]
  rfl

theorem Covers.exists_alone {t : Token} (part : Nat) (h : Covers text tokens) (ht : t ∈ tokens)
    (hlength : text.length ≤ Offset.bound - 2) :
    ∃ bytes alone, t.bytes = .ok bytes ∧ (Buffer.ofBytes part bytes).tokens = .ok [alone] ∧
      alone.place = (t.kind, ⟨0, bytes.length⟩, .first) ∧ alone.bytes = .ok bytes := by
  obtain ⟨i, hi⟩ := List.mem_iff_getElem?.1 ht
  obtain ⟨before, l, after, hcut, hkind, _, hstart, hstop, hbytes⟩ := h.exists_around hi
  have hbounds := h.bounds ht
  rw [hstart, hstop, List.flatMap_append, List.length_append, List.flatMap_singleton] at hbounds
  have halone : cut l.bytes = [l] := by
    have hfirst : cut ([l].flatMap bytes) = [l] := cut_flatMap_left (cut_flatMap_right hcut)
    rwa [List.flatMap_singleton] at hfirst
  have hshort : l.bytes.length ≤ Offset.bound - 2 := by omega
  obtain ⟨found, hfound, hcovers⟩ := Buffer.exists_tokens_of_text part hshort
  have hplaces := hcovers.places_eq
  rw [halone, spans_cons_of_some hkind, Nat.zero_add] at hplaces
  obtain ⟨u, rfl, hu⟩ := List.map_eq_singleton_iff.1 hplaces
  have hspan : u.span = ⟨0, l.bytes.length⟩ := congrArg (·.2.1) hu
  have hubytes := hcovers.bytes_eq (List.mem_singleton_self u)
  rw [hspan, List.drop_zero, Nat.sub_zero, List.take_length] at hubytes
  exact ⟨l.bytes, u, hbytes, hfound, hu, hubytes⟩

end Lexeme

namespace Buffer

/-- Reading may be cut, or begun again, at each offset where a token starts or stops; and the bytes
of a token alone are that token again. -/
theorem tokens_split (id part : Nat) (text : List UInt8) (h : text.length ≤ Offset.bound - 2) :
    ∃ tokens, (ofBytes id text).tokens = .ok tokens ∧
      (∀ p, (∃ t ∈ tokens, p = t.span.start ∨ p = t.span.stop) →
        ∃ left right origin contents,
          (ofBytes part (text.take p)).tokens = .ok left ∧
          (ofBytes part (text.drop p)).tokens = .ok right ∧
          (text.take p).foldlM Position.step .first = .ok origin ∧
          tokens.map Token.place = left.map Token.place ++ right.map (Token.placeFrom p origin) ∧
          tokens.mapM Token.content = .ok contents ∧
          (left ++ right).mapM Token.content = .ok contents) ∧
      ∀ t ∈ tokens, ∃ bytes alone, t.bytes = .ok bytes ∧
        (ofBytes part bytes).tokens = .ok [alone] ∧
        alone.place = (t.kind, ⟨0, bytes.length⟩, .first) ∧ alone.bytes = .ok bytes := by
  obtain ⟨tokens, htokens, hcovers⟩ := exists_tokens_of_text id h
  refine ⟨tokens, htokens, ?_, fun t ht => hcovers.exists_alone part ht h⟩
  rintro p ⟨t, ht, hp⟩
  obtain ⟨ls, ms, hcut, rfl⟩ := hcovers.exists_cut ht hp
  obtain ⟨htake, hdrop⟩ := Lexeme.take_of_cut hcut
  obtain ⟨left, right, hleft, hright, hplaces, hcontent, hparts⟩ :=
    hcovers.exists_parts part hcut h
  have horigin := Position.foldlM_step [] (text.take (ls.flatMap Lexeme.bytes).length) (by
    have hle := (List.take_sublist (ls.flatMap Lexeme.bytes).length text).length_le
    simp only [Offset.bound, List.length_nil] at h ⊢
    omega)
  rw [List.nil_append, htake] at horigin
  rw [htake, hdrop]
  exact ⟨left, right, _, _, hleft, hright, horigin, hplaces, hcontent, hparts⟩

theorem tokens_split_after_comment :
    (bytesOf "a/*\n*/<<=b").length ≤ Offset.bound - 2 ∧
    ∃ tokens left right, (ofBytes 0 (bytesOf "a/*\n*/<<=b")).tokens = .ok tokens ∧
      (ofBytes 1 (bytesOf "a/*\n*/")).tokens = .ok left ∧
      (ofBytes 1 (bytesOf "<<=b")).tokens = .ok right ∧
      tokens.map Token.place = left.map Token.place ++ right.map (Token.placeFrom 6 ⟨2, 3⟩) ∧
      tokens.map (fun t => (t.kind, t.span)) =
        [(.identifier, ⟨0, 1⟩), (.operator, ⟨6, 9⟩), (.identifier, ⟨9, 10⟩)] ∧
      left.map (fun t => (t.kind, t.span)) = [(.identifier, ⟨0, 1⟩)] ∧
      right.map (fun t => (t.kind, t.span)) = [(.operator, ⟨0, 3⟩), (.identifier, ⟨3, 4⟩)] := by
  have hlength : (bytesOf "a/*\n*/<<=b").length ≤ Offset.bound - 2 := by decide
  obtain ⟨tokens, htokens, hparts, _⟩ := tokens_split 0 1 _ hlength
  have hspans : tokens.map (fun t => (t.kind, t.span)) =
      [(.identifier, ⟨0, 1⟩), (.operator, ⟨6, 9⟩), (.identifier, ⟨9, 10⟩)] :=
    (covers_of_tokens htokens hlength).spans_eq.trans (by decide +kernel)
  have hmem : ∃ t ∈ tokens, 6 = t.span.start ∨ 6 = t.span.stop := by
    obtain ⟨t, ht, heq⟩ := List.mem_map.1
      (show (Kind.operator, ⟨6, 9⟩) ∈ tokens.map fun t => (t.kind, t.span) by rw [hspans]; decide)
    exact ⟨t, ht, .inl (congrArg (·.2.start) heq).symm⟩
  obtain ⟨left, right, origin, _, hleft, hright, horigin, hplaces, _⟩ := hparts 6 hmem
  have hfold : ((bytesOf "a/*\n*/<<=b").take 6).foldlM Position.step .first = .ok ⟨2, 3⟩ := by
    rfl
  cases hfold.symm.trans horigin
  refine ⟨hlength, tokens, left, right, htokens, hleft, hright, hplaces, hspans, ?_, ?_⟩
  · exact (covers_of_tokens hleft (by decide)).spans_eq.trans (by decide +kernel)
  · exact (covers_of_tokens hright (by decide)).spans_eq.trans (by decide +kernel)

end Buffer

end FrontEnd
