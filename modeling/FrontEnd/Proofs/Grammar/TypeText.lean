import FrontEnd.Grammar.TypeExpr
import FrontEnd.Proofs.Grammar.Ahead
import FrontEnd.Proofs.Tree.Written

namespace FrontEnd

open Lexeme (blank star mark word contents Chained)

structure Indented (ys : List (Kind × List UInt8)) : Prop where
  length_le : ys.length ≤ 1
  blank : ∀ y ∈ ys, y.1 = .whitespace

@[simp] theorem indented_nil : Indented [] := ⟨Nat.zero_le 1, fun _ hy => nomatch hy⟩

@[simp] theorem indented_blank : Indented [(.whitespace, [0x20])] := ⟨Nat.le_refl 1, by simp⟩

/-- Neither an identifier nor a colon comes next, so that a name ends. -/
def EndsName (xs : List (Kind × List UInt8)) : Prop :=
  ∀ x ∈ xs.head?, x.1 ≠ .identifier ∧ Rule.colon.admits x = false

@[simp] theorem endsName_nil : EndsName [] := fun _ hx => nomatch hx

theorem Indented.passes {ys : List (Kind × List UInt8)} (h : Indented ys) :
    ∀ y ∈ ys, Spacing.skipped.passes y = true := by
  intro y hy
  exact beq_iff_eq.2 (h.blank y hy)

namespace Rule

variable {c : Cursor} {u : NameUnit} {us : List NameUnit} {ls : List Lexeme}
  {lss : List (List Lexeme)} {xs ys : List (Kind × List UInt8)}

theorem consume_separator_of_ahead
    (h : Holding c.rest ((.scopeOperator, [0x3A]) :: (.scopeOperator, [0x3A]) :: xs)) :
    ∃ tokens d, consume separator .significant c = .ok (some tokens) d ∧ Holding d.rest xs := by
  have hsecond : ∀ rest, Holding rest ((.scopeOperator, [0x3A]) :: xs) →
      ∃ m, Pattern.matchAll .significant [colon] rest = .ok (some m) ∧ Holding m.rest xs :=
    fun rest hrest => Pattern.matchAll_next hrest rfl fun last hlast => ⟨_, rfl, hlast⟩
  obtain ⟨m, hm, hrest⟩ := Pattern.matchAll_next (p := colon) h rfl hsecond
  exact ⟨_, _, consume_eq_ok.2 ⟨some m, hm, rfl⟩, hrest⟩

theorem consume_separator_of_not_ahead (h : Holding c.rest xs)
    (hxs : ∀ x ∈ xs.head?, colon.admits x = false) :
    consume separator .significant c = .ok none c :=
  consume_eq_ok.2 ⟨none, Pattern.matchAll_of_not_next h hxs, rfl⟩

theorem unitRound_of_written (hu : u.Written ls) (h : Holding c.rest (contents ls ++ xs))
    (found : List NameUnit) :
    ∃ v d, unitRound found c = .ok (.again (v :: found)) d ∧
      v.Writes (ls.flatMap Lexeme.bytes) ∧ Holding d.rest xs := by
  have hwrites := hu.writes
  cases hu with
  | separator =>
    obtain ⟨tokens, d, hconsume, hrest⟩ := consume_separator_of_ahead h
    exact ⟨.separator, d, bind_of_ok hconsume, hwrites, hrest⟩
  | ident _ _ =>
    have hnone := consume_separator_of_not_ahead h (by rintro _ ⟨⟩; rfl)
    obtain ⟨t, d, htake, hcontent, hrest⟩ := take?_of_next (p := anyIdentifier) h rfl
    refine ⟨.ident t, d, (bind_of_ok hnone).trans (bind_of_ok htake), ?_, hrest⟩
    cases hwrites with
    | ident _ isWord =>
      rw [List.flatMap_singleton] at isWord ⊢
      exact .ident (Token.bytes_of_content hcontent) isWord

theorem unitRound_of_endsName (h : Holding c.rest xs) (hxs : EndsName xs) (found : List NameUnit) :
    unitRound found c = .ok (.done found.reverse) c := by
  have hnone := consume_separator_of_not_ahead h fun x hx => (hxs x hx).2
  have hident : take? anyIdentifier .significant c = .ok none c :=
    take?_of_not_next h fun x hx => beq_eq_false_iff_ne.2 (hxs x hx).1
  exact (bind_of_ok hnone).trans (bind_of_ok hident)

theorem units_of_written (hus : List.Forall₂ NameUnit.Written us lss)
    (h : Holding c.rest (contents lss.flatten ++ xs)) (hxs : EndsName xs) (found : List NameUnit) :
    ∃ vs d, loop unitRound advancing_unitRound found c = .ok (found.reverse ++ vs) d ∧
      List.Forall₂ NameUnit.Writes vs (lss.map (·.flatMap Lexeme.bytes)) ∧ Holding d.rest xs := by
  induction hus generalizing c found with
  | nil =>
    refine ⟨[], c, ?_, .nil, h⟩
    rw [List.append_nil]
    exact loop_of_done (unitRound_of_endsName h hxs found)
  | @cons u ls us lss hunit _ ih =>
    rw [List.flatten_cons, Lexeme.contents_append, List.append_assoc] at h
    obtain ⟨v, d, hround, hwrites, hrest⟩ := unitRound_of_written hunit h found
    obtain ⟨vs, e, hloop, hmore, hlast⟩ := ih hrest (v :: found)
    rw [List.reverse_cons, List.append_assoc, List.singleton_append] at hloop
    exact ⟨v :: vs, e, (loop_of_again hround).trans hloop, .cons hwrites hmore, hlast⟩

end Rule

theorem last_of_writes {us vs : List NameUnit} {words : List (List UInt8)}
    (h : List.Forall₂ NameUnit.Writes us words) (h' : List.Forall₂ NameUnit.Writes vs words)
    (hlast : ∃ t, us.getLast? = some (.ident t)) : ∃ t, vs.getLast? = some (.ident t) := by
  have hreverse := List.rel_reverse h
  have hreverse' := List.rel_reverse h'
  rw [← List.head?_reverse] at hlast ⊢
  generalize us.reverse = us at hlast hreverse
  generalize vs.reverse = vs at hreverse'
  generalize words.reverse = words at hreverse hreverse'
  obtain ⟨t, hlast⟩ := hlast
  cases hreverse with
  | nil => cases hlast
  | cons hunit _ =>
    cases hlast
    cases hunit with
    | ident _ isWord =>
      cases hreverse' with
      | cons hunit' _ =>
        cases hunit' with
        | ident => exact ⟨_, rfl⟩
        | separator => exact absurd rfl isWord.ne_separator

theorem exists_head_of_written {n : QualifiedName} {lss : List (List Lexeme)}
    (xs : List (Kind × List UInt8)) (hn : n.WellFormed)
    (hunits : List.Forall₂ NameUnit.Written n.units lss) :
    ∃ z zs, contents lss.flatten ++ xs = z :: zs ∧
      (z = (.scopeOperator, [0x3A]) ∨
        ∃ text, n.StartsWith text ∧ z = (.identifier, bytesOf text)) := by
  have hne := hn.ne_nil
  unfold QualifiedName.StartsWith
  generalize n.units = us at hunits hne
  cases hunits with
  | nil => exact absurd rfl hne
  | cons hunit _ =>
    cases hunit with
    | separator => exact ⟨_, _, rfl, .inl rfl⟩
    | @ident t text text_eq isIdentifier =>
      refine ⟨_, _, rfl, .inr ⟨text, ⟨t, rfl, text_eq⟩, ?_⟩⟩
      rw [Lexeme.bytes_word isIdentifier]

namespace Rule

variable {c : Cursor} {n : QualifiedName} {lss : List (List Lexeme)} {isConst : Bool}
  {z : Kind × List UInt8} {xs ys zs : List (Kind × List UInt8)}

theorem take?_indent (h : Holding c.rest (ys ++ z :: zs)) (hys : Indented ys)
    (hz : z.1 ≠ .whitespace) :
    ∃ found d, take? anyWhitespace .significant c = .ok found d ∧ Holding d.rest (z :: zs) := by
  match ys with
  | [] =>
    refine ⟨none, c, take?_of_not_next h ?_, h⟩
    rintro _ ⟨⟩
    exact beq_eq_false_iff_ne.2 hz
  | [y] =>
    have hblank : anyWhitespace.admits y = true := beq_iff_eq.2 (hys.blank y List.mem_cons_self)
    obtain ⟨t, d, htake, _, hrest⟩ := take?_of_next h hblank
    exact ⟨_, d, htake, hrest⟩
  | _ :: _ :: _ =>
    have := hys.length_le
    simp at this

theorem name_of_written (hn : n.WellFormed) (hunits : List.Forall₂ NameUnit.Written n.units lss)
    (h : Holding c.rest (ys ++ (contents lss.flatten ++ xs))) (hys : Indented ys)
    (hxs : EndsName xs) :
    ∃ m d, name c = .ok m d ∧ n.same m = .ok true ∧ Holding d.rest xs := by
  obtain ⟨z, zs, hcontents, hz⟩ := exists_head_of_written xs hn hunits
  have hnotBlank : z.1 ≠ .whitespace := by
    rcases hz with rfl | ⟨_, _, rfl⟩
    · exact fun hkind => nomatch hkind
    · exact fun hkind => nomatch hkind
  rw [hcontents] at h
  obtain ⟨found, d, hindent, hrest⟩ :=
    take?_indent (c := c.note (.readingName c.pos)) h hys hnotBlank
  rw [← hcontents] at hrest
  obtain ⟨vs, e, hloop, hwrites, hlast⟩ := units_of_written hunits hrest hxs []
  have hwritten := writes_of_written hunits
  obtain ⟨t, ht⟩ := last_of_writes hwritten hwrites hn.last
  have hname : nameOf vs e = .ok ⟨vs⟩ e := by
    rw [nameOf, ht]
    rfl
  have hsame : QualifiedName.same ⟨n.units⟩ ⟨vs⟩ = .ok true := by
    rw [same_of_writes hwritten hwrites, decide_eq_true rfl]
  have hread : (take? anyWhitespace .significant >>= fun _ => units >>= nameOf)
      (c.note (.readingName c.pos)) = .ok ⟨vs⟩ e :=
    (bind_of_ok hindent).trans ((bind_of_ok hloop).trans hname)
  exact ⟨⟨vs⟩, e, rewinding_of_ok hread, hsame, hlast⟩

theorem take?_qualifier
    (h : Holding c.rest (ys ++ (contents (TypeExpr.qualifierLexemes isConst) ++ z :: zs)))
    (hys : Indented ys) (hz : z.1 ≠ .whitespace)
    (hconst : isConst = false → constKeyword.admits z = false) :
    ∃ found d more, take? constKeyword .skipped c = .ok found d ∧ found.isSome = isConst ∧
      Indented more ∧ Holding d.rest (more ++ z :: zs) := by
  cases isConst with
  | false =>
    have hnone := take?_of_refused h hys.passes (beq_eq_false_iff_ne.2 hz) (hconst rfl)
    exact ⟨none, c, ys, hnone, rfl, hys, h⟩
  | true =>
    obtain ⟨t, d, htake, _, hrest⟩ := take?_of_ahead (p := constKeyword) h hys.passes rfl rfl
    exact ⟨some t, d, [(.whitespace, [0x20])], htake, rfl, indented_blank, hrest⟩

theorem typeRound_of_star
    (h : Holding c.rest (ys ++ (contents (TypeExpr.qualifierLexemes isConst) ++
      (.operator, [0x2A]) :: xs))) (hys : Indented ys) (around : List Bool) :
    ∃ d, typeRound around c = .ok (.again (isConst :: around)) d ∧ Holding d.rest xs := by
  obtain ⟨found, d, more, hqualifier, hfound, hmore, hrest⟩ :=
    take?_qualifier (c := c.note (.readingType c.pos)) h hys (by decide) fun _ => rfl
  obtain ⟨t, e, hstar, _, hlast⟩ := take?_of_ahead (p := star) hrest hmore.passes rfl rfl
  refine ⟨e, ?_, hlast⟩
  calc typeRound around c = _ := bind_of_ok (note_eq _)
    _ = _ := bind_of_ok hqualifier
    _ = _ := bind_of_ok hstar
    _ = .ok (.again (isConst :: around)) e := by rw [hfound]; rfl

theorem typeRound_of_name (hn : n.WellFormed) (hconst : n.StartsWith "const" → isConst = true)
    (hunits : List.Forall₂ NameUnit.Written n.units lss)
    (h : Holding c.rest (ys ++ (contents (TypeExpr.qualifierLexemes isConst) ++
      (contents lss.flatten ++ xs)))) (hys : Indented ys) (hxs : EndsName xs) (around : List Bool) :
    ∃ m d, typeRound around c = .ok (.done (.under around (.named isConst m))) d ∧
      n.same m = .ok true ∧ Holding d.rest xs := by
  obtain ⟨z, zs, hcontents, hz⟩ := exists_head_of_written xs hn hunits
  have hadmits : isConst = false → constKeyword.admits z = false := by
    intro hplain
    rcases hz with rfl | ⟨text, hstarts, rfl⟩
    · rfl
    · apply Bool.eq_false_iff.2
      intro hkeyword
      rw [Pattern.admits_keyword_iff.1 hkeyword] at hstarts
      exact Bool.noConfusion (hplain.symm.trans (hconst hstarts))
  have hz : z.1 ≠ .whitespace ∧ star.admits z = false := by
    rcases hz with rfl | ⟨_, _, rfl⟩
    · exact ⟨by decide, rfl⟩
    · exact ⟨fun hkind => (nomatch hkind), rfl⟩
  rw [hcontents] at h
  obtain ⟨found, d, more, hqualifier, hfound, hmore, hrest⟩ :=
    take?_qualifier (c := c.note (.readingType c.pos)) h hys hz.1 hadmits
  have hstar := take?_of_refused hrest hmore.passes (beq_eq_false_iff_ne.2 hz.1) hz.2
  rw [← hcontents] at hrest
  obtain ⟨m, e, hname, hsame, hlast⟩ := name_of_written hn hunits hrest hmore hxs
  refine ⟨m, e, ?_, hsame, hlast⟩
  calc typeRound around c = _ := bind_of_ok (note_eq _)
    _ = _ := bind_of_ok hqualifier
    _ = _ := bind_of_ok hstar
    _ = _ := bind_of_ok hname
    _ = .ok (.done (.under around (.named isConst m))) e := by rw [hfound]; rfl

/-- A type is read as it is written: each round reads the level that is written next. -/
theorem typeLoop_of_written {t : TypeExpr} {ls : List Lexeme} (ht : t.Written ls)
    (h : Holding c.rest (ys ++ (contents ls ++ xs))) (hys : Indented ys) (hxs : EndsName xs)
    (around : List Bool) :
    ∃ u d, loop typeRound advancing_typeRound around c = .ok (.under around u) d ∧
      t.same u = .ok true ∧ u.consts = t.consts ∧ Holding d.rest xs := by
  induction ht generalizing c ys around with
  | @named isConst n lss hn hconst hunits =>
    rw [Lexeme.contents_append, List.append_assoc] at h
    obtain ⟨m, d, hround, hsame, hrest⟩ := typeRound_of_name hn hconst hunits h hys hxs around
    refine ⟨.named isConst m, d, loop_of_done hround, ?_, rfl, hrest⟩
    rw [TypeExpr.same, if_pos rfl, hsame]
  | @pointer isConst t ls _ ih =>
    rw [Lexeme.contents_append, List.append_assoc] at h
    obtain ⟨d, hround, hrest⟩ := typeRound_of_star h hys around
    have hpointee : Holding d.rest ([] ++ (contents ls ++ xs)) := hrest
    obtain ⟨u, e, hloop, hsame, hconsts, hlast⟩ := ih hpointee indented_nil (isConst :: around)
    refine ⟨.pointer isConst u, e, (loop_of_again hround).trans hloop, ?_, ?_, hlast⟩
    · rw [TypeExpr.same, if_pos rfl, hsame]
    · rw [TypeExpr.consts, TypeExpr.consts, hconsts]

theorem typeExpr_of_written {t : TypeExpr} {ls : List Lexeme} (ht : t.Written ls)
    (h : Holding c.rest (ys ++ (contents ls ++ xs))) (hys : Indented ys) (hxs : EndsName xs) :
    ∃ u d, typeExpr c = .ok u d ∧ t.same u = .ok true ∧ u.consts = t.consts ∧
      Holding d.rest xs := by
  obtain ⟨u, d, hloop, hsame⟩ := typeLoop_of_written ht h hys hxs []
  exact ⟨u, d, rewinding_of_ok hloop, hsame⟩

theorem exists_tokens_of_chained (id : Nat) {ls : List Lexeme} {after : List UInt8}
    (h : Chained ls after)
    (hlength : (ls.flatMap Lexeme.bytes ++ after).length ≤ Offset.bound - 2) :
    ∃ tokens, (Buffer.ofBytes id (ls.flatMap Lexeme.bytes ++ after)).tokens = .ok tokens ∧
      Lexeme.Covers (ls.flatMap Lexeme.bytes ++ after) tokens ∧
      Holding tokens (contents ls ++ contents (Lexeme.cut after)) := by
  obtain ⟨tokens, htokens, hcovers⟩ := Buffer.exists_tokens_of_text id hlength
  refine ⟨tokens, htokens, hcovers, ?_⟩
  rw [← Lexeme.contents_append, ← h.cut_append]
  exact Fault.forall₂_of_mapM hcovers.mapM_content

/-- A well-formed type is read back from the text that it is shown as. -/
theorem typeExpr_of_text (id : Nat) (t : TypeExpr) (h : t.WellFormed) :
    ∃ text, t.text = .ok text ∧ ((bytesOf text).length ≤ Offset.bound - 2 →
      ∃ tokens u d, (Buffer.ofText id text).tokens = .ok tokens ∧
        typeExpr (.ofTokens tokens) = .ok u d ∧ d.rest = [] ∧ d.pos = tokens.length ∧
        t.same u = .ok true ∧ u.consts = t.consts) := by
  obtain ⟨ls, hwritten⟩ := h.exists_written
  obtain ⟨text, htext, hbytes⟩ := hwritten.text_eq
  refine ⟨text, htext, ?_⟩
  intro hlength
  have hend : Lexeme.EndsWord [] := fun _ hnext => nomatch hnext
  have hchained := (hwritten.chained hend).1
  rw [hbytes, ← List.append_nil (ls.flatMap Lexeme.bytes)] at hlength
  obtain ⟨tokens, htokens, _, hholding⟩ := exists_tokens_of_chained id hchained hlength
  have hahead : Holding (Cursor.ofTokens tokens).rest ([] ++ (contents ls ++ [])) := by
    rw [Lexeme.cut] at hholding
    exact hholding
  obtain ⟨u, d, hread, hsame, hconsts, hrest⟩ :=
    typeExpr_of_written hwritten hahead indented_nil endsName_nil
  have hempty : d.rest = [] := List.forall₂_nil_right_iff.1 hrest
  obtain ⟨passed, hpassed, hpos, _⟩ := forward_typeExpr hread
  rw [hempty, List.append_nil] at hpassed
  refine ⟨tokens, u, d, ?_, hread, hempty, ?_, hsame, hconsts⟩
  · rw [Buffer.ofText, hbytes, ← List.append_nil (ls.flatMap Lexeme.bytes)]
    exact htokens
  · rw [hpos, ← hpassed]
    exact Nat.zero_add _

theorem typeExpr_of_const_text :
    ∃ t : TypeExpr, t.WellFormed ∧ t.text = .ok "const **const const::const" ∧
      (bytesOf "const **const const::const").length ≤ Offset.bound - 2 ∧
      ∃ tokens u d, (Buffer.ofText 1 "const **const const::const").tokens = .ok tokens ∧
        typeExpr (.ofTokens tokens) = .ok u d ∧ d.rest = [] ∧ d.pos = tokens.length ∧
        t.same u = .ok true ∧ u.consts = [true, false, true] := by
  let word : Token := ⟨.identifier, ⟨0, 5⟩, ⟨1, 1⟩, .ofText 0 "const", by decide +kernel⟩
  let name : QualifiedName := ⟨[.ident word, .separator, .ident word]⟩
  have hword : word.text = .ok "const" := Fault.toOption_eq_some (by decide +kernel)
  have hname : name.WellFormed := by
    refine ⟨⟨word, rfl⟩, ?_, ?_⟩
    · intro s t hst
      have hneighbours : [true, true] <:+: name.units.map (·.token?.isSome) :=
        hst.map fun u : NameUnit => u.token?.isSome
      exact absurd hneighbours (by decide)
    · intro t ht
      simp only [name, List.mem_cons, NameUnit.ident.injEq, reduceCtorEq, List.not_mem_nil,
        or_false, false_or, or_self] at ht
      rw [ht]
      exact ⟨_, hword, TypeExpr.isIdentifier_const⟩
  let t : TypeExpr := .pointer true (.pointer false (.named true name))
  have ht : t.WellFormed := .pointer (.pointer (.named hname fun _ => rfl))
  have hshown : t.text = .ok "const **const const::const" :=
    Fault.toOption_eq_some (by decide +kernel)
  have hlength : (bytesOf "const **const const::const").length ≤ Offset.bound - 2 := by decide
  obtain ⟨text, htext, hread⟩ := typeExpr_of_text 1 t ht
  cases hshown.symm.trans htext
  exact ⟨t, ht, hshown, hlength, hread hlength⟩

end Rule

end FrontEnd
