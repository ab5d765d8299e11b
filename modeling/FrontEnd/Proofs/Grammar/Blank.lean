import FrontEnd.Grammar.Reading
import FrontEnd.Proofs.Grammar.Name
import FrontEnd.Proofs.Grammar.Simulation
import FrontEnd.Proofs.Lexeme.Comment

namespace FrontEnd

open Recognizer (blockOpen blockClose)
open Lexeme (cut spans Covers)

def Pattern.Visible (p : Pattern) : Prop :=
  ∀ t : Token, t.isWhitespace = true → p.accepts t = .ok false

/-- What is left of a token list from an index on, and of a list with the same tokens but two
whitespace tokens instead of the one at index `i`. -/
inductive Parted (i : Nat) : Nat → List Token → List Token → Prop where
  | behind {pos : Nat} {ts us : List Token} (rest : List.Forall₂ Token.Alike ts us) :
      Parted i pos ts us
  | here {blank first second : Token} {ts us : List Token} (blank_eq : blank.isWhitespace = true)
      (first_eq : first.isWhitespace = true) (second_eq : second.isWhitespace = true)
      (rest : List.Forall₂ Token.Alike ts us) :
      Parted i i (blank :: ts) (first :: second :: us)
  | ahead {pos : Nat} {t u : Token} {ts us : List Token} (token : t.Alike u)
      (rest : Parted i (pos + 1) ts us) : Parted i pos (t :: ts) (u :: us)

namespace Parted

variable {i pos : Nat} {t : Token} {ts us : List Token} {p : Pattern} {spacing : Spacing}

theorem of_nil (h : Parted i pos [] us) : us = [] := by
  cases h with
  | behind rest =>
    cases rest
    rfl

theorem next (h : Parted i pos (t :: ts) us) :
    ∃ u more, us = u :: more ∧ (t.Alike u ∧ Parted i (pos + 1) ts more ∨
      pos = i ∧ t.isWhitespace = true ∧ u.isWhitespace = true) := by
  cases h with
  | behind rest =>
    cases rest with
    | cons htoken hmore => exact ⟨_, _, rfl, .inl ⟨htoken, .behind hmore⟩⟩
  | here hblank hfirst _ _ => exact ⟨_, _, rfl, .inr ⟨rfl, hblank, hfirst⟩⟩
  | ahead htoken hmore => exact ⟨_, _, rfl, .inl ⟨htoken, hmore⟩⟩

theorem dropWhile (h : Parted i pos ts us) (spacing : Spacing) :
    Parted i (pos + (ts.takeWhile spacing.skips).length) (ts.dropWhile spacing.skips)
      (us.dropWhile spacing.skips) := by
  induction h with
  | behind rest => exact .behind (Token.Alike.dropWhile rest spacing)
  | here hblank hfirst hsecond rest =>
    cases spacing with
    | skipped =>
      have hskips : Spacing.skipped.skips = Token.isWhitespace := rfl
      rw [hskips, List.dropWhile_cons_of_pos hblank, List.dropWhile_cons_of_pos hfirst,
        List.dropWhile_cons_of_pos hsecond]
      exact .behind (Token.Alike.dropWhile rest .skipped)
    | significant => exact .here hblank hfirst hsecond rest
  | @ahead pos t u ts us htoken rest ih =>
    have hskips := htoken.skips_eq spacing
    cases hskip : spacing.skips t with
    | true =>
      rw [hskip] at hskips
      rw [List.takeWhile_cons_of_pos hskip, List.dropWhile_cons_of_pos hskip,
        List.dropWhile_cons_of_pos hskips.symm, List.length_cons, Nat.add_comm _ 1,
        ← Nat.add_assoc]
      exact ih
    | false =>
      rw [hskip] at hskips
      rw [List.takeWhile_cons_of_neg (by rw [hskip]; decide),
        List.dropWhile_cons_of_neg (by rw [hskip]; decide),
        List.dropWhile_cons_of_neg (by rw [← hskips]; decide)]
      exact .ahead htoken rest

theorem take? (h : Parted i pos ts us) (hp : p.Visible ∨ spacing = .skipped ∨ pos ≠ i)
    {found : Option Taken} (htake : p.take? spacing ts = .ok found) :
    ∃ found', p.take? spacing us = .ok found' ∧
      Option.Rel (fun x y => x.token.Alike y.token ∧ Parted i (pos + x.passed.length) x.rest y.rest)
        found found' := by
  have hdrop := h.dropWhile spacing
  have hhead := List.head?_dropWhile_not spacing.skips ts
  unfold Pattern.take? at htake ⊢
  cases hts : ts.dropWhile spacing.skips with
  | nil =>
    rw [hts] at htake hdrop
    cases htake
    rw [hdrop.of_nil]
    exact ⟨none, rfl, .none⟩
  | cons t rest =>
    rw [hts] at htake hdrop hhead
    obtain ⟨u, more, hus, hnext⟩ := hdrop.next
    rw [hus]
    dsimp only at htake ⊢
    rcases hnext with ⟨halike, hmore⟩ | ⟨hpos, hblank, hfirst⟩
    · obtain ⟨accepted, ht, hu⟩ := halike.exists_accepts p
      rw [ht] at htake
      rw [hu]
      cases accepted with
      | false =>
        cases htake
        exact ⟨none, rfl, .none⟩
      | true =>
        cases htake
        refine ⟨_, rfl, .some ⟨halike, ?_⟩⟩
        rw [Taken.passed, List.length_append, ← Nat.add_assoc]
        exact hmore
    · -- Whitespace is next on both sides, so it is not skipped and the pattern is not for it.
      cases spacing with
      | skipped => exact Bool.noConfusion (hblank.symm.trans hhead)
      | significant =>
        rw [Pattern.takeWhile_significant] at hpos
        rcases hp with hvisible | hskipped | hne
        · rw [hvisible t hblank] at htake
          cases htake
          rw [hvisible u hfirst]
          exact ⟨none, rfl, .none⟩
        · cases hskipped
        · exact absurd hpos hne

theorem matchAll {ps : List Pattern} (h : Parted i pos ts us)
    (hps : ∀ p ∈ ps, p.Visible ∨ spacing = .skipped) {found : Option Match}
    (hmatch : Pattern.matchAll spacing ps ts = .ok found) :
    ∃ found', Pattern.matchAll spacing ps us = .ok found' ∧
      Option.Rel (fun x y => List.Forall₂ Token.Alike x.matched y.matched ∧
        Parted i (pos + x.passed.length) x.rest y.rest) found found' := by
  induction ps generalizing pos ts us found with
  | nil =>
    cases hmatch
    exact ⟨_, rfl, .some ⟨.nil, h⟩⟩
  | cons p ps ih =>
    obtain ⟨hp, hps⟩ := List.forall_mem_cons.1 hps
    rcases Pattern.matchAll_cons_eq_ok.1 hmatch with ⟨htake, rfl⟩ | ⟨first, more, htake, hmore, rfl⟩
    · obtain ⟨_, htake', hrel⟩ := h.take? (hp.imp_right .inl) htake
      cases hrel
      exact ⟨none, Pattern.matchAll_cons_eq_ok.2 (.inl ⟨htake', rfl⟩), .none⟩
    · obtain ⟨_, htake', hrel⟩ := h.take? (hp.imp_right .inl) htake
      cases hrel with
      | some hfirst =>
        obtain ⟨more', hmore', hrel⟩ := ih hfirst.2 hps hmore
        refine ⟨_, Pattern.matchAll_cons_eq_ok.2 (.inr ⟨_, more', htake', hmore', rfl⟩), ?_⟩
        cases hrel with
        | none => exact .none
        | some hlast =>
          refine .some ⟨.cons hfirst.1 hlast.1, ?_⟩
          rw [List.length_append, ← Nat.add_assoc]
          exact hlast.2

end Parted

/-- Two cursors stand at the same place, but one has two whitespace tokens ahead where the other has
one, at index `i`, unless both are past it. -/
def PartedAt (i : Nat) (c d : Cursor) : Prop := Parted i c.pos c.rest d.rest

namespace Rule

variable {i : Nat} {c d c' : Cursor} {p : Pattern} {ps : List Pattern} {spacing : Spacing}
  {barred : Record}

theorem take?_partedAt {found : Option Token} (h : PartedAt i c c')
    (hp : p.Visible ∨ spacing = .skipped ∨ c.pos ≠ i) (htake : take? p spacing c = .ok found d) :
    ∃ found' d', take? p spacing c' = .ok found' d' ∧ Option.Rel Token.Alike found found' ∧
      PartedAt i d d' := by
  obtain ⟨taken, htaken, rfl, rfl⟩ := take?_eq_ok.1 htake
  obtain ⟨taken', htaken', hrel⟩ := h.take? hp htaken
  refine ⟨_, _, take?_eq_ok.2 ⟨taken', htaken', rfl, rfl⟩, ?_⟩
  cases hrel with
  | none => exact ⟨.none, h⟩
  | some hboth => exact ⟨.some hboth.1, hboth.2⟩

theorem simulates_take? (hp : p.Visible ∨ spacing = .skipped) :
    Simulates (PartedAt i) barred (Option.Rel Token.Alike) (take? p spacing) (take? p spacing) where
  forward := forward_take? p spacing
  run := fun _ _ _ _ hR htake _ => take?_partedAt hR (hp.imp_right .inl) htake

theorem simulates_consume (hps : ∀ p ∈ ps, p.Visible ∨ spacing = .skipped) :
    Simulates (PartedAt i) barred (Option.Rel (List.Forall₂ Token.Alike)) (consume ps spacing)
      (consume ps spacing) where
  forward := forward_consume ps spacing
  run := by
    intro c d c' found hR hconsume _
    obtain ⟨taken, hmatch, hpass⟩ := consume_eq_ok.1 hconsume
    obtain ⟨taken', hmatch', hrel⟩ := Parted.matchAll hR hps hmatch
    refine ⟨_, _, consume_eq_ok.2 ⟨taken', hmatch', rfl⟩, ?_⟩
    cases hrel with
    | none =>
      cases hpass
      exact ⟨.none, hR⟩
    | some hboth =>
      cases hpass
      exact ⟨.some hboth.1, hboth.2⟩

theorem simulates_peek (ps : List Pattern) :
    Simulates (PartedAt i) barred Eq (ask (·.peek ps)) (ask (·.peek ps)) where
  forward := forward_ask _
  run := by
    intro c d c' found hR hask _
    unfold ask at hask
    split at hask
    · next hpeek =>
      cases hask
      obtain ⟨taken, hmatch, hfound⟩ := Fault.bind_eq_ok.1 hpeek
      obtain ⟨taken', hmatch', hrel⟩ := Parted.matchAll hR (fun _ _ => .inr rfl) hmatch
      have hother : ask (·.peek ps) c' = .ok taken'.isSome c' := by
        rw [ask, Cursor.peek, hmatch']
        rfl
      cases hfound
      refine ⟨_, c', hother, ?_, hR⟩
      cases hrel with
      | none => rfl
      | some _ => rfl
    · cases hask

theorem visible_colon : colon.Visible := by
  intro t hblank
  have hkind : t.kind ≠ .scopeOperator := by
    rw [beq_iff_eq.1 hblank]
    decide
  exact if_neg hkind

theorem visible_anyIdentifier : anyIdentifier.Visible := by
  intro t hblank
  have hkind : t.kind ≠ .identifier := by
    rw [beq_iff_eq.1 hblank]
    decide
  exact congrArg Except.ok (beq_eq_false_iff_ne.2 hkind)

theorem congruence_partedAt : Congruence fun _ _ => Simulates (PartedAt i) barred :=
  Simulates.congruence (fun _ _ _ _ hR => hR) fun _ => simulates_take? (.inr rfl)

theorem simulates_units :
    Simulates (PartedAt i) barred (List.Forall₂ NameUnit.Alike) units units := by
  have hseparator : ∀ p ∈ separator, p.Visible ∨ Spacing.significant = .skipped := by
    intro p hp
    rw [List.eq_of_mem_replicate (show p ∈ List.replicate 2 colon from hp)]
    exact .inl visible_colon
  exact congruence_partedAt.units (simulates_consume hseparator)
    (simulates_take? (.inl visible_anyIdentifier))

theorem simulates_name : Simulates (PartedAt i) (.readingName i) QualifiedName.Alike name name where
  forward := forward_name
  run := by
    intro c d c' m hR hname hbarred
    obtain ⟨_, _, hnote, hname⟩ := bind_eq_ok hname
    cases hnote
    have hafter (m : Option Token) : Forward (units >>= nameOf) :=
      (forward_loop forward_unitRound _).bind forward_nameOf
    have hforward := ((forward_take? anyWhitespace .significant).bind hafter).rewinding
    have hpos : c.pos ≠ i := by
      rintro rfl
      exact (hforward hname).not_mem hbarred List.mem_cons_self
    unfold rewinding at hname
    split at hname
    · next hread =>
      cases hname
      obtain ⟨blank, e, hblank, hread⟩ := bind_eq_ok hread
      have hnoted : PartedAt i (c.note (.readingName c.pos)) (c'.note (.readingName c'.pos)) := hR
      obtain ⟨_, e', hblank', _, hR⟩ := take?_partedAt hnoted (.inr (.inr hpos)) hblank
      obtain ⟨n, d', hother, halike, hR⟩ :=
        (simulates_units.bind forward_nameOf fun _ _ => congruence_partedAt.nameOf).run hR hread
          hbarred
      have hread' : (take? anyWhitespace .significant >>= fun _ => units >>= nameOf)
          (c'.note (.readingName c'.pos)) = .ok n d' := (bind_of_ok hblank').trans hother
      exact ⟨n, d', rewinding_of_ok hread', halike, hR⟩
    · cases hname

theorem simulation_partedAt (i : Nat) : Simulation (PartedAt i) (.readingName i) where
  note := fun _ _ _ _ hR => hR
  take? := fun _ => simulates_take? (.inr rfl)
  peek := simulates_peek
  name := simulates_name

end Rule

theorem parted_of_contents {ts us : List Token} {xs ys : List (Kind × List UInt8)}
    {x : Kind × List UInt8} {pos : Nat} (hx : x.1 = Kind.whitespace)
    (h : List.Forall₂ (fun t x => t.content = .ok x) ts (xs ++ x :: ys))
    (h' : List.Forall₂ (fun t x => t.content = .ok x) us (xs ++ x :: x :: ys)) :
    Parted (pos + xs.length) pos ts us := by
  have hblank : ∀ {t : Token}, t.content = .ok x → t.isWhitespace = true := by
    intro t ht
    exact beq_iff_eq.2 ((Token.kind_of_content ht).trans hx)
  induction xs generalizing pos ts us with
  | nil =>
    cases h with
    | cons ht hts =>
      cases h' with
      | cons hu h' =>
        cases h' with
        | cons hv hus => exact .here (hblank ht) (hblank hu) (hblank hv) (Token.forall₂_alike hts hus)
  | cons y xs ih =>
    cases h with
    | cons ht hts =>
      cases h' with
      | cons hu hus =>
        have hrest : Parted (pos + 1 + xs.length) (pos + 1) _ _ := ih hts hus
        rw [Nat.add_right_comm] at hrest
        exact .ahead ⟨y, ht, hu⟩ hrest

def Cursor.ReadNameAt (c : Cursor) (i : Nat) : Prop := .readingName i ∈ c.journal

def Argument.Agree (a b : Argument) : Prop :=
  a.mode = b.mode ∧ (∃ text, a.name.text = .ok text ∧ b.name.text = .ok text) ∧
    sameTypes a.type b.type = .ok true

theorem Argument.Alike.agree {a b : Argument} (h : a.Alike b) : a.Agree b :=
  ⟨h.mode_eq, h.name.exists_text, sameTypes_of_alike h.type⟩

namespace Rule

open Lexeme (doubled)

/-- Types and arguments stay what they are when a comment splits a whitespace token, unless the name
of a type is read from that token on: only one whitespace token may come before a name. -/
theorem comment_in_whitespace (id other : Nat) (text body : List UInt8)
    (hbody : ¬blockClose <:+: body) (h : text.length ≤ Offset.bound - 2) :
    ∃ tokens contents, (Buffer.ofBytes id text).tokens = .ok tokens ∧
      tokens.mapM Token.content = .ok contents ∧
      ∀ i blank, tokens[i]? = some blank → blank.kind = .whitespace →
        (doubled text body blank.span).length ≤ Offset.bound - 2 →
        ∃ others, (Buffer.ofBytes other (doubled text body blank.span)).tokens = .ok others ∧
          others.mapM Token.content = .ok (contents.take (i + 1) ++ contents.drop i) ∧
          (∀ t d, typeExpr (.ofTokens tokens) = .ok t d → ¬d.ReadNameAt i →
            ∃ u e, typeExpr (.ofTokens others) = .ok u e ∧ t.same u = .ok true) ∧
          ∀ as d, arguments (.ofTokens tokens) = .ok as d → ¬d.ReadNameAt i →
            ∃ bs e, arguments (.ofTokens others) = .ok bs e ∧ List.Forall₂ Argument.Agree as bs := by
  obtain ⟨tokens, htokens, hcovers⟩ := Buffer.exists_tokens_of_text id h
  refine ⟨tokens, _, htokens, hcovers.mapM_content, ?_⟩
  intro i blank hi hkind hlength
  obtain ⟨others, xs, x, ys, hothers, hx, hcount, hcontent, hdoubled⟩ :=
    hcovers.exists_doubled other hbody hi hkind hlength
  have hparted : Parted (0 + xs.length) 0 tokens others :=
    parted_of_contents hx (Fault.forall₂_of_mapM hcontent) (Fault.forall₂_of_mapM hdoubled)
  rw [Nat.zero_add, hcount] at hparted
  have hstart : PartedAt i (.ofTokens tokens) (.ofTokens others) := hparted
  have hcut := Except.ok.inj (hcovers.mapM_content.symm.trans hcontent)
  refine ⟨others, hothers, ?_, ?_, ?_⟩
  · have htake : (xs ++ x :: ys).take (xs.length + 1) = xs ++ [x] := by
      rw [List.take_length_add_append, List.take_succ_cons, List.take_zero]
    rw [hcut, ← hcount, htake, List.drop_left, List.append_assoc, List.singleton_append]
    exact hdoubled
  · intro t d ht hname
    obtain ⟨u, e, hu, halike, _⟩ := (simulation_partedAt i).typeExpr.run hstart ht hname
    exact ⟨u, e, hu, halike.same_eq⟩
  · intro as d has hname
    obtain ⟨bs, e, hbs, halike, _⟩ := (simulation_partedAt i).arguments.run hstart has hname
    exact ⟨bs, e, hbs, halike.imp fun _ _ => Argument.Alike.agree⟩

theorem comment_in_whitespace_after_colon :
    (¬blockClose <:+: bytesOf "," ∧ (bytesOf "a : *int)").length ≤ Offset.bound - 2) ∧
    ∃ tokens as d others bs e, (Buffer.ofBytes 0 (bytesOf "a : *int)")).tokens = .ok tokens ∧
      arguments (.ofTokens tokens) = .ok as d ∧ as.map (·.mode) = [.input] ∧
      (Buffer.ofBytes 1 (bytesOf "a : /*,*/ *int)")).tokens = .ok others ∧
      arguments (.ofTokens others) = .ok bs e ∧ List.Forall₂ Argument.Agree as bs := by
  have hbody : ¬blockClose <:+: bytesOf "," := by decide
  have hlength : (bytesOf "a : *int)").length ≤ Offset.bound - 2 := by decide
  obtain ⟨tokens, _, htokens, _, hsplit⟩ :=
    comment_in_whitespace 0 1 (bytesOf "a : *int)") (bytesOf ",") hbody hlength
  let test (as : List Argument) (d : Cursor) : Bool :=
    as.map (·.mode) == [.input] && d.journal.all fun r =>
      match r with
      | .readingName pos => pos != 3
      | _ => true
  have hrun : succeedsOn arguments 0 (bytesOf "a : *int)") test = true := by decide +kernel
  obtain ⟨_, as, d, hread, has, htest⟩ := exists_of_succeedsOn hrun
  cases htokens.symm.trans hread
  obtain ⟨hmodes, hjournal⟩ := Bool.and_eq_true_iff.1 htest
  have hname : ¬d.ReadNameAt 3 := by
    intro hmem
    exact absurd (List.all_eq_true.1 hjournal _ hmem) (by decide)
  have hcovers := Buffer.covers_of_tokens htokens hlength
  have hplace : (spans 0 (cut (bytesOf "a : *int)")))[3]? = some (.whitespace, ⟨3, 4⟩) := by
    decide +kernel
  obtain ⟨blank, hblank, hkind, hspan⟩ := hcovers.exists_token hplace
  have hdoubled : doubled (bytesOf "a : *int)") (bytesOf ",") blank.span =
      bytesOf "a : /*,*/ *int)" := by
    rw [hspan]
    decide +kernel
  have hshort : (doubled (bytesOf "a : *int)") (bytesOf ",") blank.span).length ≤
      Offset.bound - 2 := by
    rw [hdoubled]
    decide
  obtain ⟨others, hothers, _, _, harguments⟩ := hsplit 3 blank hblank hkind hshort
  obtain ⟨bs, e, hbs, hagree⟩ := harguments as d has hname
  rw [hdoubled] at hothers
  exact ⟨⟨hbody, hlength⟩, tokens, as, d, others, bs, e, htokens, has, beq_iff_eq.1 hmodes, hothers,
    hbs, hagree⟩

/-- A comment after the whitespace before a name leaves two whitespace tokens there, and the name takes
one. -/
theorem comment_before_name :
    ∃ tokens blank t d others error, (Buffer.ofBytes 0 (bytesOf " int")).tokens = .ok tokens ∧
      tokens[0]? = some blank ∧ blank.kind = .whitespace ∧
      typeExpr (.ofTokens tokens) = .ok t d ∧ d.pos = 2 ∧
      (Buffer.ofBytes 1 (doubled (bytesOf " int") [] blank.span)).tokens = .ok others ∧
      (typeExpr.runAt (.ofTokens others)).1 = .ok (.error error) := by
  have hrun : succeedsOn typeExpr 0 (bytesOf " int") (fun _ d => d.pos == 2) = true := by
    decide +kernel
  have hrun' : ((Buffer.ofBytes 1 (doubled (bytesOf " int") [] ⟨0, 1⟩)).tokens.toOption.any
      fun others => (typeExpr.runAt (.ofTokens others)).1.toOption.any (·.toOption.isNone)) =
        true := by
    decide +kernel
  have hlength : (bytesOf " int").length ≤ Offset.bound - 2 := by decide
  obtain ⟨tokens, t, d, htokens, ht, hpos⟩ := exists_of_succeedsOn hrun
  have hcovers := Buffer.covers_of_tokens htokens hlength
  have hplace : (spans 0 (cut (bytesOf " int")))[0]? = some (.whitespace, ⟨0, 1⟩) := by
    decide +kernel
  obtain ⟨blank, hblank, hkind, hspan⟩ := hcovers.exists_token hplace
  rw [← hspan] at hrun'
  obtain ⟨others, hothers, hrun'⟩ := (Option.any_eq_true _ _).1 hrun'
  obtain ⟨result, hresult, hnone⟩ := (Option.any_eq_true _ _).1 hrun'
  refine ⟨tokens, blank, t, d, others, ?_⟩
  cases result with
  | ok u => cases hnone
  | error error =>
    exact ⟨error, htokens, hblank, hkind, ht, beq_iff_eq.1 hpos, Fault.toOption_eq_some hothers,
      Fault.toOption_eq_some hresult⟩

end Rule

end FrontEnd
