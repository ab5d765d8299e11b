import FrontEnd.Grammar.Argument
import FrontEnd.Proofs.Grammar.Trail

namespace FrontEnd

def Match.followedBy (m n : Match) : Match := ⟨m.matched ++ n.matched, m.passed ++ n.passed, n.rest⟩

theorem Match.followedBy_assoc (m n o : Match) :
    (m.followedBy n).followedBy o = m.followedBy (n.followedBy o) := by
  simp only [followedBy, List.append_assoc]

namespace Pattern

variable {p : Pattern} {ps qs : List Pattern} {spacing : Spacing} {tokens rest : List Token}
  {t : Token} {m : Match}

theorem matchAll_append_eq_some :
    matchAll spacing (ps ++ qs) tokens = .ok (some m) ↔ ∃ first second,
      matchAll spacing ps tokens = .ok (some first) ∧
      matchAll spacing qs first.rest = .ok (some second) ∧ m = first.followedBy second := by
  induction ps generalizing tokens m with
  | nil =>
    constructor
    · intro h
      exact ⟨⟨[], [], tokens⟩, m, rfl, h, rfl⟩
    · rintro ⟨first, second, hfirst, hsecond, rfl⟩
      cases hfirst
      exact hsecond
  | cons p ps ih =>
    rw [List.cons_append]
    constructor
    · intro h
      rcases matchAll_cons_eq_ok.1 h with ⟨_, hnone⟩ | ⟨taken, more, htake, hmore, hfound⟩
      · cases hnone
      · cases more with
        | none => cases hfound
        | some more =>
          cases hfound
          obtain ⟨first, second, hfirst, hsecond, rfl⟩ := ih.1 hmore
          refine ⟨_, second, matchAll_cons_eq_ok.2 (.inr ⟨taken, _, htake, hfirst, rfl⟩),
            hsecond, ?_⟩
          simp only [Match.followedBy, List.cons_append, List.append_assoc]
    · rintro ⟨first, second, hfirst, hsecond, rfl⟩
      rcases matchAll_cons_eq_ok.1 hfirst with ⟨_, hnone⟩ | ⟨taken, more, htake, hmore, hfound⟩
      · cases hnone
      · cases more with
        | none => cases hfound
        | some more =>
          cases hfound
          apply matchAll_cons_eq_ok.2
          refine .inr ⟨taken, _, htake, ih.2 ⟨more, second, hmore, hsecond, rfl⟩, ?_⟩
          simp only [Match.followedBy, Option.map_some, List.cons_append, List.append_assoc]

theorem map_followedBy (m n : Match) (result : Except Fault (Option Match)) :
    (result.map (Option.map n.followedBy)).map (Option.map m.followedBy) =
      result.map (Option.map (m.followedBy n).followedBy) := by
  cases result with
  | error fault => rfl
  | ok found =>
    cases found with
    | none => rfl
    | some o => exact congrArg (Except.ok ∘ some) (Match.followedBy_assoc m n o).symm

/-- What a search has collected and passed already stands before what it finds from there. -/
theorem searchUntil_eq (collected passed : List Token) :
    p.searchUntil spacing collected passed tokens =
      (p.matchUntil spacing tokens).map
        (Option.map (Match.followedBy ⟨collected.reverse, passed.reverse, tokens⟩)) := by
  induction tokens generalizing collected passed with
  | nil => rfl
  | cons t rest ih =>
    rw [matchUntil, searchUntil, searchUntil]
    split
    · rw [ih, ih [] [t], map_followedBy]
      simp only [Match.followedBy, List.reverse_cons, List.reverse_nil, List.nil_append,
        List.append_nil]
    · cases p.accepts t with
      | error fault => rfl
      | ok accepted =>
        cases accepted with
        | true => simp [Except.map, Match.followedBy]
        | false =>
          dsimp only
          rw [ih, ih [t] [t], map_followedBy]
          simp only [Match.followedBy, List.reverse_cons, List.reverse_nil, List.nil_append]

theorem take?_of_dropWhile (h : tokens.dropWhile spacing.skips = t :: rest) :
    p.take? spacing tokens =
      match p.accepts t with
      | .error fault => .error fault
      | .ok true => .ok (some ⟨tokens.takeWhile spacing.skips, t, rest⟩)
      | .ok false => .ok none := by
  rw [take?]
  split
  · next hnil => cases h.symm.trans hnil
  · next token left hcons =>
    cases h.symm.trans hcons
    rfl

theorem matchUntil_of_nothing (h : tokens.dropWhile spacing.skips = []) :
    p.matchUntil spacing tokens = .ok none := by
  induction tokens with
  | nil => rfl
  | cons t rest ih =>
    rw [List.dropWhile_cons] at h
    split at h
    · next hskips =>
      rw [matchUntil, searchUntil, if_pos hskips, searchUntil_eq, ih h]
      rfl
    · cases h

theorem matchUntil_of_token (h : tokens.dropWhile spacing.skips = t :: rest) :
    p.matchUntil spacing tokens =
      match p.accepts t with
      | .error fault => .error fault
      | .ok true => .ok (some ⟨[], tokens.takeWhile spacing.skips ++ [t], rest⟩)
      | .ok false => (p.matchUntil spacing rest).map
          (Option.map (Match.followedBy ⟨[t], tokens.takeWhile spacing.skips ++ [t], rest⟩)) := by
  induction tokens with
  | nil => cases h
  | cons u tokens ih =>
    rw [List.dropWhile_cons] at h
    rw [matchUntil, searchUntil]
    split at h
    · next hskips =>
      rw [if_pos hskips, searchUntil_eq, ih h, List.takeWhile_cons_of_pos hskips]
      cases p.accepts t with
      | error fault => rfl
      | ok accepted =>
        cases accepted with
        | true => rfl
        | false =>
          dsimp only
          rw [map_followedBy]
          rfl
    · next hstays =>
      cases h
      rw [if_neg hstays, List.takeWhile_cons_of_neg hstays]
      cases p.accepts t with
      | error fault => rfl
      | ok accepted =>
        cases accepted with
        | true => rfl
        | false => exact searchUntil_eq [t] [t]

end Pattern

namespace Cursor

variable {c d e : Cursor} {p : Pattern} {ps qs : List Pattern} {spacing : Spacing}
  {ts : List Token} {t : Token}

def next? (c : Cursor) (spacing : Spacing) : Option (Token × Cursor) :=
  match c.rest.dropWhile spacing.skips with
  | [] => none
  | t :: rest => some (t, c.pass (c.rest.takeWhile spacing.skips ++ [t]) rest)

/-- The pattern is tried at one place after the other, and the token that is next where it does not
match is collected, up to where it matches. -/
inductive Seeks (p : Pattern) (spacing : Spacing) : Cursor → List Token → Cursor → Prop where
  | found {c d : Cursor} {t : Token} (matched : c.consume [p] spacing = .ok (some [t], d)) :
      Seeks p spacing c [] d
  | later {c d e : Cursor} {t : Token} {ts : List Token}
      (refused : c.consume [p] spacing = .ok (none, c)) (next : c.next? spacing = some (t, d))
      (more : Seeks p spacing d ts e) : Seeks p spacing c (t :: ts) e

@[simp] theorem pass_pass (c : Cursor) (xs ys us vs : List Token) :
    (c.pass xs us).pass ys vs = c.pass (xs ++ ys) vs := by
  simp only [pass, List.length_append, Nat.add_assoc, List.map_append, List.reverse_append,
    List.append_assoc]

section Passing

variable {result : Except Fault (Option Match)} {found : Option (List Token)}

theorem passing_eq_some :
    (result >>= fun found => pure (c.passing found)) = .ok (some ts, d) ↔
      ∃ m, result = .ok (some m) ∧ ts = m.matched ∧ d = c.pass m.passed m.rest := by
  rw [Fault.bind_eq_ok]
  constructor
  · rintro ⟨found, rfl, hpass⟩
    cases found with
    | none => cases hpass
    | some m =>
      cases hpass
      exact ⟨m, rfl, rfl, rfl⟩
  · rintro ⟨m, rfl, rfl, rfl⟩
    exact ⟨some m, rfl, rfl⟩

end Passing

theorem consume_eq_some : c.consume ps spacing = .ok (some ts, d) ↔
    ∃ m, Pattern.matchAll spacing ps c.rest = .ok (some m) ∧ ts = m.matched ∧
      d = c.pass m.passed m.rest := passing_eq_some

theorem consumeUntil_eq_some : c.consumeUntil p spacing = .ok (some ts, d) ↔
    ∃ m, p.matchUntil spacing c.rest = .ok (some m) ∧ ts = m.matched ∧
      d = c.pass m.passed m.rest := passing_eq_some

theorem consume_of_not (hc : c.Ordered)
    (h : ¬∃ ts d, c.consume ps spacing = .ok (some ts, d)) :
    c.consume ps spacing = .ok (none, c) := by
  obtain ⟨found, hfound⟩ := Pattern.exists_matchAll ps spacing hc
  have hmove : c.consume ps spacing = .ok (c.passing found) :=
    Fault.bind_eq_ok.2 ⟨found, hfound, rfl⟩
  cases found with
  | none => exact hmove
  | some m => exact absurd ⟨_, _, hmove⟩ h

theorem consumeUntil_of_not (hc : c.Ordered)
    (h : ¬∃ ts d, c.consumeUntil p spacing = .ok (some ts, d)) :
    c.consumeUntil p spacing = .ok (none, c) := by
  obtain ⟨found, hfound, _⟩ := Pattern.exists_searchUntil p spacing [] [] hc nofun
  have hmove : c.consumeUntil p spacing = .ok (c.passing found) :=
    Fault.bind_eq_ok.2 ⟨found, hfound, rfl⟩
  cases found with
  | none => exact hmove
  | some m => exact absurd ⟨_, _, hmove⟩ h

theorem consume_append_eq_some :
    c.consume (ps ++ qs) spacing = .ok (some ts, e) ↔ ∃ us vs d,
      c.consume ps spacing = .ok (some us, d) ∧ d.consume qs spacing = .ok (some vs, e) ∧
      ts = us ++ vs := by
  rw [consume_eq_some]
  constructor
  · rintro ⟨m, hm, rfl, rfl⟩
    obtain ⟨first, second, hfirst, hsecond, rfl⟩ := Pattern.matchAll_append_eq_some.1 hm
    refine ⟨first.matched, second.matched, c.pass first.passed first.rest,
      consume_eq_some.2 ⟨first, hfirst, rfl, rfl⟩, ?_, rfl⟩
    exact consume_eq_some.2 ⟨second, hsecond, rfl, (pass_pass c _ _ _ _).symm⟩
  · rintro ⟨us, vs, d, hus, hvs, rfl⟩
    obtain ⟨first, hfirst, rfl, rfl⟩ := consume_eq_some.1 hus
    obtain ⟨second, hsecond, rfl, rfl⟩ := consume_eq_some.1 hvs
    exact ⟨_, Pattern.matchAll_append_eq_some.2 ⟨first, second, hfirst, hsecond, rfl⟩, rfl,
      pass_pass c _ _ _ _⟩

section Next

variable {rest : List Token}

def past (c : Cursor) (spacing : Spacing) (t : Token) (rest : List Token) : Cursor :=
  c.pass (c.rest.takeWhile spacing.skips ++ [t]) rest

theorem consume_of_nothing (h : c.rest.dropWhile spacing.skips = []) :
    c.consume [p] spacing = .ok (none, c) := by
  have htake : p.take? spacing c.rest = .ok none := by rw [Pattern.take?, h]
  rw [consume, Pattern.matchAll, htake]
  rfl

theorem consume_of_token (h : c.rest.dropWhile spacing.skips = t :: rest) :
    c.consume [p] spacing =
      match p.accepts t with
      | .error fault => .error fault
      | .ok true => .ok (some [t], c.past spacing t rest)
      | .ok false => .ok (none, c) := by
  rw [consume, Pattern.matchAll, Pattern.take?_of_dropWhile h]
  cases p.accepts t with
  | error fault => rfl
  | ok accepted =>
    cases accepted with
    | false => rfl
    | true =>
      simp only [Pattern.matchAll, Taken.passed, List.append_nil]
      rfl

theorem next?_of_token (h : c.rest.dropWhile spacing.skips = t :: rest) :
    c.next? spacing = some (t, c.past spacing t rest) := by
  rw [next?, h]
  rfl

theorem consumeUntil_of_seeks (h : Seeks p spacing c ts e) :
    c.consumeUntil p spacing = .ok (some ts, e) := by
  rw [consumeUntil_eq_some]
  induction h with
  | @found c d t matched =>
    cases hdrop : c.rest.dropWhile spacing.skips with
    | nil =>
      rw [consume_of_nothing hdrop] at matched
      cases matched
    | cons u rest =>
      rw [Pattern.matchUntil_of_token hdrop]
      rw [consume_of_token hdrop] at matched
      split at matched
      · cases matched
      · cases matched
        exact ⟨_, rfl, rfl, rfl⟩
      · cases matched
  | @later c d e t ts refused next more ih =>
    obtain ⟨m, hm, rfl, rfl⟩ := ih
    cases hdrop : c.rest.dropWhile spacing.skips with
    | nil =>
      rw [next?, hdrop] at next
      cases next
    | cons u rest =>
      rw [next?_of_token hdrop] at next
      cases next
      rw [Pattern.matchUntil_of_token hdrop]
      rw [consume_of_token hdrop] at refused
      split at refused
      · cases refused
      · cases refused
      · rw [show p.matchUntil spacing rest = .ok (some m) from hm]
        exact ⟨_, rfl, rfl, pass_pass c _ _ _ _⟩

theorem seeks_of_consumeUntil (h : c.consumeUntil p spacing = .ok (some ts, e)) :
    Seeks p spacing c ts e := by
  obtain ⟨m, hm, rfl, rfl⟩ := consumeUntil_eq_some.1 h
  clear h
  generalize hlength : c.rest.length = n
  induction n using Nat.strongRecOn generalizing c m with
  | ind n ih =>
    cases hdrop : c.rest.dropWhile spacing.skips with
    | nil =>
      rw [Pattern.matchUntil_of_nothing hdrop] at hm
      cases hm
    | cons t rest =>
      have hsplit := List.takeWhile_append_dropWhile (p := spacing.skips) (l := c.rest)
      rw [hdrop] at hsplit
      have hconsume := consume_of_token (p := p) hdrop
      rw [Pattern.matchUntil_of_token hdrop] at hm
      split at hm
      · cases hm
      · next haccepts =>
        cases hm
        rw [haccepts] at hconsume
        exact .found hconsume
      · next haccepts =>
        rw [haccepts] at hconsume
        cases hrest : p.matchUntil spacing rest with
        | error fault =>
          rw [hrest] at hm
          cases hm
        | ok found =>
          rw [hrest] at hm
          cases found with
          | none => cases hm
          | some more =>
            cases hm
            have hlt : (c.past spacing t rest).rest.length < n := by
              rw [← hlength, ← hsplit, List.length_append, List.length_cons]
              exact Nat.lt_add_left _ (Nat.lt_succ_self _)
            have hmore := ih _ hlt _ hrest rfl
            rw [past, pass_pass] at hmore
            exact .later hconsume (next?_of_token hdrop) hmore

end Next

theorem consumeUntil_eq_some_iff_seeks :
    c.consumeUntil p spacing = .ok (some ts, e) ↔ Seeks p spacing c ts e :=
  ⟨seeks_of_consumeUntil, consumeUntil_of_seeks⟩

/-- How the ways to match at a cursor fit together: a list of patterns is matched in parts, one
after the other, and a search matches one pattern at one place after the other. Where that does not
succeed, the cursor stays. -/
structure Composes (c : Cursor) (spacing : Spacing) : Prop where
  append : ∀ ps qs ts e, c.consume (ps ++ qs) spacing = .ok (some ts, e) ↔ ∃ us vs d,
    c.consume ps spacing = .ok (some us, d) ∧ d.consume qs spacing = .ok (some vs, e) ∧
    ts = us ++ vs
  append_stays : ∀ ps qs, (¬∃ us vs d e, c.consume ps spacing = .ok (some us, d) ∧
    d.consume qs spacing = .ok (some vs, e)) → c.consume (ps ++ qs) spacing = .ok (none, c)
  seeks : ∀ p ts e, c.consumeUntil p spacing = .ok (some ts, e) ↔ Seeks p spacing c ts e
  seeks_stays : ∀ p, (¬∃ ts e, Seeks p spacing c ts e) →
    c.consumeUntil p spacing = .ok (none, c)

theorem matching_composes (c : Cursor) (spacing : Spacing) (h : c.Ordered) :
    c.Composes spacing where
  append := fun _ _ _ _ => consume_append_eq_some
  append_stays := by
    intro ps qs hparts
    apply consume_of_not h
    rintro ⟨ts, e, hboth⟩
    obtain ⟨us, vs, d, hus, hvs, _⟩ := consume_append_eq_some.1 hboth
    exact hparts ⟨us, vs, d, e, hus, hvs⟩
  seeks := fun _ _ _ => consumeUntil_eq_some_iff_seeks
  seeks_stays := by
    intro p hseeks
    apply consumeUntil_of_not h
    rintro ⟨ts, e, hfound⟩
    exact hseeks ⟨ts, e, seeks_of_consumeUntil hfound⟩

def spacedWords : List Token :=
  let source := Buffer.ofBytes 0 (bytesOf " a b ,")
  [⟨.whitespace, ⟨0, 1⟩, ⟨1, 1⟩, source, by decide⟩,
    ⟨.identifier, ⟨1, 2⟩, ⟨1, 2⟩, source, by decide⟩,
    ⟨.whitespace, ⟨2, 3⟩, ⟨1, 3⟩, source, by decide⟩,
    ⟨.identifier, ⟨3, 4⟩, ⟨1, 4⟩, source, by decide⟩,
    ⟨.whitespace, ⟨4, 5⟩, ⟨1, 5⟩, source, by decide⟩,
    ⟨.scopeOperator, ⟨5, 6⟩, ⟨1, 6⟩, source, by decide⟩]

theorem matching_composes_over_spacedWords :
    (Cursor.ofTokens spacedWords).Ordered ∧
    (∃ us vs d e, (ofTokens spacedWords).consume [Rule.anyIdentifier] .skipped =
        .ok (some us, d) ∧
      d.consume [Rule.anyIdentifier, Rule.comma] .skipped = .ok (some vs, e) ∧ e.pos = 6) ∧
    (∃ ts e, Seeks Rule.comma .skipped (.ofTokens spacedWords) ts e ∧ ts.length = 2) ∧
    (ofTokens spacedWords).consumeUntil (.ofKind .whitespace) .skipped =
      .ok (none, .ofTokens spacedWords) := by
  have hordered : ∀ t ∈ spacedWords, t.span.start ≤ t.span.stop := by decide
  have hlaw := matching_composes (.ofTokens spacedWords) .skipped hordered
  have hmatch : ((ofTokens spacedWords).consume
      ([Rule.anyIdentifier] ++ [Rule.anyIdentifier, Rule.comma]) .skipped).toOption.any
      (fun found => found.1.isSome && found.2.pos == 6) = true := by decide +kernel
  have hsearch : ((ofTokens spacedWords).consumeUntil Rule.comma .skipped).toOption.any
      (fun found => found.1.any (·.length == 2)) = true := by decide +kernel
  have hmiss : ((ofTokens spacedWords).consumeUntil (.ofKind .whitespace)
      .skipped).toOption.any (fun found => found.1.isSome) = false := by decide +kernel
  refine ⟨hordered, ?_, ?_, ?_⟩
  · obtain ⟨⟨found, e⟩, hfound, htest⟩ := (Option.any_eq_true _ _).1 hmatch
    obtain ⟨hsome, hpos⟩ := Bool.and_eq_true_iff.1 htest
    obtain ⟨ts, rfl⟩ := Option.isSome_iff_exists.1 hsome
    obtain ⟨us, vs, d, hus, hvs, _⟩ :=
      (hlaw.append _ _ ts e).1 (Fault.toOption_eq_some hfound)
    exact ⟨us, vs, d, e, hus, hvs, beq_iff_eq.1 hpos⟩
  · obtain ⟨⟨found, e⟩, hfound, htest⟩ := (Option.any_eq_true _ _).1 hsearch
    obtain ⟨ts, rfl, hlength⟩ := (Option.any_eq_true _ _).1 htest
    exact ⟨ts, e, (hlaw.seeks _ _ _).1 (Fault.toOption_eq_some hfound), beq_iff_eq.1 hlength⟩
  · apply hlaw.seeks_stays
    rintro ⟨ts, e, hseeks⟩
    rw [(hlaw.seeks _ ts e).2 hseeks] at hmiss
    cases hmiss

end Cursor

end FrontEnd
