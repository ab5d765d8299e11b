import FrontEnd.Grammar.Name
import FrontEnd.Proofs.Grammar.Rule
import FrontEnd.Proofs.Lexeme.Boundary

namespace FrontEnd

namespace Pattern

variable {p q : Pattern} {t : Token} {tokens rest : List Token} {taken : Taken} {m : Match}

theorem take?_eq_some {spacing : Spacing} (h : p.take? spacing tokens = .ok (some taken)) :
    taken.skipped = tokens.takeWhile spacing.skips ∧ p.accepts taken.token = .ok true := by
  unfold take? at h
  cases hdrop : tokens.dropWhile spacing.skips with
  | nil =>
    rw [hdrop] at h
    cases h
  | cons token rest =>
    rw [hdrop] at h
    dsimp only at h
    cases haccepts : p.accepts token with
    | error fault =>
      rw [haccepts] at h
      cases h
    | ok accepted =>
      rw [haccepts] at h
      cases accepted with
      | false => cases h
      | true =>
        cases h
        exact ⟨rfl, haccepts⟩

@[simp] theorem takeWhile_significant (tokens : List Token) :
    tokens.takeWhile Spacing.significant.skips = [] := by
  cases tokens <;> rfl

theorem take?_significant (h : p.take? .significant tokens = .ok (some taken)) :
    tokens = taken.token :: taken.rest ∧ taken.skipped = [] ∧ p.accepts taken.token = .ok true := by
  obtain ⟨hskipped, haccepts⟩ := take?_eq_some h
  rw [takeWhile_significant] at hskipped
  have happend := take?_append h
  rw [Taken.passed, hskipped] at happend
  exact ⟨happend.symm, hskipped, haccepts⟩

theorem matchAll_cons_significant {ps : List Pattern}
    (h : matchAll .significant (p :: ps) tokens = .ok (some m)) :
    ∃ token rest, tokens = token :: rest ∧ p.accepts token = .ok true ∧
      ∃ more, matchAll .significant ps rest = .ok (some more) ∧ more.rest = m.rest := by
  rcases matchAll_cons_eq_ok.1 h with ⟨_, hnone⟩ | ⟨first, more, htake, hmore, hfound⟩
  · cases hnone
  · obtain ⟨htokens, _, haccepts⟩ := take?_significant htake
    cases more with
    | none => cases hfound
    | some more =>
      cases hfound
      exact ⟨_, _, htokens, haccepts, more, hmore, rfl⟩

theorem take?_of_first (h : p.accepts t = .ok true) :
    p.take? .significant (t :: rest) = .ok (some ⟨[], t, rest⟩) := by
  have hdrop : (t :: rest).dropWhile Spacing.significant.skips = t :: rest := rfl
  have htake : (t :: rest).takeWhile Spacing.significant.skips = [] := rfl
  rw [take?, hdrop, htake]
  simp only [h]

theorem matchAll_of_first_two {u : Token} (h : p.accepts t = .ok true)
    (h' : q.accepts u = .ok true) :
    ∃ m, matchAll .significant [p, q] (t :: u :: rest) = .ok (some m) :=
  ⟨_, matchAll_cons_eq_ok.2 (.inr ⟨_, some _, take?_of_first h,
    matchAll_cons_eq_ok.2 (.inr ⟨_, some _, take?_of_first h', rfl, rfl⟩), rfl⟩)⟩

end Pattern

/-- The tokens of a row of units: an identifier is a token of its own, a separator is two colons. -/
inductive Spells : List NameUnit → List Token → Prop where
  | nil : Spells [] []
  | ident {t : Token} {us : List NameUnit} {ts : List Token} (kind_eq : t.kind = .identifier)
      (rest : Spells us ts) : Spells (.ident t :: us) (t :: ts)
  | separator {s t : Token} {us : List NameUnit} {ts : List Token}
      (first : Rule.colon.accepts s = .ok true) (second : Rule.colon.accepts t = .ok true)
      (rest : Spells us ts) : Spells (.separator :: us) (s :: t :: ts)

structure EndsUnits (left : List Token) : Prop where
  no_ident : ∀ t ∈ left.head?, t.kind ≠ .identifier
  no_separator : ∀ s t more, left = s :: t :: more →
    ¬(Rule.colon.accepts s = .ok true ∧ Rule.colon.accepts t = .ok true)

namespace Spells

variable {us vs : List NameUnit} {ts more : List Token}

theorem append (h : Spells us ts) (h' : Spells vs more) : Spells (us ++ vs) (ts ++ more) := by
  induction h with
  | nil => exact h'
  | ident kind_eq _ ih => exact .ident kind_eq ih
  | separator first second _ ih => exact .separator first second ih

theorem kind_of_mem {t : Token} (h : Spells us ts) (ht : .ident t ∈ us) :
    t ∈ ts ∧ t.kind = .identifier := by
  induction h with
  | nil => cases ht
  | ident kind_eq _ ih =>
    cases ht with
    | head => exact ⟨List.mem_cons_self, kind_eq⟩
    | tail _ ht => exact ⟨List.mem_cons_of_mem _ (ih ht).1, (ih ht).2⟩
  | separator _ _ _ ih =>
    cases ht with
    | tail _ ht => exact ⟨List.mem_cons_of_mem _ (List.mem_cons_of_mem _ (ih ht).1), (ih ht).2⟩

end Spells

namespace Rule

variable {c d : Cursor}

theorem consume_separator {tokens : List Token}
    (h : consume separator .significant c = .ok (some tokens) d) :
    ∃ s t, c.rest = s :: t :: d.rest ∧ colon.accepts s = .ok true ∧
      colon.accepts t = .ok true := by
  obtain ⟨found, hfound, hpass⟩ := consume_eq_ok.1 h
  cases found with
  | none => cases hpass
  | some m =>
    obtain ⟨s, rest, hs, hcolon, more, hmore, hrest⟩ := Pattern.matchAll_cons_significant hfound
    obtain ⟨t, left, ht, hcolon', last, hlast, hleft⟩ := Pattern.matchAll_cons_significant hmore
    cases hlast
    cases hpass
    refine ⟨s, t, ?_, hcolon, hcolon'⟩
    rw [hs, ht]
    exact congrArg (s :: t :: ·) (hleft.trans hrest)

theorem consume_none {ps : List Pattern} {spacing : Spacing}
    (h : consume ps spacing c = .ok none d) : d = c := by
  obtain ⟨found, _, hpass⟩ := consume_eq_ok.1 h
  cases found with
  | none => exact (Prod.mk.inj hpass).2.symm
  | some m => cases hpass

theorem take?_none {p : Pattern} {spacing : Spacing} (h : take? p spacing c = .ok none d) :
    d = c := by
  obtain ⟨taken, _, hfound, hd⟩ := take?_eq_ok.1 h
  cases taken with
  | none => exact hd
  | some taken => cases hfound

theorem take?_some {p : Pattern} {t : Token} (h : take? p .significant c = .ok (some t) d) :
    c.rest = t :: d.rest ∧ p.accepts t = .ok true := by
  obtain ⟨taken, htaken, hfound, rfl⟩ := take?_eq_ok.1 h
  cases taken with
  | none => cases hfound
  | some taken =>
    cases hfound
    obtain ⟨hrest, _, haccepts⟩ := Pattern.take?_significant htaken
    exact ⟨hrest, haccepts⟩

theorem unitRound_again {found more : List NameUnit} (h : unitRound found c = .ok (.again more) d) :
    ∃ u ts, more = u :: found ∧ c.rest = ts ++ d.rest ∧ Spells [u] ts := by
  obtain ⟨colons, e, hcolons, h⟩ := bind_eq_ok h
  cases colons with
  | some tokens =>
    obtain ⟨hmore, rfl⟩ := pure_eq_ok h
    cases hmore
    obtain ⟨s, t, hrest, hs, ht⟩ := consume_separator hcolons
    exact ⟨.separator, [s, t], rfl, hrest, .separator hs ht .nil⟩
  | none =>
    cases consume_none hcolons
    obtain ⟨ident, e, hident, h⟩ := bind_eq_ok h
    cases ident with
    | none => cases h
    | some t =>
      obtain ⟨hmore, rfl⟩ := pure_eq_ok h
      cases hmore
      obtain ⟨hrest, haccepts⟩ := take?_some hident
      exact ⟨.ident t, [t], rfl, hrest, .ident (beq_iff_eq.1 (Except.ok.inj haccepts)) .nil⟩

theorem unitRound_done {found us : List NameUnit} (h : unitRound found c = .ok (.done us) d) :
    us = found.reverse ∧ d = c ∧ EndsUnits c.rest := by
  obtain ⟨colons, e, hcolons, h⟩ := bind_eq_ok h
  cases colons with
  | some tokens => cases h
  | none =>
    cases consume_none hcolons
    obtain ⟨ident, e, hident, h⟩ := bind_eq_ok h
    cases ident with
    | some t => cases h
    | none =>
      cases take?_none hident
      obtain ⟨hdone, rfl⟩ := pure_eq_ok h
      cases hdone
      obtain ⟨found, hfound, hpass⟩ := consume_eq_ok.1 hcolons
      obtain ⟨taken, htaken, hnone, _⟩ := take?_eq_ok.1 hident
      refine ⟨rfl, rfl, ?_, ?_⟩
      · intro t ht hkind
        obtain ⟨rest, hrest⟩ := List.head?_eq_some_iff.1 ht
        have haccepts : anyIdentifier.accepts t = .ok true := by
          rw [anyIdentifier, Pattern.accepts, hkind]
          rfl
        rw [hrest, Pattern.take?_of_first haccepts] at htaken
        cases htaken
        cases hnone
      · rintro s t more hrest ⟨hs, ht⟩
        obtain ⟨m, hm⟩ := Pattern.matchAll_of_first_two hs ht
        rw [hrest, separator, hm] at hfound
        cases hfound
        cases hpass

theorem units_spell {us : List NameUnit} (h : units c = .ok us d) :
    ∃ ts, c.rest = ts ++ d.rest ∧ Spells us ts ∧ EndsUnits d.rest := by
  -- The units found before a round stay at the front of the result.
  have hloop : ∀ found, loop unitRound advancing_unitRound found c = .ok us d →
      ∃ read ts, us = found.reverse ++ read ∧ c.rest = ts ++ d.rest ∧ Spells read ts ∧
        EndsUnits d.rest := by
    intro found
    refine loop_induction (P := fun found c o => o = .ok us d →
      ∃ read ts, us = found.reverse ++ read ∧ c.rest = ts ++ d.rest ∧ Spells read ts ∧
        EndsUnits d.rest) ?_ ?_ ?_ found c
    · intro found c e d _ hfails
      cases hfails
    · intro found c vs e hround hends
      cases hends
      obtain ⟨rfl, rfl, hlast⟩ := unitRound_done hround
      exact ⟨[], [], (List.append_nil _).symm, rfl, .nil, hlast⟩
    · intro found c more e hround ih hends
      obtain ⟨u, ts, rfl, hrest, hunit⟩ := unitRound_again hround
      obtain ⟨read, left, rfl, hleft, hread, hlast⟩ := ih hends
      refine ⟨u :: read, ts ++ left, ?_, ?_, hunit.append hread, hlast⟩
      · rw [List.reverse_cons, List.append_assoc, List.singleton_append]
      · rw [hrest, hleft, List.append_assoc]
  obtain ⟨read, ts, rfl, hrest, hread, hlast⟩ := hloop [] h
  exact ⟨ts, hrest, hread, hlast⟩

theorem nameOf_eq_ok {us : List NameUnit} {m : QualifiedName} (h : nameOf us c = .ok m d) :
    m = ⟨us⟩ ∧ d = c ∧ ∃ t, us.getLast? = some (.ident t) := by
  cases hlast : us.getLast? with
  | none =>
    rw [nameOf, hlast] at h
    exact absurd h reject_ne_ok
  | some u =>
    rw [nameOf, hlast] at h
    cases u with
    | separator => exact absurd h reject_ne_ok
    | ident t =>
      obtain ⟨hname, rfl⟩ := pure_eq_ok h
      exact ⟨hname.symm, rfl, t, rfl⟩

/-- A name is spelled by tokens ahead, up to where no unit is next, with at most one token of
whitespace before them. -/
theorem name_spells {m : QualifiedName} (h : name c = .ok m d) :
    ∃ blank ts, c.rest = blank ++ ts ++ d.rest ∧
      (blank = [] ∨ ∃ w, blank = [w] ∧ w.isWhitespace = true) ∧ Spells m.units ts ∧
      (∃ t, m.units.getLast? = some (.ident t)) ∧ EndsUnits d.rest := by
  obtain ⟨_, e, hnote, h⟩ := bind_eq_ok h
  cases hnote
  unfold rewinding at h
  split at h
  · next hread =>
    cases h
    obtain ⟨blank, e, htake, hread⟩ := bind_eq_ok hread
    obtain ⟨us, f, hunits, hname⟩ := bind_eq_ok hread
    obtain ⟨ts, hrest, hspells, hends⟩ := units_spell hunits
    obtain ⟨rfl, rfl, hlast⟩ := nameOf_eq_ok hname
    cases blank with
    | none =>
      cases take?_none htake
      exact ⟨[], ts, hrest, .inl rfl, hspells, hlast, hends⟩
    | some w =>
      obtain ⟨hblank, haccepts⟩ := take?_some htake
      refine ⟨[w], ts, ?_, .inr ⟨w, rfl, Except.ok.inj haccepts⟩, hspells, hlast, hends⟩
      rw [List.append_assoc, ← hrest]
      exact hblank
  · cases h

end Rule

end FrontEnd
