import FrontEnd.Grammar.TypeExpr
import FrontEnd.Proofs.Grammar.Name

namespace FrontEnd

inductive Qualifies : Bool → List Token → Prop where
  | const {t : Token} (accepts : Rule.constKeyword.accepts t = .ok true) : Qualifies true [t]
  | plain : Qualifies false []

/-- The tokens of a type without whitespace, from the outermost level in. -/
inductive TypeExpr.Spelled : TypeExpr → List Token → Prop where
  | named {isConst : Bool} {n : QualifiedName} {qualifier ts : List Token}
      (qualifies : Qualifies isConst qualifier) (spells : Spells n.units ts) :
      Spelled (.named isConst n) (qualifier ++ ts)
  | pointer {isConst : Bool} {pointee : TypeExpr} {qualifier ts : List Token} {t : Token}
      (qualifies : Qualifies isConst qualifier) (star : Rule.star.accepts t = .ok true)
      (spelled : Spelled pointee ts) : Spelled (.pointer isConst pointee) (qualifier ++ t :: ts)

namespace Pattern

variable {p : Pattern} {tokens : List Token} {taken : Taken}

theorem filter_passed (h : p.take? .skipped tokens = .ok (some taken)) :
    taken.passed.filter (!·.isWhitespace) = [taken.token] := by
  obtain ⟨hskipped, _⟩ := take?_eq_some h
  have happend := take?_append h
  have hdrop : tokens.dropWhile Spacing.skipped.skips = taken.token :: taken.rest := by
    rw [Taken.passed, List.append_assoc, hskipped] at happend
    exact List.append_cancel_left (happend.trans List.takeWhile_append_dropWhile.symm).symm
  have hblank : taken.skipped.filter (!·.isWhitespace) = [] := by
    rw [List.filter_eq_nil_iff, hskipped]
    intro t ht hstays
    have hskips : t.isWhitespace = true := List.all_eq_true.1 List.all_takeWhile t ht
    rw [hskips] at hstays
    cases hstays
  have hstays : taken.token.isWhitespace = false := by
    have hhead := List.head?_dropWhile_not Spacing.skipped.skips tokens
    rw [hdrop] at hhead
    exact hhead
  rw [Taken.passed, List.filter_append, hblank, List.nil_append,
    List.filter_cons_of_pos (by rw [hstays]; rfl), List.filter_nil]

end Pattern

theorem Spells.not_whitespace {us : List NameUnit} {ts : List Token} (h : Spells us ts) :
    ∀ t ∈ ts, t.isWhitespace = false := by
  induction h with
  | nil => exact List.forall_mem_nil _
  | ident kind_eq _ ih =>
    refine List.forall_mem_cons.2 ⟨?_, ih⟩
    rw [Token.isWhitespace, kind_eq]
    rfl
  | separator first second _ ih =>
    refine List.forall_mem_cons.2 ⟨?_, List.forall_mem_cons.2 ⟨?_, ih⟩⟩
    · rw [Token.isWhitespace, Pattern.kind_of_accepts first]
      rfl
    · rw [Token.isWhitespace, Pattern.kind_of_accepts second]
      rfl

theorem Cursor.Reaches.pos_eq {c d : Cursor} {passed : List Token} (h : c.Reaches d)
    (hrest : c.rest = passed ++ d.rest) : d.pos = c.pos + passed.length := by
  obtain ⟨others, hothers, hpos, _⟩ := h
  rw [hpos, List.append_cancel_right (hothers.symm.trans hrest)]

namespace Rule

variable {c d : Cursor}

theorem take?_passes {p : Pattern} {token : Option Token} (h : take? p .skipped c = .ok token d) :
    ∃ passed, c.rest = passed ++ d.rest ∧ passed.filter (!·.isWhitespace) = token.toList ∧
      ∀ t ∈ token, p.accepts t = .ok true := by
  obtain ⟨taken, htaken, rfl, rfl⟩ := take?_eq_ok.1 h
  cases taken with
  | none => exact ⟨[], rfl, rfl, fun t ht => nomatch ht⟩
  | some taken =>
    refine ⟨taken.passed, (Pattern.take?_append htaken).symm, Pattern.filter_passed htaken, ?_⟩
    rintro _ ⟨⟩
    exact (Pattern.take?_eq_some htaken).2

theorem qualifies {token : Option Token} (h : ∀ t ∈ token, constKeyword.accepts t = .ok true) :
    Qualifies token.isSome token.toList := by
  cases token with
  | none => exact .plain
  | some t => exact .const (h t rfl)

variable {around more : List Bool} {t : TypeExpr}

theorem typeRound_again (h : typeRound around c = .ok (.again more) d) :
    ∃ isConst qualifier s passed, more = isConst :: around ∧ c.rest = passed ++ d.rest ∧
      passed.filter (!·.isWhitespace) = qualifier ++ [s] ∧ Qualifies isConst qualifier ∧
      star.accepts s = .ok true := by
  obtain ⟨_, _, hnote, h⟩ := bind_eq_ok h
  cases hnote
  obtain ⟨token, e, hconst, h⟩ := bind_eq_ok h
  obtain ⟨pointer, f, hstar, h⟩ := bind_eq_ok h
  cases pointer with
  | none =>
    obtain ⟨n, g, _, h⟩ := bind_eq_ok h
    cases h
  | some s =>
    cases h
    obtain ⟨before, hbefore, hqualifier, hkeyword⟩ := take?_passes hconst
    obtain ⟨after, hafter, hs, haccepts⟩ := take?_passes hstar
    refine ⟨token.isSome, token.toList, s, before ++ after, rfl, ?_, ?_, qualifies hkeyword,
      haccepts s rfl⟩
    · rw [List.append_assoc, ← hafter]
      exact hbefore
    · rw [List.filter_append, hqualifier, hs]
      rfl

theorem typeRound_done (h : typeRound around c = .ok (.done t) d) :
    ∃ (inner : TypeExpr) (passed : List Token), t = inner.under around ∧
      c.rest = passed ++ d.rest ∧ inner.Spelled (passed.filter (!·.isWhitespace)) := by
  obtain ⟨_, _, hnote, h⟩ := bind_eq_ok h
  cases hnote
  obtain ⟨token, e, hconst, h⟩ := bind_eq_ok h
  obtain ⟨pointer, f, hstar, h⟩ := bind_eq_ok h
  cases pointer with
  | some s => cases h
  | none =>
    cases take?_none hstar
    obtain ⟨n, g, hname, h⟩ := bind_eq_ok h
    cases h
    obtain ⟨before, hbefore, hqualifier, hkeyword⟩ := take?_passes hconst
    obtain ⟨blank, ts, hrest, hblank, hspells, _⟩ := name_spells hname
    refine ⟨.named token.isSome n, before ++ (blank ++ ts), rfl, ?_, ?_⟩
    · rw [List.append_assoc, ← hrest]
      exact hbefore
    · have hnone : blank.filter (!·.isWhitespace) = [] := by
        rcases hblank with rfl | ⟨w, rfl, hw⟩
        · rfl
        · rw [List.filter_cons_of_neg (by rw [hw]; decide), List.filter_nil]
      have hall : ts.filter (!·.isWhitespace) = ts := by
        rw [List.filter_eq_self]
        intro u hu
        rw [hspells.not_whitespace u hu]
        rfl
      rw [List.filter_append, List.filter_append, hqualifier, hnone, hall, List.nil_append]
      exact .named (qualifies hkeyword) hspells

theorem typeExpr_spelled (h : typeExpr c = .ok t d) :
    ∃ passed, c.rest = passed ++ d.rest ∧ t.Spelled (passed.filter (!·.isWhitespace)) := by
  have hloop : ∀ around, loop typeRound advancing_typeRound around c = .ok t d →
      ∃ (inner : TypeExpr) (passed : List Token), t = inner.under around ∧
        c.rest = passed ++ d.rest ∧ inner.Spelled (passed.filter (!·.isWhitespace)) := by
    intro around
    refine loop_induction (P := fun around c o => o = .ok t d →
      ∃ (inner : TypeExpr) (passed : List Token), t = inner.under around ∧
        c.rest = passed ++ d.rest ∧ inner.Spelled (passed.filter (!·.isWhitespace))) ?_ ?_ ?_
      around c
    · intro around c e d _ hfails
      cases hfails
    · intro around c t e hround hends
      cases hends
      exact typeRound_done hround
    · intro around c more e hround ih hends
      obtain ⟨isConst, qualifier, s, passed, rfl, hrest, hpassed, hqualifies, hstar⟩ :=
        typeRound_again hround
      obtain ⟨inner, later, rfl, hlater, hspelled⟩ := ih hends
      refine ⟨.pointer isConst inner, passed ++ later, rfl, ?_, ?_⟩
      · rw [hrest, hlater, List.append_assoc]
      · rw [List.filter_append, hpassed, List.append_assoc]
        exact .pointer hqualifies hstar hspelled
  unfold typeExpr rewinding at h
  split at h
  · next hread =>
    cases h
    obtain ⟨inner, passed, rfl, hrest, hspelled⟩ := hloop [] hread
    exact ⟨passed, hrest, hspelled⟩
  · cases h

/-- Names and types are the tokens that were passed for them, each once and in order: none is lost,
and none made up. -/
theorem readings_spell_passed (c : Cursor) :
    (∀ n d, name c = .ok n d → ∃ blank ts, c.rest = blank ++ ts ++ d.rest ∧
      d.pos = c.pos + (blank ++ ts).length ∧
      (blank = [] ∨ ∃ w, blank = [w] ∧ w.isWhitespace = true) ∧ Spells n.units ts ∧
      (∀ t ∈ ts, t.isWhitespace = false) ∧ (∃ t, n.units.getLast? = some (.ident t)) ∧
      EndsUnits d.rest) ∧
    ∀ t d, typeExpr c = .ok t d → ∃ passed, c.rest = passed ++ d.rest ∧
      d.pos = c.pos + passed.length ∧ t.Spelled (passed.filter (!·.isWhitespace)) := by
  constructor
  · intro n d h
    obtain ⟨blank, ts, hrest, hblank, hspells, hlast, hends⟩ := name_spells h
    exact ⟨blank, ts, hrest, (forward_name h).pos_eq hrest, hblank, hspells,
      hspells.not_whitespace, hlast, hends⟩
  · intro t d h
    obtain ⟨passed, hrest, hspelled⟩ := typeExpr_spelled h
    exact ⟨passed, hrest, (forward_typeExpr h).pos_eq hrest, hspelled⟩

def adjacentTokens : List Token :=
  let source := Buffer.ofBytes 0 (bytesOf "const* ab::c:")
  [⟨.identifier, ⟨0, 5⟩, ⟨1, 1⟩, source, by decide⟩,
    ⟨.operator, ⟨5, 6⟩, ⟨1, 6⟩, source, by decide⟩,
    ⟨.whitespace, ⟨6, 7⟩, ⟨1, 7⟩, source, by decide⟩,
    ⟨.identifier, ⟨7, 8⟩, ⟨1, 8⟩, source, by decide⟩,
    ⟨.identifier, ⟨8, 9⟩, ⟨1, 9⟩, source, by decide⟩,
    ⟨.scopeOperator, ⟨9, 10⟩, ⟨1, 10⟩, source, by decide⟩,
    ⟨.scopeOperator, ⟨10, 11⟩, ⟨1, 11⟩, source, by decide⟩,
    ⟨.identifier, ⟨11, 12⟩, ⟨1, 12⟩, source, by decide⟩,
    ⟨.scopeOperator, ⟨12, 13⟩, ⟨1, 13⟩, source, by decide⟩]

theorem readings_spell_adjacent_tokens :
    (∃ n d, name ⟨2, adjacentTokens.drop 2, []⟩ = .ok n d ∧ d.pos = 8 ∧
      ∃ blank ts, adjacentTokens.drop 2 = blank ++ ts ++ d.rest ∧ Spells n.units ts) ∧
    ∃ t d, typeExpr ⟨0, adjacentTokens, []⟩ = .ok t d ∧ d.pos = 8 ∧
      t.Spelled ((adjacentTokens.take 8).filter (!·.isWhitespace)) := by
  constructor
  · have hrun : succeedsAt name ⟨2, adjacentTokens.drop 2, []⟩ (fun _ d => d.pos == 8) = true := by
      decide +kernel
    obtain ⟨n, d, hname, hpos⟩ := exists_of_succeedsAt hrun
    obtain ⟨blank, ts, hrest, _, _, hspells, _⟩ := (readings_spell_passed _).1 n d hname
    exact ⟨n, d, hname, beq_iff_eq.1 hpos, blank, ts, hrest, hspells⟩
  · have hrun : succeedsAt typeExpr ⟨0, adjacentTokens, []⟩ (fun _ d => d.pos == 8) = true := by
      decide +kernel
    obtain ⟨t, d, htype, hstop⟩ := exists_of_succeedsAt hrun
    obtain ⟨passed, hrest, hpos, hspelled⟩ := (readings_spell_passed _).2 t d htype
    have hlength : passed.length = 8 := by
      rw [← beq_iff_eq.1 hstop, hpos]
      exact (Nat.zero_add _).symm
    have hpassed : adjacentTokens.take 8 = passed := by
      rw [← hlength]
      exact (congrArg (List.take passed.length) hrest).trans List.take_left
    refine ⟨t, d, htype, beq_iff_eq.1 hstop, ?_⟩
    rw [hpassed]
    exact hspelled

end Rule

end FrontEnd
