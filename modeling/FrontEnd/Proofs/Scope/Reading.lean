import FrontEnd.Proofs.Grammar.Rule
import FrontEnd.Proofs.Scope.Brace

namespace FrontEnd

open Scope (bracesAll family Plain)

/-- The braces among the significant tokens ahead, and where other tokens stand. -/
def Cursor.word (c : Cursor) : List (Option Brace) := c.significant.map Token.brace?

theorem Cursor.After.word_eq {c d : Cursor} {k : Nat} (h : c.After k d) :
    d.word = c.word.drop (k + 1) := by
  rw [word, h.significant_eq, List.map_drop]
  rfl

namespace Brace

def pattern : Brace → Pattern
  | opening => Rule.openBrace
  | closing => Rule.closeBrace

theorem ofBytes?_beq (text : List UInt8) (b : Brace) :
    (text == [b.byte]) = (ofBytes? text == some b) := by
  rw [ofBytes?]
  split
  · next h =>
    subst h
    cases b <;> rfl
  · next hopening =>
    split
    · next h =>
      subst h
      cases b <;> rfl
    · next hclosing =>
      cases b with
      | opening => simpa using hopening
      | closing => simpa using hclosing

theorem accepts_pattern {t : Token} (h : t.span.start ≤ t.span.stop) (b : Brace) :
    b.pattern.accepts t = .ok (t.brace? == some b) := by
  have hpattern : b.pattern = .exact .scopeOperator [b.byte] := by
    cases b with
    | opening => decide
    | closing => decide
  rw [hpattern, Pattern.accepts, Token.isText, Token.brace?, Token.bytes_eq h]
  split
  · next hkind =>
    rw [hkind]
    exact congrArg Except.ok (ofBytes?_beq _ b)
  · next hkind =>
    cases hk : t.kind with
    | scopeOperator => exact absurd hk hkind
    | _ => rfl

end Brace

namespace Rule

variable {c d : Cursor} {t : Token} {ts : List Token} {b : Brace}

theorem word_of_significant (h : c.significant = t :: ts) (ha : c.After 0 d) :
    c.word = t.brace? :: d.word := by
  rw [ha.word_eq, Cursor.word, h]
  rfl

theorem take?_brace (hc : c.Ordered) (h : c.significant = t :: ts) (hb : t.brace? = some b) :
    ∃ d, take? b.pattern .skipped c = .ok (some t) d ∧ c.After 0 d := by
  apply take?_of_accepts h
  rw [Brace.accepts_pattern (hc.of_significant h), hb, beq_self_eq_true]

theorem take?_other (hc : c.Ordered) (h : c.significant = t :: ts) (hb : t.brace? ≠ some b) :
    take? b.pattern .skipped c = .ok none c := by
  apply take?_of_rejects h
  rw [Brace.accepts_pattern (hc.of_significant h), beq_eq_false_iff_ne.2 hb]

namespace OpenScopes

def depth (o : OpenScopes) : Nat := o.around.length

def readAround : List (List Scope) → List Brace
  | [] => []
  | before :: around => readAround around ++ (bracesAll before.reverse ++ [.opening])

def read (o : OpenScopes) : List Brace := readAround o.around ++ bracesAll o.entries.reverse

def AllPlain (o : OpenScopes) : Prop := Plain o.entries ∧ ∀ before ∈ o.around, Plain before

def turn (o : OpenScopes) : Brace → Round OpenScopes Scope
  | .opening => .again o.enter
  | .closing => o.close

variable {o o' : OpenScopes} {s : Scope}

theorem turn_again (h : o.turn b = .again o') :
    b.next? o.depth = some o'.depth ∧ o'.read = o.read ++ [b] ∧ (o.AllPlain → o'.AllPlain) := by
  obtain ⟨entries, around⟩ := o
  cases b with
  | opening =>
    cases h
    refine ⟨rfl, ?_, ?_⟩
    · simp only [read, enter, readAround, List.append_assoc]
      rfl
    · rintro ⟨hentries, haround⟩
      exact ⟨Scope.plain_nil, List.forall_mem_cons.2 ⟨hentries, haround⟩⟩
  | closing =>
    cases around with
    | nil => cases h
    | cons before around =>
      cases h
      refine ⟨rfl, ?_, ?_⟩
      · simp only [read, readAround, Scope.bracesAll_reverse_cons, Scope.closed, Scope.nested,
          Scope.braces_mk, List.append_assoc, List.cons_append, List.nil_append]
      · rintro ⟨hentries, haround⟩
        obtain ⟨hbefore, haround⟩ := List.forall_mem_cons.1 haround
        exact ⟨Scope.plain_cons.2 ⟨⟨rfl, Scope.plain_reverse.2 hentries⟩, hbefore⟩, haround⟩

theorem turn_done (h : o.turn b = .done s) :
    b = .closing ∧ o.depth = 0 ∧ s.braces = o.read ∧
      (o.AllPlain → s.isGlobal = false ∧ Plain s.entries) := by
  obtain ⟨entries, around⟩ := o
  cases b with
  | opening => cases h
  | closing =>
    cases around with
    | nil =>
      cases h
      refine ⟨rfl, rfl, Scope.braces_mk _ _, ?_⟩
      rintro ⟨hentries, _⟩
      exact ⟨rfl, Scope.plain_reverse.2 hentries⟩
    | cons before around => cases h

end OpenScopes

inductive Turns (o : OpenScopes) (c : Cursor) : Outcome (Round OpenScopes Scope) → Prop where
  | brace {b : Brace} {d : Cursor} (word : c.word = some b :: d.word) (after : c.After 0 d) :
      Turns o c (.ok (o.turn b) d)
  | unexpected {t : Token} {ts : List Token} {text : String} (token : c.significant = t :: ts)
      (other : t.brace? = none) (readable : t.text = .ok text) :
      Turns o c (.error (.rejected (.unexpected t.position t.kind text)) c)
  | endOfInput (nothing : c.significant = []) : Turns o c (.error (.rejected .endOfInput) c)

theorem turns_braceRound (hc : c.Ordered) (o : OpenScopes) : Turns o c (braceRound o c) := by
  cases hs : c.significant with
  | nil =>
    have hround : braceRound o c = .error (.rejected .endOfInput) c := by
      rw [braceRound, bind_of_ok (take?_of_nothing hs)]
      dsimp only
      rw [bind_of_ok (take?_of_nothing hs)]
      exact reject_of_nothing hs
    rw [hround]
    exact .endOfInput hs
  | cons t ts =>
    cases hb : t.brace? with
    | none =>
      obtain ⟨text, htext⟩ := Token.exists_text (hc.of_significant hs)
      have hround : braceRound o c =
          .error (.rejected (.unexpected t.position t.kind text)) c := by
        rw [braceRound]
        refine (bind_of_ok (take?_other (b := .closing) hc hs (by simp [hb]))).trans ?_
        refine (bind_of_ok (take?_other (b := .opening) hc hs (by simp [hb]))).trans ?_
        exact reject_of_token hs htext
      rw [hround]
      exact .unexpected hs hb htext
    | some b =>
      obtain ⟨d, htake, hafter⟩ := take?_brace hc hs hb
      have hround : braceRound o c = .ok (o.turn b) d := by
        cases b with
        | closing =>
          rw [braceRound]
          exact bind_of_ok htake
        | opening =>
          rw [braceRound]
          refine (bind_of_ok (take?_other (b := .closing) hc hs (by simp [hb]))).trans ?_
          exact bind_of_ok htake
      rw [hround]
      exact .brace (by rw [word_of_significant hs hafter, hb]) hafter

/-- What comes of reading braces up to the one that closes all open scopes. -/
inductive Reads (read : List Brace) (depth : Nat) (c : Cursor) : Outcome Scope → Prop where
  | closed {k : Nat} {s : Scope} {d : Cursor} (stop : firstStop depth c.word = some k)
      (closing : c.word[k]? = some (some .closing)) (after : c.After k d)
      (braces : s.braces.map some = read.map some ++ c.word.take k)
      (plain : s.isGlobal = false ∧ Plain s.entries) : Reads read depth c (.ok s d)
  | unexpected {k : Nat} {t : Token} {text : String} {d : Cursor}
      (stop : firstStop depth c.word = some k) (token : c.significant[k]? = some t)
      (other : t.brace? = none) (readable : t.text = .ok text) :
      Reads read depth c (.error (.rejected (.unexpected t.position t.kind text)) d)
  | endOfInput {d : Cursor} (stop : firstStop depth c.word = none) :
      Reads read depth c (.error (.rejected .endOfInput) d)

theorem Reads.step {read : List Brace} {depth next : Nat} {o : Outcome Scope}
    (hword : c.word = some b :: d.word) (ha : c.After 0 d) (hn : b.next? depth = some next)
    (h : Reads (read ++ [b]) next d o) : Reads read depth c o := by
  have hstop : firstStop depth c.word = (firstStop next d.word).map (· + 1) := by
    rw [hword, firstStop_of_next hn]
  cases h with
  | closed stop closing after braces plain =>
    apply Reads.closed
    · rw [hstop, stop]
      rfl
    · rw [hword]
      exact closing
    · exact ha.step after
    · rw [braces, hword, List.take_succ_cons, List.map_append, List.append_assoc]
      rfl
    · exact plain
  | unexpected stop token other readable =>
    refine .unexpected (by rw [hstop, stop]; rfl) ?_ other readable
    rw [ha.significant_eq, List.getElem?_drop, Nat.add_comm] at token
    exact token
  | endOfInput stop => exact .endOfInput (by rw [hstop, stop]; rfl)

theorem reads_loop (hc : c.Ordered) {o : OpenScopes} (ho : o.AllPlain) :
    Reads o.read o.depth c (loop braceRound advancing_braceRound o c) := by
  -- A round adds its brace to `o.read` and moves `o.depth` as the brace does.
  revert hc ho
  refine loop_induction (P := fun o c outcome =>
    c.Ordered → o.AllPlain → Reads o.read o.depth c outcome) ?_ ?_ ?_ o c
  · intro o c e d hround hc ho
    have hturns := turns_braceRound hc o
    rw [hround] at hturns
    cases hturns with
    | unexpected token other readable =>
      refine .unexpected (k := 0) ?_ (by rw [token]; rfl) other readable
      rw [Cursor.word, token, List.map_cons, other]
      rfl
    | endOfInput nothing =>
      apply Reads.endOfInput
      rw [Cursor.word, nothing]
      rfl
  · intro o c s d hround hc ho
    have hturns := turns_braceRound hc o
    rw [hround] at hturns
    generalize hr : Round.done s = r at hturns
    cases hturns with
    | brace word after =>
      obtain ⟨rfl, hdepth, hbraces, hplain⟩ := OpenScopes.turn_done hr.symm
      rw [hdepth]
      refine .closed (k := 0) (by rw [word]; rfl) (by rw [word]; rfl) after ?_ (hplain ho)
      rw [hbraces, List.take_zero, List.append_nil]
  · intro o c o' d hround ih hc ho
    have hturns := turns_braceRound hc o
    rw [hround] at hturns
    generalize hr : Round.again o' = r at hturns
    cases hturns with
    | brace word after =>
      obtain ⟨hnext, hread, hplain⟩ := OpenScopes.turn_again hr.symm
      apply Reads.step word after hnext
      rw [← hread]
      exact ih (after.ordered hc) (hplain ho)

theorem reads_nestedScope (hc : c.Ordered) : Reads [] 0 c (nestedScope c) := by
  have h := reads_loop hc (o := .outermost) ⟨Scope.plain_nil, fun _ h => by cases h⟩
  cases hloop : loop braceRound advancing_braceRound .outermost c with
  | ok s d =>
    rw [hloop] at h
    rw [nestedScope, rewinding_of_ok hloop]
    exact h
  | error e d =>
    rw [hloop] at h
    rw [nestedScope, rewinding_of_error hloop]
    cases h with
    | unexpected stop token other readable => exact .unexpected stop token other readable
    | endOfInput stop => exact .endOfInput stop

inductive Enters (found : List Scope) (c : Cursor) : Outcome (Round (List Scope) Scope) → Prop where
  | done (nothing : c.significant = []) : Enters found c (.ok (.done (.global found.reverse)) c)
  | entry {s : Scope} {d e : Cursor} (word : c.word = some .opening :: d.word)
      (after : c.After 0 d) (nested : Reads [] 0 d (.ok s e)) :
      Enters found c (.ok (.again (s :: found)) e)
  | failed {f : Failure} {d e : Cursor} (word : c.word = some .opening :: d.word)
      (after : c.After 0 d) (nested : Reads [] 0 d (.error f e)) : Enters found c (.error f e)
  | unexpected {t : Token} {ts : List Token} {text : String} (token : c.significant = t :: ts)
      (other : t.brace? ≠ some .opening) (readable : t.text = .ok text) :
      Enters found c (.error (.rejected (.unexpected t.position t.kind text)) c)

theorem enters_entryRound (hc : c.Ordered) (found : List Scope) :
    Enters found c (entryRound found c) := by
  have hget : (get : Rule Cursor) c = .ok c c := rfl
  rw [entryRound, bind_of_ok hget, Cursor.allParsed_eq]
  cases hs : c.significant with
  | nil => exact .done hs
  | cons t ts =>
    rw [List.isEmpty_cons, if_neg Bool.false_ne_true]
    by_cases hb : t.brace? = some .opening
    · obtain ⟨d, htake, hafter⟩ := take?_brace hc hs hb
      have htake : take? openBrace .skipped c = .ok (some t) d := htake
      have hword : c.word = some .opening :: d.word := by rw [word_of_significant hs hafter, hb]
      have hnested := reads_nestedScope (hafter.ordered hc)
      rw [bind_of_ok htake]
      dsimp only
      cases hresult : nestedScope d with
      | ok s e =>
        rw [hresult] at hnested
        rw [bind_of_ok hresult]
        exact .entry hword hafter hnested
      | error f e =>
        rw [hresult] at hnested
        rw [bind_of_error hresult]
        exact .failed hword hafter hnested
    · obtain ⟨text, htext⟩ := Token.exists_text (hc.of_significant hs)
      have htake : take? openBrace .skipped c = .ok none c := take?_other hc hs hb
      rw [bind_of_ok htake]
      dsimp only
      rw [reject_of_token hs htext]
      exact .unexpected hs hb htext

/-- What comes of reading scopes up to the end. -/
inductive ReadsAll (read : List Brace) (c : Cursor) : Outcome Scope → Prop where
  | parsed {s : Scope} {d : Cursor} (stop : firstStop 0 c.word = none)
      (balanced : c.word.count (some .closing) = c.word.count (some .opening))
      (braces : s.braces.map some = read.map some ++ c.word) (flagged : s.isGlobal = true)
      (plain : Plain s.entries) : ReadsAll read c (.ok s d)
  | unexpected {k : Nat} {t : Token} {text : String} {d : Cursor}
      (stop : firstStop 0 c.word = some k) (token : c.significant[k]? = some t)
      (readable : t.text = .ok text) :
      ReadsAll read c (.error (.rejected (.unexpected t.position t.kind text)) d)
  | endOfInput {d : Cursor} (stop : firstStop 0 c.word = none)
      (opened : c.word.count (some .closing) < c.word.count (some .opening)) :
      ReadsAll read c (.error (.rejected .endOfInput) d)

theorem ReadsAll.failed {read : List Brace} {f : Failure} {e : Cursor}
    (hword : c.word = some .opening :: d.word) (ha : c.After 0 d)
    (h : Reads [] 0 d (.error f e)) : ReadsAll read c (.error f e) := by
  have hopen : Brace.opening.next? 0 = some 1 := rfl
  have hstop : firstStop 0 c.word = (firstStop 1 d.word).map (· + 1) := by
    rw [hword, firstStop_of_next hopen]
  cases h with
  | @unexpected k t text e stop token other readable =>
    have hk : d.word[k]? = some none := by
      rw [Cursor.word, List.getElem?_map, token, Option.map_some, other]
    rw [firstStop_succ_of_some stop hk] at hstop
    rw [ha.significant_eq, List.getElem?_drop, Nat.add_comm] at token
    exact .unexpected hstop token readable
  | endOfInput stop =>
    rw [firstStop_succ_of_none stop] at hstop
    have hcount := count_closing_le stop
    have hmoved := Brace.count_of_next hopen d.word
    rw [← hword] at hmoved
    exact .endOfInput hstop (by omega)

theorem ReadsAll.entry {read : List Brace} {s : Scope} {e : Cursor} {o : Outcome Scope}
    (hword : c.word = some .opening :: d.word) (ha : c.After 0 d) (hn : Reads [] 0 d (.ok s e))
    (h : ReadsAll (read ++ .opening :: (s.braces ++ [.closing])) e o) : ReadsAll read c o := by
  have hopen : Brace.opening.next? 0 = some 1 := rfl
  have hclose : Brace.closing.next? 1 = some 0 := rfl
  cases hn with
  | @closed k s e stop closing after braces plain =>
    have hsplit : c.word = some .opening :: (s.braces.map some ++ some .closing :: e.word) := by
      obtain ⟨hlt, hk⟩ := List.getElem?_eq_some_iff.1 closing
      rw [hword, braces, after.word_eq, ← hk, ← List.drop_eq_getElem_cons hlt, List.map_nil,
        List.nil_append, List.take_append_drop]
    have hstop : firstStop 0 c.word = (firstStop 0 e.word).map (· + (s.braces.length + 2)) := by
      rw [hsplit, firstStop_of_next hopen, Scope.firstStop_braces, firstStop_of_next hclose,
        Option.map_map, Option.map_map]
      congr 1
      funext j
      simp only [Function.comp_apply]
      omega
    have hlength : s.braces.length = k := by
      obtain ⟨hlt, _⟩ := List.getElem?_eq_some_iff.1 closing
      have := congrArg List.length braces
      rw [List.length_map, List.map_nil, List.nil_append, List.length_take] at this
      omega
    have hshift : ∀ j, e.significant[j]? = c.significant[j + (s.braces.length + 2)]? := by
      intro j
      rw [after.significant_eq, ha.significant_eq, List.getElem?_drop, List.getElem?_drop, hlength]
      congr 1
      omega
    have hclosings : c.word.count (some .closing) =
        s.braces.count .closing + (e.word.count (some .closing) + 1) := by
      rw [hsplit, List.count_cons_of_ne (by decide), List.count_append, List.count_cons_self,
        Scope.count_map_some]
    have hopenings : c.word.count (some .opening) =
        s.braces.count .opening + e.word.count (some .opening) + 1 := by
      rw [hsplit, List.count_cons_self, List.count_append, List.count_cons_of_ne (by decide),
        Scope.count_map_some]
    have hsame := Scope.count_braces s
    cases h with
    | parsed stop balanced hbraces flagged plain =>
      refine .parsed (by rw [hstop, stop]; rfl) (by omega) ?_ flagged plain
      rw [hbraces, hsplit]
      simp only [List.map_append, List.map_cons, List.map_nil, List.append_assoc, List.cons_append,
        List.nil_append]
    | @unexpected j t text d stop token readable =>
      rw [hshift] at token
      exact .unexpected (by rw [hstop, stop]; rfl) token readable
    | endOfInput stop opened => exact .endOfInput (by rw [hstop, stop]; rfl) (by omega)

theorem readsAll_loop (hc : c.Ordered) {found : List Scope} (hf : Plain found) :
    ReadsAll (bracesAll found.reverse) c (loop entryRound advancing_entryRound found c) := by
  revert hc hf
  refine loop_induction (P := fun found c outcome =>
    c.Ordered → Plain found → ReadsAll (bracesAll found.reverse) c outcome) ?_ ?_ ?_ found c
  · intro found c f d hround hc hf
    have henters := enters_entryRound hc found
    rw [hround] at henters
    cases henters with
    | failed word after nested => exact .failed word after nested
    | @unexpected t ts text token other readable =>
      refine .unexpected (k := 0) ?_ (by rw [token]; rfl) readable
      rw [Cursor.word, token, List.map_cons]
      cases hb : t.brace? with
      | none => rfl
      | some b =>
        cases b with
        | opening => exact absurd hb other
        | closing => rfl
  · intro found c s d hround hc hf
    have henters := enters_entryRound hc found
    rw [hround] at henters
    cases henters with
    | done nothing =>
      have hword : c.word = [] := by rw [Cursor.word, nothing, List.map_nil]
      refine .parsed (by rw [hword]; rfl) (by rw [hword]; rfl) ?_ rfl (Scope.plain_reverse.2 hf)
      rw [hword, List.append_nil, Scope.global, Scope.braces_mk]
  · intro found c more e hround ih hc hf
    have henters := enters_entryRound hc found
    rw [hround] at henters
    cases henters with
    | @entry s d e word after nested =>
      apply ReadsAll.entry word after nested
      rw [← Scope.bracesAll_reverse_cons]
      cases nested with
      | closed _ _ hclosed _ plain =>
        exact ih (hclosed.ordered (after.ordered hc)) (Scope.plain_cons.2 ⟨plain, hf⟩)

theorem readsAll_globalScope (hc : c.Ordered) : ReadsAll [] c (globalScope c) := by
  have hnote : note (fun c => .readingGlobal c.pos) c = .ok () (c.note (.readingGlobal c.pos)) := rfl
  have h := readsAll_loop (c := c.note (.readingGlobal c.pos)) hc Scope.plain_nil
  rw [globalScope, bind_of_ok hnote]
  cases hloop : loop entryRound advancing_entryRound [] (c.note (.readingGlobal c.pos)) with
  | ok s d =>
    rw [hloop] at h
    rw [rewinding_of_ok hloop]
    cases h with
    | parsed stop balanced braces flagged plain => exact .parsed stop balanced braces flagged plain
  | error e d =>
    rw [hloop] at h
    rw [rewinding_of_error hloop]
    cases h with
    | unexpected stop token readable => exact .unexpected stop token readable
    | endOfInput stop opened => exact .endOfInput stop opened

/-- What braces decide about reading a global scope. -/
structure GlobalLaw (c : Cursor) (o : Outcome Scope) : Prop where
  accepts : (∃ s d, o = .ok s d) ↔ (¬∃ k, FirstOffends 0 c.word k) ∧
    c.word.count (some .opening) = c.word.count (some .closing)
  tree : ∀ s d, o = .ok s d → s.braces.map some = c.word ∧ s.isGlobal = true ∧
    ∀ t ∈ s.descendants, t.isGlobal = false
  unexpected : ∀ k, FirstOffends 0 c.word k → ∃ t text d, c.significant[k]? = some t ∧
    t.text = .ok text ∧ o = .error (.rejected (.unexpected t.position t.kind text)) d
  endOfInput : (¬∃ k, FirstOffends 0 c.word k) →
    c.word.count (some .closing) < c.word.count (some .opening) →
    ∃ d, o = .error (.rejected .endOfInput) d

structure NestedLaw (c : Cursor) (o : Outcome Scope) : Prop where
  accepts : (∃ s d, o = .ok s d) ↔
    ∃ k, FirstOffends 0 c.word k ∧ c.word[k]? = some (some .closing)
  tree : ∀ k s d, FirstOffends 0 c.word k → o = .ok s d → s.braces.map some = c.word.take k ∧
    s.isGlobal = false ∧ (∀ t ∈ s.descendants, t.isGlobal = false) ∧ c.After k d
  unexpected : ∀ k, FirstOffends 0 c.word k → c.word[k]? ≠ some (some .closing) →
    ∃ t text d, c.significant[k]? = some t ∧ t.text = .ok text ∧
      o = .error (.rejected (.unexpected t.position t.kind text)) d
  endOfInput : (¬∃ k, FirstOffends 0 c.word k) → ∃ d, o = .error (.rejected .endOfInput) d

theorem descendants_of_plain {s : Scope} (h : Plain s.entries) :
    ∀ t ∈ s.descendants, t.isGlobal = false := by
  obtain ⟨isGlobal, entries⟩ := s
  rw [Scope.descendants_mk]
  exact h

section

variable {o : Outcome Scope} {s : Scope} {k : Nat}

theorem ReadsAll.ok_iff (h : ReadsAll [] c o) : (∃ s d, o = .ok s d) ↔
    (¬∃ k, FirstOffends 0 c.word k) ∧
      c.word.count (some .opening) = c.word.count (some .closing) := by
  rw [← firstStop_eq_none_iff]
  cases h with
  | parsed stop balanced => exact ⟨fun _ => ⟨stop, balanced.symm⟩, fun _ => ⟨_, _, rfl⟩⟩
  | unexpected stop =>
    constructor
    · rintro ⟨s, d, hok⟩
      cases hok
    · rintro ⟨hnone, _⟩
      cases hnone.symm.trans stop
  | endOfInput stop opened =>
    constructor
    · rintro ⟨s, d, hok⟩
      cases hok
    · rintro ⟨_, hbalanced⟩
      exact absurd hbalanced.symm (Nat.ne_of_lt opened)

theorem ReadsAll.tree (h : ReadsAll [] c (.ok s d)) : s.braces.map some = c.word ∧
    s.isGlobal = true ∧ ∀ t ∈ s.descendants, t.isGlobal = false := by
  cases h with
  | parsed stop balanced braces flagged plain => exact ⟨braces, flagged, descendants_of_plain plain⟩

theorem ReadsAll.offence (h : ReadsAll [] c o) (hk : FirstOffends 0 c.word k) :
    ∃ t text d, c.significant[k]? = some t ∧ t.text = .ok text ∧
      o = .error (.rejected (.unexpected t.position t.kind text)) d := by
  have hstop := firstStop_eq_some_iff.2 hk
  cases h with
  | parsed stop => cases hstop.symm.trans stop
  | unexpected stop token readable =>
    cases hstop.symm.trans stop
    exact ⟨_, _, _, token, readable, rfl⟩
  | endOfInput stop => cases hstop.symm.trans stop

theorem ReadsAll.unclosed (h : ReadsAll [] c o) (hnone : ¬∃ k, FirstOffends 0 c.word k)
    (hopen : c.word.count (some .closing) < c.word.count (some .opening)) :
    ∃ d, o = .error (.rejected .endOfInput) d := by
  have hstop := firstStop_eq_none_iff.2 hnone
  cases h with
  | parsed stop balanced => exact absurd balanced (Nat.ne_of_lt hopen)
  | unexpected stop => cases hstop.symm.trans stop
  | endOfInput stop => exact ⟨_, rfl⟩

theorem ReadsAll.law (h : ReadsAll [] c o) : GlobalLaw c o where
  accepts := h.ok_iff
  tree := by
    rintro s d rfl
    exact h.tree
  unexpected := fun k hk => h.offence hk
  endOfInput := h.unclosed

theorem Reads.ok_iff (h : Reads [] 0 c o) : (∃ s d, o = .ok s d) ↔
    ∃ k, FirstOffends 0 c.word k ∧ c.word[k]? = some (some .closing) := by
  cases h with
  | closed stop closing =>
    exact ⟨fun _ => ⟨_, firstStop_eq_some_iff.1 stop, closing⟩, fun _ => ⟨_, _, rfl⟩⟩
  | unexpected stop token other =>
    constructor
    · rintro ⟨s, d, hok⟩
      cases hok
    · rintro ⟨j, hj, hclosing⟩
      cases stop.symm.trans (firstStop_eq_some_iff.2 hj)
      rw [Cursor.word, List.getElem?_map, token, Option.map_some, other] at hclosing
      cases hclosing
  | endOfInput stop =>
    constructor
    · rintro ⟨s, d, hok⟩
      cases hok
    · rintro ⟨j, hj, _⟩
      cases stop.symm.trans (firstStop_eq_some_iff.2 hj)

theorem Reads.tree (h : Reads [] 0 c (.ok s d)) (hk : FirstOffends 0 c.word k) :
    s.braces.map some = c.word.take k ∧ s.isGlobal = false ∧
      (∀ t ∈ s.descendants, t.isGlobal = false) ∧ c.After k d := by
  have hstop := firstStop_eq_some_iff.2 hk
  cases h with
  | closed stop closing after braces plain =>
    cases hstop.symm.trans stop
    exact ⟨braces, plain.1, descendants_of_plain plain.2, after⟩

theorem Reads.offence (h : Reads [] 0 c o) (hk : FirstOffends 0 c.word k)
    (hother : c.word[k]? ≠ some (some .closing)) :
    ∃ t text d, c.significant[k]? = some t ∧ t.text = .ok text ∧
      o = .error (.rejected (.unexpected t.position t.kind text)) d := by
  have hstop := firstStop_eq_some_iff.2 hk
  cases h with
  | closed stop closing =>
    cases hstop.symm.trans stop
    exact absurd closing hother
  | unexpected stop token other readable =>
    cases hstop.symm.trans stop
    exact ⟨_, _, _, token, readable, rfl⟩
  | endOfInput stop => cases hstop.symm.trans stop

theorem Reads.unclosed (h : Reads [] 0 c o) (hnone : ¬∃ k, FirstOffends 0 c.word k) :
    ∃ d, o = .error (.rejected .endOfInput) d := by
  have hstop := firstStop_eq_none_iff.2 hnone
  cases h with
  | closed stop => cases hstop.symm.trans stop
  | unexpected stop => cases hstop.symm.trans stop
  | endOfInput stop => exact ⟨_, rfl⟩

theorem Reads.law (h : Reads [] 0 c o) : NestedLaw c o where
  accepts := h.ok_iff
  tree := by
    rintro k s d hk rfl
    exact h.tree hk
  unexpected := fun k hk hother => h.offence hk hother
  endOfInput := h.unclosed

end

/-- The first token that offends, and the braces before it, decide both rules of scopes. -/
theorem scopes_follow_braces (c : Cursor) (h : ∀ t ∈ c.rest, t.span.start ≤ t.span.stop) :
    GlobalLaw c (globalScope c) ∧ NestedLaw c (nestedScope c) :=
  ⟨(readsAll_globalScope h).law, (reads_nestedScope h).law⟩

def looseBraces : List Token :=
  let source := Buffer.ofBytes 0 (bytesOf "\x7b \x7d\x7d")
  [⟨.scopeOperator, ⟨0, 1⟩, ⟨1, 1⟩, source, by decide⟩,
    ⟨.whitespace, ⟨1, 2⟩, ⟨1, 2⟩, source, by decide⟩,
    ⟨.scopeOperator, ⟨2, 3⟩, ⟨5, 9⟩, source, by decide⟩,
    ⟨.scopeOperator, ⟨3, 4⟩, ⟨7, 1⟩, source, by decide⟩]

theorem scopes_follow_loose_braces :
    (∀ t ∈ looseBraces, t.span.start ≤ t.span.stop) ∧
    (∃ s d, nestedScope (.ofTokens looseBraces) = .ok s d ∧
      s.braces.map some = [some .opening, some .closing]) ∧
    ∃ t text d, looseBraces[3]? = some t ∧ t.text = .ok text ∧
      globalScope (.ofTokens looseBraces) =
        .error (.rejected (.unexpected t.position t.kind text)) d := by
  have hordered : ∀ t ∈ looseBraces, t.span.start ≤ t.span.stop := by decide
  have hword : (Cursor.ofTokens looseBraces).word =
      [some .opening, some .closing, some .closing] := by decide +kernel
  have hfirst : FirstOffends 0 (Cursor.ofTokens looseBraces).word 2 := by
    rw [hword]
    exact firstStop_eq_some_iff.1 rfl
  obtain ⟨hglobal, hnested⟩ := scopes_follow_braces (.ofTokens looseBraces) hordered
  refine ⟨hordered, ?_, ?_⟩
  · obtain ⟨s, d, hok⟩ := hnested.accepts.2 ⟨2, hfirst, by rw [hword]; rfl⟩
    obtain ⟨hbraces, _⟩ := hnested.tree 2 s d hfirst hok
    refine ⟨s, d, hok, ?_⟩
    rw [hbraces, hword]
    rfl
  · obtain ⟨t, text, d, ht, htext, herror⟩ := hglobal.unexpected 2 hfirst
    exact ⟨t, text, d, ht, htext, herror⟩

end Rule

end FrontEnd
