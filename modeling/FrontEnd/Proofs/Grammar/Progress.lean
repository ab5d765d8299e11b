import FrontEnd.Proofs.Grammar.Place
import FrontEnd.Proofs.Grammar.Recursion
import FrontEnd.Proofs.Grammar.Spelling
import Mathlib.Data.List.Perm.Subperm

namespace FrontEnd

/-- The way from one cursor to another leads past a token that is not whitespace. -/
def Cursor.Consumes (c d : Cursor) : Prop :=
  ∃ passed, c.rest = passed ++ d.rest ∧ d.pos = c.pos + passed.length ∧
    ∃ t ∈ passed, t.isWhitespace = false

/-- The way from one cursor to another ends with a token that a pattern accepts. -/
def Cursor.Closes (p : Pattern) (c d : Cursor) : Prop :=
  ∃ passed t, c.rest = passed ++ t :: d.rest ∧ d.pos = c.pos + passed.length + 1 ∧
    p.accepts t = .ok true

/-- Cursors each of which stands further right than the ones before it, none of them before a given
one. -/
structure Cursor.Increase (c : Cursor) (rs : List Cursor) : Prop where
  reached : ∀ r ∈ rs, c.Reaches r
  pairwise : rs.Pairwise fun r s => r.pos < s.pos

section Places

variable {c d e : Cursor} {rs : List Cursor}

theorem Cursor.Reaches.pos_add_length (h : c.Reaches d) :
    d.pos + d.rest.length = c.pos + c.rest.length := by
  obtain ⟨passed, hrest, hpos, _⟩ := h
  rw [hrest, hpos, List.length_append, Nat.add_assoc]

theorem Cursor.Reaches.pos_lt (h : c.Reaches d) (hlt : d.rest.length < c.rest.length) :
    c.pos < d.pos := by
  have := h.pos_add_length
  omega

theorem Cursor.Consumes.of_reaches (h : c.Reaches d) (hd : d.Consumes e) : c.Consumes e := by
  obtain ⟨ts, hts, hpos, _⟩ := h
  obtain ⟨us, hus, hpos', t, ht, hstays⟩ := hd
  refine ⟨ts ++ us, ?_, ?_, t, List.mem_append_right _ ht, hstays⟩
  · rw [hts, hus, List.append_assoc]
  · rw [hpos', hpos, List.length_append, Nat.add_assoc]

theorem Cursor.Closes.of_reaches {p : Pattern} (h : c.Reaches d) (hd : d.Closes p e) :
    c.Closes p e := by
  obtain ⟨ts, hts, hpos, _⟩ := h
  obtain ⟨us, t, hus, hpos', haccepts⟩ := hd
  refine ⟨ts ++ us, t, ?_, ?_, haccepts⟩
  · rw [hts, hus, List.append_assoc]
  · rw [hpos', hpos, List.length_append, Nat.add_assoc c.pos]

theorem Cursor.Closes.length_lt {p : Pattern} (h : c.Closes p d) :
    d.rest.length < c.rest.length := by
  obtain ⟨passed, t, hrest, _⟩ := h
  rw [hrest, List.length_append, List.length_cons]
  omega

theorem Cursor.Closes.consumes {text : String} (h : c.Closes (.mark text) d) : c.Consumes d := by
  obtain ⟨passed, t, hrest, hpos, haccepts⟩ := h
  refine ⟨passed ++ [t], ?_, ?_, t, List.mem_append_right _ (List.mem_singleton_self t), ?_⟩
  · rw [hrest, List.append_assoc, List.singleton_append]
  · rw [hpos, List.length_append, List.length_singleton, Nat.add_assoc]
  · rw [Token.isWhitespace, Pattern.kind_of_accepts haccepts]
    rfl

theorem Cursor.reaches_note (c : Cursor) (r : Record) : c.Reaches (c.note r) :=
  ⟨[], rfl, rfl, List.suffix_cons _ _⟩

theorem length_le_of_nodup {places : List Nat} (hnodup : places.Nodup)
    (h : ∀ p ∈ places, c.pos ≤ p ∧ p ≤ c.pos + c.rest.length) :
    places.length ≤ c.rest.length + 1 := by
  have hsubset : places ⊆ List.range' c.pos (c.rest.length + 1) := by
    intro p hp
    rw [List.mem_range'_1]
    have := h p hp
    omega
  have hle := (List.subperm_of_subset hnodup hsubset).length_le
  rwa [List.length_range'] at hle

theorem Cursor.Reaches.pos_bounds (h : c.Reaches d) :
    c.pos ≤ d.pos ∧ d.pos ≤ c.pos + c.rest.length := by
  have := h.pos_add_length
  have := h.length_le
  omega

namespace Cursor.Increase

theorem length_le (h : c.Increase rs) : rs.length ≤ c.rest.length + 1 := by
  have hnodup : (rs.map Cursor.pos).Nodup :=
    List.pairwise_map.2 (h.pairwise.imp Nat.ne_of_lt)
  have hle := length_le_of_nodup (c := c) hnodup fun p hp => by
    obtain ⟨r, hr, rfl⟩ := List.mem_map.1 hp
    exact (h.reached r hr).pos_bounds
  rwa [List.length_map] at hle

theorem concat {r : Cursor} (h : c.Increase (rs ++ [r])) (hreaches : r.Reaches d)
    (hlt : r.pos < d.pos) : c.Increase (rs ++ [r] ++ [d]) := by
  have hr := h.reached r (List.mem_append_right _ (List.mem_singleton_self r))
  have hd : ∀ s ∈ [d], c.Reaches s := List.forall_mem_singleton.2 (hr.trans hreaches)
  refine ⟨fun s hs => (List.mem_append.1 hs).elim (h.reached s) (hd s), ?_⟩
  apply List.pairwise_append.2
  refine ⟨h.pairwise, List.pairwise_singleton _ d, fun s hs e he => ?_⟩
  rw [List.mem_singleton.1 he]
  cases List.mem_append.1 hs with
  | inl hbefore =>
    have hle := (List.pairwise_append.1 h.pairwise).2.2 s hbefore r (List.mem_singleton_self r)
    exact Nat.lt_trans hle hlt
  | inr hlast => exact List.mem_singleton.1 hlast ▸ hlt

theorem of_reaches (hc : c.Reaches d) (h : d.Increase rs) : c.Increase rs where
  reached := fun r hr => hc.trans (h.reached r hr)
  pairwise := h.pairwise

end Cursor.Increase

end Places

namespace Rule

variable {α σ : Type} {c d : Cursor} {Q : Cursor → Cursor → Prop}

def Leads (Q : Cursor → Cursor → Prop) (rule : Rule α) : Prop :=
  ∀ ⦃c a d⦄, rule c = .ok a d → Q c d

/-- The places where the rounds of a loop start. -/
def rounds (body : σ → Rule (Round σ α)) (h : Advancing body) (s : σ) (c : Cursor) : List Cursor :=
  match _hb : body s c with
  | .error _ _ => [c]
  | .ok (.done _) _ => [c]
  | .ok (.again t) d => c :: rounds body h t d
termination_by c.rest.length
decreasing_by exact h _hb

theorem increase_rounds {body : σ → Rule (Round σ α)} {h : Advancing body}
    (hf : ∀ s, Forward (body s)) (s : σ) (c : Cursor) : c.Increase (rounds body h s c) := by
  fun_induction rounds body h s c with
  | case1 s c | case2 s c =>
    exact ⟨List.forall_mem_singleton.2 (.refl c), List.pairwise_singleton _ c⟩
  | case3 s c t d hround ih =>
    have hd := hf s hround
    have hlt := hd.pos_lt (h hround)
    constructor
    · exact List.forall_mem_cons.2 ⟨.refl c, fun r hr => hd.trans (ih.reached r hr)⟩
    · refine List.pairwise_cons.2 ⟨fun r hr => ?_, ih.pairwise⟩
      exact Nat.lt_of_lt_of_le hlt (ih.reached r hr).pos_le

theorem closes_take? {p : Pattern} {t : Token} (h : take? p .skipped c = .ok (some t) d) :
    c.Closes p d := by
  obtain ⟨taken, htaken, hfound, rfl⟩ := take?_eq_ok.1 h
  cases taken with
  | none => cases hfound
  | some taken =>
    have hsplit := Pattern.take?_append htaken
    rw [Taken.passed, List.append_assoc, List.singleton_append] at hsplit
    refine ⟨taken.skipped, taken.token, hsplit.symm, ?_, (Pattern.take?_eq_some htaken).2⟩
    rw [Option.elim_some, Cursor.pass, Taken.passed, List.length_append, List.length_singleton,
      Nat.add_assoc]

theorem Leads.rewinding {rule : Rule α} (h : Leads Q rule) : Leads Q (rewinding rule) := by
  intro c a d hrule
  unfold Rule.rewinding at hrule
  split at hrule
  · next hok =>
    cases hrule
    exact h hok
  · cases hrule

theorem Leads.noting {rule : Rule α} (hQ : ∀ ⦃c d e⦄, c.Reaches d → Q d e → Q c e)
    (h : Leads Q rule) (record : Cursor → Record) : Leads Q (note record >>= fun _ => rule) := by
  intro c a d hrule
  rw [bind_of_ok (note_eq record)] at hrule
  exact hQ (c.reaches_note _) (h hrule)

theorem leads_loop {body : σ → Rule (Round σ α)} {h : Advancing body}
    (hQ : ∀ ⦃c d e⦄, c.Reaches d → Q d e → Q c e) (hf : ∀ s, Forward (body s))
    (hdone : ∀ ⦃s c a d⦄, body s c = .ok (.done a) d → Q c d) (s : σ) :
    Leads Q (loop body h s) := by
  intro c a d
  refine loop_induction (P := fun _ c o => o = .ok a d → Q c d) ?_ ?_ ?_ s c
  · intro s c e f _ hfails
    cases hfails
  · intro s c b e hround hends
    cases hends
    exact hdone hround
  · intro s c t e hround ih hends
    exact hQ (hf s hround) (ih hends)

theorem consuming_name : Leads Cursor.Consumes name := by
  intro c n d h
  obtain ⟨blank, ts, hrest, _, hspells, ⟨t, hlast⟩, _⟩ := name_spells h
  obtain ⟨hmem, hkind⟩ := hspells.kind_of_mem (List.mem_of_getLast? hlast)
  refine ⟨blank ++ ts, hrest, (forward_name h).pos_eq hrest, t, List.mem_append_right _ hmem, ?_⟩
  rw [Token.isWhitespace, hkind]
  rfl

theorem consuming_typeExpr : Leads Cursor.Consumes typeExpr := by
  apply Leads.rewinding
  refine leads_loop (fun _ _ _ => .of_reaches) forward_typeRound ?_ _
  intro around c t e h
  obtain ⟨_, b, hnote, h⟩ := bind_eq_ok h
  obtain ⟨qualifier, d, hconst, h⟩ := bind_eq_ok h
  obtain ⟨pointer, d', hstar, h⟩ := bind_eq_ok h
  cases pointer with
  | some token => cases h
  | none =>
    obtain ⟨n, e, hname, h⟩ := bind_eq_ok h
    cases h
    have hbefore := ((forward_note _ hnote).trans (forward_take? _ _ hconst)).trans
      (forward_take? _ _ hstar)
    exact .of_reaches hbefore (consuming_name hname)

theorem argumentRound_eq_done {found args : List Argument} :
    argumentRound found c = .ok (.done args) d ↔ ∃ read b b' token, argument c = .ok read b ∧
      take? comma .skipped b = .ok none b' ∧ take? closeParen .skipped b' = .ok (some token) d ∧
      args = (read.toList ++ found).reverse := by
  constructor
  · intro h
    obtain ⟨read, b, hread, h⟩ := bind_eq_ok h
    obtain ⟨separator, b', hcomma, h⟩ := bind_eq_ok h
    cases separator with
    | some token =>
      obtain ⟨closed, e, _, h⟩ := bind_eq_ok h
      cases closed with
      | true => exact absurd h reject_ne_ok
      | false => cases h
    | none =>
      obtain ⟨closed, e, hclose, h⟩ := bind_eq_ok h
      cases closed with
      | none => exact absurd h reject_ne_ok
      | some token =>
        cases h
        exact ⟨read, b, b', token, hread, hcomma, hclose, rfl⟩
  · rintro ⟨read, b, b', token, hread, hcomma, hclose, rfl⟩
    rw [argumentRound, bind_of_ok hread, bind_of_ok hcomma]
    exact bind_of_ok hclose

theorem braceRound_eq_done {o : OpenScopes} {s : Scope} :
    braceRound o c = .ok (.done s) d ↔
      ∃ token, take? closeBrace .skipped c = .ok (some token) d ∧ o.close = .done s := by
  constructor
  · intro h
    obtain ⟨closed, b, hclose, h⟩ := bind_eq_ok h
    cases closed with
    | some token =>
      obtain ⟨hdone, rfl⟩ := pure_eq_ok h
      exact ⟨token, hclose, hdone⟩
    | none =>
      obtain ⟨opened, b', hopen, h⟩ := bind_eq_ok h
      cases opened with
      | some token => cases h
      | none => exact absurd h reject_ne_ok
  · rintro ⟨token, hclose, hdone⟩
    rw [braceRound, bind_of_ok hclose, hdone]
    rfl

theorem closing_argumentLoop (found : List Argument) :
    Leads (Cursor.Closes closeParen) (loop argumentRound advancing_argumentRound found) := by
  refine leads_loop (fun _ _ _ => .of_reaches) forward_argumentRound ?_ _
  intro found c args e h
  obtain ⟨read, b, b', token, hread, hcomma, hclose, _⟩ := argumentRound_eq_done.1 h
  have hbefore := (forward_argument hread).trans (forward_take? _ _ hcomma)
  exact .of_reaches hbefore (closes_take? hclose)

theorem closing_arguments : Leads (Cursor.Closes closeParen) arguments :=
  (closing_argumentLoop []).rewinding.noting (fun _ _ _ => .of_reaches) _

theorem closing_braceLoop (o : OpenScopes) :
    Leads (Cursor.Closes closeBrace) (loop braceRound advancing_braceRound o) := by
  refine leads_loop (fun _ _ _ => .of_reaches) forward_braceRound ?_ _
  intro o c s e h
  obtain ⟨token, hclose, _⟩ := braceRound_eq_done.1 h
  exact closes_take? hclose

theorem closing_nestedScope : Leads (Cursor.Closes closeBrace) nestedScope :=
  (closing_braceLoop .outermost).rewinding

end Rule

open Rule

/-- The places where the rounds of a rule's own loop start. A type has no loop. -/
def Start.rounds (start : Start) (c : Cursor) : List Cursor :=
  match start with
  | name =>
    match take? anyWhitespace .significant (c.note (.readingName c.pos)) with
    | .ok _ d => Rule.rounds unitRound advancing_unitRound [] d
    | .error _ _ => []
  | type => []
  | arguments =>
    Rule.rounds argumentRound advancing_argumentRound [] (c.note (.readingArguments c.pos))
  | globalScope => Rule.rounds entryRound advancing_entryRound [] (c.note (.readingGlobal c.pos))
  | nestedScope => Rule.rounds (Rule.scopeRound Rule.nestedScope) advancing_scopeRound [] c

/-- A rule that runs at one cursor runs a rule for types or for nested scopes at another. -/
inductive Calls : Start → Cursor → Start → Cursor → Prop where
  | pointee {c d e : Cursor} {qualifier : Option Token} {token : Token}
      (qualified : take? constKeyword .skipped (c.note (.readingType c.pos)) = .ok qualifier d)
      (pointer : take? star .skipped d = .ok (some token) e) : Calls .type c .type e
  | argument {c r b d e : Cursor} {mode : Mode} {name : Option Token} {token : Token}
      (round : r ∈ Start.arguments.rounds c) (moded : modeAmong Mode.all r = .ok mode b)
      (named : take? anyIdentifier .skipped b = .ok name d)
      (typed : take? colon .skipped d = .ok (some token) e) : Calls .arguments c .type e
  | entry {c r e : Cursor} {token : Token} (round : r ∈ Start.globalScope.rounds c)
      (left : r.allParsed = false) (opened : take? openBrace .skipped r = .ok (some token) e) :
      Calls .globalScope c .nestedScope e
  | block {c r d e : Cursor} {token : Token} (round : r ∈ Start.nestedScope.rounds c)
      (goesOn : take? closeBrace .skipped r = .ok none d)
      (opened : take? openBrace .skipped d = .ok (some token) e) :
      Calls .nestedScope c .nestedScope e

/-- What the rules do at a cursor depends on the rules they call only where those are called. -/
structure Cursor.CallsAll (c : Cursor) : Prop where
  type : ∀ inner, (∀ d, Calls .type c .type d → inner d = typeExpr d) →
    typeLevel inner c = typeLevel typeExpr c
  arguments : ∀ inner, (∀ d, Calls .arguments c .type d → inner d = typeExpr d) →
    ∀ r ∈ Start.arguments.rounds c, ∀ found, argumentRoundWith inner found r = argumentRound found r
  globalScope : ∀ inner, (∀ d, Calls .globalScope c .nestedScope d → inner d = nestedScope d) →
    ∀ r ∈ Start.globalScope.rounds c, ∀ found, entryRoundWith inner found r = entryRound found r
  nestedScope : ∀ inner, (∀ d, Calls .nestedScope c .nestedScope d → inner d = nestedScope d) →
    ∀ r ∈ Start.nestedScope.rounds c, ∀ found,
      scopeRound inner found r = scopeRound Rule.nestedScope found r

/-- The calls that may be open at once below a first one, innermost first. -/
inductive OpenCalls (start : Start) (c : Cursor) : List (Start × Cursor) → Prop where
  | first : OpenCalls start c [(start, c)]
  | call {outer inner : Start × Cursor} {calls : List (Start × Cursor)}
      (waiting : OpenCalls start c (outer :: calls))
      (called : Calls outer.1 outer.2 inner.1 inner.2) :
      OpenCalls start c (inner :: outer :: calls)

/-- What ends every rule at a cursor, and what bounds its rounds and the calls below it. -/
structure Cursor.Progress (c : Cursor) : Prop where
  ends : ∀ start : Start, ∃ reading, (start.readAt c).1 = .ok reading
  name : ∀ ⦃n d⦄, Rule.name c = .ok n d → c.Consumes d
  type : ∀ ⦃t d⦄, typeExpr c = .ok t d → c.Consumes d
  arguments : ∀ ⦃args d⦄, Rule.arguments c = .ok args d → c.Consumes d
  nestedScope : ∀ ⦃s d⦄, Rule.nestedScope c = .ok s d → c.Consumes d
  rounds : ∀ start : Start, (start.rounds c).Pairwise (fun r s => r.pos < s.pos) ∧
    (start.rounds c).length ≤ c.rest.length + 1
  calls : ∀ ⦃start inner d⦄, Calls start c inner d → c.pos < d.pos
  openCalls : ∀ ⦃start calls⦄, OpenCalls start c calls →
    calls.Pairwise (fun inner outer => outer.2.pos < inner.2.pos) ∧
      calls.length ≤ c.rest.length + 1

namespace Start

variable {c d : Cursor}

theorem increase_rounds (start : Start) (c : Cursor) : c.Increase (start.rounds c) := by
  cases start with
  | name =>
    rw [rounds]
    split
    · next blank d hblank =>
      have hd := (c.reaches_note _).trans (forward_take? _ _ hblank)
      exact .of_reaches hd (Rule.increase_rounds forward_unitRound _ d)
    · exact ⟨fun _ hr => absurd hr List.not_mem_nil, .nil⟩
  | type => exact ⟨fun _ hr => absurd hr List.not_mem_nil, .nil⟩
  | arguments => exact .of_reaches (c.reaches_note _) (Rule.increase_rounds forward_argumentRound _ _)
  | globalScope => exact .of_reaches (c.reaches_note _) (Rule.increase_rounds forward_entryRound _ _)
  | nestedScope => exact Rule.increase_rounds forward_scopeRound _ c

theorem ends_of_trails {α : Type} {rule : Rule α} (h : Trails rule) (hc : c.Ordered) :
    ∃ result, (rule.runAt c).1 = .ok result := by
  have htrail := h c hc
  rw [Rule.runAt]
  cases hrule : rule c with
  | ok a d => exact ⟨_, rfl⟩
  | error f d =>
    rw [hrule] at htrail
    cases htrail with
    | rejected => exact ⟨_, rfl⟩

theorem ends (start : Start) (h : c.Ordered) :
    ∃ reading, (start.readAt c).1 = .ok reading := by
  have hmap : ∀ {α : Type} {rule : Rule α} (f : Except SyntaxError α → Reading), Trails rule →
      ∃ reading, ((rule.runAt c).map (·.map f) id).1 = .ok reading := by
    intro α rule f hrule
    obtain ⟨result, hresult⟩ := ends_of_trails hrule h
    refine ⟨f result, ?_⟩
    rw [Prod.map_fst, hresult]
    rfl
  cases start with
  | name => exact hmap .name trails_name
  | type => exact hmap .type trails_typeExpr
  | arguments => exact hmap .arguments trails_arguments
  | globalScope => exact hmap .scope trails_globalScope
  | nestedScope => exact hmap .scope trails_nestedScope

end Start

theorem Cursor.Reaches.further {c r d : Cursor} {p : Pattern} {token : Token} (h : c.Reaches r)
    (htake : Rule.take? p .skipped r = .ok (some token) d) : c.Reaches d ∧ c.pos < d.pos := by
  have hcall := forward_take? _ _ htake
  have hlt := hcall.pos_lt (Rule.length_of_take? htake)
  exact ⟨h.trans hcall, Nat.lt_of_le_of_lt h.pos_le hlt⟩

theorem Calls.further {outer inner : Start} {c d : Cursor} (h : Calls outer c inner d) :
    c.Reaches d ∧ c.pos < d.pos := by
  cases h with
  | pointee qualified pointer =>
    have hqualified := (c.reaches_note _).trans (forward_take? _ _ qualified)
    exact hqualified.further pointer
  | argument round moded named typed =>
    have hround := (Start.arguments.increase_rounds c).reached _ round
    have hnamed := (hround.trans (forward_modeAmong _ moded)).trans (forward_take? _ _ named)
    exact hnamed.further typed
  | entry round left opened =>
    have hround := (Start.globalScope.increase_rounds c).reached _ round
    exact hround.further opened
  | block round goesOn opened =>
    have hround := (Start.nestedScope.increase_rounds c).reached _ round
    exact (hround.trans (forward_take? _ _ goesOn)).further opened

/-- Each open call starts further right than the ones that wait for it. -/
theorem OpenCalls.increase {start : Start} {c : Cursor} {calls : List (Start × Cursor)}
    (h : OpenCalls start c calls) : c.Increase (calls.map Prod.snd).reverse := by
  induction h with
  | first => exact ⟨List.forall_mem_singleton.2 (.refl c), List.pairwise_singleton _ c⟩
  | call waiting called ih =>
    obtain ⟨hreaches, hlt⟩ := called.further
    rw [List.map_cons, List.reverse_cons] at ih ⊢
    rw [List.map_cons, List.reverse_cons]
    exact ih.concat hreaches hlt

theorem Cursor.callsAll (c : Cursor) : c.CallsAll where
  type := by
    intro inner h
    apply bind_congr_next
    intro _ b hnote
    cases hnote
    apply bind_congr_next
    intro qualifier d hqualified
    apply bind_congr_next
    intro pointer e hpointer
    cases pointer with
    | none => rfl
    | some token => exact bind_congr_first (h e (.pointee hqualified hpointer))
  arguments := by
    intro inner h r hr found
    rw [argumentRound_eq_with]
    apply bind_congr_next
    intro mode b hmoded
    apply bind_congr_next
    intro name d hnamed
    apply bind_congr_first
    apply bind_congr_next
    intro typed e htyped
    cases typed with
    | none => rfl
    | some token => exact bind_congr_first (h e (.argument hr hmoded hnamed htyped))
  globalScope := by
    intro inner h r hr found
    rw [entryRound_eq_with]
    apply bind_congr_next
    intro r' d hget
    cases hget
    cases hparsed : r.allParsed with
    | true => rfl
    | false =>
      apply bind_congr_next
      intro opened e hopened
      cases opened with
      | none => rfl
      | some token => exact bind_congr_first (h e (.entry hr hparsed hopened))
  nestedScope := by
    intro inner h r hr found
    apply bind_congr_next
    intro closed d hclosed
    cases closed with
    | some token => rfl
    | none =>
      apply bind_congr_next
      intro opened e hopened
      cases opened with
      | none => rfl
      | some token => exact bind_congr_first (h e (.block hr hclosed hopened))

/-- Types and nested scopes are read by calls of themselves, and every rule makes progress: on each
input it ends, and each round and each call starts further right than the one before. -/
theorem rules_make_progress :
    typeExpr = rewinding (typeLevel typeExpr) ∧
    nestedScope = rewinding (loop (scopeRound nestedScope) advancing_scopeRound []) ∧
    ∀ c : Cursor, c.Ordered → c.CallsAll ∧ c.Progress := by
  refine ⟨typeExpr_eq_level, nestedScope_eq_loop, fun c hc => ⟨c.callsAll, ?_⟩⟩
  constructor
  case ends => exact fun start => start.ends hc
  case name => exact fun _ _ h => consuming_name h
  case type => exact fun _ _ h => consuming_typeExpr h
  case arguments => exact fun _ _ h => (closing_arguments h).consumes
  case nestedScope => exact fun _ _ h => (closing_nestedScope h).consumes
  case rounds =>
    intro start
    have hincrease := start.increase_rounds c
    exact ⟨hincrease.pairwise, hincrease.length_le⟩
  case calls => exact fun _ _ _ h => h.further.2
  case openCalls =>
    intro start calls h
    have hlength := h.increase.length_le
    rw [List.length_reverse, List.length_map] at hlength
    exact ⟨List.pairwise_map.1 (List.pairwise_reverse.1 h.increase.pairwise), hlength⟩

def brokenArguments : List Token :=
  let source := Buffer.ofBytes 0 (bytesOf ",in ,:**")
  [⟨.scopeOperator, ⟨0, 1⟩, ⟨1, 1⟩, source, by decide⟩,
    ⟨.identifier, ⟨1, 3⟩, ⟨1, 2⟩, source, by decide⟩,
    ⟨.whitespace, ⟨3, 4⟩, ⟨1, 4⟩, source, by decide⟩,
    ⟨.scopeOperator, ⟨4, 5⟩, ⟨1, 5⟩, source, by decide⟩,
    ⟨.scopeOperator, ⟨5, 6⟩, ⟨1, 6⟩, source, by decide⟩,
    ⟨.operator, ⟨6, 7⟩, ⟨1, 7⟩, source, by decide⟩,
    ⟨.operator, ⟨7, 8⟩, ⟨1, 8⟩, source, by decide⟩]

theorem rules_make_progress_on_brokenArguments :
    (Cursor.ofTokens brokenArguments).Ordered ∧
    (∃ reading, (Start.arguments.readAt (.ofTokens brokenArguments)).1 = .ok reading) ∧
    (Start.arguments.rounds (.ofTokens brokenArguments)).map Cursor.pos = [0, 1, 4] ∧
    (Start.arguments.rounds (.ofTokens brokenArguments)).length ≤ brokenArguments.length + 1 := by
  have hordered : ∀ t ∈ brokenArguments, t.span.start ≤ t.span.stop := by decide
  have hprogress := (rules_make_progress.2.2 (.ofTokens brokenArguments) hordered).2
  refine ⟨hordered, hprogress.ends .arguments, by decide +kernel, ?_⟩
  exact (hprogress.rounds .arguments).2

end FrontEnd
