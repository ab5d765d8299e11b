import FrontEnd.Proofs.Scope.Balance
import Mathlib.Data.List.Infix
import Mathlib.Data.List.ReduceOption

namespace FrontEnd

open Recognizer (blockOpen blockClose lineOpen lineFeed)

namespace Scope

/-- The deepest level below scopes that wait at given levels. -/
def reach : List (Scope × Nat) → Nat
  | [] => 0
  | (s, level) :: rest => max (level + s.height) (reach rest)

@[simp] theorem reach_append (p q : List (Scope × Nat)) :
    reach (p ++ q) = max (reach p) (reach q) := by
  induction p with
  | nil => exact (Nat.zero_max _).symm
  | cons s p ih => rw [List.cons_append, reach, reach, ih, Nat.max_assoc]

@[simp] theorem reach_reverse (p : List (Scope × Nat)) : reach p.reverse = reach p := by
  induction p with
  | nil => rfl
  | cons s p ih =>
    rw [List.reverse_cons, reach_append, ih, reach, reach, reach, Nat.max_zero, Nat.max_comm]

theorem max_reach_atLevel (level : Nat) (ss : List Scope) :
    max level (reach (atLevel (level + 1) ss)) = level + heightAll ss := by
  induction ss with
  | nil => exact Nat.max_zero _
  | cons s ss ih =>
    have hcons : atLevel (level + 1) (s :: ss) = (s, level + 1) :: atLevel (level + 1) ss := rfl
    rw [hcons, reach, heightAll]
    omega

theorem deepest_eq (found : Nat) (pending : List (Scope × Nat)) :
    deepest found pending = max found (reach pending) := by
  fun_induction deepest found pending with
  | case1 found => exact (Nat.max_zero _).symm
  | case2 found isGlobal entries level rest ih =>
    have hheight : (mk isGlobal entries).height = heightAll entries := by rw [height]
    have hlevel := max_reach_atLevel level entries
    rw [ih, reach_append, reach_reverse, reach, hheight]
    omega

theorem depth_eq (s : Scope) : s.depth = s.height := by
  rw [depth, deepest_eq, reach, reach, Nat.zero_add, Nat.max_zero, Nat.zero_max]

end Scope

namespace Balance

open Scope (bracesAll)

/-- What each byte of a text is to the scopes: a brace outside comments, or nothing. -/
def marks (mode : Mode) : List UInt8 → List (Option Brace)
  | [] => []
  | byte :: rest =>
    match mode with
    | .line => none :: marks (if byte = lineFeed then .code else .line) rest
    | .block =>
      none :: marks (if blockClose.isPrefixOf (byte :: rest) then .closer else .block) rest
    | .opener => none :: marks .block rest
    | .closer => none :: marks .code rest
    | .code =>
      if blockOpen.isPrefixOf (byte :: rest) then none :: marks .opener rest
      else if lineOpen.isPrefixOf (byte :: rest) then none :: marks .line rest
      else Brace.ofBytes? [byte] :: marks .code rest

def outside (text : List UInt8) : List (Option Brace) := marks .code text

def rise : Brace → Int
  | .opening => 1
  | .closing => -1

def level (w : List (Option Brace)) : Int := w.count (some .opening) - w.count (some .closing)

/-- Some marks end with a brace and have as many opening as closing ones. -/
def returns (w : List (Option Brace)) : Bool := w.getLast?.join.isSome && level w == 0

/-- The level after each brace, from a level on. -/
def levels (start : Int) : List (Option Brace) → List Int
  | [] => []
  | none :: w => levels start w
  | some b :: w => (start + rise b) :: levels (start + rise b) w

section Levels

variable (start : Int) (v w : List (Option Brace)) (b : Brace)

@[simp] theorem level_append : level (v ++ w) = level v + level w := by
  rw [level, level, level, List.count_append, List.count_append]
  omega

@[simp] theorem level_single : level [some b] = rise b := by
  cases b <;> rfl

@[simp] theorem levels_append :
    levels start (v ++ w) = levels start v ++ levels (start + level v) w := by
  induction v generalizing start with
  | nil =>
    have hnil : level [] = 0 := rfl
    rw [hnil, Int.add_zero]
    rfl
  | cons mark v ih =>
    rw [← List.singleton_append (l := v), level_append, ← Int.add_assoc]
    cases mark with
    | none =>
      have hnone : level [none] = 0 := rfl
      rw [hnone, Int.add_zero]
      exact ih start
    | some b =>
      rw [level_single]
      exact congrArg ((start + rise b) :: ·) (ih (start + rise b))

theorem levels_reduceOption : levels start (w.reduceOption.map some) = levels start w := by
  induction w generalizing start with
  | nil => rfl
  | cons mark w ih =>
    cases mark with
    | none => exact ih start
    | some b => exact congrArg ((start + rise b) :: ·) (ih (start + rise b))

theorem levels_concat_none : levels 0 (w ++ [none]) = levels 0 w := by
  rw [levels_append]
  exact List.append_nil _

theorem levels_concat_some :
    levels 0 (w ++ [some b]) = levels 0 w ++ [level (w ++ [some b])] := by
  rw [levels_append, level_append, level_single, Int.zero_add]
  rfl

theorem inits_concat (mark : Option Brace) : (w ++ [mark]).inits = w.inits ++ [w ++ [mark]] :=
  List.inits_append w [mark]

/-- The levels of the prefixes are those after each brace, and the one before the first. -/
theorem mem_levels_iff (x : Int) : x ∈ 0 :: levels 0 w ↔ ∃ v ∈ w.inits, level v = x := by
  induction w using List.reverseRecOn with
  | nil =>
    constructor
    · intro hx
      cases List.mem_singleton.1 hx
      exact ⟨[], List.mem_singleton_self _, rfl⟩
    · rintro ⟨v, hv, rfl⟩
      cases List.mem_singleton.1 hv
      exact List.mem_cons_self
  | append_singleton w mark ih =>
    have hsplit : (∃ v ∈ (w ++ [mark]).inits, level v = x) ↔
        (∃ v ∈ w.inits, level v = x) ∨ level (w ++ [mark]) = x := by
      rw [inits_concat]
      simp only [List.mem_append, List.mem_singleton, or_and_right, exists_or, exists_eq_left]
    rw [hsplit, ← ih]
    cases mark with
    | none =>
      have hsame : level (w ++ [none]) = level w := by
        rw [level_append]
        exact Int.add_zero _
      rw [levels_concat_none, hsame]
      constructor
      · exact Or.inl
      · rintro (hx | rfl)
        · exact hx
        · exact ih.2 ⟨w, (List.mem_inits w w).2 List.prefix_rfl, rfl⟩
    | some b =>
      rw [levels_concat_some, ← List.cons_append, List.mem_append, List.mem_singleton,
        @eq_comm _ x]

theorem countP_returns : w.inits.countP returns = (levels 0 w).count 0 := by
  induction w using List.reverseRecOn with
  | nil => rfl
  | append_singleton w mark ih =>
    rw [inits_concat, List.countP_append, ih, List.countP_singleton, returns,
      List.getLast?_concat]
    cases mark with
    | none =>
      rw [levels_concat_none]
      rfl
    | some b =>
      rw [levels_concat_some, List.count_append, List.count_singleton]
      rfl

end Levels

theorem level_braces (s : Scope) : level (s.braces.map some) = 0 := by
  rw [level, Scope.count_map_some, Scope.count_map_some, Scope.count_braces, Int.sub_self]

theorem levels_bracesAll_cons (start : Int) (s : Scope) (ss : List Scope) :
    levels start ((bracesAll (s :: ss)).map some) =
      (start + 1) :: (levels (start + 1) (s.braces.map some) ++
        start :: levels start ((bracesAll ss).map some)) := by
  have hopen : rise .opening = 1 := rfl
  have hback : start + 1 + level (s.braces.map some) + rise .closing = start := by
    rw [level_braces, rise]
    omega
  rw [bracesAll, List.map_cons, List.map_append, List.map_cons, levels, levels_append, levels, hopen,
    hback]

mutual

theorem bounds_of_mem_levels (start : Int) :
    ∀ (s : Scope) (x : Int), x ∈ levels start (s.braces.map some) →
      start ≤ x ∧ x ≤ start + s.height
  | .mk _ entries => by
    rw [Scope.braces, Scope.height]
    exact bounds_of_mem_levelsAll start entries

theorem bounds_of_mem_levelsAll (start : Int) :
    ∀ (ss : List Scope) (x : Int), x ∈ levels start ((bracesAll ss).map some) →
      start ≤ x ∧ x ≤ start + Scope.heightAll ss
  | [] => by
    intro x hx
    cases hx
  | s :: ss => by
    intro x hx
    rw [levels_bracesAll_cons, List.mem_cons, List.mem_append, List.mem_cons] at hx
    rw [Scope.heightAll]
    rcases hx with rfl | hx | rfl | hx
    · omega
    · have := bounds_of_mem_levels (start + 1) s x hx
      omega
    · omega
    · have := bounds_of_mem_levelsAll start ss x hx
      omega

end

mutual

theorem height_mem_levels (start : Int) :
    ∀ s : Scope, start + s.height ∈ start :: levels start (s.braces.map some)
  | .mk _ entries => by
    rw [Scope.braces, Scope.height]
    exact heightAll_mem_levels start entries

theorem heightAll_mem_levels (start : Int) :
    ∀ ss : List Scope,
      start + Scope.heightAll ss ∈ start :: levels start ((bracesAll ss).map some)
  | [] => by
    have hnone : start + (Scope.heightAll [] : Nat) = start := Int.add_zero start
    rw [hnone]
    exact List.mem_cons_self
  | s :: ss => by
    have hfirst := height_mem_levels (start + 1) s
    have hlater := heightAll_mem_levels start ss
    rw [levels_bracesAll_cons, Scope.heightAll]
    rcases Nat.le_total (Scope.heightAll ss) (s.height + 1) with hle | hle
    · rw [Nat.max_eq_left hle, Int.natCast_add, Int.add_comm (s.height : Int), ← Int.add_assoc]
      rw [← List.cons_append]
      exact List.mem_cons_of_mem _ (List.mem_append_left _ hfirst)
    · rw [Nat.max_eq_right hle, ← List.cons_append]
      exact List.mem_cons_of_mem _ (List.mem_append_right _ hlater)

end

theorem count_levels (ss : List Scope) :
    (levels 0 ((bracesAll ss).map some)).count 0 = ss.length := by
  induction ss with
  | nil => rfl
  | cons s ss ih =>
    have hinside : (levels (0 + 1) (s.braces.map some)).count 0 = 0 := by
      rw [List.count_eq_zero]
      intro hmem
      have := bounds_of_mem_levels (0 + 1) s 0 hmem
      omega
    rw [levels_bracesAll_cons, List.count_cons_of_ne (by decide), List.count_append, hinside,
      List.count_cons_self, ih, List.length_cons]
    omega

@[simp] theorem length_marks (mode : Mode) (text : List UInt8) :
    (marks mode text).length = text.length := by
  induction text generalizing mode with
  | nil => rfl
  | cons byte rest ih =>
    cases mode with
    | line => exact congrArg (· + 1) (ih _)
    | block => exact congrArg (· + 1) (ih _)
    | opener => exact congrArg (· + 1) (ih _)
    | closer => exact congrArg (· + 1) (ih _)
    | code =>
      rw [marks]
      split
      · exact congrArg (· + 1) (ih _)
      · split
        · exact congrArg (· + 1) (ih _)
        · exact congrArg (· + 1) (ih _)

theorem ofBytes?_of_whitespace {byte : UInt8} (h : ByteClass.ofByte byte = .whitespace) :
    Brace.ofBytes? [byte] = none := by
  cases hbrace : Brace.ofBytes? [byte] with
  | none => rfl
  | some b => cases h.symm.trans (class_of_brace hbrace)

theorem reduceOption_marks {mode : Mode} {text : List UInt8} {balance offset last : Nat}
    {read braces : List Brace} (h : scan mode balance offset read text = .ended last braces) :
    braces = read.reverse ++ (marks mode text).reduceOption := by
  induction text generalizing mode balance offset read with
  | nil =>
    cases h
    exact (List.append_nil _).symm
  | cons byte rest ih =>
    cases mode with
    | line => exact ih h
    | block => exact ih h
    | opener => exact ih h
    | closer => exact ih h
    | code =>
      have hread : ∀ (b : Brace) (bs : List Brace), (b :: read).reverse ++ bs =
          read.reverse ++ b :: bs := by
        intro b bs
        rw [List.reverse_cons, List.append_assoc, List.singleton_append]
      rw [scan.eq_def] at h
      dsimp only at h
      rw [marks]
      split at h
      · next hblock =>
        rw [if_pos hblock]
        exact ih h
      next hblock =>
      rw [if_neg hblock]
      split at h
      · next hline =>
        rw [if_pos hline]
        exact ih h
      next hline =>
      rw [if_neg hline]
      split at h
      · next hblank =>
        rw [ofBytes?_of_whitespace hblank]
        exact ih h
      split at h
      · next hopen =>
        rw [hopen]
        exact (ih h).trans (hread _ _)
      split at h
      · next hclose =>
        rw [hclose]
        cases balance with
        | zero => cases h
        | succ balance => exact (ih h).trans (hread _ _)
      · cases h

/-- What the prefixes of a text say about the scope that is read from it. -/
structure Nesting (text : List UInt8) (s : Scope) : Prop where
  aligned : (outside text).length = text.length
  highest : ∀ w ∈ (outside text).inits, level w ≤ s.depth
  reached : ∃ w ∈ (outside text).inits, level w = s.depth
  entries : s.entries.length = (outside text).inits.countP returns

theorem nesting_of_ended {text : List UInt8} {s : Scope}
    (h : verdict text = .ended 0 s.braces) : Nesting text s := by
  obtain ⟨isGlobal, entries⟩ := s
  have hbraces : (Scope.mk isGlobal entries).braces = (outside text).reduceOption :=
    reduceOption_marks h
  have hlevels : levels 0 (outside text) = levels 0 ((bracesAll entries).map some) := by
    rw [← levels_reduceOption, ← hbraces, Scope.braces_mk]
  have hdepth : (Scope.mk isGlobal entries).depth = Scope.heightAll entries := by
    rw [Scope.depth_eq, Scope.height]
  constructor
  case aligned => exact length_marks .code text
  case highest =>
    intro w hw
    have hmem := (mem_levels_iff (outside text) (level w)).2 ⟨w, hw, rfl⟩
    rw [hlevels] at hmem
    rw [hdepth]
    rcases List.mem_cons.1 hmem with hzero | hmem
    · omega
    · have := bounds_of_mem_levelsAll 0 entries (level w) hmem
      omega
  case reached =>
    rw [← mem_levels_iff, hlevels, hdepth, ← Int.zero_add (Scope.heightAll entries : Int)]
    exact heightAll_mem_levels 0 entries
  case entries =>
    rw [countP_returns, hlevels, count_levels]
    rfl

end Balance

/-- The depth of a scope is its height as a tree. In a text that is read, it is the greatest number
of braces that are open at once, and an entry ends wherever that number is back at zero. -/
theorem depth_measures_nesting :
    (∀ s : Scope, s.depth = s.height) ∧
    ∀ text : String, text.utf8ByteSize ≤ Offset.bound - 2 → ∀ source : ParsedSource,
      (parseText text).1 = .ok source → Balance.Nesting (bytesOf text) source.scope := by
  refine ⟨Scope.depth_eq, ?_⟩
  intro text hsize source hsource
  have hbytes : (bytesOf text).length ≤ Offset.bound - 2 := hsize
  obtain ⟨tokens, htokens, hcovers⟩ := Buffer.exists_tokens_of_text 0 hbytes
  have hordered : (Cursor.ofTokens tokens).Ordered :=
    fun t ht => Nat.le_of_lt (hcovers.bounds ht).1
  have hreads := Rule.readsAll_globalScope hordered
  rw [parseText_of_tokens htokens] at hsource
  exact Balance.nesting_of_ended
    ((Balance.decides_of_readsAll hcovers hreads).law.tree source hsource)

def commentedBlocks : String := "\x7b/*\x7b*/\x7b\x7d\x7d //\x7d\n\x7b\x7d"

theorem depth_measures_commentedBlocks :
    commentedBlocks.utf8ByteSize ≤ Offset.bound - 2 ∧
    ∃ source, (parseText commentedBlocks).1 = .ok source ∧ source.scope.depth = 2 ∧
      source.scope.entries.length = 2 := by
  have hsize : commentedBlocks.utf8ByteSize ≤ Offset.bound - 2 := by decide
  have hreads : (parseText commentedBlocks).1.toOption.isSome = true := by decide +kernel
  have hpeak : ∃ w ∈ (Balance.outside (bytesOf commentedBlocks)).inits,
      Balance.level w = 2 := by decide +kernel
  have hbound : ∀ w ∈ (Balance.outside (bytesOf commentedBlocks)).inits,
      Balance.level w ≤ 2 := by decide +kernel
  have hcount : (Balance.outside (bytesOf commentedBlocks)).inits.countP Balance.returns = 2 := by
    decide +kernel
  cases hsource : (parseText commentedBlocks).1 with
  | error failure =>
    rw [hsource] at hreads
    cases hreads
  | ok source =>
    obtain ⟨_, highest, ⟨w, hw, hlevel⟩, hentries⟩ :=
      depth_measures_nesting.2 commentedBlocks hsize source hsource
    obtain ⟨v, hv, htop⟩ := hpeak
    have hle := highest v hv
    have hge := hbound w hw
    exact ⟨hsize, source, rfl, by omega, hentries.trans hcount⟩

end FrontEnd
