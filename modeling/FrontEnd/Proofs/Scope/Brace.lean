import FrontEnd.Grammar.Scope

namespace FrontEnd

/-- What a token is to the grammar of scopes. -/
inductive Brace where
  | opening
  | closing
  deriving DecidableEq

namespace Brace

/-- The number of open scopes after a brace. A closing brace needs one. -/
def next? : Brace → Nat → Option Nat
  | opening, depth => some (depth + 1)
  | closing, 0 => none
  | closing, depth + 1 => some depth

def byte : Brace → UInt8
  | opening => 0x7B
  | closing => 0x7D

def ofBytes? (text : List UInt8) : Option Brace :=
  if text = [byte opening] then some opening
  else if text = [byte closing] then some closing
  else none

end Brace

def Token.brace? (t : Token) : Option Brace :=
  match t.kind, t.bytes with
  | .scopeOperator, .ok text => Brace.ofBytes? text
  | _, _ => none

namespace Scope

mutual

def braces : Scope → List Brace
  | mk _ entries => bracesAll entries

def bracesAll : List Scope → List Brace
  | [] => []
  | s :: ss => .opening :: (s.braces ++ .closing :: bracesAll ss)

end

mutual

def descendants : Scope → List Scope
  | mk _ entries => family entries

def family : List Scope → List Scope
  | [] => []
  | s :: ss => s :: (s.descendants ++ family ss)

end

@[simp] theorem braces_mk (isGlobal : Bool) (ss : List Scope) :
    (mk isGlobal ss).braces = bracesAll ss := by rw [braces]

@[simp] theorem descendants_mk (isGlobal : Bool) (ss : List Scope) :
    (mk isGlobal ss).descendants = family ss := by rw [descendants]

@[simp] theorem bracesAll_append (ss ts : List Scope) :
    bracesAll (ss ++ ts) = bracesAll ss ++ bracesAll ts := by
  induction ss with
  | nil => rfl
  | cons s ss ih =>
    rw [List.cons_append, bracesAll, bracesAll, ih, List.cons_append, List.append_assoc,
      List.cons_append]

@[simp] theorem family_append (ss ts : List Scope) :
    family (ss ++ ts) = family ss ++ family ts := by
  induction ss with
  | nil => rfl
  | cons s ss ih =>
    rw [List.cons_append, family, family, ih, List.cons_append, List.append_assoc]

theorem bracesAll_reverse_cons (s : Scope) (ss : List Scope) :
    bracesAll (s :: ss).reverse = bracesAll ss.reverse ++ .opening :: (s.braces ++ [.closing]) := by
  rw [List.reverse_cons, bracesAll_append]
  rfl

/-- No scope among some and their descendants is flagged as the global one. -/
def Plain (ss : List Scope) : Prop := ∀ t ∈ family ss, t.isGlobal = false

@[simp] theorem plain_nil : Plain [] := by
  intro t ht
  cases ht

@[simp] theorem plain_append {ss ts : List Scope} : Plain (ss ++ ts) ↔ Plain ss ∧ Plain ts := by
  rw [Plain, family_append]
  exact List.forall_mem_append

@[simp] theorem plain_cons {s : Scope} {ss : List Scope} :
    Plain (s :: ss) ↔ (s.isGlobal = false ∧ Plain s.entries) ∧ Plain ss := by
  obtain ⟨isGlobal, entries⟩ := s
  rw [Plain, family, descendants, List.forall_mem_cons, List.forall_mem_append, and_assoc]
  rfl

@[simp] theorem plain_reverse {ss : List Scope} : Plain ss.reverse ↔ Plain ss := by
  induction ss with
  | nil => exact Iff.rfl
  | cons s ss ih =>
    rw [List.reverse_cons, plain_append, ih, plain_cons, plain_cons, and_comm]
    simp only [plain_nil, and_true]

end Scope

/-- The index of the first token that is no brace, or closes a scope that is not open. -/
def firstStop (depth : Nat) : List (Option Brace) → Option Nat
  | [] => none
  | none :: _ => some 0
  | some b :: w =>
    match b.next? depth with
    | none => some 0
    | some next => (firstStop next w).map (· + 1)

/-- With some scopes open, a token is no brace, or closes one scope more than there are. -/
def Offends (depth : Nat) (w : List (Option Brace)) (k : Nat) : Prop :=
  w[k]? = some none ∨ (w[k]? = some (some .closing) ∧
    (w.take k).count (some .closing) = (w.take k).count (some .opening) + depth)

def FirstOffends (depth : Nat) (w : List (Option Brace)) (k : Nat) : Prop :=
  Offends depth w k ∧ ∀ j, j < k → ¬Offends depth w j

section

variable {depth next k : Nat} {b : Brace} {w : List (Option Brace)}

theorem Brace.next?_eq_none (h : b.next? depth = none) : b = .closing ∧ depth = 0 := by
  cases b with
  | opening => cases h
  | closing =>
    cases depth with
    | zero => exact ⟨rfl, rfl⟩
    | succ depth => cases h

theorem Brace.next?_succ (h : b.next? depth = some next) :
    b.next? (depth + 1) = some (next + 1) := by
  cases b with
  | opening =>
    cases h
    rfl
  | closing =>
    cases depth with
    | zero => cases h
    | succ depth =>
      cases h
      rfl

theorem Brace.count_of_next (h : b.next? depth = some next) (w : List (Option Brace)) :
    (some b :: w).count (some .closing) + (w.count (some .opening) + next) =
      w.count (some .closing) + ((some b :: w).count (some .opening) + depth) := by
  cases b with
  | opening =>
    cases h
    rw [List.count_cons_self, List.count_cons_of_ne (by decide)]
    omega
  | closing =>
    cases depth with
    | zero => cases h
    | succ depth =>
      cases h
      rw [List.count_cons_self, List.count_cons_of_ne (by decide)]
      omega

theorem firstStop_of_next (h : b.next? depth = some next) (w : List (Option Brace)) :
    firstStop depth (some b :: w) = (firstStop next w).map (· + 1) := by
  rw [firstStop, h]

theorem firstStop_of_no_next (h : b.next? depth = none) (w : List (Option Brace)) :
    firstStop depth (some b :: w) = some 0 := by
  rw [firstStop, h]

theorem offends_zero_of_no_next (h : b.next? depth = none) (w : List (Option Brace)) :
    Offends depth (some b :: w) 0 := by
  obtain ⟨rfl, rfl⟩ := Brace.next?_eq_none h
  exact .inr ⟨rfl, rfl⟩

theorem not_offends_zero_of_next (h : b.next? depth = some next) (w : List (Option Brace)) :
    ¬Offends depth (some b :: w) 0 := by
  rintro (hnone | ⟨hclosing, hcount⟩)
  · cases hnone
  · cases hclosing
    cases depth with
    | zero => cases h
    | succ depth => cases hcount

theorem offends_succ_of_next (h : b.next? depth = some next) (w : List (Option Brace)) (k : Nat) :
    Offends depth (some b :: w) (k + 1) ↔ Offends next w k := by
  have := Brace.count_of_next h (w.take k)
  rw [Offends, Offends, List.getElem?_cons_succ, List.take_succ_cons]
  constructor
  · rintro (hnone | ⟨hclosing, hcount⟩)
    · exact .inl hnone
    · exact .inr ⟨hclosing, by omega⟩
  · rintro (hnone | ⟨hclosing, hcount⟩)
    · exact .inl hnone
    · exact .inr ⟨hclosing, by omega⟩

theorem firstOffends_of_zero (h : Offends depth w 0) : FirstOffends depth w k ↔ 0 = k := by
  constructor
  · rintro ⟨_, hfirst⟩
    cases k with
    | zero => rfl
    | succ k => exact absurd h (hfirst 0 (Nat.zero_lt_succ k))
  · rintro rfl
    exact ⟨h, fun j hj => absurd hj (Nat.not_lt_zero j)⟩

theorem firstOffends_succ_of_next (h : b.next? depth = some next) :
    FirstOffends depth (some b :: w) (k + 1) ↔ FirstOffends next w k := by
  rw [FirstOffends, FirstOffends, offends_succ_of_next h]
  constructor
  · rintro ⟨hk, hfirst⟩
    refine ⟨hk, fun j hj => ?_⟩
    rw [← offends_succ_of_next h]
    exact hfirst (j + 1) (Nat.succ_lt_succ hj)
  · rintro ⟨hk, hfirst⟩
    refine ⟨hk, fun j hj => ?_⟩
    cases j with
    | zero => exact not_offends_zero_of_next h w
    | succ j =>
      rw [offends_succ_of_next h]
      exact hfirst j (Nat.lt_of_succ_lt_succ hj)

theorem firstStop_eq_some_iff : firstStop depth w = some k ↔ FirstOffends depth w k := by
  induction w generalizing depth k with
  | nil =>
    constructor
    · intro h
      cases h
    · rintro ⟨hnone | ⟨hclosing, _⟩, _⟩
      · cases hnone
      · cases hclosing
  | cons mark w ih =>
    cases mark with
    | none => rw [firstOffends_of_zero (.inl rfl), firstStop, Option.some.injEq]
    | some b =>
      cases hnext : b.next? depth with
      | none =>
        rw [firstOffends_of_zero (offends_zero_of_no_next hnext w), firstStop_of_no_next hnext,
          Option.some.injEq]
      | some next =>
        rw [firstStop_of_next hnext]
        cases k with
        | zero =>
          constructor
          · intro h
            obtain ⟨k, _, hk⟩ := Option.map_eq_some_iff.1 h
            cases hk
          · rintro ⟨hzero, _⟩
            exact absurd hzero (not_offends_zero_of_next hnext w)
        | succ k =>
          rw [firstOffends_succ_of_next hnext, ← ih, Option.map_eq_some_iff]
          constructor
          · rintro ⟨j, hj, hk⟩
            cases hk
            exact hj
          · intro h
            exact ⟨k, h, rfl⟩

theorem firstStop_eq_none_iff : firstStop depth w = none ↔ ¬∃ k, FirstOffends depth w k := by
  rw [Option.eq_none_iff_forall_ne_some, not_exists]
  exact forall_congr' fun k => not_congr firstStop_eq_some_iff

theorem firstStop_succ_of_none (h : firstStop depth w = none) :
    firstStop (depth + 1) w = none := by
  induction w generalizing depth with
  | nil => rfl
  | cons mark w ih =>
    cases mark with
    | none => cases h
    | some b =>
      cases hnext : b.next? depth with
      | none =>
        rw [firstStop_of_no_next hnext] at h
        cases h
      | some next =>
        rw [firstStop_of_next hnext, Option.map_eq_none_iff] at h
        rw [firstStop_of_next (Brace.next?_succ hnext), ih h]
        rfl

theorem firstStop_succ_of_some (h : firstStop depth w = some k) (hk : w[k]? = some none) :
    firstStop (depth + 1) w = some k := by
  induction w generalizing depth k with
  | nil => cases h
  | cons mark w ih =>
    cases mark with
    | none => exact h
    | some b =>
      cases hnext : b.next? depth with
      | none =>
        rw [firstStop_of_no_next hnext] at h
        cases h
        cases hk
      | some next =>
        rw [firstStop_of_next hnext] at h
        obtain ⟨j, hj, rfl⟩ := Option.map_eq_some_iff.1 h
        rw [firstStop_of_next (Brace.next?_succ hnext), ih hj hk]
        rfl

theorem count_closing_le (h : firstStop depth w = none) :
    w.count (some .closing) ≤ w.count (some .opening) + depth := by
  induction w generalizing depth with
  | nil => exact Nat.zero_le _
  | cons mark w ih =>
    cases mark with
    | none => cases h
    | some b =>
      cases hnext : b.next? depth with
      | none =>
        rw [firstStop_of_no_next hnext] at h
        cases h
      | some next =>
        rw [firstStop_of_next hnext, Option.map_eq_none_iff] at h
        have := ih h
        have := Brace.count_of_next hnext w
        omega

end

namespace Scope

mutual

/-- The braces of a scope lead back to the depth they start at. -/
theorem firstStop_braces (depth : Nat) (w : List (Option Brace)) :
    ∀ s : Scope, firstStop depth (s.braces.map some ++ w) =
      (firstStop depth w).map (· + s.braces.length)
  | mk _ entries => by
    rw [braces]
    exact firstStop_bracesAll depth w entries

theorem firstStop_bracesAll (depth : Nat) (w : List (Option Brace)) :
    ∀ ss : List Scope, firstStop depth ((bracesAll ss).map some ++ w) =
      (firstStop depth w).map (· + (bracesAll ss).length)
  | [] => Option.map_id'.symm
  | s :: ss => by
    have hopen : Brace.opening.next? depth = some (depth + 1) := rfl
    have hclose : Brace.closing.next? (depth + 1) = some depth := rfl
    rw [bracesAll, List.map_cons, List.map_append, List.map_cons, List.cons_append,
      List.append_assoc, List.cons_append, firstStop_of_next hopen, firstStop_braces (depth + 1) _ s,
      firstStop_of_next hclose, firstStop_bracesAll depth w ss, Option.map_map, Option.map_map,
      Option.map_map]
    congr 1
    funext k
    simp only [Function.comp_apply, List.length_cons, List.length_append]
    omega

end

mutual

theorem count_braces : ∀ s : Scope, s.braces.count .closing = s.braces.count .opening
  | mk _ entries => by
    rw [braces]
    exact count_bracesAll entries

theorem count_bracesAll :
    ∀ ss : List Scope, (bracesAll ss).count .closing = (bracesAll ss).count .opening
  | [] => rfl
  | s :: ss => by
    rw [bracesAll, List.count_cons_self, List.count_cons_of_ne (by decide), List.count_append,
      List.count_append, List.count_cons_self, List.count_cons_of_ne (by decide), count_braces s,
      count_bracesAll ss]
    omega

end

@[simp] theorem count_map_some (b : Brace) (bs : List Brace) :
    (bs.map some).count (some b) = bs.count b := by
  rw [List.count, List.countP_map]
  rfl

end Scope

end FrontEnd
