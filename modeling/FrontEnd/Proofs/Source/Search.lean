import FrontEnd.Source.Buffer
import Mathlib.Data.List.Infix
import Mathlib.Order.Bounds.Basic

namespace FrontEnd

inductive First (P : Nat → Prop) : Option Nat → Prop
  | absent : (∀ k, ¬P k) → First P none
  | found {k : Nat} : IsLeast {k | P k} k → First P (some k)

namespace First

variable {P Q : Nat → Prop} {answer other : Option Nat}

theorem unique (h : First P answer) (h' : First P other) : answer = other := by
  cases h with
  | absent hnone =>
    cases h' with
    | absent => rfl
    | found hleast => exact absurd hleast.1 (hnone _)
  | found hleast =>
    cases h' with
    | absent hnone => exact absurd hleast.1 (hnone _)
    | found hleast' => rw [hleast.unique hleast']

theorem congr (h : First P answer) (hiff : ∀ k, P k ↔ Q k) : First Q answer := by
  obtain rfl : P = Q := funext fun k => propext (hiff k)
  exact h

theorem eq_some_iff (h : First P answer) {k : Nat} :
    answer = some k ↔ P k ∧ ∀ j, j < k → ¬P j := by
  constructor
  · rintro rfl
    cases h with
    | found hleast => exact ⟨hleast.1, fun j hlt hj => Nat.not_le_of_lt hlt (hleast.2 hj)⟩
  · rintro ⟨hk, hbefore⟩
    exact h.unique (.found ⟨hk, fun j hj => Nat.le_of_not_lt fun hlt => hbefore j hlt hj⟩)

theorem eq_none_iff (h : First P answer) : answer = none ↔ ∀ k, ¬P k := by
  constructor
  · rintro rfl
    cases h with
    | absent hnone => exact hnone
  · exact fun hnone => h.unique (.absent hnone)

theorem shift (start : Nat) (h : First (fun k => P (start + k)) answer) :
    First (fun k => start ≤ k ∧ P k) (answer.map (start + ·)) := by
  cases h with
  | absent hnone =>
    refine .absent ?_
    rintro k ⟨hle, hk⟩
    obtain ⟨j, rfl⟩ := Nat.exists_eq_add_of_le hle
    exact hnone j hk
  | found hleast =>
    refine .found ⟨⟨Nat.le_add_right _ _, hleast.1⟩, ?_⟩
    rintro k ⟨hle, hk⟩
    obtain ⟨j, rfl⟩ := Nat.exists_eq_add_of_le hle
    exact Nat.add_le_add_left (hleast.2 hk) start

theorem findIdx? {α : Type} (test : α → Bool) (xs : List α) :
    First (fun k => ∃ x, xs[k]? = some x ∧ test x = true) (xs.findIdx? test) := by
  cases hanswer : xs.findIdx? test with
  | none =>
    refine .absent ?_
    rintro k ⟨x, hx, htest⟩
    rw [List.findIdx?_eq_none_iff.1 hanswer x (List.mem_of_getElem? hx)] at htest
    contradiction
  | some k =>
    obtain ⟨hlt, htest, hbefore⟩ := List.findIdx?_eq_some_iff_getElem.1 hanswer
    refine .found ⟨⟨xs[k], List.getElem?_eq_getElem hlt, htest⟩, ?_⟩
    rintro j ⟨x, hx, hj⟩
    obtain ⟨_, rfl⟩ := List.getElem?_eq_some_iff.1 hx
    exact Nat.le_of_not_lt fun hjk => hbefore j hjk hj

end First

namespace Buffer

variable {b other : Buffer} {pos start : Nat} {byte : UInt8} {needle : List UInt8}

theorem startsWithAt_iff_take : b.startsWithAt pos needle = true ↔
    pos + needle.length ≤ b.length ∧ (b.bytes.drop pos).take needle.length = needle := by
  rw [startsWithAt_iff, List.prefix_iff_eq_take]
  constructor
  · rintro ⟨hle, htake⟩
    have hlength := congrArg List.length htake
    rw [List.length_take, List.length_drop, length_bytes] at hlength
    exact ⟨by omega, htake.symm⟩
  · rintro ⟨hle, htake⟩
    exact ⟨by omega, htake.symm⟩

theorem startsWithAt_singleton_iff :
    b.startsWithAt pos [byte] = true ↔ b.bytes[pos]? = some byte := by
  rw [startsWithAt_iff, ← List.head?_drop, List.head?_eq_some_iff, List.cons_prefix_iff]
  simp only [List.nil_prefix, and_true]
  refine and_iff_right_of_imp ?_
  rintro ⟨rest, hrest⟩
  have hlength := length_of_drop_eq hrest
  omega

theorem startsWithAt_congr (h : other.bytes = b.bytes) (pos : Nat) (needle : List UInt8) :
    other.startsWithAt pos needle = b.startsWithAt pos needle := by
  rw [Bool.eq_iff_iff, startsWithAt_iff, startsWithAt_iff, ← length_bytes, ← length_bytes, h]

theorem firstFrom_first (test : Nat → Bool) (pos count : Nat) :
    First (fun k => pos ≤ k ∧ k < pos + count ∧ test k = true) (firstFrom test pos count) := by
  induction count generalizing pos with
  | zero => exact .absent fun k hk => by omega
  | succ count ih =>
    rw [firstFrom]
    split
    · next htest =>
      exact .found ⟨⟨Nat.le_refl pos, by omega, htest⟩, fun k hk => hk.1⟩
    · next htest =>
      refine (ih (pos + 1)).congr fun k => ⟨?_, ?_⟩
      · rintro ⟨hle, hlt, hk⟩
        exact ⟨by omega, by omega, hk⟩
      · rintro ⟨hle, hlt, hk⟩
        have hne : k ≠ pos := by
          rintro rfl
          exact htest hk
        exact ⟨by omega, by omega, hk⟩

theorem find_first (b : Buffer) (start : Nat) (needle : List UInt8) :
    First (fun k => start ≤ k ∧ b.startsWithAt k needle = true) (b.find start needle) := by
  refine (firstFrom_first (b.startsWithAt · needle) start _).congr fun k => ?_
  refine and_congr_right fun hle => ⟨And.right, fun h => ⟨?_, h⟩⟩
  have hend := (startsWithAt_iff.1 h).1
  omega

theorem findByte_first (b : Buffer) (start : Nat) (byte : UInt8) :
    First (fun k => start ≤ k ∧ b.startsWithAt k [byte] = true) (b.findByte start byte) := by
  refine (firstFrom_first (fun pos => b.cells.getD pos 0 == byte) start _).congr fun k => ?_
  refine and_congr_right fun hle => ?_
  simp only [startsWithAt, Bool.and_eq_true, decide_eq_true_eq]
  constructor
  · rintro ⟨hlt, hbyte⟩
    exact ⟨⟨by omega, hbyte⟩, by omega⟩
  · rintro ⟨⟨hlt, hbyte⟩, _⟩
    exact ⟨by omega, hbyte⟩

theorem findByte_eq_find (b : Buffer) (start : Nat) (byte : UInt8) :
    b.findByte start byte = b.find start [byte] :=
  (findByte_first b start byte).unique (find_first b start [byte])

theorem find_congr (h : other.bytes = b.bytes) (start : Nat) (needle : List UInt8) :
    other.find start needle = b.find start needle := by
  refine (find_first other start needle).unique ((find_first b start needle).congr fun k => ?_)
  rw [startsWithAt_congr h]

/-- A search of what is left of the text from an offset on, by a search that only sees those bytes.
The place it finds is told as an offset again. -/
def searchRest (b : Buffer) (search : List UInt8 → Option Nat) (start : Nat) :
    Except Fault (Option Nat) :=
  if start ≤ b.length then (search (b.bytes.drop start)).mapM (Offset.add start) else .ok none

/-- What is found in the rest of the text has an offset, and it is the first place in the text. -/
theorem searchRest_eq_ok {P : Nat → Prop} {search : List UInt8 → Option Nat} {answer : Option Nat}
    (hsearch : start ≤ b.length → First (fun k => P (start + k)) (search (b.bytes.drop start)))
    (hinside : ∀ k, P k → k ≤ b.length) (hanswer : First (fun k => start ≤ k ∧ P k) answer) :
    b.searchRest search start = .ok answer := by
  by_cases hstart : start ≤ b.length
  · have hrest := hsearch hstart
    rw [searchRest, if_pos hstart, ← (hrest.shift start).unique hanswer]
    cases hfound : search (b.bytes.drop start) with
    | none => rfl
    | some k =>
      rw [hfound] at hrest
      have hle := hinside (start + k) (hrest.eq_some_iff.1 rfl).1
      rw [Option.mapM_some, Offset.add_eq_ok (Nat.lt_of_le_of_lt hle b.length_lt)]
      rfl
  · have hnone : answer = none := hanswer.eq_none_iff.2 fun k hk =>
      hstart (Nat.le_trans hk.1 (hinside k hk.2))
    rw [searchRest, if_neg hstart, hnone]

/-- A search gives the first offset at which the prefix test holds, and none if there is none; the
prefix test compares with the text only; a byte is found where the needle of that one byte is. The
same is found in the rest of the text by any search that gives the first place in the bytes it is
given, and what stands behind the text does not matter. -/
theorem searches_agree {byteSearch : UInt8 → List UInt8 → Option Nat}
    {needleSearch : List UInt8 → List UInt8 → Option Nat}
    (hbyte : ∀ byte text, First (fun k => text[k]? = some byte) (byteSearch byte text))
    (hneedle : ∀ needle text, First (fun k => k ≤ text.length ∧ needle <+: text.drop k)
      (needleSearch needle text))
    (b : Buffer) (start : Nat) (needle : List UInt8) (byte : UInt8) :
    (∀ k, b.find start needle = some k ↔ start ≤ k ∧ b.startsWithAt k needle = true ∧
      ∀ j, start ≤ j → j < k → b.startsWithAt j needle = false) ∧
    (b.find start needle = none ↔ ∀ k, start ≤ k → b.startsWithAt k needle = false) ∧
    (∀ k, b.startsWithAt k needle = true ↔
      k + needle.length ≤ b.length ∧ (b.bytes.drop k).take needle.length = needle) ∧
    b.findByte start byte = b.find start [byte] ∧
    b.searchRest (needleSearch needle) start = .ok (b.find start needle) ∧
    b.searchRest (byteSearch byte) start = .ok (b.findByte start byte) ∧
    ∀ other : Buffer, other.bytes = b.bytes →
      (∀ k, other.startsWithAt k needle = b.startsWithAt k needle) ∧
        other.find start needle = b.find start needle ∧
        other.findByte start byte = b.findByte start byte := by
  have hfirst := find_first b start needle
  refine ⟨fun k => ?_, ?_, fun k => startsWithAt_iff_take, findByte_eq_find b start byte,
    ?_, ?_, fun other hother => ?_⟩
  · rw [hfirst.eq_some_iff]
    constructor
    · rintro ⟨⟨hle, hk⟩, hbefore⟩
      exact ⟨hle, hk, fun j hj hjk => Bool.eq_false_iff.2 fun ht => hbefore j hjk ⟨hj, ht⟩⟩
    · rintro ⟨hle, hk, hbefore⟩
      exact ⟨⟨hle, hk⟩, fun j hjk hj => Bool.eq_false_iff.1 (hbefore j hj.1 hjk) hj.2⟩
  · simp only [hfirst.eq_none_iff, not_and, Bool.not_eq_true]
  · refine searchRest_eq_ok (fun hstart => (hneedle needle _).congr fun k => ?_)
      (fun k hk => (startsWithAt_iff.1 hk).1) hfirst
    rw [startsWithAt_iff, List.drop_drop, List.length_drop, length_bytes]
    exact and_congr_left fun _ => by omega
  · refine searchRest_eq_ok (fun _ => (hbyte byte _).congr fun k => ?_)
      (fun k hk => (startsWithAt_iff.1 hk).1) (findByte_first b start byte)
    rw [startsWithAt_singleton_iff, List.getElem?_drop]
  · refine ⟨fun k => startsWithAt_congr hother k needle, find_congr hother start needle, ?_⟩
    rw [findByte_eq_find, findByte_eq_find, find_congr hother]

/-- The place of a byte, told by looking at each byte in turn. -/
def bytePlace (byte : UInt8) (text : List UInt8) : Option Nat := text.findIdx? (· == byte)

def needlePlace (needle text : List UInt8) : Option Nat := text.tails.findIdx? needle.isPrefixOf

theorem bytePlace_first (byte : UInt8) (text : List UInt8) :
    First (fun k => text[k]? = some byte) (bytePlace byte text) := by
  refine (First.findIdx? (· == byte) text).congr fun k => ?_
  simp only [beq_iff_eq, exists_eq_right]

theorem needlePlace_first (needle text : List UInt8) :
    First (fun k => k ≤ text.length ∧ needle <+: text.drop k) (needlePlace needle text) := by
  refine (First.findIdx? needle.isPrefixOf text.tails).congr fun k => ?_
  simp only [List.getElem?_eq_some_iff, List.length_tails, List.getElem_tails,
    List.isPrefixOf_iff_prefix]
  constructor
  · rintro ⟨_, ⟨hlt, rfl⟩, hprefix⟩
    exact ⟨Nat.le_of_lt_succ hlt, hprefix⟩
  · rintro ⟨hle, hprefix⟩
    exact ⟨_, ⟨Nat.lt_succ_of_le hle, rfl⟩, hprefix⟩

theorem searches_agree_on_zeros :
    let b := ofBytes 0 [0x2A, 0x2A, 0x2F, 0x00]
    b.find 1 [0x2A, 0x2F] = some 1 ∧ b.find 1 [0x00, 0x00] = none ∧ b.findByte 2 0x00 = some 3 ∧
      b.searchRest (needlePlace [0x00, 0x00]) 1 = .ok none ∧
      b.searchRest (bytePlace 0x00) 2 = .ok (some 3) ∧
      (∀ k, 1 ≤ k → b.startsWithAt k [0x00, 0x00] = false) ∧ b.find 2 [0x00] = some 3 := by
  intro b
  have hnone : b.find 1 [0x00, 0x00] = none := by decide
  have hsome : b.findByte 2 0x00 = some 3 := by decide
  obtain ⟨_, habsent, _, _, hrest, _⟩ :=
    searches_agree bytePlace_first needlePlace_first b 1 [0x00, 0x00] 0x00
  obtain ⟨_, _, _, hbyte, _, hrest', _⟩ :=
    searches_agree bytePlace_first needlePlace_first b 2 [0x00] 0x00
  exact ⟨by decide, hnone, hsome, hnone ▸ hrest, hsome ▸ hrest', habsent.1 hnone, hbyte ▸ hsome⟩

end Buffer

end FrontEnd
