namespace FrontEnd

/-- Entries under indices that count up from 0; the index of a dropped entry is not used again. -/
structure Table (α : Type) where
  slots : List (Option α)

namespace Table

variable {α : Type}

def empty : Table α := ⟨[]⟩

def size (t : Table α) : Nat := t.slots.length

def get? (t : Table α) (index : Nat) : Option α := t.slots[index]?.join

def add (t : Table α) (a : α) : Table α := ⟨t.slots ++ [some a]⟩

def put (t : Table α) (index : Nat) (a : α) : Table α := ⟨t.slots.set index (some a)⟩

def drop (t : Table α) (index : Nat) : Table α := ⟨t.slots.set index none⟩

def live (t : Table α) : List α := t.slots.filterMap id

variable {t : Table α} {i j : Nat} {a b : α}

@[simp] theorem size_add (t : Table α) (a : α) : (t.add a).size = t.size + 1 :=
  List.length_append

@[simp] theorem size_put (t : Table α) (i : Nat) (a : α) : (t.put i a).size = t.size :=
  List.length_set

@[simp] theorem size_drop (t : Table α) (i : Nat) : (t.drop i).size = t.size :=
  List.length_set

@[simp] theorem get?_add_size (t : Table α) (a : α) : (t.add a).get? t.size = some a := by
  simp [get?, add, size]

theorem get?_add_of_ne (a : α) (h : i ≠ t.size) : (t.add a).get? i = t.get? i := by
  unfold get? add
  by_cases hl : i < t.slots.length
  · rw [List.getElem?_append_left hl]
  · have : t.slots.length < i := by unfold size at h; omega
    rw [List.getElem?_eq_none (by simp; omega), List.getElem?_eq_none (by omega)]

theorem get?_drop (t : Table α) (i j : Nat) :
    (t.drop i).get? j = if i = j then none else t.get? j := by
  simp only [get?, drop, List.getElem?_set]
  split
  · split <;> rfl
  · rfl

theorem get?_put_of_ne (t : Table α) (a : α) (h : i ≠ j) : (t.put i a).get? j = t.get? j := by
  rw [get?, get?, put, List.getElem?_set_ne h]

theorem lt_size_of_get? (h : t.get? i = some a) : i < t.size := by
  rw [get?, Option.join_eq_some_iff] at h
  exact (List.getElem?_eq_some_iff.1 h).1

theorem get?_put_self (b : α) (h : i < t.size) : (t.put i b).get? i = some b := by
  rw [get?, put, List.getElem?_set_self h]
  rfl

theorem get?_or_eq_of_add (h : (t.add a).get? i = some b) : t.get? i = some b ∨ b = a := by
  by_cases hi : i = t.size
  · rw [hi, get?_add_size] at h
    exact .inr (Option.some.inj h).symm
  · rw [get?_add_of_ne a hi] at h
    exact .inl h

theorem get?_of_drop (h : (t.drop j).get? i = some b) : t.get? i = some b := by
  rw [get?_drop] at h
  split at h
  · cases h
  · exact h

theorem get?_or_eq_of_put (hj : j < t.size) (h : (t.put j a).get? i = some b) :
    t.get? i = some b ∨ b = a := by
  by_cases hji : j = i
  · rw [← hji, get?_put_self a hj] at h
    exact .inr (Option.some.inj h).symm
  · rw [get?_put_of_ne t a hji] at h
    exact .inl h

end Table

end FrontEnd
