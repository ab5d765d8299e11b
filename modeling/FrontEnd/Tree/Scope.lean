namespace FrontEnd

/-- A block with the blocks in it, in their order; the whole of a source is the global one. -/
inductive Scope where
  | mk (isGlobal : Bool) (entries : List Scope)

namespace Scope

def isGlobal : Scope → Bool
  | mk isGlobal _ => isGlobal

def entries : Scope → List Scope
  | mk _ entries => entries

def global (entries : List Scope) : Scope := mk true entries

def nested (entries : List Scope) : Scope := mk false entries

def closed (newest : List Scope) : Scope := nested newest.reverse

mutual

def count : Scope → Nat
  | mk _ entries => countAll entries + 1

def countAll : List Scope → Nat
  | [] => 0
  | s :: ss => s.count + countAll ss

end

@[simp] theorem countAll_append (ss ts : List Scope) :
    countAll (ss ++ ts) = countAll ss + countAll ts := by
  induction ss with
  | nil => simp [countAll]
  | cons s ss ih => simp only [List.cons_append, countAll, ih]; omega

@[simp] theorem countAll_reverse (ss : List Scope) : countAll ss.reverse = countAll ss := by
  induction ss with
  | nil => rfl
  | cons s ss ih =>
    simp only [List.reverse_cons, countAll_append, countAll, ih]
    omega

def atLevel (level : Nat) (ss : List Scope) : List (Scope × Nat) := ss.map (·, level)

@[simp] theorem map_fst_atLevel (level : Nat) (ss : List Scope) :
    (atLevel level ss).map Prod.fst = ss := by
  simp [atLevel, Function.comp_def]

/-- The deepest level among scopes that wait at given levels, the last one put there first. -/
def deepest (found : Nat) (pending : List (Scope × Nat)) : Nat :=
  match pending with
  | [] => found
  | (mk _ entries, level) :: rest =>
    deepest (max found level) ((atLevel (level + 1) entries).reverse ++ rest)
termination_by countAll (pending.map Prod.fst)
decreasing_by
  simp only [List.map_append, List.map_reverse, map_fst_atLevel, List.map_cons, countAll_append,
    countAll_reverse, countAll, count]
  omega

def depth (s : Scope) : Nat := deepest 0 [(s, 0)]

mutual

/-- The number of levels below a scope, by its structure. -/
def height : Scope → Nat
  | mk _ entries => heightAll entries

def heightAll : List Scope → Nat
  | [] => 0
  | s :: ss => max (s.height + 1) (heightAll ss)

end

def brackets (isGlobal : Bool) : Char × Char :=
  if isGlobal then ('[', ']') else ('\x7b', '\x7d')

mutual

def write : Scope → List Char → List Char
  | mk isGlobal entries, rest =>
    (brackets isGlobal).1 :: writeAll entries ((brackets isGlobal).2 :: rest)

def writeAll : List Scope → List Char → List Char
  | [], rest => rest
  | s :: ss, rest => s.write (writeAll ss rest)

end

/-- The entries of a scope as brackets. -/
def shape (s : Scope) : String := String.ofList (writeAll s.entries [])

/-- Reads entries: those of the innermost open scope, and for each scope open around it its flag and
the entries before it, all newest first. -/
def readEntries (current : List Scope) (around : List (Bool × List Scope)) :
    List Char → Option (List Scope)
  | [] => if around.isEmpty then some current.reverse else none
  | c :: rest =>
    if c = (brackets false).1 then readEntries [] ((false, current) :: around) rest
    else if c = (brackets true).1 then readEntries [] ((true, current) :: around) rest
    else
      match around with
      | (isGlobal, before) :: around =>
        if c = (brackets isGlobal).2 then
          readEntries (mk isGlobal current.reverse :: before) around rest
        else none
      | [] => none

def ofShape? (isGlobal : Bool) (shape : String) : Option Scope :=
  (readEntries [] [] shape.toList).map (mk isGlobal)

mutual

def same : Scope → Scope → Bool
  | mk g ss, mk h ts => g == h && sameAll ss ts

def sameAll : List Scope → List Scope → Bool
  | [], [] => true
  | s :: ss, t :: ts => s.same t && sameAll ss ts
  | _, _ => false

end

end Scope

end FrontEnd
