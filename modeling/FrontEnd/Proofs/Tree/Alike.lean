import FrontEnd.Proofs.Lexeme.Splitting
import FrontEnd.Token.Pattern
import FrontEnd.Tree.Argument
import Mathlib.Data.List.Forall2

namespace FrontEnd

/-- Tokens that hold the same, wherever they stand. -/
def Token.Alike (s t : Token) : Prop := ∃ x, s.content = .ok x ∧ t.content = .ok x

namespace Token.Alike

variable {s t : Token}

theorem kind_eq (h : s.Alike t) : s.kind = t.kind := by
  obtain ⟨x, hs, ht⟩ := h
  rw [kind_of_content hs, kind_of_content ht]

theorem exists_bytes (h : s.Alike t) : ∃ bytes, s.bytes = .ok bytes ∧ t.bytes = .ok bytes := by
  obtain ⟨x, hs, ht⟩ := h
  obtain ⟨bytes, hbytes, hx⟩ := Fault.bind_eq_ok.1 hs
  obtain ⟨others, hothers, hx'⟩ := Fault.bind_eq_ok.1 ht
  cases hx
  obtain ⟨_, rfl⟩ := Prod.mk.inj (Except.ok.inj hx')
  exact ⟨others, hbytes, hothers⟩

theorem exists_text (h : s.Alike t) : ∃ text, s.text = .ok text ∧ t.text = .ok text := by
  obtain ⟨bytes, hs, ht⟩ := h.exists_bytes
  refine ⟨Utf8.decode bytes, ?_, ?_⟩
  · rw [text, hs]
    rfl
  · rw [text, ht]
    rfl

theorem skips_eq (h : s.Alike t) (spacing : Spacing) : spacing.skips s = spacing.skips t := by
  cases spacing with
  | skipped => exact congrArg (· == Kind.whitespace) h.kind_eq
  | significant => rfl

theorem exists_accepts (h : s.Alike t) (p : Pattern) :
    ∃ accepted, p.accepts s = .ok accepted ∧ p.accepts t = .ok accepted := by
  obtain ⟨bytes, hs, ht⟩ := h.exists_bytes
  cases p with
  | ofKind kind =>
    refine ⟨_, rfl, ?_⟩
    rw [Pattern.accepts, h.kind_eq]
  | exact kind text =>
    rw [Pattern.accepts, Pattern.accepts, h.kind_eq, isText, isText, hs, ht]
    split
    · exact ⟨_, rfl, rfl⟩
    · exact ⟨_, rfl, rfl⟩

theorem dropWhile {ts us : List Token} (h : List.Forall₂ Token.Alike ts us) (spacing : Spacing) :
    List.Forall₂ Token.Alike (ts.dropWhile spacing.skips) (us.dropWhile spacing.skips) := by
  induction h with
  | nil => exact .nil
  | @cons t u ts us htoken hmore ih =>
    rw [List.dropWhile_cons, List.dropWhile_cons, ← htoken.skips_eq spacing]
    split
    · exact ih
    · exact .cons htoken hmore

end Token.Alike

theorem Fault.forall₂_of_mapM {α β : Type} {f : α → Except Fault β} {xs : List α} {ys : List β}
    (h : xs.mapM f = .ok ys) : List.Forall₂ (fun x y => f x = .ok y) xs ys := by
  induction xs generalizing ys with
  | nil =>
    cases h
    exact .nil
  | cons x xs ih =>
    rw [List.mapM_cons] at h
    obtain ⟨y, hy, h⟩ := Fault.bind_eq_ok.1 h
    obtain ⟨more, hmore, h⟩ := Fault.bind_eq_ok.1 h
    cases h
    exact .cons hy (ih hmore)

theorem Token.forall₂_alike {ts us : List Token} {xs : List (Kind × List UInt8)}
    (h : List.Forall₂ (fun t x => t.content = .ok x) ts xs)
    (h' : List.Forall₂ (fun t x => t.content = .ok x) us xs) :
    List.Forall₂ Token.Alike ts us := by
  induction h generalizing us with
  | nil =>
    cases h'
    exact .nil
  | cons ht _ ih =>
    cases h' with
    | cons hu hus => exact .cons ⟨_, ht, hu⟩ (ih hus)

inductive NameUnit.Alike : NameUnit → NameUnit → Prop where
  | ident {s t : Token} (token : s.Alike t) : Alike (.ident s) (.ident t)
  | separator : Alike .separator .separator

theorem NameUnit.Alike.same_eq {u v : NameUnit} (h : u.Alike v) : u.same v = .ok true := by
  cases h with
  | separator => rfl
  | ident token =>
    obtain ⟨bytes, hs, ht⟩ := token.exists_bytes
    rw [same, hs, ht]
    exact congrArg Except.ok (beq_self_eq_true bytes)

def QualifiedName.Alike (m n : QualifiedName) : Prop := List.Forall₂ NameUnit.Alike m.units n.units

theorem QualifiedName.Alike.same_eq {m n : QualifiedName} (h : m.Alike n) :
    m.same n = .ok true := by
  have hunits : ∀ {us vs : List NameUnit}, List.Forall₂ NameUnit.Alike us vs →
      sameUnits us vs = .ok true := by
    intro us vs h
    induction h with
    | nil => rfl
    | cons hunit _ ih =>
      rw [sameUnits, hunit.same_eq]
      exact ih
  rw [same, if_pos h.length_eq, hunits h]

inductive TypeExpr.Alike : TypeExpr → TypeExpr → Prop where
  | named {isConst : Bool} {m n : QualifiedName} (name : m.Alike n) :
      Alike (.named isConst m) (.named isConst n)
  | pointer {isConst : Bool} {s t : TypeExpr} (pointee : Alike s t) :
      Alike (.pointer isConst s) (.pointer isConst t)

namespace TypeExpr.Alike

variable {s t : TypeExpr}

theorem same_eq (h : s.Alike t) : s.same t = .ok true := by
  induction h with
  | named name => rw [same, if_pos rfl, name.same_eq]
  | pointer _ ih => rw [same, if_pos rfl, ih]

theorem under (h : s.Alike t) (around : List Bool) :
    (TypeExpr.under around s).Alike (TypeExpr.under around t) := by
  induction around generalizing s t with
  | nil => exact h
  | cons isConst around ih => exact ih h.pointer

end TypeExpr.Alike

/-- Arguments that differ at most in where they stand. -/
structure Argument.Alike (a b : Argument) : Prop where
  mode_eq : a.mode = b.mode
  name : a.name.Alike b.name
  type : Option.Rel TypeExpr.Alike a.type b.type

theorem Argument.sameTypes_of_alike {s t : Option TypeExpr} (h : Option.Rel TypeExpr.Alike s t) :
    sameTypes s t = .ok true := by
  cases h with
  | none => rfl
  | some type => exact type.same_eq

end FrontEnd
