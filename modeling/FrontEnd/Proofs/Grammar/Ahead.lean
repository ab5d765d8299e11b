import FrontEnd.Proofs.Grammar.Rule
import FrontEnd.Proofs.Text.Identifier
import FrontEnd.Proofs.Tree.Alike

namespace FrontEnd

namespace Token

variable {t : Token} {x : Kind × List UInt8}

theorem bytes_of_content (h : t.content = .ok x) : t.bytes = .ok x.2 := by
  obtain ⟨bytes, hbytes, hx⟩ := Fault.bind_eq_ok.1 h
  rw [hbytes, ← Except.ok.inj hx]

theorem text_of_content {kind : Kind} {text : String} (h : t.content = .ok (kind, bytesOf text)) :
    t.text = .ok text := by
  rw [Token.text, bytes_of_content h]
  exact congrArg Except.ok (Utf8.decode_bytesOf text)

end Token

/-- Tokens that hold some kinds and bytes, in order. -/
def Holding : List Token → List (Kind × List UInt8) → Prop :=
  List.Forall₂ fun t x => t.content = .ok x

def Spacing.passes (spacing : Spacing) (x : Kind × List UInt8) : Bool :=
  match spacing with
  | skipped => x.1 == .whitespace
  | significant => false

namespace Spacing

variable {spacing : Spacing} {tokens : List Token} {t : Token} {x : Kind × List UInt8}
  {xs ys : List (Kind × List UInt8)}

theorem skips_eq (h : t.content = .ok x) : spacing.skips t = spacing.passes x := by
  cases spacing with
  | significant => rfl
  | skipped =>
    rw [skips, Token.isWhitespace, Token.kind_of_content h]
    rfl

theorem holding_dropWhile (h : Holding tokens (ys ++ xs)) (hys : ∀ y ∈ ys, spacing.passes y = true)
    (hxs : ∀ x ∈ xs.head?, spacing.passes x = false) :
    Holding (tokens.dropWhile spacing.skips) xs := by
  induction ys generalizing tokens with
  | nil =>
    cases h with
    | nil => exact .nil
    | cons ht hts =>
      have hstays : spacing.skips _ = false := (skips_eq ht).trans (hxs _ rfl)
      rw [List.dropWhile_cons_of_neg (Bool.eq_false_iff.1 hstays)]
      exact .cons ht hts
  | cons y ys ih =>
    obtain ⟨hy, hys⟩ := List.forall_mem_cons.1 hys
    cases h with
    | cons ht hts =>
      rw [List.dropWhile_cons_of_pos ((skips_eq ht).trans hy)]
      exact ih hts hys

end Spacing

namespace Pattern

def admits (p : Pattern) (x : Kind × List UInt8) : Bool :=
  match p with
  | ofKind kind => x.1 == kind
  | exact kind text => x.1 == kind && x.2 == text

variable {p q : Pattern} {spacing : Spacing} {tokens : List Token} {t : Token}
  {x y : Kind × List UInt8} {xs ys : List (Kind × List UInt8)}

theorem accepts_of_content (h : t.content = .ok x) : p.accepts t = .ok (p.admits x) := by
  cases p with
  | ofKind kind => rw [accepts, admits, Token.kind_of_content h]
  | exact kind text =>
    rw [accepts, admits, ← Token.kind_of_content h]
    by_cases hkind : t.kind = kind
    · rw [if_pos hkind, beq_iff_eq.2 hkind, Token.isText, Token.bytes_of_content h]
      rfl
    · rw [if_neg hkind, beq_eq_false_iff_ne.2 hkind]
      rfl

theorem admits_keyword_iff {word text : String} :
    (keyword word).admits (.identifier, bytesOf text) = true ↔ text = word := by
  rw [keyword, admits, beq_self_eq_true, Bool.true_and, beq_iff_eq]
  exact ⟨Utf8.bytesOf_inj, congrArg bytesOf⟩

theorem take?_of_admits (h : Holding tokens (ys ++ x :: xs))
    (hys : ∀ y ∈ ys, spacing.passes y = true) (hx : spacing.passes x = false)
    (hadmits : p.admits x = true) :
    ∃ taken, p.take? spacing tokens = .ok (some taken) ∧ taken.token.content = .ok x ∧
      Holding taken.rest xs := by
  have hrest := Spacing.holding_dropWhile h hys (by rintro _ ⟨⟩; exact hx)
  unfold take?
  generalize tokens.dropWhile spacing.skips = rest at hrest
  cases hrest with
  | cons ht hts =>
    dsimp only
    rw [accepts_of_content ht, hadmits]
    exact ⟨_, rfl, ht, hts⟩

theorem take?_of_not_admits (h : Holding tokens (ys ++ xs))
    (hys : ∀ y ∈ ys, spacing.passes y = true)
    (hxs : ∀ x ∈ xs.head?, spacing.passes x = false ∧ p.admits x = false) :
    p.take? spacing tokens = .ok none := by
  have hrest := Spacing.holding_dropWhile h hys fun x hx => (hxs x hx).1
  unfold take?
  generalize tokens.dropWhile spacing.skips = rest at hrest
  cases hrest with
  | nil => rfl
  | cons ht _ =>
    dsimp only
    rw [accepts_of_content ht, (hxs _ rfl).2]

theorem take?_of_not_next (h : Holding tokens xs) (hxs : ∀ x ∈ xs.head?, p.admits x = false) :
    p.take? .significant tokens = .ok none :=
  @take?_of_not_admits p .significant tokens xs [] h (fun _ hy => nomatch hy)
    fun x hx => ⟨rfl, hxs x hx⟩

theorem matchAll_of_not_admits {ps : List Pattern} (h : Holding tokens (ys ++ xs))
    (hys : ∀ y ∈ ys, spacing.passes y = true)
    (hxs : ∀ x ∈ xs.head?, spacing.passes x = false ∧ p.admits x = false) :
    matchAll spacing (p :: ps) tokens = .ok none :=
  matchAll_cons_eq_ok.2 (.inl ⟨take?_of_not_admits h hys hxs, rfl⟩)

theorem take?_next (h : Holding tokens (x :: xs)) (hadmits : p.admits x = true) :
    ∃ taken, p.take? .significant tokens = .ok (some taken) ∧ taken.token.content = .ok x ∧
      Holding taken.rest xs :=
  @take?_of_admits p .significant tokens x xs [] h (fun _ hy => nomatch hy) rfl hadmits

theorem matchAll_of_not_next {ps : List Pattern} (h : Holding tokens xs)
    (hxs : ∀ x ∈ xs.head?, p.admits x = false) :
    matchAll .significant (p :: ps) tokens = .ok none :=
  matchAll_cons_eq_ok.2 (.inl ⟨take?_of_not_next h hxs, rfl⟩)

theorem matchAll_next {ps : List Pattern} (h : Holding tokens (x :: xs))
    (hadmits : p.admits x = true)
    (hmore : ∀ rest, Holding rest xs → ∃ m, matchAll .significant ps rest = .ok (some m) ∧
      Holding m.rest ys) :
    ∃ m, matchAll .significant (p :: ps) tokens = .ok (some m) ∧ Holding m.rest ys := by
  obtain ⟨first, hfirst, _, hrest⟩ := take?_next h hadmits
  obtain ⟨m, hm, hys⟩ := hmore _ hrest
  exact ⟨_, matchAll_cons_eq_ok.2 (.inr ⟨first, some m, hfirst, hm, rfl⟩), hys⟩

end Pattern

namespace Rule

variable {p q : Pattern} {spacing : Spacing} {c : Cursor} {x y : Kind × List UInt8}
  {xs ys : List (Kind × List UInt8)}

theorem take?_of_ahead (h : Holding c.rest (ys ++ x :: xs))
    (hys : ∀ y ∈ ys, spacing.passes y = true) (hx : spacing.passes x = false)
    (hadmits : p.admits x = true) :
    ∃ t d, take? p spacing c = .ok (some t) d ∧ t.content = .ok x ∧ Holding d.rest xs := by
  obtain ⟨taken, htake, hcontent, hrest⟩ := Pattern.take?_of_admits h hys hx hadmits
  exact ⟨_, _, take?_eq_ok.2 ⟨some taken, htake, rfl, rfl⟩, hcontent, hrest⟩

theorem take?_of_not_ahead (h : Holding c.rest (ys ++ xs)) (hys : ∀ y ∈ ys, spacing.passes y = true)
    (hxs : ∀ x ∈ xs.head?, spacing.passes x = false ∧ p.admits x = false) :
    take? p spacing c = .ok none c :=
  take?_eq_ok.2 ⟨none, Pattern.take?_of_not_admits h hys hxs, rfl, rfl⟩

theorem take?_of_refused (h : Holding c.rest (ys ++ x :: xs))
    (hys : ∀ y ∈ ys, spacing.passes y = true) (hx : spacing.passes x = false)
    (hadmits : p.admits x = false) : take? p spacing c = .ok none c := by
  apply take?_of_not_ahead h hys
  rintro _ ⟨⟩
  exact ⟨hx, hadmits⟩

theorem take?_of_next (h : Holding c.rest (x :: xs)) (hadmits : p.admits x = true) :
    ∃ t d, take? p .significant c = .ok (some t) d ∧ t.content = .ok x ∧ Holding d.rest xs := by
  obtain ⟨taken, htake, hcontent, hrest⟩ := Pattern.take?_next h hadmits
  exact ⟨_, _, take?_eq_ok.2 ⟨some taken, htake, rfl, rfl⟩, hcontent, hrest⟩

theorem take?_of_not_next (h : Holding c.rest xs) (hxs : ∀ x ∈ xs.head?, p.admits x = false) :
    take? p .significant c = .ok none c :=
  take?_eq_ok.2 ⟨none, Pattern.take?_of_not_next h hxs, rfl, rfl⟩

end Rule

end FrontEnd
