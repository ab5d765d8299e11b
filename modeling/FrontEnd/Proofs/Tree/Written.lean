import FrontEnd.Proofs.Grammar.Display
import FrontEnd.Proofs.Text.Identifier
import FrontEnd.Tree.TypeExpr
import Mathlib.Data.List.TakeWhile

namespace FrontEnd

open Recognizer (blockOpen lineOpen)

namespace Lexeme

def blank : Lexeme := ⟨some .whitespace, 0x20, []⟩

def star : Lexeme := ⟨some .operator, 0x2A, []⟩

def mark (byte : UInt8) : Lexeme := ⟨some .scopeOperator, byte, []⟩

def word (text : String) : Lexeme := ⟨some .identifier, (bytesOf text).headD 0, (bytesOf text).tail⟩

def EndsWord (text : List UInt8) : Prop :=
  ∀ next ∈ text.head?, (ByteClass.ofByte next).continuesIdent = false

def BeginsType (text : List UInt8) : Prop :=
  ∃ byte rest, text = byte :: rest ∧
    (ByteClass.ofByte byte = .identStart ∨ byte = 0x3A ∨ byte = 0x2A)

variable {byte : UInt8} {text : String} {ls ms : List Lexeme} {after : List UInt8}

theorem isHead_of_form {l : Lexeme} (h : Form l.first l.rest (l.kind, l.rest.length)) :
    l.IsHead := by
  refine ⟨l.first, l.rest, ?_⟩
  rw [head, h.extent_eq, List.take_length]

theorem Chained.append (h : Chained ls (ms.flatMap bytes ++ after)) (h' : Chained ms after) :
    Chained (ls ++ ms) after := by
  induction ls with
  | nil => exact h'
  | cons l ls ih =>
    obtain ⟨hhead, hstop, hrest⟩ := h
    rw [← List.append_assoc, ← List.flatMap_append] at hstop
    exact ⟨hhead, hstop, ih hrest⟩

theorem Chained.cons {l : Lexeme} (h : Chained [l] (ls.flatMap bytes ++ after))
    (h' : Chained ls after) : Chained (l :: ls) after :=
  ⟨h.1, h.2.1, h'⟩

theorem chained_blank (h : ∀ next ∈ after.head?, ByteClass.ofByte next ≠ .whitespace) :
    Chained [blank] after :=
  ⟨isHead_of_form (.whitespace rfl rfl), h, trivial⟩

theorem chained_mark (h : ByteClass.ofByte byte = .scopeMark) : Chained [mark byte] after :=
  ⟨isHead_of_form (.scopeOperator h), fun _ _ hjoins => hjoins, trivial⟩

theorem bytes_word (h : IsIdentifier text) : (word text).bytes = bytesOf text := by
  obtain ⟨byte, bytes, htext, _⟩ := h.exists_bytes
  rw [word, htext]
  rfl

theorem chained_word (h : IsIdentifier text) (hafter : EndsWord after) :
    Chained [word text] after := by
  obtain ⟨byte, bytes, htext, hfirst, hrest⟩ := h.exists_bytes
  have hrun : runLength (ByteClass.ofByte · |>.continuesIdent) bytes = bytes.length := by
    rw [runLength, List.takeWhile_eq_self_iff.2 hrest]
  refine ⟨?_, ?_, trivial⟩
  · rw [word, htext]
    exact isHead_of_form (.identifier hfirst hrun)
  · intro next hnext hjoins
    exact Bool.noConfusion (hjoins.symm.trans (hafter next hnext))

theorem beginsType_word (h : IsIdentifier text) :
    BeginsType ((word text :: ls).flatMap bytes ++ after) := by
  obtain ⟨byte, bytes, htext, hfirst, _⟩ := h.exists_bytes
  rw [List.flatMap_cons, bytes_word h, htext]
  exact ⟨_, _, rfl, .inl hfirst⟩

theorem BeginsType.not_whitespace (h : BeginsType after) :
    ∀ next ∈ after.head?, ByteClass.ofByte next ≠ .whitespace := by
  obtain ⟨byte, rest, rfl, hbyte⟩ := h
  rintro _ ⟨⟩ hblank
  rcases hbyte with hstart | rfl | rfl
  · cases hstart.symm.trans hblank
  · revert hblank; decide
  · revert hblank; decide

theorem chained_keyword (h : IsIdentifier text) (hls : Chained ls after)
    (hbegins : BeginsType (ls.flatMap bytes ++ after)) :
    Chained (word text :: blank :: ls) after := by
  have hword : Chained [word text] ((blank :: ls).flatMap bytes ++ after) := by
    apply chained_word h
    rintro _ ⟨⟩
    rfl
  exact hword.cons ((chained_blank hbegins.not_whitespace).cons hls)

theorem not_isCataloged_star
    (h : ByteClass.ofByte byte = .identStart ∨ byte = 0x3A ∨ byte = 0x2A) :
    ¬Operator.isCataloged [0x2A, byte] = true := by
  have hstar : ∀ entry ∈ Operator.entries, entry.head? = some 0x2A → entry = [0x2A, 0x3D] := by
    decide
  intro hgrows
  have hentry := hstar _ (Operator.isCataloged_iff.1 hgrows) rfl
  obtain rfl : byte = 0x3D := (List.cons.inj (List.cons.inj hentry).2).1
  revert h
  decide

theorem chained_star (h : BeginsType after) : Chained [star] after := by
  refine ⟨isHead_of_form (.operator rfl (by decide) (by decide) rfl), ?_, trivial⟩
  obtain ⟨byte, rest, rfl, hbyte⟩ := h
  rintro _ ⟨⟩ (hgrows | ⟨hslash, _⟩)
  · exact not_isCataloged_star hbyte hgrows
  · cases hslash

end Lexeme

open Lexeme (blank star mark word bytes_word EndsWord BeginsType beginsType_word Chained chained_star
  chained_mark chained_word chained_keyword)

theorem IsIdentifier.isWord {text : String} (h : IsIdentifier text) : IsWord (bytesOf text) := by
  obtain ⟨byte, bytes, htext, hfirst, hrest⟩ := h.exists_bytes
  rw [htext]
  refine ⟨List.cons_ne_nil _ _, List.forall_mem_cons.2 ⟨?_, hrest⟩⟩
  rw [hfirst]
  rfl

namespace NameUnit

inductive Written : NameUnit → List Lexeme → Prop where
  | ident {t : Token} {text : String} (text_eq : t.text = .ok text)
      (isIdentifier : IsIdentifier text) : Written (.ident t) [word text]
  | separator : Written .separator [mark 0x3A, mark 0x3A]

theorem Written.writes {u : NameUnit} {ls : List Lexeme} (h : u.Written ls) :
    u.Writes (ls.flatMap Lexeme.bytes) := by
  cases h with
  | separator => exact .separator
  | ident text_eq isIdentifier =>
    rw [List.flatMap_singleton, bytes_word isIdentifier]
    exact .ident (isIdentifier.bytes_of_text text_eq) isIdentifier.isWord

end NameUnit

section Units

variable {us : List NameUnit} {lss : List (List Lexeme)} {after : List UInt8}

theorem writes_of_written (h : List.Forall₂ NameUnit.Written us lss) :
    List.Forall₂ NameUnit.Writes us (lss.map (·.flatMap Lexeme.bytes)) := by
  rw [List.forall₂_map_right_iff]
  exact h.imp fun _ _ => NameUnit.Written.writes

theorem text_of_written (h : List.Forall₂ NameUnit.Written us lss) :
    ∃ text, QualifiedName.text ⟨us⟩ = .ok text ∧
      bytesOf text = lss.flatten.flatMap Lexeme.bytes := by
  have hwrites := writes_of_written h
  have hflatten : lss.flatten = lss.flatMap id := List.flatMap_id.symm
  refine ⟨_, text_of_writes hwrites, ?_⟩
  rw [Utf8.bytesOf_decode (lt_of_writes hwrites), hflatten, List.flatMap_assoc]
  rfl

theorem chained_units (h : List.Forall₂ NameUnit.Written us lss) (hapart : Apart us)
    (hafter : EndsWord after) : Chained lss.flatten after := by
  induction h with
  | nil => trivial
  | cons hunit hmore ih =>
    refine Chained.append ?_ (ih hapart.tail)
    cases hunit with
    | separator => exact (chained_mark rfl).cons (chained_mark rfl)
    | @ident s text text_eq isIdentifier =>
      apply chained_word isIdentifier
      cases hmore with
      | nil => exact hafter
      | cons hnext _ =>
        cases hnext with
        | separator =>
          rintro _ ⟨⟩
          rfl
        | @ident t => exact absurd (List.prefix_append _ _).isInfix (hapart s t)

theorem beginsType_units (h : List.Forall₂ NameUnit.Written us lss) (hus : us ≠ []) :
    BeginsType (lss.flatten.flatMap Lexeme.bytes ++ after) := by
  cases h with
  | nil => exact absurd rfl hus
  | cons hunit _ =>
    cases hunit with
    | separator => exact ⟨_, _, rfl, .inr (.inl rfl)⟩
    | ident _ isIdentifier =>
      exact beginsType_word isIdentifier

end Units

namespace QualifiedName

/-- A name that its text tells: it ends with an identifier, no two identifiers touch, and each of
them is written as one. -/
structure WellFormed (n : QualifiedName) : Prop where
  last : ∃ t, n.units.getLast? = some (.ident t)
  apart : Apart n.units
  idents : ∀ t, .ident t ∈ n.units → ∃ text, t.text = .ok text ∧ IsIdentifier text

def StartsWith (n : QualifiedName) (text : String) : Prop :=
  ∃ t, n.units.head? = some (.ident t) ∧ t.text = .ok text

theorem WellFormed.exists_written {n : QualifiedName} (h : n.WellFormed) :
    ∃ lss, List.Forall₂ NameUnit.Written n.units lss := by
  have hidents := h.idents
  revert hidents
  induction n.units with
  | nil => exact fun _ => ⟨[], .nil⟩
  | cons u us ih =>
    intro hidents
    obtain ⟨lss, hmore⟩ := ih fun t ht => hidents t (List.mem_cons_of_mem _ ht)
    cases u with
    | separator => exact ⟨_, .cons .separator hmore⟩
    | ident t =>
      obtain ⟨text, htext, hid⟩ := hidents t List.mem_cons_self
      exact ⟨_, .cons (.ident htext hid) hmore⟩

theorem WellFormed.ne_nil {n : QualifiedName} (h : n.WellFormed) : n.units ≠ [] := by
  intro hnil
  obtain ⟨t, ht⟩ := h.last
  rw [hnil] at ht
  cases ht

end QualifiedName

namespace TypeExpr

/-- A type that its text tells: without `const`, its name does not start as if it were one. -/
inductive WellFormed : TypeExpr → Prop where
  | named {isConst : Bool} {n : QualifiedName} (name : n.WellFormed)
      (isConst_of_startsWith : n.StartsWith "const" → isConst = true) :
      WellFormed (.named isConst n)
  | pointer {isConst : Bool} {t : TypeExpr} (pointee : WellFormed t) :
      WellFormed (.pointer isConst t)

def qualifierLexemes (isConst : Bool) : List Lexeme :=
  if isConst then [word "const", blank] else []

inductive Written : TypeExpr → List Lexeme → Prop where
  | named {isConst : Bool} {n : QualifiedName} {lss : List (List Lexeme)} (name : n.WellFormed)
      (isConst_of_startsWith : n.StartsWith "const" → isConst = true)
      (units : List.Forall₂ NameUnit.Written n.units lss) :
      Written (.named isConst n) (qualifierLexemes isConst ++ lss.flatten)
  | pointer {isConst : Bool} {t : TypeExpr} {ls : List Lexeme} (pointee : Written t ls) :
      Written (.pointer isConst t) (qualifierLexemes isConst ++ star :: ls)

theorem WellFormed.exists_written {t : TypeExpr} (h : t.WellFormed) : ∃ ls, t.Written ls := by
  induction h with
  | named name isConst_of_startsWith =>
    obtain ⟨lss, hunits⟩ := name.exists_written
    exact ⟨_, .named name isConst_of_startsWith hunits⟩
  | pointer _ ih =>
    obtain ⟨ls, hpointee⟩ := ih
    exact ⟨_, .pointer hpointee⟩

theorem bytesOf_qualifier (isConst : Bool) :
    bytesOf (qualifier isConst) = (qualifierLexemes isConst).flatMap Lexeme.bytes := by
  cases isConst <;> rfl

@[simp] theorem isIdentifier_const : IsIdentifier "const" := .of_all rfl rfl rfl

namespace Written

variable {t : TypeExpr} {ls : List Lexeme} {after : List UInt8}

theorem text_eq (h : t.Written ls) :
    ∃ text, t.text = .ok text ∧ bytesOf text = ls.flatMap Lexeme.bytes := by
  have hname : ∃ name, t.name.text = .ok name ∧
      bytesOf (String.join (t.marks ++ [name])) = ls.flatMap Lexeme.bytes := by
    induction h with
    | named _ _ units =>
      obtain ⟨name, hname, hbytes⟩ := text_of_written units
      refine ⟨name, hname, ?_⟩
      rw [marks, List.singleton_append, String.join_cons, String.join_cons, String.join_nil,
        String.append_empty, Utf8.bytesOf_append, bytesOf_qualifier, hbytes, List.flatMap_append]
    | pointer _ ih =>
      obtain ⟨name, hname, hbytes⟩ := ih
      refine ⟨name, hname, ?_⟩
      rw [marks, List.cons_append, List.cons_append, String.join_cons, String.join_cons,
        Utf8.bytesOf_append, Utf8.bytesOf_append, bytesOf_qualifier, hbytes, List.flatMap_append]
      rfl
  obtain ⟨name, hname, hbytes⟩ := hname
  refine ⟨_, ?_, hbytes⟩
  rw [text, hname]
  rfl

theorem chained_qualifier {isConst : Bool} (h : Chained ls after)
    (hbegins : BeginsType (ls.flatMap Lexeme.bytes ++ after)) :
    Chained (qualifierLexemes isConst ++ ls) after ∧
      BeginsType ((qualifierLexemes isConst ++ ls).flatMap Lexeme.bytes ++ after) := by
  cases isConst with
  | false => exact ⟨h, hbegins⟩
  | true =>
    exact ⟨chained_keyword isIdentifier_const h hbegins, beginsType_word isIdentifier_const⟩

theorem chained (h : t.Written ls) (hafter : EndsWord after) :
    Chained ls after ∧ BeginsType (ls.flatMap Lexeme.bytes ++ after) := by
  induction h with
  | named name _ units =>
    exact chained_qualifier (chained_units units name.apart hafter)
      (beginsType_units units name.ne_nil)
  | pointer _ ih =>
    obtain ⟨hchained, hbegins⟩ := ih
    exact chained_qualifier ((chained_star hbegins).cons hchained) ⟨_, _, rfl, .inr (.inr rfl)⟩

end Written

end TypeExpr

end FrontEnd
