import FrontEnd.Proofs.Tree.Written
import FrontEnd.Tree.Argument

namespace FrontEnd

open Lexeme (blank mark word bytes_word EndsWord BeginsType beginsType_word Chained chained_blank
  chained_mark chained_word chained_keyword)

namespace Mode

def written (mode : Mode) (spelled : Bool) : String := if spelled then mode.keyword ++ " " else ""

def lexemes (mode : Mode) (spelled : Bool) : List Lexeme :=
  if spelled then [word mode.keyword, blank] else []

@[simp] theorem isIdentifier_keyword (mode : Mode) : IsIdentifier mode.keyword := by
  cases mode <;> exact .of_all rfl rfl rfl

theorem bytesOf_written (mode : Mode) (spelled : Bool) :
    bytesOf (mode.written spelled) = (mode.lexemes spelled).flatMap Lexeme.bytes := by
  cases spelled with
  | false => rfl
  | true => cases mode <;> rfl

end Mode

namespace Argument

variable {a : Argument} {as : List (Argument × Bool)} {spelled : Bool} {o : Option TypeExpr}
  {ls : List Lexeme} {lss : List (List Lexeme)} {after : List UInt8}

def typeText : Option TypeExpr → Except Fault String
  | none => .ok ""
  | some t => do
    let text ← t.text
    pure (": " ++ text)

def text (a : Argument) (spelled : Bool) : Except Fault String := do
  let name ← a.name.text
  let type ← typeText a.type
  pure (a.mode.written spelled ++ name ++ type)

/-- The text of arguments through the parenthesis that closes them; each is given with whether its
mode is spelled out. -/
def textAll (as : List (Argument × Bool)) : Except Fault String := do
  let texts ← as.mapM fun a => a.1.text a.2
  pure (", ".intercalate texts ++ ")")

/-- An argument that its text tells: only the default mode is left out, and only before a name that
is not a keyword of a mode. -/
structure WellFormed (a : Argument) (spelled : Bool) : Prop where
  name : ∃ text, a.name.text = .ok text ∧ IsIdentifier text ∧
    (spelled = false → a.mode = .input ∧ Mode.ofKeyword? text = none)
  type : ∀ t ∈ a.type, t.WellFormed

inductive TypeWritten : Option TypeExpr → List Lexeme → Prop where
  | none : TypeWritten none []
  | some {t : TypeExpr} {ls : List Lexeme} (type : t.Written ls) :
      TypeWritten (some t) (mark 0x3A :: blank :: ls)

inductive Written : Argument × Bool → List Lexeme → Prop where
  | mk {a : Argument} {spelled : Bool} {name : String} {ls : List Lexeme}
      (text_eq : a.name.text = .ok name) (isIdentifier : IsIdentifier name)
      (plain : spelled = false → a.mode = .input ∧ Mode.ofKeyword? name = none)
      (type : TypeWritten a.type ls) :
      Written (a, spelled) (a.mode.lexemes spelled ++ word name :: ls)

def listLexemes (lss : List (List Lexeme)) : List Lexeme :=
  [mark 0x2C, blank].intercalate lss ++ [mark 0x29]

@[simp] theorem listLexemes_singleton (ls : List Lexeme) :
    listLexemes [ls] = ls ++ [mark 0x29] := by
  rw [listLexemes, List.intercalate_singleton]

@[simp] theorem listLexemes_cons_cons (ls ms : List Lexeme) (lss : List (List Lexeme)) :
    listLexemes (ls :: ms :: lss) = ls ++ mark 0x2C :: blank :: listLexemes (ms :: lss) := by
  rw [listLexemes, List.intercalate_cons_cons, List.append_assoc, List.append_assoc]
  rfl

theorem WellFormed.exists_written (h : a.WellFormed spelled) : ∃ ls, Written (a, spelled) ls := by
  obtain ⟨name, hname, hid, hplain⟩ := h.name
  have htype := h.type
  cases hsome : a.type with
  | none =>
    have hwritten : TypeWritten a.type [] := by
      rw [hsome]
      exact .none
    exact ⟨_, .mk hname hid hplain hwritten⟩
  | some t =>
    obtain ⟨ls, ht⟩ := (htype t hsome).exists_written
    have hwritten : TypeWritten a.type (mark 0x3A :: blank :: ls) := by
      rw [hsome]
      exact .some ht
    exact ⟨_, .mk hname hid hplain hwritten⟩

theorem exists_written (h : ∀ a ∈ as, a.1.WellFormed a.2) : ∃ lss, List.Forall₂ Written as lss := by
  induction as with
  | nil => exact ⟨[], .nil⟩
  | cons a as ih =>
    obtain ⟨ha, has⟩ := List.forall_mem_cons.1 h
    obtain ⟨ls, hls⟩ := ha.exists_written
    obtain ⟨lss, hlss⟩ := ih has
    exact ⟨_, .cons hls hlss⟩

theorem TypeWritten.text_eq (h : TypeWritten o ls) :
    ∃ text, typeText o = .ok text ∧ bytesOf text = ls.flatMap Lexeme.bytes := by
  cases h with
  | none => exact ⟨_, rfl, rfl⟩
  | some type =>
    obtain ⟨text, htext, hbytes⟩ := type.text_eq
    refine ⟨": " ++ text, ?_, ?_⟩
    · rw [typeText, htext]
      rfl
    · rw [Utf8.bytesOf_append, hbytes]
      rfl

theorem Written.text_eq {x : Argument × Bool} (h : Written x ls) :
    ∃ text, x.1.text x.2 = .ok text ∧ bytesOf text = ls.flatMap Lexeme.bytes := by
  cases h with
  | @mk a spelled name ls hname hid _ type =>
    obtain ⟨shown, htype, hbytes⟩ := type.text_eq
    refine ⟨a.mode.written spelled ++ name ++ shown, ?_, ?_⟩
    · rw [text, hname, htype]
      rfl
    · rw [Utf8.bytesOf_append, Utf8.bytesOf_append, Mode.bytesOf_written, hbytes,
        List.flatMap_append, List.flatMap_cons, bytes_word hid, List.append_assoc]

theorem exists_texts (h : List.Forall₂ Written as lss) :
    ∃ texts, as.mapM (fun a => a.1.text a.2) = .ok texts ∧
      List.Forall₂ (fun text ls => bytesOf text = ls.flatMap Lexeme.bytes) texts lss := by
  induction h with
  | nil => exact ⟨[], rfl, .nil⟩
  | cons ha _ ih =>
    obtain ⟨text, htext, hbytes⟩ := ha.text_eq
    obtain ⟨texts, htexts, hmore⟩ := ih
    refine ⟨text :: texts, ?_, .cons hbytes hmore⟩
    rw [List.mapM_cons, htext, htexts]
    rfl

theorem bytesOf_intercalate {texts : List String}
    (h : List.Forall₂ (fun text ls => bytesOf text = ls.flatMap Lexeme.bytes) texts lss) :
    bytesOf (", ".intercalate texts) =
      ([mark 0x2C, blank].intercalate lss).flatMap Lexeme.bytes := by
  induction h with
  | nil => rfl
  | cons htext hmore ih =>
    cases hmore with
    | nil => rw [String.intercalate_singleton, List.intercalate_singleton, htext]
    | cons =>
      rw [String.intercalate_cons_cons, List.intercalate_cons_cons, Utf8.bytesOf_append,
        Utf8.bytesOf_append, ih, htext, List.flatMap_append, List.flatMap_append]
      rfl

theorem textAll_eq (h : List.Forall₂ Written as lss) :
    ∃ text, textAll as = .ok text ∧ bytesOf text = (listLexemes lss).flatMap Lexeme.bytes := by
  obtain ⟨texts, htexts, hmore⟩ := exists_texts h
  have hbytes := bytesOf_intercalate hmore
  refine ⟨", ".intercalate texts ++ ")", ?_, ?_⟩
  · rw [textAll, htexts]
    rfl
  · rw [Utf8.bytesOf_append, hbytes, listLexemes, List.flatMap_append]
    rfl

theorem TypeWritten.chained (h : TypeWritten o ls) (hafter : EndsWord after) :
    Chained ls after ∧ EndsWord (ls.flatMap Lexeme.bytes ++ after) := by
  cases h with
  | none => exact ⟨trivial, hafter⟩
  | some type =>
    obtain ⟨hchained, hbegins⟩ := type.chained hafter
    refine ⟨(chained_mark rfl).cons ((chained_blank hbegins.not_whitespace).cons hchained), ?_⟩
    rintro _ ⟨⟩
    rfl

theorem Written.chained {x : Argument × Bool} (h : Written x ls) (hafter : EndsWord after) :
    Chained ls after ∧ BeginsType (ls.flatMap Lexeme.bytes ++ after) := by
  cases h with
  | @mk a spelled name ls _ hid _ type =>
    obtain ⟨hchained, hends⟩ := type.chained hafter
    have hname : Chained (word name :: ls) after := (chained_word hid hends).cons hchained
    cases spelled with
    | false => exact ⟨hname, beginsType_word hid⟩
    | true =>
      have hkeyword := a.mode.isIdentifier_keyword
      exact ⟨chained_keyword hkeyword hname (beginsType_word hid), beginsType_word hkeyword⟩

theorem Written.chained_append {x : Argument × Bool} {byte : UInt8} {ms : List Lexeme}
    (h : Written x ls) (hmark : ByteClass.ofByte byte = .scopeMark)
    (hms : Chained (mark byte :: ms) after) :
    Chained (ls ++ mark byte :: ms) after ∧
      BeginsType ((ls ++ mark byte :: ms).flatMap Lexeme.bytes ++ after) := by
  have hends : EndsWord ((mark byte :: ms).flatMap Lexeme.bytes ++ after) := by
    rintro _ ⟨⟩
    change (ByteClass.ofByte byte).continuesIdent = false
    rw [hmark]
    rfl
  obtain ⟨hchained, hbegins⟩ := h.chained hends
  rw [List.flatMap_append, List.append_assoc]
  exact ⟨hchained.append hms, hbegins⟩

theorem chained_list (h : List.Forall₂ Written as lss) :
    Chained (listLexemes lss) after ∧
      (lss ≠ [] → BeginsType ((listLexemes lss).flatMap Lexeme.bytes ++ after)) := by
  have hcomma : ByteClass.ofByte 0x2C = .scopeMark := rfl
  have hclose : ByteClass.ofByte 0x29 = .scopeMark := rfl
  induction h with
  | nil => exact ⟨chained_mark hclose, fun hne => absurd rfl hne⟩
  | @cons x ls as lss hx hmore ih =>
    cases hmore with
    | nil =>
      rw [listLexemes_singleton]
      obtain ⟨hchained, hbegins⟩ := hx.chained_append hclose (chained_mark hclose)
      exact ⟨hchained, fun _ => hbegins⟩
    | cons =>
      rw [listLexemes_cons_cons]
      obtain ⟨hlist, hfirst⟩ := ih
      have hblank := (chained_blank (hfirst (List.cons_ne_nil _ _)).not_whitespace).cons hlist
      obtain ⟨hchained, hbegins⟩ := hx.chained_append hcomma ((chained_mark hcomma).cons hblank)
      exact ⟨hchained, fun _ => hbegins⟩

end Argument

end FrontEnd
