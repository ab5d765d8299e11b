import FrontEnd.Proofs.Grammar.Name
import Mathlib.Data.List.Forall2

namespace FrontEnd

open Lexeme (Covers)

structure IsWord (bytes : List UInt8) : Prop where
  ne_nil : bytes ≠ []
  continues : ∀ byte ∈ bytes, (ByteClass.ofByte byte).continuesIdent = true

theorem IsWord.ne_separator {bytes : List UInt8} (h : IsWord bytes) : bytes ≠ bytesOf "::" := by
  rintro rfl
  exact absurd (h.continues 0x3A (by decide)) (by decide)

theorem IsWord.lt {bytes : List UInt8} (h : IsWord bytes) : ∀ byte ∈ bytes, byte < 0x80 := by
  intro byte hbyte
  apply UInt8.not_le.1
  intro hle
  have hcontinues := h.continues byte hbyte
  rw [ByteClass.ofByte_of_not_ascii byte hle] at hcontinues
  cases hcontinues

namespace Lexeme

variable {text : List UInt8} {tokens : List Token} {s t : Token}

theorem isWord_head {byte : UInt8} {rest : List UInt8}
    (h : (head byte rest).kind = some .identifier) :
    ByteClass.ofByte byte = .identStart ∧ IsWord (head byte rest).bytes := by
  have hform := form_extent byte rest
  revert h
  unfold head
  generalize extent byte rest = e at hform
  intro h
  cases hform with
  | identifier hclass hlength =>
    refine ⟨hclass, List.cons_ne_nil _ _, ?_⟩
    rw [← hlength]
    intro b hb
    cases hb with
    | head =>
      rw [hclass]
      rfl
    | tail _ hb =>
      dsimp only at hb
      rw [take_runLength] at hb
      exact List.all_eq_true.1 List.all_takeWhile b hb
  | _ => cases h

theorem Covers.isWord (h : Covers text tokens) (ht : t ∈ tokens) (hkind : t.kind = .identifier) :
    ∃ word, t.bytes = .ok word ∧ IsWord word := by
  obtain ⟨byte, rest, _, hhead, hbytes⟩ := h.exists_head ht
  rw [hkind] at hhead
  exact ⟨_, hbytes, (isWord_head hhead).2⟩

/-- Two identifiers never touch: the second would be part of the first. -/
theorem Covers.stop_ne_start (h : Covers text tokens) (hs : s ∈ tokens) (ht : t ∈ tokens)
    (hskind : s.kind = .identifier) (htkind : t.kind = .identifier) :
    s.span.stop ≠ t.span.start := by
  intro htouch
  obtain ⟨byte, rest, hdrop, hhead, hstop⟩ :=
    head_of_mem_spans (List.drop_zero (l := text)) (h.mem_spans hs)
  obtain ⟨next, after, hnext, hnexthead, _⟩ := h.exists_head ht
  dsimp only at hdrop hhead hstop
  have htail : tail byte rest = next :: after := by
    rw [← hnext, ← htouch, hstop]
    exact (drop_length_head hdrop).symm
  rw [hskind] at hhead
  rw [htkind] at hnexthead
  have hstops := stopsAt_tail byte rest next (by rw [htail]; rfl)
  unfold Joins at hstops
  rw [hhead] at hstops
  apply hstops
  rw [(isWord_head hnexthead).1]
  rfl

end Lexeme

namespace NameUnit

inductive Writes : NameUnit → List UInt8 → Prop where
  | ident {t : Token} {word : List UInt8} (bytes_eq : t.bytes = .ok word) (isWord : IsWord word) :
      Writes (.ident t) word
  | separator : Writes .separator (bytesOf "::")

variable {u v : NameUnit} {word other : List UInt8}

theorem Writes.lt (h : u.Writes word) : ∀ byte ∈ word, byte < 0x80 := by
  cases h with
  | ident _ isWord => exact isWord.lt
  | separator => decide +kernel

theorem Writes.ne_nil (h : u.Writes word) : word ≠ [] := by
  cases h with
  | ident _ isWord => exact isWord.ne_nil
  | separator => decide

theorem Writes.text_eq (h : u.Writes word) : u.text = .ok (Utf8.decode word) := by
  cases h with
  | ident bytes_eq _ =>
    rw [text, Token.text, bytes_eq]
    rfl
  | separator =>
    rw [Utf8.decode_bytesOf]
    rfl

theorem Writes.same_eq (h : u.Writes word) (h' : v.Writes other) :
    u.same v = .ok (decide (word = other)) := by
  cases h with
  | ident bytes_eq isWord =>
    cases h' with
    | ident bytes_eq' _ =>
      rw [same, bytes_eq, bytes_eq']
      exact congrArg Except.ok (beq_eq_decide _ _)
    | separator =>
      rw [decide_eq_false isWord.ne_separator]
      rfl
  | separator =>
    cases h' with
    | ident _ isWord =>
      rw [decide_eq_false isWord.ne_separator.symm]
      rfl
    | separator => rfl

end NameUnit

section Words

variable {us vs : List NameUnit} {words others : List (List UInt8)}

theorem Spells.exists_words {ts : List Token} (h : Spells us ts)
    (hwords : ∀ t ∈ ts, t.kind = .identifier → ∃ word, t.bytes = .ok word ∧ IsWord word) :
    ∃ words, List.Forall₂ NameUnit.Writes us words := by
  induction h with
  | nil => exact ⟨[], .nil⟩
  | ident kind_eq _ ih =>
    obtain ⟨hword, hmore⟩ := List.forall_mem_cons.1 hwords
    obtain ⟨word, hbytes, hword⟩ := hword kind_eq
    obtain ⟨words, hwrites⟩ := ih hmore
    exact ⟨_, .cons (.ident hbytes hword) hwrites⟩
  | separator _ _ _ ih =>
    obtain ⟨_, hmore⟩ := List.forall_mem_cons.1 hwords
    obtain ⟨words, hwrites⟩ := ih (List.forall_mem_cons.1 hmore).2
    exact ⟨_, .cons .separator hwrites⟩

theorem lt_of_writes (h : List.Forall₂ NameUnit.Writes us words) :
    ∀ byte ∈ words.flatten, byte < 0x80 := by
  induction h with
  | nil =>
    intro byte hbyte
    cases hbyte
  | cons hunit _ ih => exact List.forall_mem_append.2 ⟨hunit.lt, ih⟩

theorem mapM_text_of_writes (h : List.Forall₂ NameUnit.Writes us words) :
    us.mapM NameUnit.text = .ok (words.map Utf8.decode) := by
  induction h with
  | nil => rfl
  | cons hunit _ ih =>
    rw [List.mapM_cons, hunit.text_eq, ih]
    rfl

theorem join_of_writes (h : List.Forall₂ NameUnit.Writes us words) :
    String.join (words.map Utf8.decode) = Utf8.decode words.flatten := by
  induction h with
  | nil => rfl
  | cons hunit hmore ih =>
    rw [List.map_cons, String.join_cons, ih, List.flatten_cons,
      Utf8.decode_append hunit.lt (lt_of_writes hmore)]

theorem text_of_writes (h : List.Forall₂ NameUnit.Writes us words) :
    QualifiedName.text ⟨us⟩ = .ok (Utf8.decode words.flatten) := by
  rw [QualifiedName.text, mapM_text_of_writes h, ← join_of_writes h]
  rfl

theorem sameUnits_of_writes (h : List.Forall₂ NameUnit.Writes us words)
    (h' : List.Forall₂ NameUnit.Writes vs others) :
    QualifiedName.sameUnits us vs = .ok (decide (words = others)) := by
  induction h generalizing vs others with
  | nil => cases h' <;> rfl
  | @cons u word us words hunit _ ih =>
    cases h' with
    | nil => rfl
    | @cons v other vs others hunit' hmore' =>
      rw [QualifiedName.sameUnits, hunit.same_eq hunit']
      by_cases hword : word = other
      · have hwords : (word :: words = other :: others) ↔ words = others := by
          rw [List.cons_eq_cons, and_iff_right hword]
        rw [decide_eq_true hword, decide_eq_decide.2 hwords, ← ih hmore']
        rfl
      · rw [decide_eq_false hword, decide_eq_false fun hwords => hword (List.cons.inj hwords).1]
        rfl

theorem same_of_writes (h : List.Forall₂ NameUnit.Writes us words)
    (h' : List.Forall₂ NameUnit.Writes vs others) :
    QualifiedName.same ⟨us⟩ ⟨vs⟩ = .ok (decide (words = others)) := by
  unfold QualifiedName.same
  split
  · exact sameUnits_of_writes h h'
  · next hlength =>
    rw [decide_eq_false]
    rintro rfl
    exact hlength (h.length_eq.trans h'.length_eq.symm)

def Apart (us : List NameUnit) : Prop := ∀ s t, ¬[.ident s, .ident t] <:+: us

theorem Apart.tail {u : NameUnit} (h : Apart (u :: us)) : Apart us :=
  fun s t hst => h s t (List.infix_cons hst)

theorem takeWhile_of_writes {u : NameUnit} {word : List UInt8} (hunit : u.Writes word)
    (h : List.Forall₂ NameUnit.Writes us words) (hapart : Apart (u :: us)) :
    (word :: words).flatten.takeWhile (ByteClass.ofByte · |>.continuesIdent) =
      match u with
      | .ident _ => word
      | .separator => [] := by
  cases hunit with
  | separator => rfl
  | @ident s word bytes_eq isWord =>
    rw [List.flatten_cons, List.takeWhile_append_of_pos isWord.continues]
    cases h with
    | nil => exact List.append_nil word
    | cons hnext _ =>
      cases hnext with
      | separator => exact List.append_nil word
      | @ident t => exact absurd (List.prefix_append _ _).isInfix (hapart s t)

/-- Where no two identifiers are neighbours, the words can be told from their bytes. -/
theorem words_eq_of_flatten (h : List.Forall₂ NameUnit.Writes us words)
    (h' : List.Forall₂ NameUnit.Writes vs others) (hapart : Apart us) (hapart' : Apart vs)
    (hflatten : words.flatten = others.flatten) : words = others := by
  induction h generalizing vs others with
  | nil =>
    cases h' with
    | nil => rfl
    | cons hunit' _ => exact absurd (List.append_eq_nil_iff.1 hflatten.symm).1 hunit'.ne_nil
  | @cons u word us words hunit hmore ih =>
    cases h' with
    | nil => exact absurd (List.append_eq_nil_iff.1 hflatten).1 hunit.ne_nil
    | @cons v other vs others hunit' hmore' =>
      -- How long the bytes go on as an identifier tells the first word, or that it is a separator.
      have hfirst := takeWhile_of_writes hunit hmore hapart
      rw [hflatten, takeWhile_of_writes hunit' hmore' hapart'] at hfirst
      have hword : word = other := by
        cases hunit with
        | ident _ isWord =>
          cases hunit' with
          | ident => exact hfirst.symm
          | separator => exact absurd hfirst.symm isWord.ne_nil
        | separator =>
          cases hunit' with
          | ident _ isWord => exact absurd hfirst isWord.ne_nil
          | separator => rfl
      cases hword
      rw [ih hmore' hapart.tail hapart'.tail (List.append_cancel_left hflatten)]

end Words

/-- No comment stands between two identifiers of the name that follow each other. -/
def QualifiedName.Unbroken (m : QualifiedName) : Prop :=
  ∀ s t, [.ident s, .ident t] <:+: m.units → s.span.stop = t.span.start

namespace Rule

open Lexeme (Covers)

variable {text : List UInt8} {tokens : List Token} {c d : Cursor} {m : QualifiedName}

theorem exists_words_of_name (h : Covers text tokens) (hc : c.rest <:+ tokens)
    (hname : name c = .ok m d) :
    ∃ words, List.Forall₂ NameUnit.Writes m.units words ∧ (m.Unbroken → Apart m.units) := by
  obtain ⟨blank, ts, hrest, _, hspells, _⟩ := name_spells hname
  have hmem : ∀ t ∈ ts, t ∈ tokens := by
    intro t ht
    apply hc.mem
    rw [hrest]
    exact List.mem_append_left _ (List.mem_append_right _ ht)
  obtain ⟨words, hwords⟩ := hspells.exists_words fun t ht => h.isWord (hmem t ht)
  refine ⟨words, hwords, ?_⟩
  intro hunbroken s t hst
  obtain ⟨hs, hskind⟩ := hspells.kind_of_mem (hst.mem List.mem_cons_self)
  obtain ⟨ht, htkind⟩ := hspells.kind_of_mem (hst.mem (List.mem_cons_of_mem _ List.mem_cons_self))
  exact h.stop_ne_start (hmem s hs) (hmem t ht) hskind htkind (hunbroken s t hst)

/-- Names that are the same are shown as the same text; and the text tells the name, unless a comment
stands between two identifiers of it that follow each other. -/
theorem text_tells_name (id other : Nat) (text more : List UInt8)
    (h : text.length ≤ Offset.bound - 2) (h' : more.length ≤ Offset.bound - 2) :
    ∃ tokens others, (Buffer.ofBytes id text).tokens = .ok tokens ∧
      (Buffer.ofBytes other more).tokens = .ok others ∧
      ∀ c d m c' e n, c.rest <:+ tokens → c'.rest <:+ others →
        name c = .ok m d → name c' = .ok n e →
        ∃ same s t, m.same n = .ok same ∧ m.text = .ok s ∧ n.text = .ok t ∧
          (same = true → s = t) ∧ (m.Unbroken → n.Unbroken → s = t → same = true) := by
  obtain ⟨tokens, htokens, hcovers⟩ := Buffer.exists_tokens_of_text id h
  obtain ⟨others, hothers, hcovers'⟩ := Buffer.exists_tokens_of_text other h'
  refine ⟨tokens, others, htokens, hothers, ?_⟩
  intro c d m c' e n hc hc' hm hn
  obtain ⟨words, hwords, hapart⟩ := exists_words_of_name hcovers hc hm
  obtain ⟨words', hwords', hapart'⟩ := exists_words_of_name hcovers' hc' hn
  refine ⟨_, _, _, same_of_writes hwords hwords', text_of_writes hwords, text_of_writes hwords',
    ?_, ?_⟩
  · intro hsame
    rw [of_decide_eq_true hsame]
  · intro hm hn htext
    apply decide_eq_true
    apply words_eq_of_flatten hwords hwords' (hapart hm) (hapart' hn)
    exact Utf8.eq_of_decode_eq (lt_of_writes hwords) (lt_of_writes hwords') htext

theorem text_tells_name_beside_comments :
    ((bytesOf "a::/**/b").length ≤ Offset.bound - 2 ∧
      (bytesOf " a/**/::b").length ≤ Offset.bound - 2) ∧
    ∃ tokens others m d n e, (Buffer.ofBytes 0 (bytesOf "a::/**/b")).tokens = .ok tokens ∧
      (Buffer.ofBytes 1 (bytesOf " a/**/::b")).tokens = .ok others ∧
      name (.ofTokens tokens) = .ok m d ∧ name (.ofTokens others) = .ok n e ∧
      m.Unbroken ∧ n.Unbroken ∧ m.text = .ok "a::b" ∧ n.text = .ok "a::b" ∧
      m.same n = .ok true := by
  have hlength : (bytesOf "a::/**/b").length ≤ Offset.bound - 2 := by decide
  have hlength' : (bytesOf " a/**/::b").length ≤ Offset.bound - 2 := by decide
  obtain ⟨tokens, others, htokens, hothers, htells⟩ := text_tells_name 0 1 _ _ hlength hlength'
  let test (m : QualifiedName) (_ : Cursor) : Bool :=
    m.units.map (·.token?.isSome) == [true, false, true] && m.text.toOption == some "a::b"
  have hrun : succeedsOn name 0 (bytesOf "a::/**/b") test = true := by decide +kernel
  have hrun' : succeedsOn name 1 (bytesOf " a/**/::b") test = true := by decide +kernel
  have hshown : ∀ m d, test m d = true → m.text = .ok "a::b" ∧ m.Unbroken := by
    intro m d hm
    obtain ⟨hunits, htext⟩ := Bool.and_eq_true_iff.1 hm
    refine ⟨Fault.toOption_eq_some (beq_iff_eq.1 htext), ?_⟩
    intro s t hst
    have hneighbours : [true, true] <:+: m.units.map (·.token?.isSome) :=
      hst.map fun u : NameUnit => u.token?.isSome
    rw [beq_iff_eq.1 hunits] at hneighbours
    exact absurd hneighbours (by decide)
  obtain ⟨_, m, d, hread, hm, htest⟩ := exists_of_succeedsOn hrun
  obtain ⟨_, n, e, hread', hn, htest'⟩ := exists_of_succeedsOn hrun'
  cases htokens.symm.trans hread
  cases hothers.symm.trans hread'
  obtain ⟨htext, hunbroken⟩ := hshown m d htest
  obtain ⟨htext', hunbroken'⟩ := hshown n e htest'
  obtain ⟨same, s, t, hsame, hs, ht, _, htold⟩ :=
    htells _ d m _ e n List.suffix_rfl List.suffix_rfl hm hn
  cases htext.symm.trans hs
  cases htext'.symm.trans ht
  rw [htold hunbroken hunbroken' rfl] at hsame
  exact ⟨⟨hlength, hlength'⟩, tokens, others, m, d, n, e, htokens, hothers, hm, hn, hunbroken,
    hunbroken', htext, htext', hsame⟩

/-- A comment parts a word into two identifiers, which are shown as the one word. -/
theorem text_of_parted_name :
    ∃ tokens others m d n e, (Buffer.ofBytes 0 (bytesOf "a/**/b")).tokens = .ok tokens ∧
      (Buffer.ofBytes 1 (bytesOf "ab")).tokens = .ok others ∧
      name (.ofTokens tokens) = .ok m d ∧ name (.ofTokens others) = .ok n e ∧
      m.text = .ok "ab" ∧ n.text = .ok "ab" ∧ m.same n = .ok false := by
  let test (length : Nat) (m : QualifiedName) (_ : Cursor) : Bool :=
    m.units.length == length && m.text.toOption == some "ab"
  have hrun : succeedsOn name 0 (bytesOf "a/**/b") (test 2) = true := by decide +kernel
  have hrun' : succeedsOn name 1 (bytesOf "ab") (test 1) = true := by decide +kernel
  obtain ⟨tokens, m, d, htokens, hm, htest⟩ := exists_of_succeedsOn hrun
  obtain ⟨others, n, e, hothers, hn, htest'⟩ := exists_of_succeedsOn hrun'
  obtain ⟨hlength, htext⟩ := Bool.and_eq_true_iff.1 htest
  obtain ⟨hlength', htext'⟩ := Bool.and_eq_true_iff.1 htest'
  refine ⟨tokens, others, m, d, n, e, htokens, hothers, hm, hn, ?_, ?_, ?_⟩
  · exact Fault.toOption_eq_some (beq_iff_eq.1 htext)
  · exact Fault.toOption_eq_some (beq_iff_eq.1 htext')
  · rw [QualifiedName.same, if_neg]
    rw [beq_iff_eq.1 hlength, beq_iff_eq.1 hlength']
    decide

end Rule

end FrontEnd
