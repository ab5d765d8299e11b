import FrontEnd.Proofs.Store.Change

namespace FrontEnd

/-- A later table has no new entry under an old index, and an entry that stayed is as it was up
to `R`. -/
structure Table.Later {α : Type} (R : α → α → Prop) (t u : Table α) : Prop where
  size_le : t.size ≤ u.size
  exists_of_get? : ∀ ⦃i a⦄, i < t.size → u.get? i = some a → ∃ b, t.get? i = some b ∧ R b a

namespace Table

variable {α : Type} {R : α → α → Prop} {t u v : Table α} {i : Nat} {a b : α}

theorem Later.refl (h : ∀ a, R a a) (t : Table α) : t.Later R t :=
  ⟨Nat.le_refl _, fun _ a _ ha => ⟨a, ha, h a⟩⟩

theorem Later.trans (h : ∀ a b c, R a b → R b c → R a c) (htu : t.Later R u) (huv : u.Later R v) :
    t.Later R v where
  size_le := Nat.le_trans htu.size_le huv.size_le
  exists_of_get? i a hi ha := by
    obtain ⟨b, hb, hba⟩ := huv.exists_of_get? (Nat.lt_of_lt_of_le hi htu.size_le) ha
    obtain ⟨c, hc, hcb⟩ := htu.exists_of_get? hi hb
    exact ⟨c, hc, h c b a hcb hba⟩

theorem later_add (h : ∀ a, R a a) (t : Table α) (a : α) : t.Later R (t.add a) where
  size_le := by simp
  exists_of_get? i b hi hb := by
    rw [get?_add_of_ne a (Nat.ne_of_lt hi)] at hb
    exact ⟨b, hb, h b⟩

theorem later_drop (h : ∀ a, R a a) (t : Table α) (i : Nat) : t.Later R (t.drop i) where
  size_le := by simp
  exists_of_get? j b _ hb := by
    exact ⟨b, get?_of_drop hb, h b⟩

theorem later_put (h : ∀ a, R a a) (ha : t.get? i = some a) (hab : R a b) :
    t.Later R (t.put i b) where
  size_le := by simp
  exists_of_get? j c _ hc := by
    by_cases hij : i = j
    · subst hij
      rw [get?_put_self b (lt_size_of_get? ha)] at hc
      cases hc
      exact ⟨a, ha, hab⟩
    · rw [get?_put_of_ne t b hij] at hc
      exact ⟨c, hc, h c⟩

end Table

namespace Store

variable {s t u : Store} {request : Request} {requests : List Request} {reply : Reply} {i : Nat}
  {b c : Buffer}

/-- Nothing is taken back: an index is not used again, a list only grows at its end, and so does
the log. -/
structure Later (s t : Store) : Prop where
  buffers : s.buffers.Later (· = ·) t.buffers
  lists : s.lists.Later (· <+: ·) t.lists
  readings : s.readings.Later (· = ·) t.readings
  made_le : s.made ≤ t.made
  journal : s.journal <:+ t.journal

theorem Later.refl (s : Store) : s.Later s where
  buffers := .refl Eq.refl _
  lists := .refl List.prefix_refl _
  readings := .refl Eq.refl _
  made_le := Nat.le_refl _
  journal := List.suffix_refl _

theorem Later.trans (hst : s.Later t) (htu : t.Later u) : s.Later u where
  buffers := hst.buffers.trans (fun _ _ _ => Eq.trans) htu.buffers
  lists := hst.lists.trans (fun _ _ _ => List.IsPrefix.trans) htu.lists
  readings := hst.readings.trans (fun _ _ _ => Eq.trans) htu.readings
  made_le := Nat.le_trans hst.made_le htu.made_le
  journal := hst.journal.trans htu.journal

theorem Logged.later (h : s.Logged t) : s.Later t := by
  obtain ⟨records, rfl⟩ := h
  exact { Later.refl s with journal := List.suffix_append records s.journal }

theorem Change.later (h : s.Change request reply t) : s.Later t := by
  have hrefl := Later.refl s
  cases h with
  | kept => exact hrefl
  | madeBuffer =>
    exact { hrefl with buffers := Table.later_add Eq.refl _ _, made_le := Nat.le_succ _ }
  | clonedBuffer => exact { hrefl with buffers := Table.later_add Eq.refl _ _ }
  | sharedSource => exact { hrefl with buffers := Table.later_add Eq.refl _ _ }
  | droppedBuffer => exact { hrefl with buffers := Table.later_drop Eq.refl _ _ }
  | tokenized =>
    exact { hrefl with
      lists := Table.later_add List.prefix_refl _ _, journal := List.suffix_append _ _ }
  | madeList => exact { hrefl with lists := Table.later_add List.prefix_refl _ _ }
  | clonedList => exact { hrefl with lists := Table.later_add List.prefix_refl _ _ }
  | pushed htokens =>
    exact { hrefl with
      lists := Table.later_put List.prefix_refl htokens (List.prefix_append _ _) }
  | droppedList => exact { hrefl with lists := Table.later_drop List.prefix_refl _ _ }
  | takenList => exact { hrefl with lists := Table.later_drop List.prefix_refl _ _ }
  | read =>
    exact { hrefl with
      readings := Table.later_add Eq.refl _ _, journal := List.suffix_append _ _ }
  | droppedReading => exact { hrefl with readings := Table.later_drop Eq.refl _ _ }

theorem later_step (s : Store) (request : Request) : s.Later (s.step request).2 :=
  of_step (fun _ _ h => h.later) fun _ h => h.later

theorem later_run (s : Store) (requests : List Request) : s.Later (s.run requests).2 := by
  induction requests generalizing s with
  | nil => exact .refl s
  | cons request requests ih => exact (s.later_step request).trans (ih _)

theorem Change.get?_buffers (h : s.Change request reply t) (hb : s.buffers.get? i = some b)
    (hdrop : request ≠ .drop i) : t.buffers.get? i = some b := by
  have hne := Nat.ne_of_lt (Table.lt_size_of_get? hb)
  cases h with
  | madeBuffer => rw [Table.get?_add_of_ne _ hne, hb]
  | clonedBuffer => rw [Table.get?_add_of_ne _ hne, hb]
  | sharedSource => rw [Table.get?_add_of_ne _ hne, hb]
  | @droppedBuffer j =>
    have hij : j ≠ i := fun hij => hdrop (congrArg Request.drop hij)
    rw [Table.get?_drop, if_neg hij, hb]
  | _ => exact hb

theorem get?_buffers_step (hb : s.buffers.get? i = some b) (hdrop : request ≠ .drop i) :
    (s.step request).2.buffers.get? i = some b := by
  apply of_step (P := fun t => t.buffers.get? i = some b)
  · intro reply t hchange
    exact hchange.get?_buffers hb hdrop
  · rintro t ⟨records, rfl⟩
    exact hb

/-- A handle shows its buffer until it is dropped. -/
theorem get?_buffers_run (hb : s.buffers.get? i = some b) (hdrop : .drop i ∉ requests) :
    (s.run requests).2.buffers.get? i = some b := by
  induction requests generalizing s with
  | nil => exact hb
  | cons request requests ih =>
    obtain ⟨hrequest, hrequests⟩ := List.ne_and_not_mem_of_not_mem_cons hdrop
    exact ih (get?_buffers_step hb hrequest.symm) hrequests

/-- A handle shows the buffer, or a listed token is over it. -/
inductive Holds (s : Store) (b : Buffer) : Prop
  | handle {i : Nat} (h : s.buffers.get? i = some b)
  | listed {i : Nat} {tokens : List Token} {t : Token} (h : s.lists.get? i = some tokens)
    (ht : t ∈ tokens) (hsource : t.source = b)

theorem Logged.holds (h : s.Logged t) (hb : t.Holds b) : s.Holds b := by
  obtain ⟨records, rfl⟩ := h
  cases hb with
  | handle h => exact .handle h
  | listed h ht hsource => exact .listed h ht hsource

theorem Change.holds_of_handle (h : s.Change request reply t)
    (hb : t.buffers.get? i = some b) : s.Holds b ∨
      ∃ bytes, request = .new bytes ∧ b = .ofBytes s.made bytes ∧ t.made = s.made + 1 := by
  cases h with
  | madeBuffer bytes =>
    obtain hb | hb := Table.get?_or_eq_of_add hb
    · exact .inl (.handle hb)
    · exact .inr ⟨bytes, rfl, hb, rfl⟩
  | clonedBuffer hold =>
    obtain hb | rfl := Table.get?_or_eq_of_add hb
    · exact .inl (.handle hb)
    · exact .inl (.handle hold)
  | sharedSource hold ht =>
    obtain hb | rfl := Table.get?_or_eq_of_add hb
    · exact .inl (.handle hb)
    · exact .inl (.listed hold (List.mem_of_getElem? ht) rfl)
  | droppedBuffer => exact .inl (.handle (Table.get?_of_drop hb))
  | _ => exact .inl (.handle hb)

theorem Change.holds_of_listed {tokens : List Token} {token : Token}
    (h : s.Change request reply t) (hlist : t.lists.get? i = some tokens)
    (ht : token ∈ tokens) : s.Holds token.source := by
  cases h with
  | tokenized hold htokens =>
    obtain hlist | rfl := Table.get?_or_eq_of_add hlist
    · exact .listed hlist ht rfl
    · rw [Buffer.source_of_tokens htokens ht]
      exact .handle hold
  | madeList =>
    obtain hlist | rfl := Table.get?_or_eq_of_add hlist
    · exact .listed hlist ht rfl
    · cases ht
  | clonedList hold =>
    obtain hlist | rfl := Table.get?_or_eq_of_add hlist
    · exact .listed hlist ht rfl
    · exact .listed hold ht rfl
  | pushed hold hpushed hmake =>
    obtain hlist | rfl := Table.get?_or_eq_of_put (Table.lt_size_of_get? hold) hlist
    · exact .listed hlist ht rfl
    · obtain ht | ht := List.mem_append.1 ht
      · exact .listed hold ht rfl
      · rw [List.mem_singleton.1 ht, Token.source_of_make hmake]
        exact .handle hpushed
  | droppedList => exact .listed (Table.get?_of_drop hlist) ht rfl
  | takenList => exact .listed (Table.get?_of_drop hlist) ht rfl
  | _ => exact .listed hlist ht rfl

/-- A request brings in no buffer but a new one. -/
theorem Change.holds (h : s.Change request reply t) (hb : t.Holds b) : s.Holds b ∨
    ∃ bytes, request = .new bytes ∧ b = .ofBytes s.made bytes ∧ t.made = s.made + 1 := by
  cases hb with
  | handle hb => exact h.holds_of_handle hb
  | listed hlist ht hsource => exact .inl (hsource ▸ h.holds_of_listed hlist ht)

/-- Two buffers of one number are one buffer. -/
structure Sound (s : Store) : Prop where
  id_lt : ∀ ⦃b⦄, s.Holds b → b.id < s.made
  eq_of_id_eq : ∀ ⦃b c⦄, s.Holds b → s.Holds c → b.id = c.id → b = c

theorem sound_empty : empty.Sound := by
  have hnone : ∀ b, ¬empty.Holds b := by
    intro b hb
    cases hb with
    | handle h => cases h
    | listed h => cases h
  exact ⟨fun b hb => absurd hb (hnone b), fun b _ hb => absurd hb (hnone b)⟩

theorem Sound.of_logged (h : s.Sound) (hlogged : s.Logged t) : t.Sound where
  id_lt _ hb := Nat.lt_of_lt_of_le (h.id_lt (hlogged.holds hb)) hlogged.later.made_le
  eq_of_id_eq _ _ hb hc := h.eq_of_id_eq (hlogged.holds hb) (hlogged.holds hc)

theorem Sound.of_change (h : s.Sound) (hchange : s.Change request reply t) : t.Sound where
  id_lt b hb := by
    obtain hb | ⟨bytes, _, rfl, hmade⟩ := hchange.holds hb
    · exact Nat.lt_of_lt_of_le (h.id_lt hb) hchange.later.made_le
    · rw [hmade]
      exact Nat.lt_succ_self _
  eq_of_id_eq b c hb hc hid := by
    obtain hb | ⟨bytes, hrequest, rfl, _⟩ := hchange.holds hb
    · obtain hc | ⟨bytes, _, rfl, _⟩ := hchange.holds hc
      · exact h.eq_of_id_eq hb hc hid
      · exact absurd hid (Nat.ne_of_lt (h.id_lt hb))
    · obtain hc | ⟨others, hrequest', rfl, _⟩ := hchange.holds hc
      · exact absurd hid (Nat.ne_of_gt (h.id_lt hc))
      · rw [hrequest] at hrequest'
        cases hrequest'
        rfl

theorem Sound.step (h : s.Sound) (request : Request) : (s.step request).2.Sound :=
  of_step (fun _ _ hchange => h.of_change hchange) fun _ hlogged => h.of_logged hlogged

theorem Sound.run (h : s.Sound) (requests : List Request) : (s.run requests).2.Sound := by
  induction requests generalizing s with
  | nil => exact h
  | cons request requests ih => exact ih (h.step request)

theorem Sound.same_iff (h : s.Sound) (hb : s.Holds b) (hc : s.Holds c) :
    b.same c = true ↔ b = c := by
  rw [Buffer.same, beq_iff_eq]
  exact ⟨h.eq_of_id_eq hb hc, congrArg Buffer.id⟩

/-- After any requests, handles that show the same buffer show one buffer, byte for byte. -/
theorem same_iff_of_run (hb : (empty.run requests).2.Holds b)
    (hc : (empty.run requests).2.Holds c) : b.same c = true ↔ b = c :=
  (sound_empty.run requests).same_iff hb hc

end Store

end FrontEnd
