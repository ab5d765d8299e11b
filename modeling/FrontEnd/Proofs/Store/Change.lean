import FrontEnd.Proofs.Lexeme.Longest
import FrontEnd.Store.Basic

namespace FrontEnd

theorem Buffer.source_of_tokens {source : Buffer} {tokens : List Token}
    (h : source.tokens = .ok tokens) {t : Token} (ht : t ∈ tokens) : t.source = source := by
  by_cases hfits : source.Fits
  · obtain ⟨s, hscan, _, hemitted⟩ := Lexeme.scan_fresh hfits
    simp only [Buffer.tokens, hscan] at h
    cases h
    exact (hemitted.placed t (List.mem_reverse.1 ht)).1
  · rw [tokens_of_not_fits hfits] at h
    cases h

theorem Token.source_of_make {kind : Kind} {span : Span} {position : Position} {source : Buffer}
    {t : Token} (h : make kind span position source = .ok t) : t.source = source := by
  unfold make at h
  split at h
  · cases h
    rfl
  · cases h

def Reply.isFault : Reply → Bool
  | .fault _ => true
  | _ => false

namespace Store

/-- What an answered request does to a store. -/
inductive Change (s : Store) : Request → Reply → Store → Prop
  | kept (request : Request) {reply : Reply} (h : reply.isFault = false) :
    Change s request reply s
  | madeBuffer (bytes : List UInt8) :
    Change s (.new bytes) (.number s.buffers.size)
      { s with buffers := s.buffers.add (.ofBytes s.made bytes), made := s.made + 1 }
  | clonedBuffer {index : Nat} {b : Buffer} (h : s.buffers.get? index = some b) :
    Change s (.clone index) (.number s.buffers.size) { s with buffers := s.buffers.add b }
  | sharedSource {ref : TokenRef} {tokens : List Token} {t : Token}
    (h : s.lists.get? ref.list = some tokens) (ht : tokens[ref.index]? = some t) :
    Change s (.tokenSource ref) (.number s.buffers.size)
      { s with buffers := s.buffers.add t.source }
  | droppedBuffer {index : Nat} {b : Buffer} (h : s.buffers.get? index = some b) :
    Change s (.drop index) .nothing { s with buffers := s.buffers.drop index }
  | tokenized {index : Nat} {b : Buffer} {tokens : List Token}
    (h : s.buffers.get? index = some b) (htokens : b.tokens = .ok tokens) :
    Change s (.tokenize index) (.number s.lists.size)
      { s with
        lists := s.lists.add tokens
        journal := (Record.ofTokens b tokens).reverse ++ s.journal }
  | madeList : Change s .newList (.number s.lists.size) { s with lists := s.lists.add [] }
  | clonedList {index : Nat} {tokens : List Token} (h : s.lists.get? index = some tokens) :
    Change s (.cloneList index) (.number s.lists.size) { s with lists := s.lists.add tokens }
  | pushed {index buffer : Nat} {tokens : List Token} {b : Buffer} {kind : Kind} {span : Span}
    {position : Position} {t : Token} (h : s.lists.get? index = some tokens)
    (hb : s.buffers.get? buffer = some b) (ht : Token.make kind span position b = .ok t) :
    Change s (.push index buffer kind span position) (.number (tokens.length + 1))
      { s with lists := s.lists.put index (tokens ++ [t]) }
  | droppedList {index : Nat} {tokens : List Token} (h : s.lists.get? index = some tokens) :
    Change s (.dropList index) .nothing { s with lists := s.lists.drop index }
  | takenList {index : Nat} {tokens : List Token} {texts : List String}
    (h : s.lists.get? index = some tokens) (htexts : Token.texts tokens = .ok texts) :
    Change s (.intoTexts index) (.texts texts) { s with lists := s.lists.drop index }
  | read {index : Nat} {tokens : List Token} {start : Start} {reading : Reading} {c : Cursor}
    {report : ReadingReport} (h : s.lists.get? index = some tokens)
    (hread : start.readAt (.ofTokens tokens) = (.ok reading, c))
    (hreport : reading.report = .ok report) :
    Change s (.read index start) (.reading report)
      { s with readings := s.readings.add reading, journal := c.journal ++ s.journal }
  | droppedReading {index : Nat} {reading : Reading} (h : s.readings.get? index = some reading) :
    Change s (.dropReading index) .nothing { s with readings := s.readings.drop index }

variable {α β : Type} {s : Store} {index : Nat} {request : Request} {reply : Reply}
  {answers : α → Store → Prop} {faults : Store → Prop}

/-- Nothing but the log has changed, and the log has only grown. -/
def Logged (s t : Store) : Prop := ∃ records, t = { s with journal := records ++ s.journal }

theorem Logged.refl (s : Store) : s.Logged s := ⟨[], rfl⟩

/-- What an action comes to, whether it answers or faults. -/
def Ends (action : Action α) (s : Store) (answers : α → Store → Prop) (faults : Store → Prop) :
    Prop :=
  match action s with
  | .ok a t => answers a t
  | .error _ t => faults t

theorem ends_lift_bind {result : Except Fault β} {next : β → Action α} (h : faults s)
    (hnext : ∀ b, result = .ok b → Ends (next b) s answers faults) :
    Ends (Fault.lift result >>= next) s answers faults := by
  cases result with
  | error fault => exact h
  | ok b => exact hnext b rfl

theorem ends_entry_bind {table : Store → Table β} {next : β → Action α} (h : faults s)
    (hnext : ∀ b, (table s).get? index = some b → Ends (next b) s answers faults) :
    Ends (entry table index >>= next) s answers faults := by
  rw [entry, bind_assoc, Ends, Fault.get_bind]
  cases hb : (table s).get? index with
  | none => exact h
  | some b => exact hnext b hb

theorem ends_token?_bind {ref : TokenRef} {next : Option Token → Action α} (h : faults s)
    (hnext : ∀ tokens, s.lists.get? ref.list = some tokens →
      Ends (next tokens[ref.index]?) s answers faults) :
    Ends (token? ref >>= next) s answers faults := by
  rw [token?, bind_assoc]
  exact ends_entry_bind h hnext

theorem ends_token_bind {ref : TokenRef} {next : Token → Action α} (h : faults s)
    (hnext : ∀ tokens, s.lists.get? ref.list = some tokens →
      ∀ t, tokens[ref.index]? = some t → Ends (next t) s answers faults) :
    Ends (token ref >>= next) s answers faults := by
  rw [token, bind_assoc]
  apply ends_token?_bind h
  intro tokens htokens
  cases ht : tokens[ref.index]? with
  | none => exact h
  | some t => exact hnext tokens htokens t ht

def Answers (result : Except Fault Reply) : Prop :=
  ∀ reply, result = .ok reply → reply.isFault = false

theorem answers_pure (h : reply.isFault = false) : Answers (pure reply) := by
  intro other hother
  cases hother
  exact h

theorem answers_map {result : Except Fault α} {f : α → Reply} (h : ∀ a, (f a).isFault = false) :
    Answers (f <$> result) := by
  intro other hother
  cases result with
  | error fault => cases hother
  | ok a =>
    cases hother
    exact h a

theorem Answers.ends {result : Except Fault Reply} (h : Answers result) :
    Ends (Fault.lift result) s (s.Change request) s.Logged := by
  cases result with
  | error fault => exact .refl s
  | ok reply => exact Change.kept request (h reply rfl)

theorem ends_ofBuffer {answer : Buffer → Except Fault Reply} (h : ∀ b, Answers (answer b)) :
    Ends (ofBuffer index answer) s (s.Change request) s.Logged :=
  ends_entry_bind (.refl s) fun b _ => (h b).ends

theorem ends_ofList {answer : List Token → Except Fault Reply} (h : ∀ ts, Answers (answer ts)) :
    Ends (ofList index answer) s (s.Change request) s.Logged :=
  ends_entry_bind (.refl s) fun ts _ => (h ts).ends

theorem ends_ofToken {ref : TokenRef} {answer : Token → Except Fault Reply}
    (h : ∀ t, Answers (answer t)) :
    Ends (ofToken ref answer) s (s.Change request) s.Logged :=
  ends_token_bind (.refl s) fun _ _ t _ => (h t).ends

theorem ends_read {tokens : List Token} (start : Start) (h : s.lists.get? index = some tokens) :
    Ends (read start tokens) s (s.Change (.read index start)) s.Logged := by
  cases hread : start.readAt (.ofTokens tokens) with
  | mk result c =>
    have hnoted : s.Logged { s with journal := c.journal.reverse.reverse ++ s.journal } := ⟨_, rfl⟩
    rw [read, hread]
    apply ends_lift_bind hnoted
    intro reading hreading
    apply ends_lift_bind hnoted
    intro report hreport
    subst hreading
    have hchange := Change.read h hread hreport
    rwa [← c.journal.reverse_reverse] at hchange

theorem ends_attempt (s : Store) (request : Request) :
    Ends (attempt request) s (s.Change request) s.Logged := by
  have hrefl := Logged.refl s
  cases request with
  | new bytes => exact Change.madeBuffer bytes
  | clone b => exact ends_entry_bind hrefl fun _ hb => Change.clonedBuffer hb
  | drop b => exact ends_entry_bind hrefl fun _ hb => Change.droppedBuffer hb
  | length b => exact ends_ofBuffer fun _ => answers_pure rfl
  | isEmpty b => exact ends_ofBuffer fun _ => answers_pure rfl
  | bytes b => exact ends_ofBuffer fun _ => answers_pure rfl
  | padded b => exact ends_ofBuffer fun _ => answers_pure rfl
  | byteAt b pos => exact ends_ofBuffer fun _ => answers_map fun _ => rfl
  | slice b start stop => exact ends_ofBuffer fun _ => answers_map fun _ => rfl
  | startsWithAt b pos needle => exact ends_ofBuffer fun _ => answers_pure rfl
  | findByte b start byte => exact ends_ofBuffer fun _ => answers_pure rfl
  | find b start needle => exact ends_ofBuffer fun _ => answers_pure rfl
  | shares b => exact ends_entry_bind hrefl fun _ _ => Change.kept _ rfl
  | same left right =>
    exact ends_entry_bind hrefl fun _ _ => ends_entry_bind hrefl fun _ _ => Change.kept _ rfl
  | describe b => exact ends_entry_bind hrefl fun _ _ => Change.kept _ rfl
  | tokenize b =>
    apply ends_entry_bind hrefl
    intro _ hb
    exact ends_lift_bind hrefl fun _ htokens => Change.tokenized hb htokens
  | newList => exact Change.madeList
  | cloneList l => exact ends_entry_bind hrefl fun _ htokens => Change.clonedList htokens
  | dropList l => exact ends_entry_bind hrefl fun _ htokens => Change.droppedList htokens
  | intoTexts l =>
    apply ends_entry_bind hrefl
    intro _ htokens
    exact ends_lift_bind hrefl fun _ htexts => Change.takenList htokens htexts
  | lengthOfList l => exact ends_ofList fun _ => answers_pure rfl
  | textsOfList l => exact ends_ofList fun _ => answers_map fun _ => rfl
  | describeList l => exact ends_ofList fun _ => answers_map fun _ => rfl
  | push l b kind span position =>
    apply ends_entry_bind hrefl
    intro _ htokens
    apply ends_entry_bind hrefl
    intro _ hb
    exact ends_lift_bind hrefl fun _ ht => Change.pushed htokens hb ht
  | get ref => exact ends_token?_bind hrefl fun _ _ => (answers_map fun _ => rfl).ends
  | tokenBytes ref => exact ends_ofToken fun _ => answers_map fun _ => rfl
  | describeToken ref => exact ends_ofToken fun _ => answers_map fun _ => rfl
  | isText ref text => exact ends_ofToken fun _ => answers_map fun _ => rfl
  | sameTokens left right =>
    apply ends_token_bind hrefl
    intro _ _ _ _
    exact ends_token_bind hrefl fun _ _ _ _ => Change.kept _ rfl
  | accepts ref p => exact ends_ofToken fun _ => answers_map fun _ => rfl
  | tokenShares ref => exact ends_token_bind hrefl fun _ _ _ _ => Change.kept _ rfl
  | tokenSource ref =>
    exact ends_token_bind hrefl fun _ htokens _ ht => Change.sharedSource htokens ht
  | read list start => exact ends_entry_bind hrefl fun _ htokens => ends_read start htokens
  | reading n => exact ends_entry_bind hrefl fun _ _ => (answers_map fun _ => rfl).ends
  | dropReading n =>
    exact ends_entry_bind hrefl fun _ hreading => Change.droppedReading hreading

theorem Change.isFault_eq {t : Store} (h : s.Change request reply t) : reply.isFault = false := by
  cases h with
  | kept _ h => exact h
  | _ => rfl

theorem step_cases (s : Store) (request : Request) :
    (∃ reply t, s.step request = (reply, t) ∧ s.Change request reply t) ∨
      ∃ fault t, s.step request = (.fault fault, t) ∧ s.Logged t := by
  have hends := ends_attempt s request
  unfold Ends at hends
  unfold step
  split at hends
  · next reply t hattempt =>
    rw [hattempt]
    exact .inl ⟨reply, t, rfl, hends⟩
  · next fault t hattempt =>
    obtain ⟨records, rfl⟩ := hends
    rw [hattempt]
    exact .inr ⟨fault, _, rfl, records, rfl⟩

theorem of_step {P : Store → Prop} (hchange : ∀ reply t, s.Change request reply t → P t)
    (hlogged : ∀ t, s.Logged t → P t) : P (s.step request).2 := by
  obtain ⟨reply, t, hstep, h⟩ | ⟨fault, t, hstep, h⟩ := s.step_cases request
  · rw [hstep]
    exact hchange reply t h
  · rw [hstep]
    exact hlogged t h

/-- A request that faults leaves all but the log as it was. -/
theorem logged_of_isFault (h : (s.step request).1.isFault = true) :
    s.Logged (s.step request).2 := by
  obtain ⟨reply, t, hstep, hchange⟩ | ⟨fault, t, hstep, hlogged⟩ := s.step_cases request
  · rw [hstep, hchange.isFault_eq] at h
    cases h
  · rw [hstep]
    exact hlogged

end Store

end FrontEnd
