import MuStore.Errors

namespace MuStore

open Protocol Server

def Acknowledged (build : Build) (before : List Received) (d : Received) (key : Bytes) : Prop :=
  (deserialize d.command).type = .setFields ∧ (deserialize d.command).key = key ∧
    ∃ s replies s' sent, Server.empty.process build before = .ok (s, replies) ∧
      s.processCommand build d = .ok (s', sent) ∧ ¬Errs s d

def commandNames : List Bytes := [ascii "SET_FIELDS", ascii "GETALL", ascii "GET_FIELDS"]

def NamesKey (command : Bytes) : Prop :=
  (words isSpace command).headD [] ∈ commandNames ∧ 2 ≤ (words isSpace command).length

instance (command : Bytes) : Decidable (NamesKey command) := inferInstanceAs (Decidable (_ ∧ _))

theorem flatAfter_ne_none_iff {g : FlatMap} {msg : Request} {key f : Bytes} :
    flatAfter g msg key f ≠ none ↔
      (msg.type = .setFields ∧ msg.key = key ∧ msg.fields.lookup f ≠ none) ∨ g key f ≠ none := by
  by_cases ht : msg.type = .setFields
  · rw [flatAfter_of_setFields ht]
    by_cases hk : key = msg.key
    · subst hk
      rw [Function.update_self, ne_eq, Option.or_eq_none_iff, not_and_or]
      simp only [ht, ne_eq, true_and]
    · rw [Function.update_of_ne hk]
      simp only [Ne.symm hk, false_and, and_false, false_or]
  · rw [flatAfter_of_ne ht]
    simp only [ht, false_and, false_or]

theorem flatAfterAll_ne_none_iff {g : FlatMap} {l : List Received} {key f : Bytes} :
    flatAfterAll g l key f ≠ none ↔
      (∃ d ∈ l, (deserialize d.command).type = .setFields ∧ (deserialize d.command).key = key ∧
        (deserialize d.command).fields.lookup f ≠ none) ∨ g key f ≠ none := by
  induction l generalizing g with
  | nil => simp [flatAfterAll]
  | cons d l ih =>
    change flatAfterAll (flatAfter g (deserialize d.command)) l key f ≠ none ↔ _
    rw [ih, flatAfter_ne_none_iff, List.exists_mem_cons_iff, ← or_assoc]
    simp only [or_comm]

theorem exists_flat_ne_none_iff {build : Build} {history : List Received} {s : Server}
    {replies : List Sent} (hs : Server.empty.process build history = .ok (s, replies))
    (key : Bytes) :
    (∃ f, s.storage.view.flat key f ≠ none) ↔
      ∃ d ∈ history, (deserialize d.command).type = .setFields ∧
        (deserialize d.command).key = key ∧ (deserialize d.command).fields.size ≠ 0 := by
  rw [(spec_of_process hs).2]
  simp only [flatAfterAll_ne_none_iff, flat_empty, ne_eq, not_true_eq_false, or_false,
    UnorderedMap.size_eq_zero_iff, not_forall]
  constructor
  · rintro ⟨f, d, hd, ht, hk, hf⟩
    exact ⟨d, hd, ht, hk, f, hf⟩
  · rintro ⟨d, hd, ht, hk, f, hf⟩
    exact ⟨f, d, hd, ht, hk, hf⟩

theorem acknowledged_of_setFields (build : Build) (before : List Received) {d : Received}
    (ht : (deserialize d.command).type = .setFields) :
    Acknowledged build before d (deserialize d.command).key := by
  obtain ⟨s, replies, hrun, ho, -⟩ := process_spec build owned_storage_empty before
  obtain ⟨s', r, hcmd, -⟩ := processCommand_spec build ho d
  refine ⟨ht, rfl, s, replies, s', _, hrun, hcmd, ?_⟩
  rw [errs_iff ho, Fails, ht]
  exact not_false

/-- `GETALL` fails exactly when no `SET_FIELDS` of its key that was acknowledged
had a field to set. -/
theorem getAll_errs_iff {build : Build} {history : List Received} {s : Server}
    {replies : List Sent} (hs : Server.empty.process build history = .ok (s, replies))
    {c : Received} (ht : (deserialize c.command).type = .getAll) :
    Errs s c ↔ ¬∃ before d after, history = before ++ d :: after ∧
      Acknowledged build before d (deserialize c.command).key ∧
      (deserialize d.command).fields.size ≠ 0 := by
  obtain ⟨ho, -⟩ := spec_of_process hs
  have hfails : Errs s c ↔ ¬∃ f, s.storage.view.flat (deserialize c.command).key f ≠ none := by
    rw [errs_iff ho, Fails, ht]
    simp only [ne_eq, not_exists, not_not]
  rw [hfails, exists_flat_ne_none_iff hs]
  apply not_congr
  constructor
  · rintro ⟨d, hd, hset, hk, hsize⟩
    obtain ⟨before, after, rfl⟩ := List.append_of_mem hd
    exact ⟨before, d, after, rfl, hk ▸ acknowledged_of_setFields build before hset, hsize⟩
  · rintro ⟨before, d, after, rfl, ⟨hset, hk, -⟩, hsize⟩
    exact ⟨d, by simp, hset, hk, hsize⟩

theorem getAll_errs_iff_john : ∃ s replies, Server.empty.process .twoCopy john = .ok (s, replies) ∧
    (Errs s ⟨Choices.plain, 4, ascii "GETALL user123"⟩ ↔
      ¬∃ before d after, john = before ++ d :: after ∧
        Acknowledged .twoCopy before d (deserialize (ascii "GETALL user123")).key ∧
        (deserialize d.command).fields.size ≠ 0) := by
  obtain ⟨s, replies, hrun, -⟩ := process_lastWrite .twoCopy john
  exact ⟨s, replies, hrun, getAll_errs_iff hrun (by decide)⟩

/-- A key that is set without a field is acknowledged, and not there for `GETALL`. -/
theorem not_getAll_errs_iff_acknowledged :
    ¬∀ (build : Build) (history : List Received) (s : Server) (replies : List Sent) (c : Received),
      Server.empty.process build history = .ok (s, replies) →
      (deserialize c.command).type = .getAll → (deserialize c.command).key ≠ [] →
      (Errs s c ↔ ¬∃ before d after, history = before ++ d :: after ∧
        Acknowledged build before d (deserialize c.command).key) := by
  intro h
  let d : Received := ⟨Choices.plain, 4, ascii "SET_FIELDS user123"⟩
  let c : Received := ⟨Choices.plain, 4, ascii "GETALL user123"⟩
  obtain ⟨s, replies, hrun, ho, hlast⟩ := process_lastWrite .twoCopy [d]
  have ht : (deserialize c.command).type = .getAll := by decide
  have hset : (deserialize d.command).type = .setFields := by decide
  have hk : (deserialize d.command).key = (deserialize c.command).key := by decide
  have hacked : Acknowledged .twoCopy [] d (deserialize c.command).key := by
    rw [← hk]
    exact acknowledged_of_setFields .twoCopy [] hset
  have hiff := h .twoCopy [d] s replies c hrun ht (by decide)
  refine hiff.mp ?_ ⟨[], d, [], rfl, hacked⟩
  rw [errs_iff ho, Fails, ht]
  intro f
  rw [hlast]
  have hnone : [d.command].flatMap (writesTo (deserialize c.command).key) = [] := by decide
  rw [lastWrite, List.map_singleton, hnone]
  rfl

/-- Only `SET_FIELDS` changes the store. -/
theorem storage_of_processCommand {build : Build} {s s' : Server} {c : Received} {sent : Sent}
    (ht : (deserialize c.command).type ≠ .setFields)
    (hcmd : s.processCommand build c = .ok (s', sent)) : s'.storage = s.storage := by
  have hresp : ∃ r, respond c.choices s.storage (deserialize c.command) c.clientSocket =
      .ok (s.storage, r) := by
    unfold respond
    cases hm : (deserialize c.command).type with
    | setFields => exact absurd hm ht
    | invalid => exact ⟨_, rfl⟩
    | getAll => exact ⟨_, rfl⟩
    | getFields => exact ⟨_, rfl⟩
  obtain ⟨r, hr⟩ := hresp
  unfold processCommand at hcmd
  simp only [hr, Except.mapError, bind, Except.bind] at hcmd
  split at hcmd
  · cases hcmd
  · cases hcmd
    rfl

theorem fails_of_not_namesKey {g : FlatMap} {command : Bytes} (hc : ¬NamesKey command)
    (hg : ∀ f, g [] f = none) (ht : (deserialize command).type ≠ .setFields) :
    Fails g (deserialize command) := by
  have hargs : ∀ {name : Bytes} {args : List Bytes}, name ∈ commandNames →
      words isSpace command = name :: args → args = [] := by
    intro name args hname hw
    rw [NamesKey, hw, List.headD_cons, List.length_cons, not_and] at hc
    have hlt := hc hname
    exact List.length_eq_zero_iff.mp (by omega)
  rcases deserialize_cases command with ⟨args, hw⟩ | ⟨args, hw⟩ | ⟨args, hw⟩ | hd
  · rw [deserialize_setFields hw] at ht
    exact absurd rfl ht
  · rw [deserialize_getAll hw, hargs (by decide) hw, Fails]
    exact hg
  · rw [deserialize_getFields hw, hargs (by decide) hw, Fails]
    exact fun h => h.1 rfl
  · rw [hd, Fails]
    trivial

theorem type_eq_setFields_iff (command : Bytes) :
    (deserialize command).type = .setFields ↔
      (words isSpace command).head? = some (ascii "SET_FIELDS") := by
  rw [deserialize_eq]
  cases words isSpace command with
  | nil => simp [ofWords]
  | cons name args =>
    rw [List.head?_cons, Option.some.injEq]
    by_cases hset : name = ascii "SET_FIELDS"
    · rw [hset, ofWords_setFields]
      exact ⟨fun _ => rfl, fun _ => rfl⟩
    · have hne : (ofWords (name :: args)).type ≠ .setFields := by
        unfold ofWords
        simp only [if_neg hset]
        split_ifs <;> simp
      exact ⟨fun h => absurd h hne, fun h => absurd h hset⟩

/-- The empty key has no fields: a pair never stands where the key is missing. -/
theorem flat_nil_eq_none {build : Build} {history : List Received} {s : Server}
    {replies : List Sent} (hs : Server.empty.process build history = .ok (s, replies))
    (f : Bytes) : s.storage.view.flat [] f = none := by
  by_contra hf
  obtain ⟨d, -, -, hk, hsize⟩ := (exists_flat_ne_none_iff hs []).mp ⟨f, hf⟩
  rw [fields_of_key_eq_nil hk] at hsize
  exact hsize rfl

/-- A command that names no key leaves the store alone and is answered with an error
exactly when it is no `SET_FIELDS`, which sets the empty key. -/
theorem untouched_iff {build : Build} {history : List Received} {s : Server}
    {replies : List Sent} (hs : Server.empty.process build history = .ok (s, replies))
    {c : Received} (hc : ¬NamesKey c.command) :
    ∃ s' sent, s.processCommand build c = .ok (s', sent) ∧
      (s'.storage.view = s.storage.view ∧ Errs s c ↔
        (words isSpace c.command).head? ≠ some (ascii "SET_FIELDS")) := by
  obtain ⟨ho, -⟩ := spec_of_process hs
  obtain ⟨s', r, hcmd, -⟩ := processCommand_spec build ho c
  refine ⟨s', _, hcmd, ?_⟩
  rw [ne_eq, ← type_eq_setFields_iff, errs_iff ho]
  constructor
  · rintro ⟨-, hf⟩ ht
    rw [Fails, ht] at hf
    exact hf
  · intro ht
    exact ⟨by rw [storage_of_processCommand ht hcmd],
      fails_of_not_namesKey hc (flat_nil_eq_none hs) ht⟩

theorem untouched_iff_getAll : ∃ s replies, Server.empty.process .twoCopy john = .ok (s, replies) ∧
    ∃ s' sent, s.processCommand .twoCopy ⟨Choices.plain, 4, ascii " GETALL \n"⟩ = .ok (s', sent) ∧
      (s'.storage.view = s.storage.view ∧ Errs s ⟨Choices.plain, 4, ascii " GETALL \n"⟩ ↔
        (words isSpace (ascii " GETALL \n")).head? ≠ some (ascii "SET_FIELDS")) := by
  obtain ⟨s, replies, hrun, -⟩ := process_lastWrite .twoCopy john
  exact ⟨s, replies, hrun, untouched_iff hrun (by decide)⟩

/-- A lone `SET_FIELDS` is answered with success. -/
theorem not_untouched :
    ¬∀ (build : Build) (history : List Received) (s s' : Server) (replies : List Sent)
      (c : Received) (sent : Sent), Server.empty.process build history = .ok (s, replies) →
      ¬NamesKey c.command → s.processCommand build c = .ok (s', sent) →
      s'.storage.view = s.storage.view ∧ Errs s c := by
  intro h
  let c : Received := ⟨Choices.plain, 4, ascii "SET_FIELDS\n"⟩
  have herrs := (h .twoCopy [] _ _ _ c _ rfl (by decide) rfl).2
  have ht : (deserialize c.command).type = .setFields := by decide
  rw [errs_iff owned_storage_empty, Fails, ht] at herrs
  exact herrs

end MuStore
