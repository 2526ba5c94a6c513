import MuStore.Errors
import MuStore.Library.Runs

namespace MuStore

open Protocol Server

/-- The fields of the schema in the order in which they are fetched. -/
def schemaNames : List Bytes :=
  [ascii "field1", ascii "field2", ascii "field3", ascii "field4", ascii "field5",
    ascii "field6", ascii "field7", ascii "field8", ascii "field9", ascii "field0"]

def valueAt (h : Heap Bytes) (fields : UnorderedMap Bytes Addr) (field : Bytes) :
    Except SerializeError Bytes := do
  let a ← fieldAt fields field
  readString h a

/-- The strings set as `a` to `k`. -/
def Protobuf.serialize (h : Heap Bytes) (msg : Response) : Except SerializeError (List Bytes) :=
  if msg.fields.size = 0 then pure (schemaNames.map (fun _ => []) ++ [msg.key ++ [newline]])
  else do
    let values ← schemaNames.mapM (valueAt h msg.fields)
    pure (values ++ [msg.key])

/-- The strings passed to `CreatePerson`. -/
def FlatBuffers.serialize (h : Heap Bytes) (msg : Response) :
    Except SerializeError (List Bytes) := do
  let values ← schemaNames.mapM fun field =>
    if msg.fields.size = 0 then pure [] else valueAt h msg.fields field
  pure (values ++ [msg.key ++ [newline]])

/-- The strings passed to `set_field1` to `set_field11`. -/
def MuSer.serialize (h : Heap Bytes) (msg : Response) : Except SerializeError (List Bytes) :=
  if msg.fields.size = 0 then pure (schemaNames.map (fun _ => []) ++ [msg.key ++ [newline]])
  else do
    let values ← schemaNames.mapM fun field => do
      let value ← valueAt h msg.fields field
      pure (cStr value)
    pure (values ++ [msg.key ++ [newline]])

inductive SchemaBuild where
  | protobuf
  | flatBuffers
  | muSer
  deriving DecidableEq, Repr

namespace SchemaBuild

def serialize : SchemaBuild → Heap Bytes → Response → Except SerializeError (List Bytes)
  | .protobuf => Protobuf.serialize
  | .flatBuffers => FlatBuffers.serialize
  | .muSer => MuSer.serialize

/-- `Server::processCommand`. An exception of the serializer leaves the thread. -/
def processCommand (build : SchemaBuild) (s : Storage) (r : Received) :
    Except SerializeError (Storage × List Bytes) := do
  let (s, response) ←
    (respond r.choices s (Protocol.deserialize r.command) r.clientSocket).mapError .memory
  let message ← build.serialize s.heap response
  pure (s, message)

def process (build : SchemaBuild) (s : Storage) :
    List Received → Except SerializeError (Storage × List (List Bytes))
  | [] => pure (s, [])
  | r :: rest => do
    let (s, message) ← build.processCommand s r
    let (s, messages) ← build.process s rest
    pure (s, message :: messages)

/-- What a slot gets of a value: `MuSer` hands over a C string. -/
def slot : SchemaBuild → Bytes → Bytes
  | .muSer, value => cStr value
  | _, value => value

def keySlot : SchemaBuild → Bytes → Bytes
  | .protobuf, key => key
  | _, key => key ++ [newline]

def message (build : SchemaBuild) (fields : Bytes → Option Bytes) (key : Bytes) : List Bytes :=
  schemaNames.map (fun f => build.slot ((fields f).getD [])) ++ [build.keySlot key]

def emptyMessage (key : Bytes) : List Bytes :=
  schemaNames.map (fun _ => []) ++ [key ++ [newline]]

end SchemaBuild

/-- No field at all, or all fields of the schema. -/
def Covered (fields : Bytes → Option Bytes) : Prop :=
  (∀ f, fields f = none) ∨ ∀ f ∈ schemaNames, fields f ≠ none

section Response

variable {h : Heap Bytes} {msg : Response}

theorem valueAt_of_pointees {fields : UnorderedMap Bytes Addr} (hl : Live h fields) (f : Bytes) :
    (∃ v, KVStore.pointees h fields f = some v ∧ valueAt h fields f = .ok v) ∨
      KVStore.pointees h fields f = none ∧ valueAt h fields f = .error (.outOfRange f) := by
  cases hf : fields.lookup f with
  | none =>
    refine Or.inr ⟨by rw [KVStore.pointees, hf]; rfl, ?_⟩
    rw [valueAt, fieldAt, hf]
    rfl
  | some a =>
    obtain ⟨v, hv⟩ := Finmap.mem_iff.mp (hl f a hf)
    refine Or.inl ⟨v, by rw [KVStore.pointees, hf]; exact hv, ?_⟩
    rw [valueAt, fieldAt, hf]
    exact readString_of_lookup hv

theorem size_eq_zero_iff_pointees {fields : UnorderedMap Bytes Addr} (hl : Live h fields) :
    fields.size = 0 ↔ ∀ f, KVStore.pointees h fields f = none := by
  have hen := IterOrder.stored.enumerates_deref hl
  rw [← hen.eq_nil_iff, ← List.length_eq_zero_iff, IterOrder.length_deref]

namespace SchemaBuild

theorem serialize_of_size_eq_zero (build : SchemaBuild) (hs : msg.fields.size = 0) :
    build.serialize h msg = .ok (emptyMessage msg.key) := by
  cases build with
  | protobuf =>
    rw [serialize, Protobuf.serialize, if_pos hs]
    rfl
  | flatBuffers =>
    have hvalues : schemaNames.mapM (fun field =>
        if msg.fields.size = 0 then (pure [] : Except SerializeError Bytes)
        else valueAt h msg.fields field) = .ok (schemaNames.map fun _ => []) :=
      mapM_eq_ok_map fun f _ => by rw [if_pos hs]; rfl
    rw [serialize, FlatBuffers.serialize, hvalues]
    rfl
  | muSer =>
    rw [serialize, MuSer.serialize, if_pos hs]
    rfl

theorem serialize_of_covers (build : SchemaBuild) (hl : Live h msg.fields)
    (hs : msg.fields.size ≠ 0) (hc : ∀ f ∈ schemaNames, KVStore.pointees h msg.fields f ≠ none) :
    build.serialize h msg = .ok (build.message (KVStore.pointees h msg.fields) msg.key) := by
  have hvalue : ∀ f ∈ schemaNames,
      valueAt h msg.fields f = .ok ((KVStore.pointees h msg.fields f).getD []) := by
    intro f hf
    rcases valueAt_of_pointees hl f with ⟨v, hv, hat⟩ | ⟨hv, -⟩
    · rw [hat, hv]
      rfl
    · exact absurd hv (hc f hf)
  cases build with
  | protobuf =>
    rw [serialize, Protobuf.serialize, if_neg hs, mapM_eq_ok_map hvalue]
    rfl
  | flatBuffers =>
    rw [serialize, FlatBuffers.serialize]
    simp only [if_neg hs]
    rw [mapM_eq_ok_map hvalue]
    rfl
  | muSer =>
    have hslot : ∀ f ∈ schemaNames,
        (do let value ← valueAt h msg.fields f; pure (cStr value)) =
          (Except.ok (cStr ((KVStore.pointees h msg.fields f).getD [])) :
            Except SerializeError Bytes) := by
      intro f hf
      rw [hvalue f hf]
      rfl
    rw [serialize, MuSer.serialize, if_neg hs, mapM_eq_ok_map hslot]
    rfl

end SchemaBuild

theorem exists_mapM_schemaNames_error (hl : Live h msg.fields)
    {g : Bytes → Except SerializeError Bytes} (k : Bytes → Bytes)
    (hg : ∀ f, g f = (valueAt h msg.fields f).map k) {last : Bytes}
    (hmissing : ∃ f ∈ schemaNames, KVStore.pointees h msg.fields f = none) :
    ∃ f ∈ schemaNames, (do let values ← schemaNames.mapM g; pure (values ++ [last])) =
      Except.error (α := List Bytes) (SerializeError.outOfRange f) := by
  have hcases : ∀ f, (∃ y, g f = .ok y) ∨ g f = .error (.outOfRange f) := by
    intro f
    rw [hg]
    rcases valueAt_of_pointees hl f with ⟨v, -, hat⟩ | ⟨-, hat⟩
    · exact Or.inl ⟨k v, by rw [hat]; rfl⟩
    · exact Or.inr (by rw [hat]; rfl)
  have hbad : ∃ f ∈ schemaNames, g f = .error (.outOfRange f) := by
    obtain ⟨f, hf, hnone⟩ := hmissing
    refine ⟨f, hf, ?_⟩
    rcases valueAt_of_pointees hl f with ⟨v, hv, -⟩ | ⟨-, hat⟩
    · rw [hnone] at hv
      cases hv
    · rw [hg, hat]
      rfl
  obtain ⟨f, hf, he⟩ := exists_mapM_error (fun f _ => hcases f) hbad
  exact ⟨f, hf, by rw [he]; rfl⟩

/-- A response is serialized exactly when it has no field or all of the schema's;
otherwise `at` throws. -/
theorem SchemaBuild.serialize_spec (build : SchemaBuild) (hl : Live h msg.fields) :
    (Covered (KVStore.pointees h msg.fields) → ∃ message, build.serialize h msg = .ok message) ∧
      (¬Covered (KVStore.pointees h msg.fields) →
        ∃ f ∈ schemaNames, build.serialize h msg = .error (.outOfRange f)) := by
  by_cases hs : msg.fields.size = 0
  · have hcov : Covered (KVStore.pointees h msg.fields) :=
      Or.inl ((size_eq_zero_iff_pointees hl).mp hs)
    exact ⟨fun _ => ⟨_, build.serialize_of_size_eq_zero hs⟩, fun hn => absurd hcov hn⟩
  · have hcov : Covered (KVStore.pointees h msg.fields) ↔
        ∀ f ∈ schemaNames, KVStore.pointees h msg.fields f ≠ none := by
      rw [Covered, ← size_eq_zero_iff_pointees hl]
      simp only [hs, false_or]
    rw [hcov]
    refine ⟨fun hall => ⟨_, build.serialize_of_covers hl hs hall⟩, fun hmissing => ?_⟩
    push Not at hmissing
    cases build with
    | protobuf =>
      rw [serialize, Protobuf.serialize, if_neg hs]
      exact exists_mapM_schemaNames_error hl id (fun f => by rw [Except.map_id, id]) hmissing
    | flatBuffers =>
      rw [serialize, FlatBuffers.serialize]
      simp only [if_neg hs]
      exact exists_mapM_schemaNames_error hl id (fun f => by rw [Except.map_id, id]) hmissing
    | muSer =>
      rw [serialize, MuSer.serialize, if_neg hs]
      exact exists_mapM_schemaNames_error hl cStr (fun f => rfl) hmissing

end Response

namespace SchemaBuild

variable {s : Storage}

/-- A command is answered exactly when what it asks for is covered. -/
theorem processCommand_spec (build : SchemaBuild) (ho : s.Owned) (c : Received) :
    (Covered (requested s.view.flat (deserialize c.command)) →
        ∃ s' message, build.processCommand s c = .ok (s', message) ∧ s'.Owned ∧
          s'.view.flat = flatAfter s.view.flat (deserialize c.command)) ∧
      (¬Covered (requested s.view.flat (deserialize c.command)) →
        ∃ f ∈ schemaNames, build.processCommand s c = .error (.outOfRange f)) := by
  obtain ⟨s', r, hr, ho', hflat, ha⟩ :=
    respond_spec c.choices ho (deserialize c.command) c.clientSocket
  have hspec := build.serialize_spec ha.live
  rw [ha.fields] at hspec
  unfold processCommand
  rw [hr]
  constructor
  · intro hcov
    obtain ⟨message, hm⟩ := hspec.1 hcov
    refine ⟨s', message, ?_, ho', hflat⟩
    simp only [Except.mapError, bind, Except.bind, hm]
    rfl
  · intro hcov
    obtain ⟨f, hf, hm⟩ := hspec.2 hcov
    refine ⟨f, hf, ?_⟩
    simp only [Except.mapError, bind, Except.bind, hm]

/-- Each command of a sequence asks for covered fields, given what those before it
have left. -/
def CoveredRun (g : FlatMap) (l : List Received) : Prop :=
  ∀ l₁ c l₂, l = l₁ ++ c :: l₂ → Covered (requested (flatAfterAll g l₁) (deserialize c.command))

theorem coveredRun_cons {g : FlatMap} {c : Received} {l : List Received} :
    CoveredRun g (c :: l) ↔
      Covered (requested g (deserialize c.command)) ∧
        CoveredRun (flatAfter g (deserialize c.command)) l := by
  constructor
  · intro h
    refine ⟨h [] c l rfl, ?_⟩
    intro l₁ d l₂ hl
    exact h (c :: l₁) d l₂ (by rw [hl]; rfl)
  · rintro ⟨hc, hl⟩ l₁ d l₂ heq
    cases l₁ with
    | nil =>
      obtain ⟨rfl, rfl⟩ := List.cons.inj heq
      exact hc
    | cons e l₁ =>
      obtain ⟨rfl, rfl⟩ := List.cons.inj heq
      exact hl l₁ d l₂ rfl

theorem process_spec (build : SchemaBuild) (ho : s.Owned) (l : List Received) :
    (CoveredRun s.view.flat l → ∃ s' messages, build.process s l = .ok (s', messages)) ∧
      (¬CoveredRun s.view.flat l →
        ∃ f ∈ schemaNames, build.process s l = .error (.outOfRange f)) := by
  induction l generalizing s with
  | nil =>
    refine ⟨fun _ => ⟨s, [], rfl⟩, fun h => absurd ?_ h⟩
    intro l₁ c l₂ hl
    simp at hl
  | cons c l ih =>
    obtain ⟨hok, hbad⟩ := build.processCommand_spec ho c
    rw [coveredRun_cons]
    by_cases hc : Covered (requested s.view.flat (deserialize c.command))
    · obtain ⟨s', message, hcmd, ho', hflat⟩ := hok hc
      obtain ⟨hok', hbad'⟩ := ih ho'
      rw [hflat] at hok' hbad'
      simp only [hc, true_and]
      constructor
      · intro hl
        obtain ⟨s'', messages, hrest⟩ := hok' hl
        refine ⟨s'', message :: messages, ?_⟩
        simp only [process, hcmd, bind, Except.bind, hrest]
        rfl
      · intro hl
        obtain ⟨f, hf, hrest⟩ := hbad' hl
        exact ⟨f, hf, by simp only [process, hcmd, bind, Except.bind, hrest]⟩
    · obtain ⟨f, hf, hcmd⟩ := hbad hc
      simp only [hc, false_and, false_implies, not_false_eq_true, true_implies, true_and]
      exact ⟨f, hf, by simp only [process, hcmd, bind, Except.bind]⟩

/-- Each command asks for nothing that its key has, or for all fields of the schema. -/
def CoveredHistory (l : List Received) : Prop :=
  ∀ l₁ c l₂, l = l₁ ++ c :: l₂ →
    Covered (requested (lastWrite (l₁.map Received.command)) (deserialize c.command))

/-- From the empty store the commands are all answered exactly when each finds no
field or all of the schema's, and otherwise an exception of `at` ends the server. -/
theorem process_ok_iff_coveredHistory (build : SchemaBuild) (l : List Received) :
    ((∃ s messages, build.process Storage.empty l = .ok (s, messages)) ↔ CoveredHistory l) ∧
      ((∃ f, build.process Storage.empty l = .error (.outOfRange f)) ↔ ¬CoveredHistory l) := by
  have hrun : CoveredRun Storage.empty.view.flat l ↔ CoveredHistory l := by
    simp only [CoveredRun, CoveredHistory, flatAfterAll_empty]
  obtain ⟨hok, hbad⟩ := build.process_spec Storage.owned_empty l
  rw [hrun] at hok hbad
  by_cases hc : CoveredHistory l
  · obtain ⟨s, messages, hs⟩ := hok hc
    refine ⟨⟨fun _ => hc, fun _ => ⟨s, messages, hs⟩⟩, ⟨?_, fun h => absurd hc h⟩⟩
    rintro ⟨f, hf⟩
    rw [hs] at hf
    cases hf
  · obtain ⟨f, -, hf⟩ := hbad hc
    refine ⟨⟨?_, fun h => absurd h hc⟩, ⟨fun _ => hc, fun _ => ⟨f, hf⟩⟩⟩
    rintro ⟨s, messages, hs⟩
    rw [hf] at hs
    cases hs

/-- Two commands like those of the README end every one of these servers. -/
theorem not_process_never_throws :
    ¬∀ (build : SchemaBuild) (l : List Received) (f : Bytes),
      build.process Storage.empty l ≠ .error (.outOfRange f) := by
  intro h
  exact h .protobuf [⟨Choices.plain, 4, ascii "SET_FIELDS user123 name=\"John\""⟩,
    ⟨Choices.plain, 4, ascii "GETALL user123"⟩] (ascii "field1") rfl

end SchemaBuild

end MuStore
