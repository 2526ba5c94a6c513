import MuStore.SchemaMessages
import MuStore.Keys
import MuStore.Sessions

namespace MuStore

open Protocol Server

/-- The threads, and what each serialization came to. A dead pointer is recorded and
the other threads go on. -/
structure SchemaThreads where
  threads : Threads
  messages : List (ℤ × Except MemFault (List Bytes))

namespace SchemaThreads

def start : SchemaThreads := ⟨Threads.empty, []⟩

def finish (w : SchemaThreads) (clientSocket : ℤ) (message : Except MemFault (List Bytes)) :
    SchemaThreads where
  threads := { w.threads with phase := Function.update w.threads.phase clientSocket .idle }
  messages := w.messages ++ [(clientSocket, message)]

def turn (build : SchemaBuild) (w : SchemaThreads) (t : Turn) :
    Except SerializeError SchemaThreads :=
  match w.threads.phase t.clientSocket with
  | .responding _ r _ =>
    match build.serialize w.threads.storage.heap r with
    | .ok message => pure (w.finish t.clientSocket (.ok message))
    | .error (.memory e) => pure (w.finish t.clientSocket (.error e))
    -- nothing catches it
    | .error (.outOfRange f) => throw (.outOfRange f)
  | _ => do
    let threads ← (w.threads.turn t).mapError .memory
    pure { w with threads }

end SchemaThreads

def Response.HasSchema (r : Response) : Prop :=
  r.fields.size = 0 ∨ ∀ f ∈ schemaNames, f ∈ r.fields

section Found

variable {h : Heap Bytes} {r : Response} {f : Bytes}

theorem valueAt_eq_error {fields : UnorderedMap Bytes Addr} {e : SerializeError} (hf : f ∈ fields)
    (he : valueAt h fields f = .error e) : ∃ fault, e = .memory fault := by
  obtain ⟨a, ha⟩ := Option.isSome_iff_exists.mp (AList.lookup_isSome.mpr hf)
  rw [valueAt, fieldAt, ha] at he
  change (Heap.read h a).mapError SerializeError.memory = .error e at he
  cases hread : Heap.read h a with
  | error fault =>
    rw [hread] at he
    cases he
    exact ⟨fault, rfl⟩
  | ok v =>
    rw [hread] at he
    cases he

theorem mapM_schemaNames_eq_error (hr : ∀ f ∈ schemaNames, f ∈ r.fields)
    {g : Bytes → Except SerializeError Bytes} (k : Bytes → Bytes)
    (hg : ∀ f, g f = (valueAt h r.fields f).map k) {last : Bytes} {e : SerializeError}
    (he : (do let values ← schemaNames.mapM g; pure (values ++ [last])) =
      Except.error (α := List Bytes) e) : ∃ fault, e = .memory fault := by
  refine of_mapM_eq_error (P := fun e => ∃ fault, e = .memory fault) (g := g) (l := schemaNames) ?_
    ?_
  · intro f hf d hd
    rw [hg] at hd
    cases hat : valueAt h r.fields f with
    | error d' =>
      rw [hat] at hd
      cases hd
      exact valueAt_eq_error (hr f hf) hat
    | ok v =>
      rw [hat] at hd
      cases hd
  · cases hm : schemaNames.mapM g with
    | error d =>
      rw [hm] at he
      cases he
      rfl
    | ok values =>
      rw [hm] at he
      cases he

theorem serialize_eq_error {build : SchemaBuild} {e : SerializeError} (hr : r.HasSchema)
    (he : build.serialize h r = .error e) : ∃ fault, e = .memory fault := by
  rcases hr with hs | hr
  · rw [SchemaBuild.serialize_of_size_eq_zero build hs] at he
    cases he
  · have hs : r.fields.size ≠ 0 :=
      SchemaBuild.size_ne_zero_of_mem (hr (ascii "field1") (by decide))
    cases build with
    | protobuf =>
      rw [SchemaBuild.serialize, Protobuf.serialize, if_neg hs] at he
      exact mapM_schemaNames_eq_error hr id (fun f => by rw [Except.map_id, id]) he
    | flatBuffers =>
      rw [SchemaBuild.serialize, FlatBuffers.serialize] at he
      simp only [if_neg hs] at he
      exact mapM_schemaNames_eq_error hr id (fun f => by rw [Except.map_id, id]) he
    | muSer =>
      rw [SchemaBuild.serialize, MuSer.serialize, if_neg hs] at he
      exact mapM_schemaNames_eq_error hr cStr (fun f => rfl) he

theorem hasSchema_of_covered (hl : Live h r.fields)
    (hc : Covered (KVStore.pointees h r.fields)) : r.HasSchema := by
  rcases hc with hnone | hall
  · exact Or.inl ((size_eq_zero_iff_pointees hl).mpr hnone)
  · exact Or.inr fun f hf => (SchemaBuild.pointees_ne_none_iff hl).mp (hall f hf)

end Found

def requestedAfter (d msg : Request) : Bytes → Option Bytes :=
  requested (flatAfter (fun _ _ => none) d) msg

theorem requested_flatAfter_ne_none_iff {g : FlatMap} {d msg : Request} {f : Bytes} :
    requested (flatAfter g d) msg f ≠ none ↔
      requestedAfter d msg f ≠ none ∨ requested g msg f ≠ none := by
  have hflat : flatAfter g d msg.key f ≠ none ↔
      flatAfter (fun _ _ => none) d msg.key f ≠ none ∨ g msg.key f ≠ none := by
    rw [flatAfter_ne_none_iff, flatAfter_ne_none_iff]
    simp only [ne_eq, not_true_eq_false, or_false]
  unfold requestedAfter requested
  cases msg.type with
  | getAll => exact hflat
  | getFields =>
    simp only [NestedMap.select]
    split_ifs
    · exact hflat
    · simp
  | setFields => simp
  | invalid => simp

/-- Covered fields stay covered when covered ones are written over them. -/
theorem covered_requested_flatAfter {g : FlatMap} {d msg : Request}
    (hg : Covered (requested g msg)) (hd : Covered (requestedAfter d msg)) :
    Covered (requested (flatAfter g d) msg) := by
  rcases hd with hd | hd
  · rcases hg with hg | hg
    · left
      intro f
      by_contra hne
      rcases requested_flatAfter_ne_none_iff.mp hne with h | h
      · exact h (hd f)
      · exact h (hg f)
    · right
      intro f hf
      exact requested_flatAfter_ne_none_iff.mpr (Or.inr (hg f hf))
  · right
    intro f hf
    exact requested_flatAfter_ne_none_iff.mpr (Or.inl (hd f hf))

namespace SchemaThreads

/-- Every command reads covered fields after every other. -/
def Compatible (commands : Set Bytes) : Prop :=
  ∀ d ∈ commands, ∀ c ∈ commands, Covered (requestedAfter (deserialize d) (deserialize c))

/-- What every command would read is covered, and so is what pending responses hold. -/
structure Safe (commands : Set Bytes) (w : SchemaThreads) : Prop where
  consistent : w.threads.Consistent
  covered : ∀ c ∈ commands, Covered (requested w.threads.storage.view.flat (deserialize c))
  inserted : ∀ {c msg}, w.threads.phase c = .inserted msg → ∃ d ∈ commands, deserialize d = msg
  responding : ∀ {c msg r seen}, w.threads.phase c = .responding msg r seen → r.HasSchema

variable {commands : Set Bytes} {w : SchemaThreads}

theorem Safe.finish (hw : w.Safe commands) (clientSocket : ℤ)
    (message : Except MemFault (List Bytes)) : (w.finish clientSocket message).Safe commands where
  consistent := by
    refine ⟨hw.consistent.owned, ?_⟩
    intro c msg hph
    rcases Threads.phase_update hph with ⟨-, hp⟩ | hph
    · cases hp
    · exact hw.consistent.inserted hph
  covered := hw.covered
  inserted hph := by
    rcases Threads.phase_update hph with ⟨-, hp⟩ | hph
    · cases hp
    · exact hw.inserted hph
  responding hph := by
    rcases Threads.phase_update hph with ⟨-, hp⟩ | hph
    · cases hp
    · exact hw.responding hph

theorem Safe.commit (hw : w.Safe commands) (hcommands : Compatible commands) {t : Turn}
    {command : Bytes} (hcommand : command ∈ commands) {storage : Storage} {r : Response}
    (h : w.threads.Section t.clientSocket (deserialize command) storage r) :
    Safe commands { w with
      threads := w.threads.commit t.clientSocket (deserialize command) storage r } where
  consistent := (Threads.Turned.commit (t := t) h).consistent hw.consistent
  covered := by
    intro c hc
    change Covered (requested storage.view.flat (deserialize c))
    rw [h.flat]
    exact covered_requested_flatAfter (hw.covered c hc) (hcommands command hcommand c hc)
  inserted hph := by
    rcases Threads.phase_update hph with ⟨-, hp⟩ | hph
    · cases hp
    · exact hw.inserted hph
  responding hph := by
    rcases Threads.phase_update hph with ⟨-, hp⟩ | hph
    · cases hp
      have hcovered := hw.covered command hcommand
      rw [← h.answers.fields] at hcovered
      exact hasSchema_of_covered h.answers.live hcovered
    · exact hw.responding hph

theorem Safe.begin (hw : w.Safe commands) {t : Turn} (hcommand : t.command ∈ commands)
    (ht : (deserialize t.command).type = .setFields) :
    Safe commands { w with
      threads := w.threads.begin t.clientSocket (deserialize t.command) } where
  consistent := (Threads.Turned.begin ht).consistent hw.consistent
  covered := by
    obtain ⟨-, hflat, -⟩ := Storage.insert_spec hw.consistent.owned (deserialize t.command).key
    intro c hc
    change Covered (requested (w.threads.storage.insert _).view.flat (deserialize c))
    rw [hflat]
    exact hw.covered c hc
  inserted hph := by
    rcases Threads.phase_update hph with ⟨-, hp⟩ | hph
    · cases hp
      exact ⟨t.command, hcommand, rfl⟩
    · exact hw.inserted hph
  responding hph := by
    rcases Threads.phase_update hph with ⟨-, hp⟩ | hph
    · cases hp
    · exact hw.responding hph

theorem turn_of_phase {build : SchemaBuild} {t : Turn} {threads : Threads}
    (hph : w.threads.phase t.clientSocket = .idle ∨
      ∃ msg, w.threads.phase t.clientSocket = .inserted msg)
    (hturn : w.threads.turn t = .ok threads) :
    turn build w t = .ok { w with threads } := by
  unfold turn
  rcases hph with hidle | ⟨msg, hinserted⟩
  · rw [hidle, hturn]
    rfl
  · rw [hinserted, hturn]
    rfl

theorem turn_of_responding {build : SchemaBuild} {t : Turn} {msg : Request} {r : Response}
    {seen : Bytes → Option Bytes} (hph : w.threads.phase t.clientSocket = .responding msg r seen) :
    turn build w t = match build.serialize w.threads.storage.heap r with
      | .ok message => pure (w.finish t.clientSocket (.ok message))
      | .error (.memory e) => pure (w.finish t.clientSocket (.error e))
      | .error (.outOfRange f) => throw (.outOfRange f) := by
  unfold turn
  rw [hph]

/-- No command of a compatible set ends the server. -/
theorem Safe.exists_turn (hw : w.Safe commands) (hcommands : Compatible commands)
    (build : SchemaBuild) {t : Turn} (hcommand : t.command ∈ commands) :
    ∃ w', turn build w t = .ok w' ∧ w'.Safe commands := by
  obtain ⟨threads, hturn, htaken⟩ := Threads.taken_of_consistent hw.consistent t
  cases htaken with
  | begin hidle ht =>
    exact ⟨_, turn_of_phase (Or.inl hidle) hturn, hw.begin hcommand ht⟩
  | answer hidle hsec =>
    exact ⟨_, turn_of_phase (Or.inl hidle) hturn, hw.commit hcommands hcommand hsec⟩
  | finish hinserted hsec =>
    obtain ⟨d, hd, rfl⟩ := hw.inserted hinserted
    exact ⟨_, turn_of_phase (Or.inr ⟨_, hinserted⟩) hturn, hw.commit hcommands hd hsec⟩
  | @send msg r seen hph =>
    rw [turn_of_responding hph]
    cases hser : build.serialize w.threads.storage.heap r with
    | ok message => exact ⟨_, rfl, hw.finish t.clientSocket (.ok message)⟩
    | error e =>
      obtain ⟨fault, rfl⟩ := serialize_eq_error (hw.responding hph) hser
      exact ⟨_, rfl, hw.finish t.clientSocket (.error fault)⟩

theorem safe_start : Safe commands start where
  consistent := Threads.consistent_empty
  covered c _ := by
    left
    intro f
    by_contra hne
    obtain ⟨v, hv⟩ := Option.ne_none_iff_exists'.mp hne
    cases requested_eq_some hv
  inserted h := by cases h
  responding h := by cases h

theorem exists_run_of_compatible (build : SchemaBuild) (hcommands : Compatible commands)
    {l : List Turn} (hl : ∀ t ∈ l, t.command ∈ commands) :
    ∃ w, l.foldlM (turn build) start = .ok w := by
  obtain ⟨w, hrun, -⟩ := (throughout_of_forall hl start).exists_run
    (fun w t hw ht => Safe.exists_turn hw hcommands build ht) safe_start
  exact ⟨w, hrun⟩

theorem read_ne_ok {build : SchemaBuild} (hw : w.threads.Consistent) {t : Turn}
    (hidle : w.threads.phase t.clientSocket = .idle)
    (ht : (deserialize t.command).type ≠ .setFields)
    (hcovered : ¬Covered (requested w.threads.storage.view.flat (deserialize t.command)))
    (w' : SchemaThreads) : [t, t].foldlM (turn build) w ≠ .ok w' := by
  obtain ⟨storage, r, hr, -, -, ha⟩ :=
    respond_spec t.choices hw.owned (deserialize t.command) t.clientSocket
  have hread : turn build w t = .ok { w with
      threads := w.threads.commit t.clientSocket (deserialize t.command) storage r } :=
    turn_of_phase (Or.inl hidle) (Threads.turn_of_read hidle ht hr)
  rw [← ha.fields] at hcovered
  obtain ⟨f, -, hthrow⟩ := (build.serialize_spec ha.live).2 hcovered
  intro hrun
  rw [run_cons hread] at hrun
  obtain ⟨w₁, hturn, -⟩ := bind_eq_ok.mp hrun
  have hph : (w.threads.commit t.clientSocket (deserialize t.command) storage r).phase
      t.clientSocket = .responding (deserialize t.command) r
        (KVStore.pointees storage.heap r.fields) := Function.update_self ..
  rw [turn_of_responding hph] at hturn
  change (match build.serialize storage.heap r with
    | .ok message => _
    | .error (.memory e) => _
    | .error (.outOfRange f) => _) = _ at hturn
  rw [hthrow] at hturn
  cases hturn

theorem exists_written (build : SchemaBuild) {t : Turn}
    (ht : (deserialize t.command).type = .setFields) :
    ∃ w, [t, t].foldlM (turn build) start = .ok w ∧ w.threads.Consistent ∧
      (∀ c, c ≠ t.clientSocket → w.threads.phase c = .idle) ∧
      w.threads.storage.view.flat = flatAfter (fun _ _ => none) (deserialize t.command) := by
  have hbegin : start.threads.turn t =
      .ok (start.threads.begin t.clientSocket (deserialize t.command)) := by
    simp only [Threads.turn, start, Threads.empty, ht]
    rfl
  have hw₁ : (start.threads.begin t.clientSocket (deserialize t.command)).Consistent :=
    (Threads.Turned.begin ht).consistent Threads.consistent_empty
  have hph : (start.threads.begin t.clientSocket (deserialize t.command)).phase t.clientSocket =
      .inserted (deserialize t.command) := Function.update_self ..
  obtain ⟨storage, hset, hsec⟩ := Threads.section_setFields t.choices hw₁ hph
  have hcommit : (start.threads.begin t.clientSocket (deserialize t.command)).turn t =
      .ok ((start.threads.begin t.clientSocket (deserialize t.command)).commit t.clientSocket
        (deserialize t.command) storage
        (setFieldsResponse (deserialize t.command) true t.clientSocket)) := by
    rw [Threads.turn, hph]
    simp only [hset]
    rfl
  have hfirst : turn build start t = .ok { start with
      threads := start.threads.begin t.clientSocket (deserialize t.command) } :=
    turn_of_phase (Or.inl rfl) hbegin
  refine ⟨{ start with threads := _ }, ?_, (Threads.Turned.commit hsec).consistent hw₁, ?_, ?_⟩
  · rw [run_cons hfirst, run_cons (turn_of_phase (Or.inr ⟨_, hph⟩) hcommit)]
    rfl
  · intro c hc
    change Function.update (Function.update _ _ _) _ _ c = _
    rw [Function.update_of_ne hc, Function.update_of_ne hc]
    rfl
  · obtain ⟨-, hflat, -⟩ := Storage.insert_spec Storage.owned_empty (deserialize t.command).key
    change storage.view.flat = _
    rw [hsec.flat]
    change flatAfter (Storage.empty.insert _).view.flat _ = _
    rw [hflat]
    rfl

def writer (d : Bytes) : Turn := ⟨Choices.plain, 4, d⟩

def reader (c : Bytes) : Turn := ⟨Choices.plain, 5, c⟩

def writeThenRead (d c : Bytes) : List Turn := [writer d, writer d] ++ [reader c, reader c]

theorem command_of_mem_writeThenRead {d c : Bytes} {t : Turn} (h : t ∈ writeThenRead d c) :
    t.command = d ∨ t.command = c := by
  rcases List.mem_append.mp h with h | h
  · rcases List.mem_pair.mp h with rfl | rfl
    · exact Or.inl rfl
    · exact Or.inl rfl
  · rcases List.mem_pair.mp h with rfl | rfl
    · exact Or.inr rfl
    · exact Or.inr rfl

/-- What is not covered ends the server. -/
theorem writeThenRead_ne_ok {build : SchemaBuild} {d c : Bytes}
    (h : ¬Covered (requestedAfter (deserialize d) (deserialize c))) (w : SchemaThreads) :
    (writeThenRead d c).foldlM (turn build) start ≠ .ok w := by
  have hd : (deserialize d).type = .setFields := by
    by_contra hne
    apply h
    left
    intro f
    rw [requestedAfter, flatAfter_of_ne hne]
    by_contra hsome
    obtain ⟨v, hv⟩ := Option.ne_none_iff_exists'.mp hsome
    cases requested_eq_some hv
  have hc : (deserialize c).type ≠ .setFields := by
    intro ht
    apply h
    left
    intro f
    rw [requestedAfter, requested, ht]
  obtain ⟨w₁, hrun, hw₁, hidle, hflat⟩ := exists_written build (t := writer d) hd
  rw [writeThenRead, List.foldlM_append, hrun]
  refine read_ne_ok hw₁ (hidle 5 (show (5 : ℤ) ≠ 4 by decide)) hc ?_ w
  rw [hflat]
  exact h

/-- Clients whose commands are among some cannot end the server, in whatever way their
threads interleave, exactly when no one of the commands reads what another has written
and finds some of the schema's fields only. -/
theorem never_ends_iff (build : SchemaBuild) (commands : Set Bytes) :
    (∀ l : List Turn, (∀ t ∈ l, t.command ∈ commands) →
        ∃ w, l.foldlM (turn build) start = .ok w) ↔ Compatible commands := by
  constructor
  · intro h d hd c hc
    by_contra hcovered
    have hmem : ∀ t ∈ writeThenRead d c, t.command ∈ commands := by
      intro t ht
      rcases command_of_mem_writeThenRead ht with h | h
      · rw [h]
        exact hd
      · rw [h]
        exact hc
    obtain ⟨w, hrun⟩ := h (writeThenRead d c) hmem
    exact writeThenRead_ne_ok hcovered w hrun
  · intro hcommands l hl
    exact exists_run_of_compatible build hcommands hl

end SchemaThreads

end MuStore
