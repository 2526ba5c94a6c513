import MuStore.Server
import MuStore.Library.Runs

namespace MuStore

open Protocol Server

/-- Where a thread stands in `processCommand`. `seen` is what the response's
pointers led to when the locked section returned; no turn reads it. -/
inductive Phase where
  | idle
  | inserted (msg : Request)
  | responding (msg : Request) (response : Response) (seen : Bytes → Option Bytes)

/-- What a request returns: whether it is an error, and the fields with their
values at the moment of its last locked section. -/
structure Outcome where
  error : Bool
  fields : Bytes → Option Bytes

def Response.outcome (h : Heap Bytes) (r : Response) : Outcome :=
  ⟨r.type == .response, KVStore.pointees h r.fields⟩

structure Commit where
  clientSocket : ℤ
  msg : Request
  outcome : Outcome

/-- The store and the threads. `log` lists the requests in the order of their
last locked sections and `sent` what each serialization came to; no turn reads
either. -/
structure Threads where
  storage : Storage
  phase : ℤ → Phase
  log : List Commit
  sent : List (ℤ × Except SerializeError Bytes)

structure Turn where
  choices : Choices
  clientSocket : ℤ
  command : Bytes

namespace Threads

def empty : Threads := ⟨Storage.empty, fun _ => .idle, [], []⟩

def begin (w : Threads) (clientSocket : ℤ) (msg : Request) : Threads :=
  { w with
    storage := w.storage.insert msg.key
    phase := Function.update w.phase clientSocket (.inserted msg) }

def commit (w : Threads) (clientSocket : ℤ) (msg : Request) (storage : Storage) (r : Response) :
    Threads :=
  { w with
    storage := storage
    phase := Function.update w.phase clientSocket
      (.responding msg r (KVStore.pointees storage.heap r.fields))
    log := w.log ++ [⟨clientSocket, msg, r.outcome storage.heap⟩] }

/-- `serializeAndSend` in the two-copy build. A dead pointer is recorded and the
other threads go on. -/
def send (w : Threads) (o : IterOrder Bytes Addr) (clientSocket : ℤ) (r : Response) : Threads :=
  { w with
    phase := Function.update w.phase clientSocket .idle
    sent := w.sent ++ [(clientSocket, TwoCopySerializer.serialize o w.storage.heap r)] }

/-- One turn of a thread in `processCommand`. A method of the store holds its mutex for
its whole body and is a turn; serializing the response is one without the lock. -/
def turn (w : Threads) (t : Turn) : Except MemFault Threads :=
  match w.phase t.clientSocket with
  | .idle =>
    let msg := deserialize t.command
    match msg.type with
    | .invalid => pure (w.commit t.clientSocket msg w.storage (invalidResponse t.clientSocket))
    | .setFields => pure (w.begin t.clientSocket msg)
    | .getAll =>
      pure (w.commit t.clientSocket msg w.storage
        (getAllResponse msg (w.storage.kv.getFields msg.key) t.clientSocket))
    | .getFields =>
      pure (w.commit t.clientSocket msg w.storage
        (getFieldsResponse msg (w.storage.kv.getSelectedFields msg.key msg.fieldNames)
          t.clientSocket))
  | .inserted msg => do
    let (storage, success) ← w.storage.setFields t.choices msg.key msg.fields
    pure (w.commit t.clientSocket msg storage (setFieldsResponse msg success t.clientSocket))
  | .responding _ r _ => pure (w.send t.choices.pointers t.clientSocket r)

/-- The store owns its strings, and a thread between the sections of `SET_FIELDS`
finds its key. -/
structure Consistent (w : Threads) : Prop where
  owned : w.storage.Owned
  inserted : ∀ {c msg}, w.phase c = .inserted msg →
    msg.type = .setFields ∧ (w.storage.view msg.key).isSome = true

/-- The last locked section of a request: its effect on the contents, its answer,
where the answer's pointers come from, and the cells that it may move. -/
structure Section (w : Threads) (clientSocket : ℤ) (msg : Request) (storage : Storage)
    (r : Response) : Prop where
  inserted : msg.type = .setFields → w.phase clientSocket = .inserted msg
  owned : storage.Owned
  flat : storage.view.flat = flatAfter w.storage.view.flat msg
  keys : ∀ k, (w.storage.view k).isSome = true → (storage.view k).isSome = true
  answers : Answers w.storage.view.flat msg clientSocket storage.heap r
  held : ∀ {f a}, r.fields.lookup f = some a → storage.kv.cell (msg.key, f) = some a
  frame : ∀ {k f}, (msg.type = .setFields → k = msg.key → msg.fields.lookup f = none) →
    storage.kv.cell (k, f) = w.storage.kv.cell (k, f)

inductive Turned (w : Threads) (t : Turn) : Threads → Prop
  | begin {msg : Request} (ht : msg.type = .setFields) : Turned w t (w.begin t.clientSocket msg)
  | commit {msg : Request} {storage : Storage} {r : Response}
      (h : Section w t.clientSocket msg storage r) :
      Turned w t (w.commit t.clientSocket msg storage r)
  | send {msg : Request} {r : Response} {seen : Bytes → Option Bytes}
      (h : w.phase t.clientSocket = .responding msg r seen) :
      Turned w t (w.send t.choices.pointers t.clientSocket r)

inductive Taken (w : Threads) (t : Turn) : Threads → Prop
  | begin (hidle : w.phase t.clientSocket = .idle)
      (ht : (deserialize t.command).type = .setFields) :
      Taken w t (w.begin t.clientSocket (deserialize t.command))
  | answer {storage : Storage} {r : Response} (hidle : w.phase t.clientSocket = .idle)
      (h : Section w t.clientSocket (deserialize t.command) storage r) :
      Taken w t (w.commit t.clientSocket (deserialize t.command) storage r)
  | finish {msg : Request} {storage : Storage} {r : Response}
      (hph : w.phase t.clientSocket = .inserted msg) (h : Section w t.clientSocket msg storage r) :
      Taken w t (w.commit t.clientSocket msg storage r)
  | send {msg : Request} {r : Response} {seen : Bytes → Option Bytes}
      (hph : w.phase t.clientSocket = .responding msg r seen) :
      Taken w t (w.send t.choices.pointers t.clientSocket r)

variable {w : Threads} {c : ℤ} {msg : Request}

theorem section_of_read {r : Response} (hw : w.Consistent) (ht : msg.type ≠ .setFields)
    (ha : Answers w.storage.view.flat msg c w.storage.heap r)
    (hheld : ∀ {f a}, r.fields.lookup f = some a → w.storage.kv.cell (msg.key, f) = some a) :
    Section w c msg w.storage r where
  inserted h := absurd h ht
  owned := hw.owned
  flat := (flatAfter_of_ne ht _).symm
  keys _ hk := hk
  answers := ha
  held := hheld
  frame _ := rfl

theorem section_invalid (hw : w.Consistent) (ht : msg.type = .invalid) :
    Section w c msg w.storage (invalidResponse c) := by
  refine section_of_read hw (by simp [ht]) (answers_invalid _ _ _ ht) ?_
  intro f a hf
  cases hf

theorem section_getAll (hw : w.Consistent) (ht : msg.type = .getAll) :
    Section w c msg w.storage (getAllResponse msg (w.storage.kv.getFields msg.key) c) := by
  refine section_of_read hw (by simp [ht]) (answers_getAll hw.owned c ht) ?_
  intro f a hf
  rwa [fields_getAllResponse, KVStore.lookup_getFields] at hf

theorem section_getFields (hw : w.Consistent) (ht : msg.type = .getFields) :
    Section w c msg w.storage
      (getFieldsResponse msg (w.storage.kv.getSelectedFields msg.key msg.fieldNames) c) := by
  refine section_of_read hw (by simp [ht]) (answers_getFields hw.owned c ht) ?_
  intro f a hf
  rw [fields_getFieldsResponse, KVStore.lookup_getSelectedFields] at hf
  split_ifs at hf
  exact hf

theorem section_setFields (ch : Choices) (hw : w.Consistent) (hph : w.phase c = .inserted msg) :
    ∃ storage, w.storage.setFields ch msg.key msg.fields = .ok (storage, true) ∧
      Section w c msg storage (setFieldsResponse msg true c) := by
  obtain ⟨ht, hk⟩ := hw.inserted hph
  obtain ⟨storage, hset, ho, hflat, hkeys⟩ := Storage.setFields_spec ch hw.owned hk msg.fields
  refine ⟨storage, hset, fun _ => hph, ho, ?_, ?_, answers_setFields _ _ _ ht, ?_, ?_⟩
  · rw [hflat, flatAfter_of_setFields ht]
  · intro k hk
    rwa [hkeys]
  · intro f a hf
    cases hf
  · intro k f hf
    exact Storage.cell_of_setFields hset (hf ht)

/-- No turn of a consistent system fails. -/
theorem taken_of_consistent (hw : w.Consistent) (t : Turn) :
    ∃ w', w.turn t = .ok w' ∧ Taken w t w' := by
  unfold turn
  cases hph : w.phase t.clientSocket with
  | idle =>
    cases ht : (deserialize t.command).type with
    | invalid => exact ⟨_, by simp only [ht]; rfl, .answer hph (section_invalid hw ht)⟩
    | setFields => exact ⟨_, by simp only [ht]; rfl, .begin hph ht⟩
    | getAll => exact ⟨_, by simp only [ht]; rfl, .answer hph (section_getAll hw ht)⟩
    | getFields => exact ⟨_, by simp only [ht]; rfl, .answer hph (section_getFields hw ht)⟩
  | inserted msg =>
    obtain ⟨storage, hset, hsec⟩ := section_setFields t.choices hw hph
    exact ⟨_, by simp only [hset]; rfl, .finish hph hsec⟩
  | responding msg r seen => exact ⟨_, rfl, .send hph⟩

theorem Taken.turned {t : Turn} {w' : Threads} (h : Taken w t w') : Turned w t w' := by
  cases h with
  | begin _ ht => exact .begin ht
  | answer _ h => exact .commit h
  | finish _ h => exact .commit h
  | send hph => exact .send hph

theorem turned_of_consistent (hw : w.Consistent) (t : Turn) :
    ∃ w', w.turn t = .ok w' ∧ Turned w t w' := by
  obtain ⟨w', hturn, htaken⟩ := taken_of_consistent hw t
  exact ⟨w', hturn, htaken.turned⟩

theorem phase_update {w : Threads} {c d : ℤ} {p q : Phase}
    (h : Function.update w.phase c p d = q) : d = c ∧ p = q ∨ w.phase d = q := by
  by_cases hd : d = c
  · subst hd
    exact Or.inl ⟨rfl, by rwa [Function.update_self] at h⟩
  · exact Or.inr (by rwa [Function.update_of_ne hd] at h)

theorem Turned.consistent {t : Turn} {w' : Threads} (h : Turned w t w') (hw : w.Consistent) :
    w'.Consistent := by
  cases h with
  | @begin msg ht =>
    obtain ⟨ho, -, hkeys⟩ := Storage.insert_spec hw.owned msg.key
    refine ⟨ho, ?_⟩
    intro d msg' hd
    change _ ∧ ((w.storage.insert msg.key).view msg'.key).isSome = true
    rw [hkeys, Bool.or_eq_true, decide_eq_true_eq]
    rcases phase_update hd with ⟨-, hp⟩ | hd
    · cases hp
      exact ⟨ht, Or.inl rfl⟩
    · exact ⟨(hw.inserted hd).1, Or.inr (hw.inserted hd).2⟩
  | commit hsec =>
    refine ⟨hsec.owned, ?_⟩
    intro d msg' hd
    rcases phase_update hd with ⟨-, hp⟩ | hd
    · cases hp
    · exact ⟨(hw.inserted hd).1, hsec.keys _ (hw.inserted hd).2⟩
  | send h =>
    refine ⟨hw.owned, ?_⟩
    intro d msg' hd
    rcases phase_update hd with ⟨-, hp⟩ | hd
    · cases hp
    · exact hw.inserted hd

theorem turn_of_read {t : Turn} {storage : Storage} {r : Response}
    (hidle : w.phase t.clientSocket = .idle) (ht : (deserialize t.command).type ≠ .setFields)
    (hr : respond t.choices w.storage (deserialize t.command) t.clientSocket = .ok (storage, r)) :
    w.turn t = .ok (w.commit t.clientSocket (deserialize t.command) storage r) := by
  unfold turn
  cases hm : (deserialize t.command).type with
  | setFields => exact absurd hm ht
  | invalid =>
    simp only [respond, hm] at hr
    obtain ⟨rfl, rfl⟩ := Prod.ext_iff.mp (Except.ok.inj hr)
    simp only [hidle, hm]
    rfl
  | getAll =>
    simp only [respond, hm] at hr
    obtain ⟨rfl, rfl⟩ := Prod.ext_iff.mp (Except.ok.inj hr)
    simp only [hidle, hm]
    rfl
  | getFields =>
    simp only [respond, hm] at hr
    obtain ⟨rfl, rfl⟩ := Prod.ext_iff.mp (Except.ok.inj hr)
    simp only [hidle, hm]
    rfl

theorem exists_run_commit {t : Turn} {storage : Storage} {r : Response}
    (hidle : w.phase t.clientSocket = .idle)
    (hr : respond t.choices w.storage (deserialize t.command) t.clientSocket = .ok (storage, r)) :
    ∃ n, (List.replicate n t).foldlM turn w =
      .ok (w.commit t.clientSocket (deserialize t.command) storage r) := by
  by_cases ht : (deserialize t.command).type = .setFields
  · have hbegin : w.turn t = .ok (w.begin t.clientSocket (deserialize t.command)) := by
      simp only [turn, hidle, ht]
      rfl
    simp only [respond, ht] at hr
    cases hset : (w.storage.insert (deserialize t.command).key).setFields t.choices
        (deserialize t.command).key (deserialize t.command).fields with
    | error e =>
      rw [hset] at hr
      cases hr
    | ok p =>
      rw [hset] at hr
      obtain ⟨rfl, rfl⟩ := Prod.ext_iff.mp (Except.ok.inj hr)
      refine ⟨2, ?_⟩
      rw [List.replicate_succ, run_cons hbegin, List.replicate_one, List.foldlM_cons]
      simp only [turn, begin, Function.update_self, hset]
      simp only [commit, bind, Except.bind, pure, Except.pure, List.foldlM_nil,
        Function.update_idem]
  · refine ⟨1, ?_⟩
    rw [List.replicate_one, run_cons (turn_of_read hidle ht hr)]
    rfl

/-- Left alone, a thread runs `processCommand` and is idle again. -/
theorem run_uninterrupted {t : Turn} {iovecs : List Iovec} {s' : Server} {reply : Sent}
    (hidle : w.phase t.clientSocket = .idle)
    (hcmd : Server.processCommand .twoCopy ⟨w.storage, iovecs⟩
      ⟨t.choices, t.clientSocket, t.command⟩ = .ok (s', reply)) :
    ∃ n w', (List.replicate n t).foldlM turn w = .ok w' ∧ w'.storage = s'.storage ∧
      w'.phase = w.phase ∧ w'.sent = w.sent ++ [(t.clientSocket, .ok reply.bytes)] := by
  cases hr : respond t.choices w.storage (deserialize t.command) t.clientSocket with
  | error e =>
    simp only [Server.processCommand, hr] at hcmd
    cases hcmd
  | ok p =>
    obtain ⟨storage, r⟩ := p
    obtain ⟨n, hrun⟩ := exists_run_commit hidle hr
    simp only [Server.processCommand, hr, Except.mapError, bind, Except.bind,
      Protocol.serializeAndSend] at hcmd
    cases hser : TwoCopySerializer.serialize t.choices.pointers storage.heap r with
    | error e =>
      rw [hser] at hcmd
      cases hcmd
    | ok bytes =>
      rw [hser] at hcmd
      obtain ⟨rfl, rfl⟩ := Prod.ext_iff.mp (Except.ok.inj hcmd)
      refine ⟨n + 1, (w.commit t.clientSocket (deserialize t.command) storage r).send
        t.choices.pointers t.clientSocket r, ?_, rfl, ?_, ?_⟩
      · rw [List.replicate_succ', List.foldlM_append, hrun]
        simp only [bind, Except.bind, List.foldlM_cons, List.foldlM_nil, turn, commit,
          Function.update_self]
        rfl
      · simp only [send, commit, Function.update_idem]
        exact Function.update_eq_self_iff.mpr hidle.symm
      · simp only [send, commit, hser]

theorem consistent_empty : Threads.empty.Consistent where
  owned := Storage.owned_empty
  inserted h := by cases h

end Threads

end MuStore
