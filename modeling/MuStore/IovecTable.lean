import MuStore.Replies
import MuStore.Transports

namespace MuStore

namespace IOVecSerializer

structure SerializeCall where
  order : IterOrder Bytes Addr
  heap : Heap Bytes
  msg : Response

/-- A statement of `serialize`, where evaluating what is pushed may throw. -/
inductive Statement where
  | clear
  | addIovec (arg : Except SerializeError Iovec)
  | sendmsg

def Statement.exec (h : Heap Bytes) (iovecs : List Iovec) :
    Statement → List Iovec × Except SerializeError Bytes
  | .clear => ([], .ok [])
  | .addIovec (.ok iov) => (iovecs ++ [iov], .ok [])
  | .addIovec (.error e) => (iovecs, .error e)
  | .sendmsg => (iovecs, gather h iovecs)

/-- Statements one after another. The table is a member, so an exception leaves in it
what has been pushed so far. -/
def execAll (h : Heap Bytes) (iovecs : List Iovec) :
    List Statement → List Iovec × Except SerializeError Bytes
  | [] => (iovecs, .ok [])
  | s :: rest =>
    match s.exec h iovecs with
    | (iovecs, .error e) => (iovecs, .error e)
    | (iovecs, .ok bytes) =>
      let (iovecs, result) := execAll h iovecs rest
      (iovecs, result.map fun more => bytes ++ more)

def SerializeCall.statements (c : SerializeCall) : List Statement :=
  .clear :: ((addIovecs c.order c.heap c.msg).map .addIovec ++ [.sendmsg])

def SerializeCall.exec (c : SerializeCall) (iovecs : List Iovec) :
    List Iovec × Except SerializeError Bytes := execAll c.heap iovecs c.statements

/-- One call after another with one serializer. The callers go on after an exception. -/
def serializeAll (iovecs : List Iovec) :
    List SerializeCall → List Iovec × List (Except SerializeError Bytes)
  | [] => (iovecs, [])
  | c :: rest =>
    let (iovecs, result) := c.exec iovecs
    let (iovecs, results) := serializeAll iovecs rest
    (iovecs, result :: results)

theorem execAll_cons {h : Heap Bytes} {iovecs t : List Iovec} {s : Statement}
    (hs : s.exec h iovecs = (t, .ok [])) (rest : List Statement) :
    execAll h iovecs (s :: rest) = execAll h t rest := by
  rw [execAll, hs]
  simp only [List.nil_append]
  rcases execAll h t rest with ⟨t', e | bytes⟩
  · rfl
  · rfl

theorem execAll_sendmsg (h : Heap Bytes) (iovecs : List Iovec) :
    execAll h iovecs [.sendmsg] = (iovecs, gather h iovecs) := by
  rw [execAll, Statement.exec]
  cases gather h iovecs with
  | error e => rfl
  | ok bytes =>
    change (iovecs, Except.ok (bytes ++ [])) = _
    rw [List.append_nil]

theorem execAll_addIovecs (h : Heap Bytes) (l : List (Except SerializeError Iovec))
    (iovecs : List Iovec) :
    execAll h iovecs (l.map .addIovec ++ [.sendmsg]) =
      match pushAll iovecs l with
      | (t, some e) => (t, .error e)
      | (t, none) => (t, gather h t) := by
  induction l generalizing iovecs with
  | nil => exact execAll_sendmsg h iovecs
  | cons x l ih =>
    cases x with
    | error e => rfl
    | ok iov =>
      rw [List.map_cons, List.cons_append, execAll_cons rfl, ih, pushAll]

/-- The statements do what `serialize` does, from any table. -/
theorem exec_eq_serialize (c : SerializeCall) (iovecs : List Iovec) :
    c.exec iovecs = serialize c.order c.heap iovecs c.msg := by
  rw [SerializeCall.exec, SerializeCall.statements, execAll_cons rfl, execAll_addIovecs]
  unfold serialize
  rcases pushAll [] (addIovecs c.order c.heap c.msg) with ⟨t, _ | e⟩
  · rfl
  · rfl

section OneCall

variable {h : Heap Bytes} {msg : Response}

theorem exists_pushAll_some {l : List (Except SerializeError Iovec)} {e : SerializeError}
    (he : .error e ∈ l) (iovecs : List Iovec) : ∃ t e', pushAll iovecs l = (t, some e') := by
  induction l generalizing iovecs with
  | nil => cases he
  | cons x l ih =>
    cases x with
    | error e' => exact ⟨iovecs, e', rfl⟩
    | ok iov =>
      obtain ⟨t, e', ht⟩ := ih (by simpa using he) (iovecs ++ [iov])
      exact ⟨t, e', by rw [pushAll, ht]⟩

theorem exists_serialize_error (o : IterOrder Bytes Addr) (ht : msg.type = .getFields) {f : Bytes}
    (hf : f ∈ msg.fieldNames) (hmissing : f ∉ msg.fields) (iovecs : List Iovec) :
    ∃ e, (serialize o h iovecs msg).2 = .error e := by
  have hat : fieldAt msg.fields f = .error (.outOfRange f) := by
    rw [fieldAt, AList.lookup_eq_none.mpr hmissing]
  have herr : .error (.outOfRange f) ∈ addIovecs o h msg := by
    rw [addIovecs, fieldIovecs, ht, List.mem_append]
    refine Or.inl (List.mem_map.mpr ⟨f, hf, ?_⟩)
    rw [hat]
    rfl
  obtain ⟨t, e, hp⟩ := exists_pushAll_some herr []
  exact ⟨e, by rw [serialize, hp]⟩

theorem exists_fieldIovecs (o : IterOrder Bytes Addr) (hl : Live h msg.fields)
    (hn : msg.type = .getFields → ∀ f ∈ msg.fieldNames, f ∈ msg.fields) :
    ∃ as vs, fieldIovecs o h msg = as.map (valueIovec h) ∧ LeadTo h as vs ∧
      as.length = msg.count := by
  by_cases ht : msg.type = .getFields
  · obtain ⟨as, vs, hmap, hlead⟩ := exists_leadTo_names hl (hn ht)
    refine ⟨as, vs, ?_, hlead, ?_⟩
    · simp only [fieldIovecs, ht]
      exact serializeGetFields_eq_map hmap
    · have hlen := congrArg List.length hmap
      rw [List.length_map, List.length_map] at hlen
      rw [Response.count, if_pos ht, hlen]
  · refine ⟨_, _, ?_, o.leadTo_deref hl, ?_⟩
    · unfold fieldIovecs
      cases hm : msg.type with
      | getFields => exact absurd hm ht
      | setFields => rfl
      | response => rfl
      | getAll => rfl
    · rw [Response.count, if_neg ht, IterOrder.addresses, List.length_map, o.length_visit]

/-- A call throws exactly when it looks up a name that is not there. -/
theorem serialize_errs_iff (o : IterOrder Bytes Addr) (hl : Live h msg.fields)
    (iovecs : List Iovec) :
    (∃ e, (serialize o h iovecs msg).2 = .error e) ↔
      msg.type = .getFields ∧ ∃ f ∈ msg.fieldNames, f ∉ msg.fields := by
  constructor
  · rintro ⟨e, he⟩
    by_contra hnot
    have hn : msg.type = .getFields → ∀ f ∈ msg.fieldNames, f ∈ msg.fields := by
      intro ht f hf
      by_contra hmissing
      exact hnot ⟨ht, f, hf, hmissing⟩
    obtain ⟨as, vs, hf, hlead, -⟩ := exists_fieldIovecs o hl hn
    rw [serialize_of_fieldIovecs hf hlead iovecs] at he
    cases he
  · rintro ⟨ht, f, hf, hmissing⟩
    exact exists_serialize_error o ht hf hmissing iovecs

/-- The table that `sendmsg` gets has an entry for each value and two for the end. -/
theorem length_serialize (o : IterOrder Bytes Addr) (hl : Live h msg.fields)
    (hn : msg.type = .getFields → ∀ f ∈ msg.fieldNames, f ∈ msg.fields) (iovecs : List Iovec) :
    (serialize o h iovecs msg).1.length = msg.count + 2 := by
  obtain ⟨as, vs, hf, hlead, hlen⟩ := exists_fieldIovecs o hl hn
  obtain ⟨l, hmap, -⟩ := valueIovecs_of_leadTo hlead
  have hadd : addIovecs o h msg = (l ++ [keyIovec msg, newlineIovec]).map .ok := by
    rw [addIovecs, hf, hmap, List.map_append]
    rfl
  have hcount := congrArg List.length hmap
  rw [List.length_map, List.length_map, hlen] at hcount
  rw [serialize_of_addIovecs hadd, List.length_append, hcount]
  rfl

end OneCall

theorem serializeAll_cons (c : SerializeCall) (calls : List SerializeCall) (iovecs : List Iovec) :
    (serializeAll iovecs (c :: calls)).2 =
      (c.exec iovecs).2 :: (serializeAll (c.exec iovecs).1 calls).2 := rfl

/-- Whatever the calls before it have left in the table, a call gathers what a new
serializer would, and throws exactly for a name that is not there. -/
theorem serializeAll_fresh (iovecs : List Iovec) {calls : List SerializeCall}
    (hl : ∀ c ∈ calls, Live c.heap c.msg.fields) :
    List.Forall₂ (fun c result => result = (c.exec []).2 ∧ ((∃ e, result = .error e) ↔
        c.msg.type = .getFields ∧ ∃ f ∈ c.msg.fieldNames, f ∉ c.msg.fields))
      calls (serializeAll iovecs calls).2 := by
  induction calls generalizing iovecs with
  | nil => exact .nil
  | cons c calls ih =>
    rw [serializeAll_cons]
    refine .cons ⟨?_, ?_⟩ (ih _ fun d hd => hl d (by simp [hd]))
    · rw [exec_eq_serialize, exec_eq_serialize]
      rfl
    · rw [exec_eq_serialize]
      exact serialize_errs_iff c.order (hl c (by simp)) iovecs

def johnCall : SerializeCall := ⟨IterOrder.stored, johnHeap, johnResponse⟩

def emailCall : SerializeCall :=
  ⟨IterOrder.stored, johnHeap, { johnResponse with fieldNames := [ascii "name", ascii "email"] }⟩

theorem serializeAll_fresh_john :
    List.Forall₂ (fun c result => result = (c.exec []).2 ∧ ((∃ e, result = .error e) ↔
        c.msg.type = .getFields ∧ ∃ f ∈ c.msg.fieldNames, f ∉ c.msg.fields))
      [emailCall, johnCall] (serializeAll [] [emailCall, johnCall]).2 := by
  apply serializeAll_fresh
  intro c hc
  rcases List.mem_pair.mp hc with rfl | rfl
  · exact live_johnResponse
  · exact live_johnResponse

end IOVecSerializer

open Protocol Server

/-- What `sendmsg` takes at most, `IOV_MAX`. -/
def iovMax : ℕ := 1024

/-- The values sent in answer to a request: an error for `GET_FIELDS` carries the
fields that were found, and a success none. -/
def sentCount (s : Storage) (msg : Request) : ℕ :=
  match msg.type with
  | .getAll => (s.kv.getFields msg.key).size
  | .getFields =>
    let fields := s.kv.getSelectedFields msg.key msg.fieldNames
    if fields.size = msg.fieldNames.length then 0 else fields.size
  | _ => 0

theorem count_invalidResponse (clientSocket : ℤ) : (invalidResponse clientSocket).count = 0 := rfl

theorem count_setFieldsResponse (msg : Request) (success : Bool) (clientSocket : ℤ) :
    (setFieldsResponse msg success clientSocket).count = 0 := by
  cases success with
  | false => rfl
  | true => rfl

theorem count_getAllResponse (msg : Request) (fields : UnorderedMap Bytes Addr)
    (clientSocket : ℤ) : (getAllResponse msg fields clientSocket).count = fields.size := by
  have ht : (getAllResponse msg fields clientSocket).type ≠ .getFields := by
    unfold getAllResponse
    simp only
    split_ifs <;> simp [Response.toError]
  rw [Response.count, if_neg ht, fields_getAllResponse]

theorem count_getFieldsResponse (msg : Request) (fields : UnorderedMap Bytes Addr)
    (clientSocket : ℤ) : (getFieldsResponse msg fields clientSocket).count =
      if fields.size = msg.fieldNames.length then 0 else fields.size := by
  unfold getFieldsResponse
  by_cases herr : fields.size = 0 ∨ fields.size ≠ msg.fieldNames.length
  · rw [if_pos herr]
    change fields.size = _
    split_ifs with hl
    · exact herr.resolve_right (not_not.mpr hl)
    · rfl
  · rw [if_neg herr, if_pos (not_not.mp fun hl => herr (Or.inr hl))]
    rfl

theorem count_of_respond {ch : Choices} {s s' : Storage} {msg : Request} {clientSocket : ℤ}
    {r : Response} (hr : respond ch s msg clientSocket = .ok (s', r)) :
    r.count = sentCount s msg := by
  unfold respond at hr
  unfold sentCount
  cases ht : msg.type with
  | invalid =>
    rw [ht] at hr
    cases hr
    exact count_invalidResponse clientSocket
  | setFields =>
    rw [ht] at hr
    obtain ⟨⟨t, success⟩, -, hpure⟩ := bind_eq_ok.mp hr
    cases hpure
    exact count_setFieldsResponse msg success clientSocket
  | getAll =>
    rw [ht] at hr
    cases hr
    exact count_getAllResponse msg _ clientSocket
  | getFields =>
    rw [ht] at hr
    cases hr
    exact count_getFieldsResponse msg _ clientSocket

theorem serializeAndSend_of_ne_twoCopy {build : Build} (hb : build ≠ .twoCopy)
    (o : IterOrder Bytes Addr) (h : Heap Bytes) (iovecs : List Iovec) (msg : Response) :
    serializeAndSend build o h iovecs msg = IOVecSerializer.serialize o h iovecs msg := by
  cases build with
  | twoCopy => exact absurd rfl hb
  | oneCopy => rfl
  | zeroCopy => rfl

theorem exists_processCommand_iovecs {build : Build} (hb : build ≠ .twoCopy) {s : Server}
    (ho : s.storage.Owned) (c : Received) :
    ∃ s' sent, s.processCommand build c = .ok (s', sent) ∧
      s'.iovecs.length = sentCount s.storage (deserialize c.command) + 2 := by
  obtain ⟨st, r, hr, -, -, ha⟩ :=
    respond_spec c.choices ho (deserialize c.command) c.clientSocket
  have hsent := serializeAndSend_spec build c.choices.pointers s.iovecs ha.live ha.fieldNames
  have hlen := IOVecSerializer.length_serialize c.choices.pointers ha.live
    (fun _ f hf => by simp [ha.fieldNames] at hf) s.iovecs
  rw [serializeAndSend_of_ne_twoCopy hb] at hsent
  rw [count_of_respond hr] at hlen
  refine ⟨⟨st, _⟩, ⟨r.clientSocket,
    encode build r.type (c.choices.pointers.deref st.heap r.fields) r.key⟩, ?_, hlen⟩
  rw [processCommand, hr]
  simp only [Except.mapError, bind, Except.bind, serializeAndSend_of_ne_twoCopy hb, hsent]
  rfl

/-- The table fits what `sendmsg` takes exactly when at most 1022 values are sent. -/
theorem length_iovecs_le_iff {build : Build} (hb : build ≠ .twoCopy) {history : List Received}
    {s : Server} {replies : List Sent}
    (hs : Server.empty.process build history = .ok (s, replies)) (c : Received) :
    ∃ s' sent, s.processCommand build c = .ok (s', sent) ∧
      (s'.iovecs.length ≤ iovMax ↔ sentCount s.storage (deserialize c.command) ≤ 1022) := by
  obtain ⟨ho, -⟩ := spec_of_process hs
  obtain ⟨s', sent, hcmd, hlen⟩ := exists_processCommand_iovecs hb ho c
  refine ⟨s', sent, hcmd, ?_⟩
  rw [hlen, iovMax]
  omega

theorem length_iovecs_le_iff_john :
    ∃ (s s' : Server) (sent : Sent),
      s.processCommand .oneCopy ⟨Choices.plain, 4, ascii "GETALL user123"⟩ = .ok (s', sent) ∧
        (s'.iovecs.length ≤ iovMax ↔
          sentCount s.storage (deserialize (ascii "GETALL user123")) ≤ 1022) := by
  obtain ⟨s, replies, hs, -, -⟩ := process_lastWrite .oneCopy
    [⟨Choices.plain, 4, ascii "SET_FIELDS user123 name=\"John\""⟩]
  exact ⟨s, length_iovecs_le_iff (by decide) hs ⟨Choices.plain, 4, ascii "GETALL user123"⟩⟩

def numbered (n : ℕ) : List (Σ _ : Bytes, Bytes) :=
  (List.range n).map fun i => ⟨decimal i, ascii "a"⟩

theorem nodupKeys_numbered (n : ℕ) : (numbered n).NodupKeys := by
  rw [List.NodupKeys, numbered, List.keys, List.map_map]
  exact List.nodup_range.map decimal_injective

theorem writable_numbered {n : ℕ} : ∀ e ∈ numbered n, Writable (ascii "k") e := by
  intro e he
  obtain ⟨i, -, rfl⟩ := List.mem_map.mp he
  refine ⟨by decide, by decide, ?_, ?_, (by decide : SpaceFree (ascii "a"))⟩
  · intro b hb
    by_contra hspace
    exact not_mem_decimal_of_isSpace (by simpa using hspace) i hb
  · intro hsep
    obtain ⟨h1, h2⟩ := isDigit_of_mem_decimal hsep
    revert h1 h2
    decide

theorem exists_size_getFields (build : Build) {n : ℕ} (hn : n ≠ 0) :
    ∃ history s replies, Server.empty.process build history = .ok (s, replies) ∧
      s.storage.Owned ∧ (s.storage.kv.getFields (ascii "k")).size = n := by
  obtain ⟨s, replies, hs, ho, hlast⟩ := process_lastWrite build
    [⟨Choices.plain, 4, quotedCommand (ascii "k") (numbered n)⟩]
  refine ⟨_, s, replies, hs, ho, ?_⟩
  have hne : numbered n ≠ [] := by simpa [numbered] using hn
  have hlookup : ∀ f, (numbered n).dlookup f =
      KVStore.pointees s.storage.heap (s.storage.kv.getFields (ascii "k")) f := by
    intro f
    rw [KVStore.pointees_getFields]
    refine (lastWrite_quotedCommand hne writable_numbered (nodupKeys_numbered n) f).symm.trans ?_
    exact (congrFun (hlast (ascii "k")) f).symm
  have hperm := (Enumerates.mk (nodupKeys_numbered n) hlookup).perm
    (IterOrder.stored.enumerates_deref (live_getFields ho (ascii "k")))
  have hlen := hperm.length_eq
  rw [IterOrder.length_deref] at hlen
  rw [← hlen, numbered, List.length_map, List.length_range]

/-- 1023 fields need 1025 entries. -/
theorem not_length_iovecs_le :
    ¬∃ build : Build, build ≠ .twoCopy ∧ ∀ (history : List Received) (s s' : Server)
      (replies : List Sent) (c : Received) (sent : Sent),
      Server.empty.process build history = .ok (s, replies) →
      s.processCommand build c = .ok (s', sent) → s'.iovecs.length ≤ iovMax := by
  rintro ⟨build, hb, h⟩
  obtain ⟨history, s, replies, hs, ho, hsize⟩ := exists_size_getFields build (n := 1023) (by decide)
  let c : Received := ⟨Choices.plain, 4, ascii "GETALL k"⟩
  obtain ⟨s', sent, hcmd, hlen⟩ := exists_processCommand_iovecs hb ho c
  have hc : deserialize c.command = ⟨.getAll, ascii "k", ∅, []⟩ := by
    have hw : words isSpace c.command = [ascii "GETALL", ascii "k"] := by decide
    rw [deserialize_getAll hw]
    rfl
  have hle := h history s s' replies c sent hs hcmd
  rw [hlen, hc, sentCount] at hle
  simp only [hsize, iovMax] at hle
  omega

end MuStore
