import MuStore.IovecTable

namespace MuStore

open IOVecSerializer (SerializeCall)

/-- How many bytes of those offered a socket accepts, after the ones that it has
accepted before: all of them, or fewer, but not none. -/
structure Socket where
  accepts : Bytes → Bytes → ℕ
  pos : ∀ stream data, data ≠ [] → 1 ≤ accepts stream data
  le : ∀ stream data, accepts stream data ≤ data.length

/-- `send`, or `sendmsg` of the gathered bytes: the stream and the number returned. -/
def Socket.send (socket : Socket) (stream data : Bytes) : Bytes × ℕ :=
  let n := socket.accepts stream data
  (stream ++ data.take n, n)

/-- The table of the serializer and what the clients have been sent. -/
structure Outgoing where
  iovecs : List Iovec
  streams : ℤ → Bytes

namespace Outgoing

/-- `Protocol::serializeAndSend` as `processCommand` calls it. -/
def serializeAndSend (build : Build) (sockets : ℤ → Socket) (out : Outgoing)
    (c : SerializeCall) : Except SerializeError Outgoing := do
  let (iovecs, sent) := Protocol.serializeAndSend build c.order c.heap out.iovecs c.msg
  let bytes ← sent
  let client := c.msg.clientSocket
  -- the result is only logged
  let (stream, _result) := (sockets client).send (out.streams client) bytes
  pure ⟨iovecs, Function.update out.streams client stream⟩

def reply (build : Build) (c : SerializeCall) : Except SerializeError Sent := do
  let bytes ← (Protocol.serializeAndSend build c.order c.heap [] c.msg).2
  pure ⟨c.msg.clientSocket, bytes⟩

def repliesTo (client : ℤ) (replies : List Sent) : Bytes :=
  ((replies.filter fun r => r.clientSocket = client).map Sent.bytes).flatten

def TakesWhole (build : Build) (sockets : ℤ → Socket) (out : Outgoing) (c : SerializeCall) : Prop :=
  ∀ r, reply build c = .ok r →
    (sockets r.clientSocket).accepts (out.streams r.clientSocket) r.bytes = r.bytes.length

section Runs

variable {build : Build} {sockets : ℤ → Socket} {out out₁ out' : Outgoing} {c : SerializeCall}
  {calls : List SerializeCall} {replies : List Sent} {r : Sent}

theorem repliesTo_cons_self (r : Sent) (replies : List Sent) :
    repliesTo r.clientSocket (r :: replies) = r.bytes ++ repliesTo r.clientSocket replies := by
  simp [repliesTo]

theorem repliesTo_cons_of_ne {client : ℤ} (hc : client ≠ r.clientSocket) (replies : List Sent) :
    repliesTo client (r :: replies) = repliesTo client replies := by
  simp [repliesTo, hc.symm]

theorem reply_of_iovecs (build : Build) (c : SerializeCall) (iovecs : List Iovec) :
    (Protocol.serializeAndSend build c.order c.heap iovecs c.msg).2 =
      (Protocol.serializeAndSend build c.order c.heap [] c.msg).2 := by
  cases build with
  | twoCopy => rfl
  | oneCopy => rfl
  | zeroCopy => rfl

theorem serializeAndSend_eq_ok (h : serializeAndSend build sockets out c = .ok out') :
    ∃ r, reply build c = .ok r ∧ out'.streams = Function.update out.streams r.clientSocket
      ((sockets r.clientSocket).send (out.streams r.clientSocket) r.bytes).1 := by
  have hsame := reply_of_iovecs build c out.iovecs
  unfold serializeAndSend at h
  rcases hser : Protocol.serializeAndSend build c.order c.heap out.iovecs c.msg with ⟨iovecs, sent⟩
  rw [hser] at h hsame
  obtain ⟨bytes, hbytes, hpure⟩ := bind_eq_ok.mp h
  cases hpure
  refine ⟨⟨c.msg.clientSocket, bytes⟩, ?_, rfl⟩
  rw [reply, ← hsame]
  simp only [hbytes]
  rfl

theorem streams_of_reply (h : serializeAndSend build sockets out c = .ok out')
    (hr : reply build c = .ok r) : out'.streams = Function.update out.streams r.clientSocket
      ((sockets r.clientSocket).send (out.streams r.clientSocket) r.bytes).1 := by
  obtain ⟨r', hr', hstreams⟩ := serializeAndSend_eq_ok h
  rw [hr, Except.ok.injEq] at hr'
  rw [hr', hstreams]

theorem length_send (socket : Socket) (stream data : Bytes) :
    (socket.send stream data).1.length = stream.length + socket.accepts stream data := by
  rw [Socket.send, List.length_append, List.length_take, Nat.min_eq_left (socket.le stream data)]

theorem send_of_accepts_eq {socket : Socket} {stream data : Bytes}
    (h : socket.accepts stream data = data.length) :
    (socket.send stream data).1 = stream ++ data := by
  rw [Socket.send, h, List.take_length]

theorem length_streams_le (h : serializeAndSend build sockets out c = .ok out')
    (hr : reply build c = .ok r) (client : ℤ) :
    (out'.streams client).length ≤
      (out.streams client).length + (repliesTo client [r]).length := by
  rw [streams_of_reply h hr]
  by_cases hc : client = r.clientSocket
  · subst hc
    rw [Function.update_self, length_send, repliesTo_cons_self, List.length_append]
    have hle := (sockets r.clientSocket).le (out.streams r.clientSocket) r.bytes
    omega
  · rw [Function.update_of_ne hc]
    omega

theorem mapM_reply_cons (hr : reply build c = .ok r) (hreplies : calls.mapM (reply build) =
    .ok replies) : (c :: calls).mapM (reply build) = .ok (r :: replies) := by
  rw [List.mapM_cons, hr, hreplies]
  rfl

theorem length_repliesTo_cons (client : ℤ) (r : Sent) (replies : List Sent) :
    (repliesTo client (r :: replies)).length =
      (repliesTo client [r]).length + (repliesTo client replies).length := by
  rw [← List.singleton_append, repliesTo, List.filter_append, List.map_append,
    List.flatten_append, List.length_append]
  rfl

theorem exists_replies (hrun : calls.foldlM (serializeAndSend build sockets) out = .ok out') :
    ∃ replies, calls.mapM (reply build) = .ok replies ∧ ∀ client,
      (out'.streams client).length ≤
        (out.streams client).length + (repliesTo client replies).length := by
  induction calls generalizing out with
  | nil =>
    cases hrun
    exact ⟨[], rfl, fun client => le_rfl⟩
  | cons c calls ih =>
    rw [List.foldlM_cons] at hrun
    obtain ⟨out₁, hstep, hrest⟩ := bind_eq_ok.mp hrun
    obtain ⟨r, hr, -⟩ := serializeAndSend_eq_ok hstep
    obtain ⟨replies, hreplies, hle⟩ := ih hrest
    refine ⟨r :: replies, mapM_reply_cons hr hreplies, ?_⟩
    intro client
    have h₁ := length_streams_le hstep hr client
    have h₂ := hle client
    rw [length_repliesTo_cons]
    omega

theorem streams_append_of_takesWhole (h : serializeAndSend build sockets out c = .ok out')
    (hr : reply build c = .ok r) (hw : TakesWhole build sockets out c) (client : ℤ) :
    out'.streams client ++ repliesTo client replies =
      out.streams client ++ repliesTo client (r :: replies) := by
  rw [streams_of_reply h hr]
  by_cases hc : client = r.clientSocket
  · subst hc
    rw [Function.update_self, send_of_accepts_eq (hw r hr), repliesTo_cons_self, List.append_assoc]
  · rw [Function.update_of_ne hc, repliesTo_cons_of_ne hc]

/-- Once a reply is cut, what comes after it cannot make up for the length. -/
theorem takesWhole_of_streams (hstep : serializeAndSend build sockets out c = .ok out₁)
    (hr : reply build c = .ok r)
    (hle : ∀ client, (out'.streams client).length ≤
      (out₁.streams client).length + (repliesTo client replies).length)
    (heq : out'.streams r.clientSocket =
      out.streams r.clientSocket ++ repliesTo r.clientSocket (r :: replies)) :
    TakesWhole build sockets out c := by
  intro r' hr'
  rw [hr, Except.ok.injEq] at hr'
  subst hr'
  have hlen := hle r.clientSocket
  rw [heq, streams_of_reply hstep hr, Function.update_self, length_send, repliesTo_cons_self,
    List.length_append, List.length_append] at hlen
  have hmax := (sockets r.clientSocket).le (out.streams r.clientSocket) r.bytes
  omega

/-- The clients are sent the complete replies, one after another, exactly when every
reply is taken whole by the one call that offers it. -/
theorem streams_eq_replies_iff
    (hrun : calls.foldlM (serializeAndSend build sockets) out = .ok out') :
    ∃ replies, calls.mapM (reply build) = .ok replies ∧
      ((∀ client, out'.streams client = out.streams client ++ repliesTo client replies) ↔
        Throughout (serializeAndSend build sockets) (TakesWhole build sockets) out calls) := by
  obtain ⟨replies, hreplies, -⟩ := exists_replies hrun
  refine ⟨replies, hreplies, ?_⟩
  induction calls generalizing out replies with
  | nil =>
    cases hrun
    cases hreplies
    exact iff_of_true (fun client => (List.append_nil _).symm) trivial
  | cons c calls ih =>
    rw [List.foldlM_cons] at hrun
    obtain ⟨out₁, hstep, hrest⟩ := bind_eq_ok.mp hrun
    obtain ⟨r, hr, -⟩ := serializeAndSend_eq_ok hstep
    obtain ⟨rest, hrestReplies, hle⟩ := exists_replies hrest
    rw [mapM_reply_cons hr hrestReplies, Except.ok.injEq] at hreplies
    subst hreplies
    have hih := ih hrest rest hrestReplies
    constructor
    · intro h
      have hw := takesWhole_of_streams hstep hr hle (h r.clientSocket)
      refine .cons hw hstep (hih.mp fun client => ?_)
      rw [h client, streams_append_of_takesWhole hstep hr hw]
    · rintro ⟨hw, hthrough⟩ client
      rw [hih.mpr (hthrough out₁ hstep) client, streams_append_of_takesWhole hstep hr hw]

end Runs

def empty : Outgoing := ⟨[], fun _ => []⟩

def whole : Socket where
  accepts _ data := data.length
  pos _ _ h := List.length_pos_iff.mpr h
  le _ _ := le_rfl

def byOne : Socket where
  accepts _ data := min 1 data.length
  pos _ _ h := le_min le_rfl (List.length_pos_iff.mpr h)
  le _ _ := min_le_right _ _

def errorCall : SerializeCall := ⟨IterOrder.stored, ∅, Server.invalidResponse 4⟩

theorem streams_eq_replies_iff_whole :
    ∃ (out : Outgoing) (replies : List Sent),
      [errorCall, errorCall].mapM (reply .twoCopy) = .ok replies ∧
      ((∀ client, out.streams client = empty.streams client ++ repliesTo client replies) ↔
        Throughout (serializeAndSend .twoCopy fun _ => whole) (TakesWhole .twoCopy fun _ => whole)
          empty [errorCall, errorCall]) := by
  obtain ⟨out, hrun⟩ : ∃ out, [errorCall, errorCall].foldlM
      (serializeAndSend .twoCopy fun _ => whole) empty = .ok out := ⟨_, rfl⟩
  exact ⟨out, streams_eq_replies_iff hrun⟩

/-- The first byte of an error is followed by the next reply. -/
theorem not_streams_eq_replies :
    ¬∃ build : Build, ∀ (sockets : ℤ → Socket) (out : Outgoing) (calls : List SerializeCall)
      (replies : List Sent), calls.foldlM (serializeAndSend build sockets) empty = .ok out →
      calls.mapM (reply build) = .ok replies →
      ∀ client, out.streams client = empty.streams client ++ repliesTo client replies := by
  rintro ⟨build, h⟩
  cases build with
  | twoCopy =>
    have hcut := h (fun _ => byOne) _ [errorCall, errorCall] _ rfl rfl 4
    revert hcut
    decide
  | oneCopy =>
    have hcut := h (fun _ => byOne) _ [errorCall, errorCall] _ rfl rfl 4
    revert hcut
    decide
  | zeroCopy =>
    have hcut := h (fun _ => byOne) _ [errorCall, errorCall] _ rfl rfl 4
    revert hcut
    decide

theorem exists_reply_of_processCommand {build : Build} {s s' : Server} {c : Received} {sent : Sent}
    (h : s.processCommand build c = .ok (s', sent)) :
    ∃ call : SerializeCall, call.heap = s'.storage.heap ∧ reply build call = .ok sent := by
  obtain ⟨⟨st, r⟩, -, hrest⟩ := bind_eq_ok.mp h
  let call : SerializeCall := ⟨c.choices.pointers, st.heap, r⟩
  have hsame := reply_of_iovecs build call s.iovecs
  rcases hser : Protocol.serializeAndSend build call.order call.heap s.iovecs call.msg with
    ⟨iovecs, result⟩
  rw [hser] at hsame
  simp only [call] at hser
  simp only [hser] at hrest
  obtain ⟨bytes, hbytes, hpure⟩ := bind_eq_ok.mp hrest
  cases hpure
  refine ⟨call, rfl, ?_⟩
  rw [reply, ← hsame]
  simp only [hbytes]
  rfl

/-- The replies of a run of the server are those of a list of calls. -/
theorem exists_calls_of_process {build : Build} {s s' : Server} {l : List Received}
    {replies : List Sent} (h : s.process build l = .ok (s', replies)) :
    ∃ calls : List SerializeCall, calls.mapM (reply build) = .ok replies := by
  induction l generalizing s replies with
  | nil =>
    cases h
    exact ⟨[], rfl⟩
  | cons c l ih =>
    obtain ⟨⟨s₁, sent⟩, hcmd, hrest⟩ := bind_eq_ok.mp h
    obtain ⟨⟨s₂, rest⟩, hl, hpure⟩ := bind_eq_ok.mp hrest
    cases hpure
    obtain ⟨call, -, hreply⟩ := exists_reply_of_processCommand hcmd
    obtain ⟨calls, hcalls⟩ := ih hl
    exact ⟨call :: calls, mapM_reply_cons hreply hcalls⟩

end Outgoing

end MuStore
