import MuStore.Replies

namespace MuStore

open Protocol Server

/-- A reply lists what the request asks for in any order, and an error has a key of
its own. -/
def Allows (build : Build) (g : FlatMap) (msg : Request) (bytes : Bytes) : Prop :=
  ∃ l, Enumerates l (requested g msg) ∧
    (Fails g msg ∧ bytes = encode build .response l (ascii "Error") ∨
      ¬Fails g msg ∧ bytes = encode build msg.type.toResponseType l msg.key)

/-- A reply to each request, from the contents that the requests before it have left. -/
def AllowsAll (build : Build) : FlatMap → List Request → List Bytes → Prop
  | _, [], [] => True
  | g, msg :: msgs, bytes :: replies =>
    Allows build g msg bytes ∧ AllowsAll build (flatAfter g msg) msgs replies
  | _, _, _ => False

section Allowed

variable {build : Build} {g : FlatMap} {msg : Request}

theorem AllowsAll.length_eq {msgs : List Request} {replies : List Bytes}
    (h : AllowsAll build g msgs replies) : replies.length = msgs.length := by
  induction msgs generalizing g replies with
  | nil =>
    cases replies with
    | nil => rfl
    | cons bytes replies => cases h
  | cons msg msgs ih =>
    cases replies with
    | nil => cases h
    | cons bytes replies => rw [List.length_cons, List.length_cons, ih h.2]

theorem allows_congr {g' : FlatMap} {bytes : Bytes}
    (hkey : g msg.key = g' msg.key) (h : Allows build g msg bytes) : Allows build g' msg bytes := by
  have hrequested : requested g msg = requested g' msg := by
    unfold requested
    split
    · exact hkey
    · rw [hkey]
    · rfl
  have hfails : Fails g msg ↔ Fails g' msg := by
    unfold Fails
    split
    · exact Iff.rfl
    · exact Iff.rfl
    · rw [hkey]
    · rw [hkey]
  obtain ⟨l, hen, hcases⟩ := h
  rw [hrequested] at hen
  rw [hfails] at hcases
  exact ⟨l, hen, hcases⟩

end Allowed

section Responses

variable {g : FlatMap} {msg : Request} {clientSocket : ℤ} {h : Heap Bytes} {r : Response}

/-- A response is sent as a reply that is allowed, in the order of the serializer's loop. -/
theorem Server.Answers.allows (ha : Answers g msg clientSocket h r) (build : Build)
    (o : IterOrder Bytes Addr) :
    Allows build g msg (encode build r.type (o.deref h r.fields) r.key) := by
  have hen := o.enumerates_deref ha.live
  rw [ha.fields] at hen
  refine ⟨_, hen, ?_⟩
  by_cases hf : Fails g msg
  · obtain ⟨ht, hk⟩ := ha.error hf
    exact Or.inl ⟨hf, by rw [ht, hk]⟩
  · obtain ⟨ht, hk⟩ := ha.success hf
    exact Or.inr ⟨hf, by rw [ht, hk]⟩

/-- Every reply that is allowed is what some order makes of the response. -/
theorem Server.Answers.exists_order (ha : Answers g msg clientSocket h r) {build : Build}
    {bytes : Bytes} (hb : Allows build g msg bytes) :
    ∃ o : IterOrder Bytes Addr, bytes = encode build r.type (o.deref h r.fields) r.key := by
  obtain ⟨l, hen, hcases⟩ := hb
  rw [← ha.fields] at hen
  obtain ⟨o, ho⟩ := IterOrder.exists_deref_eq ha.live hen
  refine ⟨o, ?_⟩
  rw [ho]
  rcases hcases with ⟨hf, rfl⟩ | ⟨hf, rfl⟩
  · obtain ⟨ht, hk⟩ := ha.error hf
    rw [ht, hk]
  · obtain ⟨ht, hk⟩ := ha.success hf
    rw [ht, hk]

end Responses

def Received.arrival (c : Received) : ℤ × Bytes := (c.clientSocket, c.command)

namespace Server

variable {build : Build} {s : Server}

theorem allows_of_processCommand (ho : s.storage.Owned) {c : Received} {s' : Server} {sent : Sent}
    (hcmd : s.processCommand build c = .ok (s', sent)) :
    s'.storage.Owned ∧
      s'.storage.view.flat = flatAfter s.storage.view.flat (deserialize c.command) ∧
      sent.clientSocket = c.clientSocket ∧
      Allows build s.storage.view.flat (deserialize c.command) sent.bytes := by
  obtain ⟨t, r, hcmd', ho', hflat, ha⟩ := processCommand_spec build ho c
  rw [hcmd, Except.ok.injEq, Prod.mk.injEq] at hcmd'
  obtain ⟨rfl, rfl⟩ := hcmd'
  exact ⟨ho', hflat, rfl, ha.allows build c.choices.pointers⟩

theorem respond_of_pointers (ch : Choices) (o : IterOrder Bytes Addr) (st : Storage)
    (msg : Request) (clientSocket : ℤ) :
    respond { ch with pointers := o } st msg clientSocket = respond ch st msg clientSocket := rfl

theorem exists_processCommand (ho : s.storage.Owned) (clientSocket : ℤ) {command bytes : Bytes}
    (hb : Allows build s.storage.view.flat (deserialize command) bytes) :
    ∃ choices s', s.processCommand build ⟨choices, clientSocket, command⟩ =
        .ok (s', ⟨clientSocket, bytes⟩) ∧
      s'.storage.Owned ∧
      s'.storage.view.flat = flatAfter s.storage.view.flat (deserialize command) := by
  obtain ⟨st, r, hr, ho', hflat, ha⟩ :=
    respond_spec Choices.plain ho (deserialize command) clientSocket
  obtain ⟨o, rfl⟩ := ha.exists_order hb
  let choices : Choices := { Choices.plain with pointers := o }
  have hr' : respond choices s.storage (deserialize command) clientSocket = .ok (st, r) := by
    rw [respond_of_pointers, hr]
  obtain ⟨iovecs, hcmd⟩ := processCommand_of_respond build (c := ⟨choices, clientSocket, command⟩)
    hr' ha.live ha.fieldNames ha.clientSocket
  exact ⟨choices, ⟨st, iovecs⟩, hcmd, ho', hflat⟩

theorem process_cons_eq_ok {c : Received} {l : List Received} {s' : Server} {replies : List Sent}
    (h : s.process build (c :: l) = .ok (s', replies)) :
    ∃ s₁ sent rest, s.processCommand build c = .ok (s₁, sent) ∧
      s₁.process build l = .ok (s', rest) ∧ replies = sent :: rest := by
  obtain ⟨⟨s₁, sent⟩, hcmd, hrest⟩ := bind_eq_ok.mp h
  obtain ⟨⟨s₂, rest⟩, hl, hpure⟩ := bind_eq_ok.mp hrest
  cases hpure
  exact ⟨s₁, sent, rest, hcmd, hl, rfl⟩

theorem allowsAll_of_process (ho : s.storage.Owned) {l : List Received} {s' : Server}
    {replies : List Sent} (h : s.process build l = .ok (s', replies)) :
    replies.map Sent.clientSocket = l.map Received.clientSocket ∧
      AllowsAll build s.storage.view.flat (l.map fun c => deserialize c.command)
        (replies.map Sent.bytes) := by
  induction l generalizing s replies with
  | nil =>
    cases h
    exact ⟨rfl, trivial⟩
  | cons c l ih =>
    obtain ⟨s₁, sent, rest, hcmd, hrest, rfl⟩ := process_cons_eq_ok h
    obtain ⟨ho₁, hflat, hsocket, hbytes⟩ := allows_of_processCommand ho hcmd
    obtain ⟨hsockets, hall⟩ := ih ho₁ hrest
    rw [hflat] at hall
    refine ⟨?_, hbytes, hall⟩
    rw [List.map_cons, List.map_cons, hsocket, hsockets]

theorem exists_process (ho : s.storage.Owned) {arrivals : List (ℤ × Bytes)} {replies : List Sent}
    (hsockets : replies.map Sent.clientSocket = arrivals.map Prod.fst)
    (hall : AllowsAll build s.storage.view.flat (arrivals.map fun a => deserialize a.2)
      (replies.map Sent.bytes)) :
    ∃ l s', l.map Received.arrival = arrivals ∧ s.process build l = .ok (s', replies) := by
  induction arrivals generalizing s replies with
  | nil =>
    rw [List.map_nil, List.map_eq_nil_iff] at hsockets
    exact ⟨[], s, rfl, by rw [hsockets]; rfl⟩
  | cons a arrivals ih =>
    cases replies with
    | nil => cases hall
    | cons sent replies =>
      obtain ⟨hsocket, hsockets⟩ := List.cons.inj hsockets
      obtain ⟨hbytes, hall⟩ := hall
      obtain ⟨choices, s₁, hcmd, ho₁, hflat⟩ := exists_processCommand ho a.1 hbytes
      rw [← hflat] at hall
      obtain ⟨l, s₂, hl, hrest⟩ := ih ho₁ hsockets hall
      rw [← hsocket] at hcmd
      refine ⟨⟨choices, sent.clientSocket, a.2⟩ :: l, s₂, ?_, process_cons_of_ok hcmd hrest⟩
      rw [List.map_cons, hl, Received.arrival, hsocket]

/-- From the empty store the server can send a list of replies exactly when each goes
back to its client and the specification allows them all. -/
theorem process_replies_iff_allowsAll (build : Build) (arrivals : List (ℤ × Bytes))
    (replies : List Sent) :
    (∃ l s, l.map Received.arrival = arrivals ∧
        Server.empty.process build l = .ok (s, replies)) ↔
      replies.map Sent.clientSocket = arrivals.map Prod.fst ∧
        AllowsAll build (fun _ _ => none) (arrivals.map fun a => deserialize a.2)
          (replies.map Sent.bytes) := by
  constructor
  · rintro ⟨l, s, rfl, hrun⟩
    have h := allowsAll_of_process owned_storage_empty hrun
    rw [List.map_map, List.map_map]
    exact h
  · rintro ⟨hsockets, hall⟩
    exact exists_process owned_storage_empty hsockets hall

end Server

end MuStore
