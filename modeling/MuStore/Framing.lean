import MuStore.Server
import MuStore.Library.Lines

namespace MuStore

open Protocol Server

def SpaceFreeValues (g : FlatMap) : Prop := ∀ k f v, g k f = some v → SpaceFree v

theorem spaceFreeValues_flatAfter {g : FlatMap} (hg : SpaceFreeValues g) (command : Bytes) :
    SpaceFreeValues (flatAfter g (deserialize command)) := by
  intro k f v hv
  by_cases ht : (deserialize command).type = .setFields
  · rw [flatAfter_of_setFields ht] at hv
    by_cases hk : k = (deserialize command).key
    · rw [hk, Function.update_self] at hv
      cases hf : (deserialize command).fields.lookup f with
      | none => exact hg _ f v (by simpa [hf] using hv)
      | some w =>
        have hw : w = v := by simpa [hf] using hv
        exact hw ▸ (spaceFree_field hf).2.2
    · rw [Function.update_of_ne hk] at hv
      exact hg k f v hv
  · exact hg k f v (by rwa [flatAfter_of_ne ht] at hv)

theorem newline_notMem {s : Bytes} (hs : SpaceFree s) : newline ∉ s := by
  intro hm
  exact absurd (hs newline hm) (by decide)

theorem terminated_encode (build : Build) (t : ResponseType) {l : List (Σ _ : Bytes, Bytes)}
    {key : Bytes} (hl : ∀ e ∈ l, SpaceFree e.2) (hk : SpaceFree key) :
    Terminated newline (encode build t l key) := by
  apply terminated_concat
  rw [List.mem_append, List.mem_append]
  rintro ((hm | hm) | hm)
  · split_ifs at hm
    · rcases List.mem_append.mp hm with hm | hm
      · exact not_mem_decimal_of_isSpace (by decide) _ hm
      · exact absurd hm (by decide)
    · cases hm
  · obtain ⟨v, hv, hm⟩ := List.mem_flatten.mp hm
    obtain ⟨e, he, rfl⟩ := List.mem_map.mp hv
    unfold carried at he
    split_ifs at he
    · cases he
    · exact newline_notMem (hl e he) hm
  · exact newline_notMem hk hm

theorem requested_eq_some {g : FlatMap} {msg : Request} {f v : Bytes}
    (hv : requested g msg f = some v) : g msg.key f = some v := by
  cases ht : msg.type with
  | setFields => simp [requested, ht] at hv
  | invalid => simp [requested, ht] at hv
  | getAll => simpa only [requested, ht] using hv
  | getFields =>
    simp only [requested, ht, NestedMap.select] at hv
    split_ifs at hv
    exact hv

theorem Server.Answers.spaceFree {g : FlatMap} {msg : Request} {clientSocket : ℤ} {h : Heap Bytes}
    {r : Response} (ha : Answers g msg clientSocket h r) (hg : SpaceFreeValues g)
    (hk : SpaceFree msg.key) (o : IterOrder Bytes Addr) :
    (∀ e ∈ o.deref h r.fields, SpaceFree e.2) ∧ SpaceFree r.key := by
  constructor
  · rintro ⟨f, v⟩ he
    have hv := ((o.enumerates_deref ha.live).mem_iff f v).mp he
    rw [ha.fields] at hv
    exact hg msg.key f v (requested_eq_some hv)
  · by_cases hf : Fails g msg
    · rw [(ha.error hf).2]
      decide
    · rw [(ha.success hf).2]
      exact hk

/-- One command is answered on its own connection with a terminated reply. -/
structure Acknowledges (c : Received) (reply : Sent) : Prop where
  clientSocket : reply.clientSocket = c.clientSocket
  terminated : Terminated newline reply.bytes

theorem processCommand_acknowledges (build : Build) {s : Server} (ho : s.storage.Owned)
    (hg : SpaceFreeValues s.storage.view.flat) (c : Received) :
    ∃ s' reply, s.processCommand build c = .ok (s', reply) ∧ s'.storage.Owned ∧
      SpaceFreeValues s'.storage.view.flat ∧ Acknowledges c reply := by
  obtain ⟨s', r, hcmd, ho', hflat, ha⟩ := processCommand_spec build ho c
  obtain ⟨hvals, hkey⟩ := ha.spaceFree hg (spaceFree_key c.command) c.choices.pointers
  refine ⟨s', _, hcmd, ho', ?_, rfl, terminated_encode build r.type hvals hkey⟩
  rw [hflat]
  exact spaceFreeValues_flatAfter hg c.command

theorem process_acknowledges (build : Build) {s : Server} (ho : s.storage.Owned)
    (hg : SpaceFreeValues s.storage.view.flat) (l : List Received) :
    ∃ s' replies, s.process build l = .ok (s', replies) ∧ List.Forall₂ Acknowledges l replies := by
  induction l generalizing s with
  | nil => exact ⟨s, [], rfl, List.Forall₂.nil⟩
  | cons c l ih =>
    obtain ⟨s₁, reply, hcmd, ho₁, hg₁, hack⟩ := processCommand_acknowledges build ho hg c
    obtain ⟨s₂, replies, hrest, hacks⟩ := ih ho₁ hg₁
    exact ⟨s₂, reply :: replies, process_cons_of_ok hcmd hrest, List.Forall₂.cons hack hacks⟩

theorem acknowledged_terminated {l : List Received} {replies : List Sent}
    (h : List.Forall₂ Acknowledges l replies) : ∀ r ∈ replies, Terminated newline r.bytes := by
  induction h with
  | nil => simp
  | cons hack _ ih => exact List.forall_mem_cons.mpr ⟨hack.terminated, ih⟩

def receivedOn (clientSocket : ℤ) (l : List Received) : List Received :=
  l.filter fun c => c.clientSocket = clientSocket

def sentOn (clientSocket : ℤ) (replies : List Sent) : List Sent :=
  replies.filter fun r => r.clientSocket = clientSocket

theorem acknowledges_on {l : List Received} {replies : List Sent}
    (h : List.Forall₂ Acknowledges l replies) (clientSocket : ℤ) :
    List.Forall₂ Acknowledges (receivedOn clientSocket l) (sentOn clientSocket replies) := by
  induction h with
  | nil => exact List.Forall₂.nil
  | @cons c reply l replies hack _ ih =>
    by_cases hs : c.clientSocket = clientSocket
    · have hs' : reply.clientSocket = clientSocket := hack.clientSocket.trans hs
      simpa [receivedOn, sentOn, hs, hs'] using List.Forall₂.cons hack ih
    · have hs' : ¬reply.clientSocket = clientSocket := by rwa [hack.clientSocket]
      simpa [receivedOn, sentOn, hs, hs'] using ih

/-- What a connection carries splits at its newlines into the replies sent on it. -/
theorem splitOn_sent {l : List Received} {replies : List Sent}
    (h : List.Forall₂ Acknowledges l replies) :
    (replies.map Sent.bytes).flatten.splitOn newline =
      replies.map (fun r => r.bytes.dropLast) ++ [[]] := by
  have hterm : ∀ bytes ∈ replies.map Sent.bytes, Terminated newline bytes := by
    intro bytes hm
    obtain ⟨r, hr, rfl⟩ := List.mem_map.mp hm
    exact acknowledged_terminated h r hr
  rw [splitOn_flatten_terminated hterm, List.map_map]
  rfl

/-- Every command is answered, every reply has one newline and ends with it, and
so each connection carries exactly one line for each command received on it, in
order. -/
theorem replies_framed (build : Build) (history : List Received) :
    ∃ s replies, Server.empty.process build history = .ok (s, replies) ∧
      List.Forall₂ Acknowledges history replies ∧
      ∀ clientSocket,
        ((sentOn clientSocket replies).map Sent.bytes).flatten.splitOn newline =
            (sentOn clientSocket replies).map (fun r => r.bytes.dropLast) ++ [[]] ∧
          List.Forall₂ Acknowledges (receivedOn clientSocket history)
            (sentOn clientSocket replies) := by
  have hempty : SpaceFreeValues Server.empty.storage.view.flat := by
    intro k f v hv
    rw [Server.flat_empty] at hv
    cases hv
  obtain ⟨s, replies, hrun, hacks⟩ := process_acknowledges build owned_storage_empty hempty history
  refine ⟨s, replies, hrun, hacks, ?_⟩
  intro clientSocket
  have hon := acknowledges_on hacks clientSocket
  exact ⟨splitOn_sent hon, hon⟩

end MuStore
