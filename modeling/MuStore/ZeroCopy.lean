import MuStore.Clients

namespace MuStore

open Protocol Server

/-- The memory behind the buffers of a thread's response. -/
inductive Region where
  | value (a : Addr)
  | key (clientSocket : ℤ)
  | newline
  deriving DecidableEq, Repr

def Buffer.region (clientSocket : ℤ) : Buffer → Region
  | .value a => .value a
  | .key _ => .key clientSocket
  | .newline => .newline

abbrev Place := Region × ℕ

def Iovec.places (clientSocket : ℤ) (iov : Iovec) : List Place :=
  (List.range iov.len).map fun i => (iov.base.region clientSocket, i)

/-- A message that `sendmsg` has returned for: the places that the kernel has yet to
read, and what it has read. `bytes` is what the table stood for when `sendmsg` was
called; no step reads it. -/
structure InFlight where
  rest : List Place
  out : Bytes
  bytes : Bytes

/-- The kernel reads the next place. In memory that is gone it may find anything. -/
def InFlight.read (byte : Place → Option UInt8) (found : UInt8) (m : InFlight) : InFlight :=
  match m.rest with
  | [] => m
  | p :: rest => { m with rest := rest, out := m.out ++ [(byte p).getD found] }

/-- `key c` is `response.key` of a thread that is between its `sendmsg` and the end of
`processCommand`. -/
structure ZeroCopy where
  threads : Threads
  key : ℤ → Option Bytes
  inFlight : List InFlight

inductive Event where
  | thread (t : Turn)
  | read (n : ℕ) (found : UInt8)

namespace ZeroCopy

def empty : ZeroCopy := ⟨Threads.empty, fun _ => none, []⟩

def memory (w : ZeroCopy) : Region → Option Bytes
  | .value a => w.threads.storage.heap.lookup a
  | .key clientSocket => w.key clientSocket
  | .newline => some [MuStore.newline]

def byte (w : ZeroCopy) (p : Place) : Option UInt8 := (w.memory p.1).bind fun bytes => bytes[p.2]?

/-- `serializeAndSend`. A dead pointer sends nothing and the other threads go on. -/
def send (w : ZeroCopy) (o : IterOrder Bytes Addr) (clientSocket : ℤ) (r : Response) :
    ZeroCopy where
  threads := { w.threads with phase := Function.update w.threads.phase clientSocket .idle }
  key := Function.update w.key clientSocket (some r.key)
  inFlight :=
    match IOVecSerializer.serialize o w.threads.storage.heap [] r with
    | (iovecs, .ok bytes) =>
      w.inFlight ++ [⟨iovecs.flatMap (Iovec.places clientSocket), [], bytes⟩]
    | (_, .error _) => w.inFlight

/-- With `MSG_ZEROCOPY` the kernel reads the buffers at any moment after `sendmsg` has
returned. A call of `serialize` is one step. -/
def step (w : ZeroCopy) : Event → Except MemFault ZeroCopy
  | .thread t =>
    match w.key t.clientSocket, w.threads.phase t.clientSocket with
    -- the end of `processCommand`, where the response is destroyed
    | some _, _ => pure { w with key := Function.update w.key t.clientSocket none }
    | none, .responding _ r _ => pure (w.send t.choices.pointers t.clientSocket r)
    | none, _ => do
      let threads ← w.threads.turn t
      pure { w with threads }
  | .read n found => pure { w with inFlight := w.inFlight.modify n (InFlight.read w.byte found) }

/-- Every message is transmitted as it stood when `sendmsg` was called. -/
def Stable (w : ZeroCopy) : Prop :=
  ∀ m ∈ w.inFlight, m.out <+: m.bytes ∧ (m.rest = [] → m.out = m.bytes)

/-- A thread returns when every byte of its key has been read, and `setFields` overwrites
no string that has bytes to be read. -/
def Waits (w : ZeroCopy) : Event → Prop
  | .thread t =>
    (w.key t.clientSocket ≠ none → ∀ m ∈ w.inFlight, ∀ i, (.key t.clientSocket, i) ∉ m.rest) ∧
    ∀ msg, w.threads.phase t.clientSocket = .inserted msg →
      ∀ f a, msg.fields.lookup f ≠ none → w.threads.storage.kv.cell (msg.key, f) = some a →
        ∀ m ∈ w.inFlight, ∀ i, (.value a, i) ∉ m.rest
  | .read _ _ => True

def Holds (w : ZeroCopy) (m : InFlight) : Prop :=
  ∃ left, m.bytes = m.out ++ left ∧ List.Forall₂ (fun p b => w.byte p = some b) m.rest left

section Holds

variable {w w' : ZeroCopy} {m : InFlight}

theorem Holds.of_memory (h : w.Holds m)
    (hkeep : ∀ p ∈ m.rest, ∀ x, w.memory p.1 = some x → w'.memory p.1 = some x) : w'.Holds m := by
  obtain ⟨left, hbytes, hall⟩ := h
  refine ⟨left, hbytes, ((List.forall₂_and_left _ _).mpr ⟨hkeep, hall⟩).imp ?_⟩
  rintro p b ⟨hp, hb⟩
  obtain ⟨x, hx, hget⟩ := Option.bind_eq_some_iff.mp hb
  rw [byte, hp x hx]
  exact hget

theorem Holds.read (h : w.Holds m) (found : UInt8) : w.Holds (m.read w.byte found) := by
  obtain ⟨rest, out, bytes⟩ := m
  obtain ⟨left, hbytes, hall⟩ := h
  cases hall with
  | nil => exact ⟨[], hbytes, .nil⟩
  | @cons p b rest left hb hall =>
    refine ⟨left, ?_, hall⟩
    show bytes = out ++ [(w.byte p).getD found] ++ left
    rw [hb, Option.getD_some, List.append_assoc]
    exact hbytes

theorem stable_of_holds (h : ∀ m ∈ w.inFlight, w.Holds m) : w.Stable := by
  intro m hm
  obtain ⟨left, hbytes, hall⟩ := h m hm
  refine ⟨⟨left, hbytes.symm⟩, ?_⟩
  intro hrest
  rw [hrest, List.forall₂_nil_left_iff] at hall
  rw [hbytes, hall, List.append_nil]

end Holds

section Places

open IOVecSerializer

variable {w : ZeroCopy} {c : ℤ} {h : Heap Bytes}

theorem forall₂_places {iov : Iovec} {buf : Bytes} (hlen : iov.len = buf.length)
    (hmem : w.memory (iov.base.region c) = some buf) :
    List.Forall₂ (fun p b => w.byte p = some b) (iov.places c) buf := by
  rw [Iovec.places, List.forall₂_map_left_iff, List.forall₂_iff_get]
  refine ⟨by rw [List.length_range, hlen], ?_⟩
  intro i _ hi
  simp [byte, hmem]

theorem forall₂_gather {l : List Iovec} {bytes : Bytes} (hg : gather h l = .ok bytes)
    (hl : ∀ iov ∈ l, ∃ buf, readBuffer h iov.base = .ok buf ∧ iov.len = buf.length ∧
      w.memory (iov.base.region c) = some buf) :
    List.Forall₂ (fun p b => w.byte p = some b) (l.flatMap (Iovec.places c)) bytes := by
  induction l generalizing bytes with
  | nil =>
    cases hg
    exact .nil
  | cons iov l ih =>
    obtain ⟨buf, hread, hlen, hmem⟩ := hl iov (by simp)
    rw [gather] at hg
    obtain ⟨buf', hread', hg⟩ := bind_eq_ok.mp hg
    obtain ⟨out, hrest, hg⟩ := bind_eq_ok.mp hg
    rw [hread] at hread'
    cases hread'
    cases hg
    rw [hlen, List.take_length, List.flatMap_cons]
    apply List.rel_append (forall₂_places hlen hmem)
    exact ih hrest fun iov hi => hl iov (by simp [hi])

/-- The places of a response hold its bytes while its key is there. -/
theorem forall₂_serialize {o : IterOrder Bytes Addr} {r : Response} {l : List Iovec} {bytes : Bytes}
    (hs : serialize o w.threads.storage.heap [] r = (l, .ok bytes)) (hkey : w.key c = some r.key) :
    List.Forall₂ (fun p b => w.byte p = some b) (l.flatMap (Iovec.places c)) bytes := by
  obtain ⟨hadd, hg⟩ := addIovecs_of_serialize hs
  apply forall₂_gather hg
  intro iov hiov
  have hm : .ok iov ∈ addIovecs o w.threads.storage.heap r := by
    rw [hadd]
    exact List.mem_map_of_mem hiov
  rcases entry_of_mem_addIovecs hm with ⟨a, v, hv, rfl⟩ | rfl | rfl
  · exact ⟨v, readString_of_lookup hv, rfl, hv⟩
  · exact ⟨r.key, rfl, rfl, hkey⟩
  · exact ⟨[newline], rfl, rfl, rfl⟩

end Places

theorem lookup_heap_of_turn {w w' : Threads} {t : Turn} {a : Addr} {x : Bytes}
    (h : w.turn t = .ok w') (ha : w.storage.heap.lookup a = some x)
    (hne : ∀ msg, w.phase t.clientSocket = .inserted msg →
      ∀ f, msg.fields.lookup f ≠ none → w.storage.kv.cell (msg.key, f) ≠ some a) :
    w'.storage.heap.lookup a = some x := by
  unfold Threads.turn at h
  cases hph : w.phase t.clientSocket with
  | idle =>
    simp only [hph] at h
    cases ht : (deserialize t.command).type with
    | invalid | setFields | getAll | getFields =>
      simp only [ht] at h
      cases h
      exact ha
  | inserted msg =>
    simp only [hph] at h
    obtain ⟨r, hset, h⟩ := bind_eq_ok.mp h
    cases h
    exact Storage.lookup_heap_of_setFields hset ha (hne msg hph)
  | responding msg r seen =>
    simp only [hph] at h
    cases h
    exact ha

structure Sound (w : ZeroCopy) : Prop where
  consistent : w.threads.Consistent
  holds : ∀ m ∈ w.inFlight, w.Holds m

theorem sound_empty : empty.Sound where
  consistent := Threads.consistent_empty
  holds m hm := by cases hm

section Step

variable {w : ZeroCopy} {t : Turn}

/-- The end of `processCommand`: the key has been read. -/
theorem Sound.release (hw : w.Sound) {c : ℤ}
    (hread : ∀ m ∈ w.inFlight, ∀ i, (.key c, i) ∉ m.rest) :
    Sound { w with key := Function.update w.key c none } where
  consistent := hw.consistent
  holds m hm := by
    apply (hw.holds m hm).of_memory
    rintro ⟨region, i⟩ hp x hx
    cases region with
    | value a => exact hx
    | newline => exact hx
    | key d =>
      have hd : d ≠ c := fun hd => hread m hm i (hd ▸ hp)
      exact (Function.update_of_ne hd _ _).trans hx

theorem Sound.send (hw : w.Sound) {c : ℤ} (hk : w.key c = none) (o : IterOrder Bytes Addr)
    (r : Response) : (w.send o c r).Sound where
  consistent := by
    refine ⟨hw.consistent.owned, ?_⟩
    intro d msg hd
    rcases Threads.phase_update hd with ⟨-, hp⟩ | hd
    · cases hp
    · exact hw.consistent.inserted hd
  holds := by
    have hold : ∀ m ∈ w.inFlight, (w.send o c r).Holds m := by
      intro m hm
      apply (hw.holds m hm).of_memory
      rintro ⟨region, i⟩ hp x hx
      cases region with
      | value a => exact hx
      | newline => exact hx
      | key d =>
        -- there was no key of this thread to be read
        have hd : d ≠ c := by
          rintro rfl
          rw [memory, hk] at hx
          cases hx
        exact (Function.update_of_ne hd _ _).trans hx
    cases hs : IOVecSerializer.serialize o w.threads.storage.heap [] r with
    | mk l sent =>
      cases sent with
      | error e =>
        intro m hm
        apply hold
        simpa only [ZeroCopy.send, hs] using hm
      | ok bytes =>
        intro m hm
        simp only [ZeroCopy.send, hs, List.mem_append, List.mem_singleton] at hm
        rcases hm with hm | rfl
        · exact hold m hm
        · exact ⟨bytes, rfl, forall₂_serialize hs (Function.update_self c _ _)⟩

theorem Sound.turn (hw : w.Sound) (hwait : w.Waits (.thread t)) :
    ∃ threads, w.threads.turn t = .ok threads ∧ Sound { w with threads } := by
  obtain ⟨threads, hturn, hturned⟩ := Threads.turned_of_consistent hw.consistent t
  refine ⟨threads, hturn, hturned.consistent hw.consistent, ?_⟩
  intro m hm
  apply (hw.holds m hm).of_memory
  rintro ⟨region, i⟩ hp x hx
  cases region with
  | key d => exact hx
  | newline => exact hx
  | value a =>
    apply lookup_heap_of_turn hturn hx
    intro msg hph f hf hcell
    exact hwait.2 msg hph f a hf hcell m hm i hp

theorem Sound.read (hw : w.Sound) (n : ℕ) (found : UInt8) :
    Sound { w with inFlight := w.inFlight.modify n (InFlight.read w.byte found) } where
  consistent := hw.consistent
  holds m hm := by
    obtain ⟨i, hi⟩ := List.mem_iff_getElem?.mp hm
    rw [List.getElem?_modify, Option.map_eq_map, Option.map_eq_some_iff] at hi
    obtain ⟨m₀, hm₀, rfl⟩ := hi
    have hholds := hw.holds m₀ (List.mem_of_getElem? hm₀)
    split_ifs
    · exact hholds.read found
    · exact hholds

theorem exists_step {e : Event} (hw : w.Sound) (hwait : w.Waits e) :
    ∃ w', w.step e = .ok w' ∧ w'.Sound := by
  cases e with
  | read n found => exact ⟨_, rfl, hw.read n found⟩
  | thread t =>
    cases hk : w.key t.clientSocket with
    | some k =>
      have hread := hwait.1 (by rw [hk]; exact Option.some_ne_none k)
      exact ⟨_, by simp only [step, hk]; rfl, hw.release hread⟩
    | none =>
      obtain ⟨threads, hturn, hsound⟩ := hw.turn hwait
      cases hph : w.threads.phase t.clientSocket with
      | idle => exact ⟨_, by simp only [step, hk, hph, hturn]; rfl, hsound⟩
      | inserted msg => exact ⟨_, by simp only [step, hk, hph, hturn]; rfl, hsound⟩
      | responding msg r seen =>
        exact ⟨_, by simp only [step, hk, hph]; rfl, hw.send hk t.choices.pointers r⟩

end Step

/-- In a run that waits, every message is transmitted as it stood when `sendmsg` was
called, whenever the kernel reads. -/
theorem stable_of_waits {l l' : List Event} (h : Throughout step Waits empty l) (hp : l' <+: l) :
    ∃ w, l'.foldlM step empty = .ok w ∧ w.Stable := by
  obtain ⟨w, hrun, hw⟩ := (h.of_isPrefix hp).exists_run (fun _ _ hw hwait => exists_step hw hwait)
    sound_empty
  exact ⟨w, hrun, stable_of_holds hw.holds⟩

/-- Nothing is left to be read but newlines, which stay. -/
theorem waits_of_newline {w : ZeroCopy} {e : Event}
    (h : (w.inFlight.all fun m => m.rest.all fun p => p.1 == .newline) = true) : w.Waits e := by
  have hrest : ∀ m ∈ w.inFlight, ∀ p ∈ m.rest, p.1 = .newline := by
    intro m hm p hp
    have hall := List.all_eq_true.mp (List.all_eq_true.mp h m hm) p hp
    exact eq_of_beq hall
  cases e with
  | read n found => trivial
  | thread t =>
    constructor
    · intro _ m hm i hp
      cases hrest m hm _ hp
    · intro _ _ _ _ _ _ m hm i hp
      cases hrest m hm _ hp

def move (clientSocket : ℤ) (command : String) : Event :=
  .thread ⟨Choices.plain, clientSocket, ascii command⟩

/-- Client 6 overwrites a field, and the thread of client 5 returns, when the kernel has
read the value and the key that client 5 is sent. -/
theorem stable_of_waits_getAll :
    ∃ w, [move 4 "SET_FIELDS k a=1", move 4 "", move 5 "GETALL k", move 5 "", .read 0 63,
        .read 0 63, move 6 "SET_FIELDS k a=2", move 6 "", move 5 "", .read 0 63].foldlM step empty =
          .ok w ∧
      w.Stable := by
  refine stable_of_waits ?_ List.prefix_rfl
  refine .cons (waits_of_newline rfl) rfl (.cons (waits_of_newline rfl) rfl ?_)
  refine .cons (waits_of_newline rfl) rfl (.cons (waits_of_newline rfl) rfl ?_)
  refine .cons trivial rfl (.cons trivial rfl ?_)
  refine .cons (waits_of_newline rfl) rfl (.cons (waits_of_newline rfl) rfl ?_)
  exact .cons (waits_of_newline rfl) rfl (.cons trivial rfl trivial)

/-- Client 6 overwrites the field before the kernel reads the value, and `new` reuses the
address: client 5 is sent a value that its response never held. -/
theorem not_stable :
    ¬∀ (l : List Event) (w : ZeroCopy), l.foldlM step empty = .ok w → w.Stable := by
  intro h
  have hw := h [move 4 "SET_FIELDS k a=1", move 4 "", move 5 "GETALL k", move 5 "",
    move 6 "SET_FIELDS k a=2", move 6 "", .read 0 63, .read 0 63, .read 0 63] _ rfl
  have hout : ascii "2k\n" = ascii "1k\n" := (hw _ (List.mem_singleton_self _)).2 rfl
  revert hout
  decide

-- the thread returns before the kernel reads the key
example : ([move 4 "SET_FIELDS k a=1", move 4 "", move 5 "GETALL k", move 5 "", move 5 "",
    .read 0 63, .read 0 63, .read 0 63].foldlM step empty).toOption.map
      (fun w => w.inFlight.map InFlight.out) = some [ascii "1?\n"] := by decide

end ZeroCopy

end MuStore
