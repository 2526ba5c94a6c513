import MuStore.Serializability
import MuStore.PendingPointers
import MuStore.FailedReads
import MuStore.Specification
import MuStore.Library.Interleaving

namespace MuStore

open Protocol Server Connection

inductive Stage where
  | free
  | reading (data : Bytes)
  | processing (command : Bytes)

/-- The thread that moves, what its step leaves to the implementation, and what `read`
returns if it calls it. -/
structure Advance where
  clientSocket : ℤ
  choices : Choices
  result : ReadResult

/-- The threads and where they stand. `past` and `reads` list what was read from each
socket, in the connections that are closed and in the present one, and `committed` the
commands in the order of their last locked sections; no step reads them. -/
structure Sessions where
  threads : Threads
  stage : ℤ → Stage
  past : ℤ → List (List ReadResult)
  reads : ℤ → List ReadResult
  committed : List (ℤ × Bytes)

namespace Sessions

def start : Sessions := ⟨Threads.empty, fun _ => .free, fun _ => [], fun _ => [], []⟩

def enter (w : Sessions) (c : ℤ) (stage : Stage) : Sessions :=
  { w with stage := Function.update w.stage c stage }

/-- The inner loop of `handleClient` after one `read`. -/
def read (w : Sessions) (c : ℤ) (data : Bytes) (result : ReadResult) : Sessions :=
  let w := { w with reads := Function.update w.reads c (w.reads c ++ [result]) }
  match result with
  | .error => w.enter c (.processing data)
  | .bytes buffer =>
    if buffer = [] then
      { w with
        stage := Function.update w.stage c .free
        past := Function.update w.past c (w.past c ++ [w.reads c])
        reads := Function.update w.reads c [] }
    else if buffer.length < bufferSize then w.enter c (.processing (data ++ buffer))
    else w.enter c (.reading (data ++ buffer))

/-- What a turn of `processCommand` means to the loop around it. -/
def proceed (w : Sessions) (c : ℤ) (command : Bytes) (threads : Threads) : Sessions :=
  match threads.phase c with
  | .idle => { w.enter c (.reading []) with threads := threads }
  | .inserted _ => { w with threads := threads }
  | .responding _ _ _ =>
    { w with
      threads := threads
      committed := w.committed ++ [(c, command)] }

/-- `Server::start` accepts a connection on a free socket, and its thread runs
`handleClient`: it reads, and with a command complete takes turns of `processCommand`. -/
def step (w : Sessions) (e : Advance) : Except MemFault Sessions :=
  match w.stage e.clientSocket with
  | .free => pure (w.enter e.clientSocket (.reading []))
  | .reading data => pure (w.read e.clientSocket data e.result)
  | .processing command => do
    let threads ← w.threads.turn ⟨e.choices, e.clientSocket, command⟩
    pure (w.proceed e.clientSocket command threads)

/-- The commands that `handleClient` makes of what was read from a socket. -/
def calls (w : Sessions) (c : ℤ) : List Bytes :=
  (w.past c ++ [w.reads c]).flatMap (handleClient [])

end Sessions

/-- The thread of a socket in `handleClient` and in `processCommand`: what it has
gathered, the command it has not committed, and the replies that it still has to send. -/
inductive Stands : Stage → Phase → Bytes → List Bytes → ℕ → Prop
  | free : Stands .free .idle [] [] 0
  | reading {data : Bytes} : Stands (.reading data) .idle data [] 0
  | received {command : Bytes} : Stands (.processing command) .idle [] [command] 0
  | inserted {command : Bytes} :
      Stands (.processing command) (.inserted (deserialize command)) [] [command] 0
  | responding {command : Bytes} {r : Response} {seen : Bytes → Option Bytes} :
      Stands (.processing command) (.responding (deserialize command) r seen) [] [] 1

section Stands

variable {phase : Phase} {gathered data command : Bytes} {awaited : List Bytes} {owed : ℕ}

theorem stands_free (h : Stands .free phase gathered awaited owed) :
    phase = .idle ∧ gathered = [] ∧ awaited = [] ∧ owed = 0 := by
  cases h
  exact ⟨rfl, rfl, rfl, rfl⟩

theorem stands_reading (h : Stands (.reading data) phase gathered awaited owed) :
    phase = .idle ∧ gathered = data ∧ awaited = [] ∧ owed = 0 := by
  cases h
  exact ⟨rfl, rfl, rfl, rfl⟩

theorem stands_received (h : Stands (.processing command) .idle gathered awaited owed) :
    gathered = [] ∧ awaited = [command] ∧ owed = 0 := by
  cases h
  exact ⟨rfl, rfl, rfl⟩

theorem stands_inserted {msg : Request}
    (h : Stands (.processing command) (.inserted msg) gathered awaited owed) :
    msg = deserialize command ∧ gathered = [] ∧ awaited = [command] ∧ owed = 0 := by
  cases h
  exact ⟨rfl, rfl, rfl, rfl⟩

theorem stands_responding {msg : Request} {r : Response} {seen : Bytes → Option Bytes}
    (h : Stands (.processing command) (.responding msg r seen) gathered awaited owed) :
    msg = deserialize command ∧ gathered = [] ∧ awaited = [] ∧ owed = 1 := by
  cases h
  exact ⟨rfl, rfl, rfl, rfl⟩

theorem Stands.length_add_le {stage : Stage}
    (h : Stands stage phase gathered awaited owed) : awaited.length + owed ≤ 1 := by
  cases h with
  | free => exact Nat.zero_le _
  | reading => exact Nat.zero_le _
  | received => exact Nat.le_refl _
  | inserted => exact Nat.le_refl _
  | responding => exact Nat.le_refl _

theorem Stands.eq_nil_of_ne {stage : Stage}
    (h : Stands stage phase gathered awaited owed) (hne : ∀ command, stage ≠ .processing command) :
    awaited = [] ∧ owed = 0 := by
  cases h with
  | free => exact ⟨rfl, rfl⟩
  | reading => exact ⟨rfl, rfl⟩
  | received => exact absurd rfl (hne _)
  | inserted => exact absurd rfl (hne _)
  | responding => exact absurd rfl (hne _)

end Stands

theorem Connection.discarded_append {l : List ReadResult} {data : Bytes} (hl : .bytes [] ∉ l)
    (rest : List ReadResult) :
    discarded data (l ++ rest) = discarded (discarded data l) rest := by
  induction l generalizing data with
  | nil => rfl
  | cons r l ih =>
    rw [List.mem_cons, not_or] at hl
    cases r with
    | error =>
      rw [List.cons_append, discarded, ih hl.2]
      rfl
    | bytes buffer =>
      have hne : buffer ≠ [] := by
        rintro rfl
        exact hl.1 rfl
      rw [List.cons_append, discarded, discarded, if_neg hne, if_neg hne]
      split_ifs
      · exact ih hl.2
      · exact ih hl.2

namespace Sessions

/-- Every command that was read is committed or still to be committed, and every
committed one has its reply sent or still to be sent. -/
structure Attends (w : Sessions) (c : ℤ) (awaited : List Bytes) (owed : ℕ) : Prop where
  stands : Stands (w.stage c) (w.threads.phase c) (discarded [] (w.reads c)) awaited owed
  unended : .bytes [] ∉ w.reads c
  committed : restrict c w.committed ++ awaited = w.calls c
  sent : (restrict c w.threads.sent).length + owed = (restrict c w.committed).length
  called : ∀ command, w.stage c = .processing command → command ∈ w.calls c

structure Regular (w : Sessions) : Prop where
  linearized : w.threads.Linearized
  log : w.threads.log.map (fun e => (e.clientSocket, e.msg)) =
    w.committed.map fun e => (e.1, deserialize e.2)
  attends : ∀ c, ∃ awaited owed, w.Attends c awaited owed

structure Apart (w w' : Sessions) (d : ℤ) : Prop where
  stage : w'.stage d = w.stage d
  phase : w'.threads.phase d = w.threads.phase d
  past : w'.past d = w.past d
  reads : w'.reads d = w.reads d
  committed : restrict d w'.committed = restrict d w.committed
  sent : restrict d w'.threads.sent = restrict d w.threads.sent

section Step

variable {w w' : Sessions} {c d : ℤ} {awaited : List Bytes} {owed : ℕ}

theorem Apart.attends (h : Apart w w' d) (ha : w.Attends d awaited owed) :
    w'.Attends d awaited owed where
  stands := by
    rw [h.stage, h.phase, h.reads]
    exact ha.stands
  unended := by
    rw [h.reads]
    exact ha.unended
  committed := by
    rw [h.committed, calls, h.past, h.reads]
    exact ha.committed
  sent := by
    rw [h.sent, h.committed]
    exact ha.sent
  called := by
    rw [h.stage, calls, h.past, h.reads]
    exact ha.called

theorem apart_enter (hd : d ≠ c) (stage : Stage) : Apart w (w.enter c stage) d :=
  ⟨Function.update_of_ne hd .., rfl, rfl, rfl, rfl, rfl⟩

theorem apart_read (hd : d ≠ c) (data : Bytes) (result : ReadResult) :
    Apart w (w.read c data result) d := by
  have hreads : ∀ x, Function.update w.reads c x d = w.reads d :=
    fun x => Function.update_of_ne hd ..
  have hstage : ∀ x, Function.update w.stage c x d = w.stage d :=
    fun x => Function.update_of_ne hd ..
  cases result with
  | error => exact ⟨hstage _, rfl, rfl, hreads _, rfl, rfl⟩
  | bytes buffer =>
    unfold read
    simp only
    split_ifs
    · refine ⟨hstage _, rfl, Function.update_of_ne hd .., ?_, rfl, rfl⟩
      simp only [Function.update_idem]
      exact hreads _
    · exact ⟨hstage _, rfl, rfl, hreads _, rfl, rfl⟩
    · exact ⟨hstage _, rfl, rfl, hreads _, rfl, rfl⟩

theorem calls_eq (w : Sessions) (c : ℤ) :
    w.calls c = (w.past c).flatMap (handleClient []) ++ handleClient [] (w.reads c) := by
  rw [calls, List.flatMap_append, List.flatMap_singleton]

theorem handleClient_reads_concat (ha : w.Attends c awaited owed) (result : ReadResult) :
    handleClient [] (w.reads c ++ [result]) =
      handleClient [] (w.reads c) ++ handleClient (discarded [] (w.reads c)) [result] :=
  handleClient_append ha.unended _

theorem calls_read (ha : w.Attends c awaited owed) (data : Bytes) (result : ReadResult) :
    (w.read c data result).calls c =
      w.calls c ++ handleClient (discarded [] (w.reads c)) [result] := by
  have hcalls := handleClient_reads_concat ha result
  rw [calls_eq, calls_eq, List.append_assoc, ← hcalls]
  cases result with
  | error => simp only [read, enter, Function.update_self]
  | bytes buffer =>
    unfold read
    simp only
    split_ifs
    · simp only [Function.update_self, List.flatMap_append, List.flatMap_singleton, handleClient,
        List.append_nil]
    · simp only [enter, Function.update_self]
    · simp only [enter, Function.update_self]

theorem attends_accept (hfree : w.stage c = .free) (ha : w.Attends c awaited owed) :
    (w.enter c (.reading [])).Attends c awaited owed := by
  have hs := ha.stands
  rw [hfree] at hs
  obtain ⟨hphase, hgathered, rfl, rfl⟩ := stands_free hs
  refine ⟨?_, ha.unended, ha.committed, ha.sent, ?_⟩
  · simp only [enter, Function.update_self, hphase, hgathered]
    exact .reading
  · intro command hproc
    simp only [enter, Function.update_self] at hproc
    cases hproc

theorem attends_read {data : Bytes} (hreading : w.stage c = .reading data)
    (ha : w.Attends c awaited owed) (result : ReadResult) :
    ∃ awaited', (w.read c data result).Attends c awaited' 0 := by
  have hs := ha.stands
  rw [hreading] at hs
  obtain ⟨hphase, hdata, rfl, rfl⟩ := stands_reading hs
  have hcalls := calls_read ha data result
  have hgathered : discarded [] (w.reads c ++ [result]) = discarded data [result] := by
    rw [discarded_append ha.unended, hdata]
  have hcommitted := ha.committed
  rw [List.append_nil] at hcommitted
  rw [hdata, ← hcommitted] at hcalls
  have hstage : ∀ x, Function.update w.stage c x c = x := fun x => Function.update_self ..
  have hreads : ∀ x, Function.update w.reads c x c = x := fun x => Function.update_self ..
  cases result with
  | error =>
    -- what has been gathered is executed
    refine ⟨[data], ?_, ?_, hcalls.symm, ha.sent, ?_⟩
    · simp only [read, enter, hstage, hreads, hphase, hgathered]
      exact .received
    · simp only [read, enter, hreads]
      simpa using ha.unended
    · intro command hproc
      simp only [read, enter, hstage] at hproc
      cases hproc
      rw [hcalls]
      simp [handleClient]
  | bytes buffer =>
    rw [handleClient] at hcalls
    unfold read at hcalls ⊢
    simp only at hcalls ⊢
    by_cases hend : buffer = []
    · -- the stream has ended, and the socket is free again
      simp only [if_pos hend] at hcalls ⊢
      refine ⟨[], ?_, ?_, hcalls.symm, ha.sent, ?_⟩
      · simp only [Function.update_self, hphase]
        exact .free
      · simp
      · intro command hproc
        simp only [hstage] at hproc
        cases hproc
    · simp only [if_neg hend] at hcalls ⊢
      have hopen : .bytes [] ∉ w.reads c ++ [.bytes buffer] := by
        simpa [Ne.symm hend] using ha.unended
      by_cases hshort : buffer.length < bufferSize
      · -- a read that does not fill the buffer completes the command
        simp only [if_pos hshort] at hcalls ⊢
        refine ⟨[data ++ buffer], ?_, ?_, hcalls.symm, ha.sent, ?_⟩
        · simp only [enter, hstage, hreads, hphase, hgathered, discarded, if_neg hend,
            if_pos hshort]
          exact .received
        · simpa only [enter, hreads] using hopen
        · intro command hproc
          simp only [enter, hstage] at hproc
          cases hproc
          rw [hcalls]
          simp
      · simp only [if_neg hshort] at hcalls ⊢
        refine ⟨[], ?_, ?_, hcalls.symm, ha.sent, ?_⟩
        · simp only [enter, hstage, hreads, hphase, hgathered, discarded, if_neg hend,
            if_neg hshort]
          exact .reading
        · simpa only [enter, hreads] using hopen
        · intro command hproc
          simp only [enter, hstage] at hproc
          cases hproc

variable {t : Turn} {threads : Threads}

theorem proceed_of_idle (hp : threads.phase c = .idle) (command : Bytes) :
    w.proceed c command threads = { w.enter c (.reading []) with threads := threads } := by
  rw [proceed, hp]

theorem proceed_of_inserted {msg : Request} (hp : threads.phase c = .inserted msg)
    (command : Bytes) : w.proceed c command threads = { w with threads := threads } := by
  rw [proceed, hp]

theorem proceed_of_responding {msg : Request} {r : Response} {seen : Bytes → Option Bytes}
    (hp : threads.phase c = .responding msg r seen) (command : Bytes) :
    w.proceed c command threads =
      { w with threads := threads, committed := w.committed ++ [(c, command)] } := by
  rw [proceed, hp]

theorem apart_proceed (h : w.threads.Taken t threads) (hd : d ≠ t.clientSocket) :
    Apart w (w.proceed t.clientSocket t.command threads) d := by
  have hphase : ∀ p, Function.update w.threads.phase t.clientSocket p d = w.threads.phase d :=
    fun p => Function.update_of_ne hd ..
  have hcommitted : restrict d (w.committed ++ [(t.clientSocket, t.command)]) =
      restrict d w.committed := restrict_concat_of_ne (Ne.symm hd) ..
  cases h with
  | begin _ _ =>
    rw [proceed_of_inserted (Function.update_self ..)]
    exact ⟨rfl, hphase _, rfl, rfl, rfl, rfl⟩
  | answer _ _ =>
    rw [proceed_of_responding (Function.update_self ..)]
    exact ⟨rfl, hphase _, rfl, rfl, hcommitted, rfl⟩
  | finish _ _ =>
    rw [proceed_of_responding (Function.update_self ..)]
    exact ⟨rfl, hphase _, rfl, rfl, hcommitted, rfl⟩
  | send _ =>
    rw [proceed_of_idle (Function.update_self ..)]
    refine ⟨Function.update_of_ne hd .., hphase _, rfl, rfl, rfl, ?_⟩
    exact restrict_concat_of_ne (Ne.symm hd) ..

/-- The last section moves the command that is awaited to the committed ones, and the
reply is owed from then on. -/
theorem attends_commit {r : Response} {storage : Storage} {command : Bytes}
    (hproc : w.stage c = .processing command) (hgathered : discarded [] (w.reads c) = [])
    (ha : w.Attends c [command] 0) :
    (w.proceed c command (w.threads.commit c (deserialize command) storage r)).Attends c [] 1 := by
  rw [proceed_of_responding (Function.update_self ..)]
  refine ⟨?_, ha.unended, ?_, ?_, ha.called⟩
  · simp only [Threads.commit, Function.update_self, hproc, hgathered]
    exact .responding
  · simp only [restrict_concat_self, List.append_nil]
    exact ha.committed
  · simp only [restrict_concat_self, List.length_append, List.length_singleton]
    exact congrArg (· + 1) ha.sent

theorem attends_proceed (h : w.threads.Taken t threads)
    (hproc : w.stage t.clientSocket = .processing t.command)
    (ha : w.Attends t.clientSocket awaited owed) :
    ∃ awaited' owed', (w.proceed t.clientSocket t.command threads).Attends t.clientSocket
      awaited' owed' := by
  have hs := ha.stands
  rw [hproc] at hs
  cases h with
  | begin hidle _ =>
    rw [hidle] at hs
    obtain ⟨hgathered, rfl, rfl⟩ := stands_received hs
    rw [proceed_of_inserted (Function.update_self ..)]
    refine ⟨[t.command], 0, ?_, ha.unended, ha.committed, ha.sent, ha.called⟩
    simp only [Threads.begin, Function.update_self, hproc, hgathered]
    exact .inserted
  | answer hidle _ =>
    rw [hidle] at hs
    obtain ⟨hgathered, rfl, rfl⟩ := stands_received hs
    exact ⟨[], 1, attends_commit hproc hgathered ha⟩
  | finish hph _ =>
    rw [hph] at hs
    obtain ⟨rfl, hgathered, rfl, rfl⟩ := stands_inserted hs
    exact ⟨[], 1, attends_commit hproc hgathered ha⟩
  | send hph =>
    rw [hph] at hs
    obtain ⟨-, hgathered, rfl, rfl⟩ := stands_responding hs
    rw [proceed_of_idle (Function.update_self ..)]
    refine ⟨[], 0, ?_, ha.unended, ha.committed, ?_, ?_⟩
    · simp only [Threads.send, enter, Function.update_self, hgathered]
      exact .reading
    · simp only [Threads.send, enter, restrict_concat_self, List.length_append,
        List.length_singleton]
      exact ha.sent
    · intro command hproc
      simp only [enter, Function.update_self] at hproc
      cases hproc

theorem log_proceed (h : w.threads.Taken t threads)
    (hproc : w.stage t.clientSocket = .processing t.command) (hw : w.Regular) :
    (w.proceed t.clientSocket t.command threads).threads.log.map
        (fun e => (e.clientSocket, e.msg)) =
      (w.proceed t.clientSocket t.command threads).committed.map
        fun e => (e.1, deserialize e.2) := by
  cases h with
  | begin _ _ =>
    rw [proceed_of_inserted (Function.update_self ..)]
    exact hw.log
  | answer _ _ =>
    rw [proceed_of_responding (Function.update_self ..)]
    simp only [Threads.commit, List.map_append, hw.log]
    rfl
  | finish hph _ =>
    obtain ⟨awaited, owed, ha⟩ := hw.attends t.clientSocket
    have hs := ha.stands
    rw [hproc, hph] at hs
    obtain ⟨rfl, -⟩ := stands_inserted hs
    rw [proceed_of_responding (Function.update_self ..)]
    simp only [Threads.commit, List.map_append, hw.log]
    rfl
  | send _ =>
    rw [proceed_of_idle (Function.update_self ..)]
    exact hw.log

inductive Stepped (w : Sessions) (e : Advance) : Sessions → Prop
  | accept (h : w.stage e.clientSocket = .free) : Stepped w e (w.enter e.clientSocket (.reading []))
  | read {data : Bytes} (h : w.stage e.clientSocket = .reading data) :
      Stepped w e (w.read e.clientSocket data e.result)
  | turn {command : Bytes} {threads : Threads} (h : w.stage e.clientSocket = .processing command)
      (ht : w.threads.Taken ⟨e.choices, e.clientSocket, command⟩ threads) :
      Stepped w e (w.proceed e.clientSocket command threads)

theorem stepped_of_regular (hw : w.Regular) (e : Advance) :
    ∃ w', w.step e = .ok w' ∧ Stepped w e w' := by
  unfold step
  cases h : w.stage e.clientSocket with
  | free => exact ⟨_, rfl, .accept h⟩
  | reading data => exact ⟨_, rfl, .read h⟩
  | processing command =>
    obtain ⟨threads, hturn, ht⟩ :=
      Threads.taken_of_consistent hw.linearized.consistent ⟨e.choices, e.clientSocket, command⟩
    exact ⟨_, by simp only [hturn]; rfl, .turn h ht⟩

theorem Stepped.apart {e : Advance} (h : Stepped w e w') (hd : d ≠ e.clientSocket) :
    Apart w w' d := by
  cases h with
  | accept _ => exact apart_enter hd _
  | read _ => exact apart_read hd _ _
  | turn _ ht => exact apart_proceed ht hd

theorem threads_proceed (w : Sessions) (c : ℤ) (command : Bytes) (threads : Threads) :
    (w.proceed c command threads).threads = threads := by
  unfold proceed
  split
  · rfl
  · rfl
  · rfl

theorem read_eq (w : Sessions) (c : ℤ) (data : Bytes) (result : ReadResult) :
    (w.read c data result).threads = w.threads ∧
      (w.read c data result).committed = w.committed := by
  cases result with
  | error => exact ⟨rfl, rfl⟩
  | bytes buffer =>
    unfold read
    simp only
    split_ifs
    · exact ⟨rfl, rfl⟩
    · exact ⟨rfl, rfl⟩
    · exact ⟨rfl, rfl⟩

theorem Stepped.regular {e : Advance} (h : Stepped w e w') (hw : w.Regular) : w'.Regular where
  linearized := by
    cases h with
    | accept _ => exact hw.linearized
    | read _ =>
      rw [(read_eq ..).1]
      exact hw.linearized
    | turn _ ht =>
      rw [threads_proceed]
      exact ht.turned.linearized hw.linearized
  log := by
    cases h with
    | accept _ => exact hw.log
    | read _ =>
      rw [(read_eq ..).1, (read_eq ..).2]
      exact hw.log
    | turn hproc ht => exact log_proceed ht hproc hw
  attends := by
    intro d
    obtain ⟨awaited, owed, ha⟩ := hw.attends d
    by_cases hd : d = e.clientSocket
    · subst hd
      cases h with
      | accept hfree => exact ⟨awaited, owed, attends_accept hfree ha⟩
      | read hreading =>
        obtain ⟨awaited', ha'⟩ := attends_read hreading ha e.result
        exact ⟨awaited', 0, ha'⟩
      | turn hproc ht => exact attends_proceed ht hproc ha
    · exact ⟨awaited, owed, (h.apart hd).attends ha⟩

theorem Stepped.sent_isPrefix {e : Advance} (h : Stepped w e w') :
    w.threads.sent <+: w'.threads.sent := by
  cases h with
  | accept _ => exact List.prefix_rfl
  | read _ =>
    rw [(read_eq ..).1]
  | turn _ ht =>
    rw [threads_proceed]
    cases ht with
    | begin _ _ => exact List.prefix_rfl
    | answer _ _ => exact List.prefix_rfl
    | finish _ _ => exact List.prefix_rfl
    | send _ => exact List.prefix_append _ _

theorem Stepped.committed_isPrefix {e : Advance} (h : Stepped w e w') :
    w.committed <+: w'.committed := by
  cases h with
  | accept _ => exact List.prefix_rfl
  | read _ =>
    rw [(read_eq ..).2]
  | turn _ _ =>
    unfold proceed
    split
    · exact List.prefix_rfl
    · exact List.prefix_rfl
    · exact List.prefix_append _ _

theorem regular_start : start.Regular where
  linearized := Threads.linearized_empty
  log := rfl
  attends _ := ⟨[], 0, .free, by simp [start], rfl, rfl, fun _ h => by cases h⟩

end Step

theorem replay_fst (g : FlatMap) (msgs : List Request) :
    (replay g msgs).1 = msgs.foldl flatAfter g := by
  induction msgs generalizing g with
  | nil => rfl
  | cons msg msgs ih => exact ih (flatAfter g msg)

theorem Regular.flat_eq {w : Sessions} (hw : w.Regular) :
    w.threads.storage.view.flat = lastWrite (w.committed.map Prod.snd) := by
  let history : List Received := w.committed.map fun e => ⟨Choices.plain, e.1, e.2⟩
  have hcommands : history.map Received.command = w.committed.map Prod.snd := by
    rw [List.map_map]
    rfl
  have hmsgs : w.threads.log.map Commit.msg = w.committed.map fun e => deserialize e.2 := by
    have h := congrArg (List.map Prod.snd) hw.log
    rwa [List.map_map, List.map_map] at h
  have hreplay := congrArg Prod.fst hw.linearized.replay_log
  rw [replay_fst, hmsgs, List.foldl_map] at hreplay
  rw [← hcommands, ← flatAfterAll_empty, flatAfterAll, List.foldl_map]
  exact hreplay.symm

theorem Regular.exists_run {w : Sessions} (hw : w.Regular) (l : List Advance) :
    ∃ w', l.foldlM step w = .ok w' ∧ w'.Regular := by
  refine MuStore.exists_run (fun w e hw => ?_) l hw
  obtain ⟨w', hstep, hstepped⟩ := stepped_of_regular hw e
  exact ⟨w', hstep, hstepped.regular hw⟩

/-- The turns of its thread until the reply to the command of a socket is sent. -/
def due (w : Sessions) (c : ℤ) : ℕ :=
  match w.stage c, w.threads.phase c with
  | .processing _, .idle => 3
  | .processing _, .inserted _ => 2
  | .processing _, .responding _ _ _ => 1
  | _, _ => 0

section Due

variable {w w' : Sessions} {c : ℤ} {e : Advance}

theorem Apart.due_eq (h : Apart w w' c) : w'.due c = w.due c := by
  rw [due, due, h.stage, h.phase]

theorem due_le (w : Sessions) (c : ℤ) : w.due c ≤ 3 := by
  unfold due
  split
  · exact Nat.le_refl _
  · exact Nat.le_succ _
  · exact Nat.le_add_left _ _
  · exact Nat.zero_le _

/-- Without a command every call has been answered, and with one all but the last. -/
theorem Regular.calls_le (hw : w.Regular) (c : ℤ) :
    (w.calls c).length ≤ (restrict c w.threads.sent).length + if w.due c = 0 then 0 else 1 := by
  obtain ⟨awaited, owed, ha⟩ := hw.attends c
  have hcalls := congrArg List.length ha.committed
  rw [List.length_append] at hcalls
  have hle := ha.stands.length_add_le
  have hsent := ha.sent
  split_ifs with hdue
  · have hne : ∀ command, w.stage c ≠ .processing command := by
      intro command hproc
      rw [due, hproc] at hdue
      cases hph : w.threads.phase c <;> rw [hph] at hdue <;> cases hdue
    obtain ⟨rfl, rfl⟩ := ha.stands.eq_nil_of_ne hne
    rw [List.length_nil] at hcalls
    omega
  · omega

/-- A turn of the thread brings the reply nearer or sends it. -/
theorem Stepped.due_lt (h : Stepped w e w') (hdue : w.due e.clientSocket ≠ 0) :
    w'.due e.clientSocket < w.due e.clientSocket ∧ w'.due e.clientSocket ≠ 0 ∨
      (restrict e.clientSocket w.threads.sent).length <
        (restrict e.clientSocket w'.threads.sent).length := by
  cases h with
  | accept h =>
    rw [due, h] at hdue
    exact absurd rfl hdue
  | read h =>
    rw [due, h] at hdue
    exact absurd rfl hdue
  | @turn command threads hproc ht =>
    cases ht with
    | begin hidle _ =>
      rw [proceed_of_inserted (Function.update_self ..)]
      left
      simp [due, Threads.begin, hproc, hidle]
    | answer hidle _ =>
      rw [proceed_of_responding (Function.update_self ..)]
      left
      simp [due, Threads.commit, hproc, hidle]
    | finish hph _ =>
      rw [proceed_of_responding (Function.update_self ..)]
      left
      simp [due, Threads.commit, hproc, hph]
    | send _ =>
      rw [proceed_of_idle (Function.update_self ..)]
      right
      simp [Threads.send]

def Remains (w : Sessions) (c : ℤ) (n k : ℕ) : Prop :=
  n ≤ (restrict c w.threads.sent).length ∨
    w.due c ≠ 0 ∧ w.due c ≤ k ∧ n ≤ (restrict c w.threads.sent).length + 1

theorem Stepped.remains {n k : ℕ} (h : Stepped w e w')
    (hr : w.Remains c n (k + if e.clientSocket = c then 1 else 0)) : w'.Remains c n k := by
  have hmono := (restrict_isPrefix c h.sent_isPrefix).length_le
  rcases hr with hn | ⟨hdue, hk, hn⟩
  · exact Or.inl (hn.trans hmono)
  · by_cases hc : e.clientSocket = c
    · subst hc
      rw [if_pos rfl] at hk
      rcases h.due_lt hdue with ⟨hlt, hne⟩ | hlt
      · exact Or.inr ⟨hne, by omega, by omega⟩
      · exact Or.inl (by omega)
    · have ha := h.apart (Ne.symm hc)
      rw [if_neg hc, Nat.add_zero] at hk
      exact Or.inr ⟨by rwa [ha.due_eq], by rwa [ha.due_eq], by omega⟩

theorem remains_of_run {n k : ℕ} (hw : w.Regular) {l : List Advance}
    (hrun : l.foldlM step w = .ok w')
    (hr : w.Remains c n (k + (l.filter fun e => e.clientSocket = c).length)) :
    w'.Remains c n k := by
  induction l generalizing w with
  | nil =>
    cases hrun
    exact hr
  | cons e l ih =>
    obtain ⟨w₁, hstep, hstepped⟩ := stepped_of_regular hw e
    rw [run_cons hstep] at hrun
    refine ih (hstepped.regular hw) hrun (hstepped.remains ?_)
    by_cases hc : e.clientSocket = c
    · rwa [List.filter_cons_of_pos (by simpa using hc), List.length_cons, ← Nat.add_assoc,
        ← if_pos (c := e.clientSocket = c) (t := 1) (e := 0) hc] at hr
    · rw [List.filter_cons_of_neg (by simpa using hc)] at hr
      rwa [if_neg hc, Nat.add_zero]

end Due

end Sessions

end MuStore
