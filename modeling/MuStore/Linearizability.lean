import MuStore.Sessions

namespace MuStore

open Protocol Server Connection

/-- A reply that lists what the request returned. -/
def Commit.Suits (e : Commit) (bytes : Bytes) : Prop :=
  ∃ l, Enumerates l e.outcome.fields ∧
    (e.outcome.error = true ∧ bytes = encode .twoCopy .response l (ascii "Error") ∨
      e.outcome.error = false ∧ bytes = encode .twoCopy e.msg.type.toResponseType l e.msg.key)

structure Commit.Awaits (e : Commit) (r : Response) (seen : Bytes → Option Bytes) : Prop where
  fields : e.outcome.fields = seen
  error : e.outcome.error = true → r.type = .response ∧ r.key = ascii "Error"
  success : e.outcome.error = false → r.type = e.msg.type.toResponseType ∧ r.key = e.msg.key

def Commit.entry (e : Commit) : ℤ × Commit := (e.clientSocket, e)

section Suits

variable {g g' : FlatMap} {e : Commit} {bytes : Bytes}

theorem error_answer_iff {msg : Request} : (answer g msg).error = true ↔ Fails g msg := by
  simp [answer]

theorem error_answer_eq_false_iff {msg : Request} :
    (answer g msg).error = false ↔ ¬Fails g msg := by
  simp [answer]

theorem allows_of_suits (ho : e.outcome = answer g e.msg) (hs : e.Suits bytes) :
    Allows .twoCopy g e.msg bytes := by
  obtain ⟨l, hen, hcases⟩ := hs
  rw [ho] at hen hcases
  refine ⟨l, hen, ?_⟩
  rcases hcases with ⟨herr, hb⟩ | ⟨herr, hb⟩
  · exact Or.inl ⟨error_answer_iff.mp herr, hb⟩
  · exact Or.inr ⟨error_answer_eq_false_iff.mp herr, hb⟩

theorem allowsAll_of_suits {log : List Commit} {replies : List Bytes}
    (hlog : replay g (log.map Commit.msg) = (g', log.map Commit.outcome))
    (hs : List.Forall₂ Commit.Suits log replies) :
    AllowsAll .twoCopy g (log.map Commit.msg) replies := by
  induction hs generalizing g with
  | nil => trivial
  | @cons e bytes log replies hbytes _ ih =>
    obtain ⟨hg, houtcomes⟩ := Prod.ext_iff.mp hlog
    obtain ⟨houtcome, hrest⟩ := List.cons.inj houtcomes
    exact ⟨allows_of_suits houtcome.symm hbytes, ih (Prod.ext hg hrest)⟩

theorem awaits_of_answers {msg : Request} {c : ℤ} {h : Heap Bytes} {r : Response}
    (ha : Answers g msg c h r) :
    Commit.Awaits ⟨c, msg, r.outcome h⟩ r (KVStore.pointees h r.fields) where
  fields := rfl
  error herr := by
    rw [ha.outcome_eq] at herr
    exact ha.error (error_answer_iff.mp herr)
  success herr := by
    rw [ha.outcome_eq] at herr
    exact ha.success (error_answer_eq_false_iff.mp herr)

theorem suits_of_awaits {s : Storage} {r : Response} {seen : Bytes → Option Bytes}
    (ha : e.Awaits r seen) (hheld : Threads.Held s e.msg r seen) (ho : s.Owned)
    (o : IterOrder Bytes Addr) :
    e.Suits (encode .twoCopy r.type (o.deref s.heap r.fields) r.key) := by
  have hen := o.enumerates_deref (hheld.live ho)
  rw [hheld.seen, ← ha.fields] at hen
  refine ⟨_, hen, ?_⟩
  cases herr : e.outcome.error with
  | true =>
    obtain ⟨ht, hk⟩ := ha.error herr
    exact Or.inl ⟨rfl, by rw [ht, hk]⟩
  | false =>
    obtain ⟨ht, hk⟩ := ha.success herr
    exact Or.inr ⟨rfl, by rw [ht, hk]⟩

end Suits

namespace Threads

inductive Owed : Phase → List Commit → Prop
  | idle : Owed .idle []
  | inserted {msg : Request} : Owed (.inserted msg) []
  | responding {e : Commit} {r : Response} {seen : Bytes → Option Bytes} (h : e.Awaits r seen) :
      Owed (.responding e.msg r seen) [e]

/-- Each reply that was sent suits its request, and at most the last request waits. -/
def Accounted (w : Threads) (c : ℤ) : Prop :=
  ∃ older owed replies, restrict c (w.log.map Commit.entry) = older ++ owed ∧
    Owed (w.phase c) owed ∧ List.Forall₂ Commit.Suits older replies ∧
      restrict c w.sent = replies.map .ok

structure Settled (w : Threads) : Prop where
  sound : w.Sound
  accounted : ∀ c, w.Accounted c

section Settled

variable {w w' : Threads} {t : Turn} {c : ℤ}

theorem owed_nil {phase : Phase} {owed : List Commit} (h : Owed phase owed)
    (hp : ∀ msg r seen, phase ≠ .responding msg r seen) : owed = [] := by
  cases h with
  | idle => rfl
  | inserted => rfl
  | responding => exact absurd rfl (hp _ _ _)

theorem accounted_begin (ha : w.Accounted c) (hidle : w.phase c = .idle) (msg : Request) :
    (w.begin c msg).Accounted c := by
  obtain ⟨older, owed, replies, hlog, howed, hs, hsent⟩ := ha
  rw [hidle] at howed
  cases howed
  refine ⟨older, [], replies, hlog, ?_, hs, hsent⟩
  simp only [begin, Function.update_self]
  exact .inserted

theorem accounted_commit {msg : Request} {storage : Storage} {r : Response}
    (ha : w.Accounted c) (hp : ∀ msg r seen, w.phase c ≠ .responding msg r seen)
    (hsec : Section w c msg storage r) : (w.commit c msg storage r).Accounted c := by
  obtain ⟨older, owed, replies, hlog, howed, hs, hsent⟩ := ha
  have hnil := owed_nil howed hp
  subst hnil
  rw [List.append_nil] at hlog
  refine ⟨older, [⟨c, msg, r.outcome storage.heap⟩], replies, ?_, ?_, hs, hsent⟩
  · simp only [commit, List.map_append, List.map_cons, List.map_nil, restrict_append, hlog]
    rw [Commit.entry, restrict_cons_self]
    rfl
  · simp only [commit, Function.update_self]
    exact .responding (awaits_of_answers hsec.answers)

theorem accounted_send {msg : Request} {r : Response} {seen : Bytes → Option Bytes}
    (hw : w.Sound) (ha : w.Accounted c) (hph : w.phase c = .responding msg r seen)
    (o : IterOrder Bytes Addr) : (w.send o c r).Accounted c := by
  obtain ⟨older, owed, replies, hlog, howed, hs, hsent⟩ := ha
  rw [hph] at howed
  cases howed with
  | @responding e _ _ hawaits =>
    have hsuits := suits_of_awaits hawaits (hw.held hph) hw.consistent.owned o
    refine ⟨older ++ [e], [], replies ++ [_], ?_, ?_, List.rel_append hs (.cons hsuits .nil), ?_⟩
    · rw [List.append_nil]
      exact hlog
    · simp only [send, Function.update_self]
      exact .idle
    · simp only [send, restrict_concat_self, hsent, hw.serialize hph o, List.map_append]
      rfl

theorem accounted_of_ne {d : ℤ} (hd : d ≠ t.clientSocket) (h : Taken w t w')
    (ha : w.Accounted d) : w'.Accounted d := by
  obtain ⟨older, owed, replies, hlog, howed, hs, hsent⟩ := ha
  have howed' : ∀ p, Owed (Function.update w.phase t.clientSocket p d) owed := by
    intro p
    rwa [Function.update_of_ne hd]
  have hlog' : ∀ e : Commit, e.clientSocket = t.clientSocket →
      restrict d ((w.log ++ [e]).map Commit.entry) = older ++ owed := by
    intro e he
    rw [List.map_append, List.map_singleton, Commit.entry, he, restrict_concat_of_ne (Ne.symm hd),
      hlog]
  cases h with
  | begin _ _ => exact ⟨older, owed, replies, hlog, howed' _, hs, hsent⟩
  | answer _ _ => exact ⟨older, owed, replies, hlog' _ rfl, howed' _, hs, hsent⟩
  | finish _ _ => exact ⟨older, owed, replies, hlog' _ rfl, howed' _, hs, hsent⟩
  | send _ =>
    refine ⟨older, owed, replies, hlog, howed' _, hs, ?_⟩
    rw [send, restrict_concat_of_ne (Ne.symm hd), hsent]

theorem Taken.settled (h : Taken w t w') (hw : w.Settled) (hspare : Spares w t) : w'.Settled where
  sound := h.turned.sound hw.sound hspare
  accounted := by
    intro d
    by_cases hd : d = t.clientSocket
    · subst hd
      cases h with
      | begin hidle _ => exact accounted_begin (hw.accounted _) hidle _
      | answer hidle hsec =>
        refine accounted_commit (hw.accounted _) ?_ hsec
        intro msg r seen hp
        rw [hidle] at hp
        cases hp
      | finish hph hsec =>
        refine accounted_commit (hw.accounted _) ?_ hsec
        intro msg r seen hp
        rw [hph] at hp
        cases hp
      | send hph => exact accounted_send hw.sound (hw.accounted _) hph _
    · exact accounted_of_ne hd h (hw.accounted d)

theorem settled_empty : Threads.empty.Settled where
  sound := sound_empty
  accounted _ := ⟨[], [], [], rfl, .idle, .nil, rfl⟩

/-- The reply that is still to be sent can be chosen, so that all requests have one. -/
theorem Settled.exists_replies (hw : w.Settled) (c : ℤ) :
    ∃ replies, List.Forall₂ Commit.Suits (restrict c (w.log.map Commit.entry)) replies ∧
      restrict c w.sent <+: replies.map .ok ∧ replies.length ≤ (restrict c w.sent).length + 1 := by
  obtain ⟨older, owed, replies, hlog, howed, hs, hsent⟩ := hw.accounted c
  rw [hlog, hsent, List.length_map]
  cases hph : w.phase c with
  | idle =>
    rw [hph] at howed
    cases howed
    rw [List.append_nil]
    exact ⟨replies, hs, List.prefix_rfl, Nat.le_succ _⟩
  | inserted msg =>
    rw [hph] at howed
    cases howed
    rw [List.append_nil]
    exact ⟨replies, hs, List.prefix_rfl, Nat.le_succ _⟩
  | responding msg r seen =>
    rw [hph] at howed
    cases howed with
    | @responding e _ _ hawaits =>
      have hsuits := suits_of_awaits hawaits (hw.sound.held hph) hw.sound.consistent.owned
        IterOrder.stored
      refine ⟨replies ++ [_], List.rel_append hs (.cons hsuits .nil), ?_, ?_⟩
      · rw [List.map_append]
        exact List.prefix_append _ _
      · rw [List.length_append, List.length_singleton]

end Settled

end Threads

def Sent.delivery (sent : Sent) : ℤ × Bytes := (sent.clientSocket, sent.bytes)

def Sent.ofDelivery (e : ℤ × Bytes) : Sent := ⟨e.1, e.2⟩

theorem map_delivery_sent (l : List (ℤ × Bytes)) :
    (l.map Sent.ofDelivery).map Sent.delivery = l := by
  rw [List.map_map]
  exact List.map_id l

/-- Replies that are allowed are those of some run. -/
theorem exists_process_of_allowsAll {build : Build} {arrivals replies : List (ℤ × Bytes)}
    (hsockets : replies.map Prod.fst = arrivals.map Prod.fst)
    (hall : AllowsAll build (fun _ _ => none) (arrivals.map fun e => deserialize e.2)
      (replies.map Prod.snd)) :
    ∃ history s, history.map Received.arrival = arrivals ∧
      Server.empty.process build history = .ok (s, replies.map Sent.ofDelivery) := by
  apply Server.exists_process Server.owned_storage_empty
  · rw [List.map_map]
    exact hsockets
  · rw [List.map_map]
    exact hall

namespace Sessions

/-- If the step is a `setFields`, it overwrites no field that a pending response holds. -/
def Spares (w : Sessions) (e : Advance) : Prop :=
  w.threads.Spares ⟨e.choices, e.clientSocket, []⟩

structure Orderly (w : Sessions) : Prop where
  regular : w.Regular
  settled : w.threads.Settled

section Orderly

variable {w w' : Sessions} {e : Advance}

theorem Stepped.orderly (h : Stepped w e w') (hw : w.Orderly) (hspare : w.Spares e) :
    w'.Orderly := by
  refine ⟨h.regular hw.regular, ?_⟩
  cases h with
  | accept _ => exact hw.settled
  | read _ =>
    rw [(read_eq ..).1]
    exact hw.settled
  | turn _ ht =>
    rw [threads_proceed]
    exact ht.settled hw.settled hspare

theorem orderly_start : start.Orderly := ⟨regular_start, Threads.settled_empty⟩

theorem Orderly.exists_run (hw : w.Orderly) {l : List Advance} (h : Throughout step Spares w l) :
    ∃ w', l.foldlM step w = .ok w' ∧ w'.Orderly ∧ w.committed <+: w'.committed := by
  have hstep : ∀ (v : Sessions) (e : Advance), v.Orderly ∧ w.committed <+: v.committed →
      v.Spares e → ∃ v', v.step e = .ok v' ∧ v'.Orderly ∧ w.committed <+: v'.committed := by
    rintro v e ⟨hv, hle⟩ hspare
    obtain ⟨v', hv', hstepped⟩ := stepped_of_regular hv.regular e
    exact ⟨v', hv', hstepped.orderly hv hspare, hle.trans hstepped.committed_isPrefix⟩
  exact h.exists_run hstep ⟨hw, List.prefix_rfl⟩

theorem exists_sent_eq_map {l : List Advance} (h : Throughout step Spares start l)
    (hrun : l.foldlM step start = .ok w) (c : ℤ) :
    ∃ replies : List Bytes, restrict c w.threads.sent = replies.map .ok := by
  obtain ⟨w', hrun', hw', -⟩ := orderly_start.exists_run h
  rw [hrun, Except.ok.injEq] at hrun'
  subst hrun'
  obtain ⟨older, owed, replies, -, -, -, hsent⟩ := hw'.settled.accounted c
  exact ⟨replies, hsent⟩

/-- Replies for all committed commands, one list for all sockets: what was sent and one
more at most on each socket. -/
theorem Orderly.exists_replies (hw : w.Orderly) :
    ∃ replies : List (ℤ × Bytes), replies.map Prod.fst = w.committed.map Prod.fst ∧
      AllowsAll .twoCopy (fun _ _ => none) (w.committed.map fun e => deserialize e.2)
        (replies.map Prod.snd) ∧
      ∀ c, restrict c w.threads.sent <+: (restrict c replies).map .ok ∧
        (restrict c replies).length ≤ (restrict c w.threads.sent).length + 1 := by
  choose f hf hsent hlen using hw.settled.exists_replies
  obtain ⟨replies, hkeys, hall, hrestrict⟩ := exists_interleaving hf
  have hlog := hw.regular.log
  have hsockets := congrArg (List.map Prod.fst) hlog
  have hmsgs := congrArg (List.map Prod.snd) hlog
  rw [List.map_map, List.map_map] at hsockets hmsgs
  refine ⟨replies, ?_, ?_, ?_⟩
  · rw [hkeys, List.map_map]
    exact hsockets
  · have hsuits : List.Forall₂ Commit.Suits w.threads.log (replies.map Prod.snd) := by
      rw [List.map_map] at hall
      simpa [Function.comp_def, Commit.entry] using hall
    have hcommands : w.threads.log.map Commit.msg = w.committed.map fun e => deserialize e.2 :=
      hmsgs
    rw [← hcommands]
    exact allowsAll_of_suits hw.regular.linearized.replay_log hsuits
  · intro c
    rw [hrestrict]
    exact ⟨hsent c, hlen c⟩

end Orderly

theorem spares_of_phase_ne {w : Sessions} {e : Advance}
    (h : ∀ msg, w.threads.phase e.clientSocket ≠ .inserted msg) : w.Spares e :=
  Threads.spares_of_phase_ne h

def move (c : ℤ) : Advance := ⟨c, Choices.plain, .error⟩

def receive (c : ℤ) (command : String) : Advance := ⟨c, Choices.plain, .bytes (ascii command)⟩

/-- Client 5 has read a key that client 4 is going to add a field to. -/
def firstMoves : List Advance :=
  [move 4, receive 4 "SET_FIELDS k a=1", move 4, move 4, move 5, receive 5 "GETALL k", move 5,
    move 4, receive 4 "SET_FIELDS k b=2"]

def lastMoves : List Advance := [move 4, move 4, move 5, move 4]

theorem throughout_spares_moves : Throughout step Spares start (firstMoves ++ lastMoves) := by
  refine .cons (spares_of_phase_ne fun _ h => by cases h) rfl ?_
  refine .cons (spares_of_phase_ne fun _ h => by cases h) rfl ?_
  refine .cons (spares_of_phase_ne fun _ h => by cases h) rfl (.cons ?_ rfl ?_)
  · intro msg _ c msg' r seen hr
    rcases Threads.phase_update hr with ⟨-, hp⟩ | hr
    · cases hp
    · cases hr
  refine .cons (spares_of_phase_ne fun _ h => by cases h) rfl ?_
  refine .cons (spares_of_phase_ne fun _ h => by cases h) rfl ?_
  refine .cons (spares_of_phase_ne fun _ h => by cases h) rfl ?_
  refine .cons (spares_of_phase_ne fun _ h => by cases h) rfl ?_
  refine .cons (spares_of_phase_ne fun _ h => by cases h) rfl ?_
  refine .cons (spares_of_phase_ne fun _ h => by cases h) rfl (.cons ?_ rfl ?_)
  · intro msg hph c msg' r seen hr _ f hf
    cases hph
    have hb : f = ascii "b" := by
      by_contra hne
      exact hf (AList.lookup_insert_ne hne)
    subst hb
    rcases Threads.phase_update hr with ⟨-, hp⟩ | hr
    · cases hp
    rcases Threads.phase_update hr with ⟨-, hp⟩ | hr
    · cases hp
    rcases Threads.phase_update hr with ⟨-, hp⟩ | hr
    · -- the response to client 5 has the old field only
      cases hp
      rfl
    rcases Threads.phase_update hr with ⟨-, hp⟩ | hr
    · cases hp
      rfl
    rcases Threads.phase_update hr with ⟨-, hp⟩ | hr
    · cases hp
    · cases hr
  refine .cons (spares_of_phase_ne fun _ h => by cases h) rfl ?_
  exact .cons (spares_of_phase_ne fun _ h => by cases h) rfl trivial

/-- However threads, connections and reads interleave, the store is what the commands
make of it that `handleClient` takes from each socket, one at a time in some order.
On a socket they keep their order, none is lost or repeated, and the response to each
is serialized before the next one is read, into bytes if the run is sparing. -/
theorem committed_interleaves_calls (l : List Advance) :
    ∃ w, l.foldlM step start = .ok w ∧
      w.threads.storage.view.flat = lastWrite (w.committed.map Prod.snd) ∧
      ∀ c, restrict c w.committed <+: w.calls c ∧
        (restrict c w.threads.sent).length ≤ (restrict c w.committed).length ∧
        (w.calls c).length ≤ (restrict c w.threads.sent).length + 1 ∧
        ((∀ command, w.stage c ≠ .processing command) →
          (restrict c w.threads.sent).length = (w.calls c).length) ∧
        (Throughout step Spares start l →
          ∃ replies : List Bytes, restrict c w.threads.sent = replies.map .ok) := by
  obtain ⟨w, hrun, hw⟩ := regular_start.exists_run l
  refine ⟨w, hrun, hw.flat_eq, ?_⟩
  intro c
  obtain ⟨awaited, owed, ha⟩ := hw.attends c
  have hcalls := congrArg List.length ha.committed
  rw [List.length_append] at hcalls
  have hle := ha.stands.length_add_le
  have hsent := ha.sent
  refine ⟨⟨awaited, ha.committed⟩, by omega, by omega, ?_, ?_⟩
  · intro hne
    obtain ⟨rfl, rfl⟩ := ha.stands.eq_nil_of_ne hne
    rw [List.length_nil] at hcalls
    omega
  · intro hspare
    exact exists_sent_eq_map hspare hrun c

theorem committed_interleaves_calls_moves :
    ∃ w, (firstMoves ++ lastMoves).foldlM step start = .ok w ∧
      ∀ c, ∃ replies : List Bytes, restrict c w.threads.sent = replies.map .ok := by
  obtain ⟨w, hrun, -, h⟩ := committed_interleaves_calls (firstMoves ++ lastMoves)
  exact ⟨w, hrun, fun c => (h c).2.2.2.2 throughout_spares_moves⟩

/-- No thread waits for another: three turns after a command was read the response to
it has been serialized, whatever was done for other sockets meanwhile, and if the run
is sparing its bytes have been sent. -/
theorem serialized_of_three_turns (l l' : List Advance) (c : ℤ) :
    ∃ w w', l.foldlM step start = .ok w ∧ l'.foldlM step w = .ok w' ∧
      (3 ≤ (l'.filter fun e => e.clientSocket = c).length →
        (w.calls c).length ≤ (restrict c w'.threads.sent).length ∧
        (Throughout step Spares start (l ++ l') →
          ∃ replies : List Bytes, restrict c w'.threads.sent = replies.map .ok)) := by
  obtain ⟨w, hrun, hw⟩ := regular_start.exists_run l
  obtain ⟨w', hrun', -⟩ := hw.exists_run l'
  refine ⟨w, w', hrun, hrun', ?_⟩
  intro hthree
  have hcalls := hw.calls_le c
  have hr : w.Remains c (w.calls c).length
      (0 + (l'.filter fun e => e.clientSocket = c).length) := by
    split_ifs at hcalls with hdue
    · exact Or.inl hcalls
    · have hle := due_le w c
      exact Or.inr ⟨hdue, by omega, hcalls⟩
  constructor
  · rcases remains_of_run hw hrun' hr with hn | ⟨hdue, hle, -⟩
    · exact hn
    · exact absurd (Nat.le_zero.mp hle) hdue
  · intro hspare
    refine exists_sent_eq_map hspare ?_ c
    rw [List.foldlM_append, hrun]
    exact hrun'

theorem serialized_of_three_turns_moves :
    ∃ w w', firstMoves.foldlM step start = .ok w ∧ lastMoves.foldlM step w = .ok w' ∧
      (w.calls 4).length ≤ (restrict 4 w'.threads.sent).length ∧
      ∃ replies : List Bytes, restrict 4 w'.threads.sent = replies.map .ok := by
  obtain ⟨w, w', hrun, hrun', h⟩ := serialized_of_three_turns firstMoves lastMoves 4
  obtain ⟨hle, hsent⟩ := h (by decide)
  exact ⟨w, w', hrun, hrun', hle, hsent throughout_spares_moves⟩

/-- If every `setFields` spares the fields that pending responses hold, what the
threads send is what the server sends that executes the committed commands one at a
time. Their order keeps the order on each socket, and a command that was committed by
some point comes before all that were not. -/
theorem replies_linearizable {l l' : List Advance} (h : Throughout step Spares start (l ++ l')) :
    ∃ w w', l.foldlM step start = .ok w ∧ l'.foldlM step w = .ok w' ∧
      w.committed <+: w'.committed ∧
      ∃ history s replies, history.map Received.arrival = w'.committed ∧
        Server.empty.process .twoCopy history = .ok (s, replies) ∧
        s.storage.view.flat = w'.threads.storage.view.flat ∧
        ∀ c, restrict c w'.committed <+: w'.calls c ∧
          restrict c w'.threads.sent <+: (restrict c (replies.map Sent.delivery)).map .ok ∧
          (restrict c (replies.map Sent.delivery)).length ≤
            (restrict c w'.threads.sent).length + 1 := by
  obtain ⟨w, hrun, hw, -⟩ := orderly_start.exists_run (h.of_isPrefix (List.prefix_append _ _))
  obtain ⟨w', hrun', hw', hle⟩ := hw.exists_run (h.of_append hrun)
  refine ⟨w, w', hrun, hrun', hle, ?_⟩
  obtain ⟨replies, hkeys, hall, hsent⟩ := hw'.exists_replies
  obtain ⟨history, s, harrivals, hprocess⟩ := exists_process_of_allowsAll hkeys hall
  refine ⟨history, s, _, harrivals, hprocess, ?_, ?_⟩
  · have hcommands := congrArg (List.map Prod.snd) harrivals
    rw [List.map_map] at hcommands
    rw [(Server.spec_of_process hprocess).2, hw'.regular.flat_eq, ← hcommands]
    exact flatAfterAll_empty history
  · intro c
    obtain ⟨awaited, owed, ha⟩ := hw'.regular.attends c
    rw [map_delivery_sent]
    exact ⟨⟨awaited, ha.committed⟩, hsent c⟩

theorem replies_linearizable_getAll :
    ∃ w w', firstMoves.foldlM step start = .ok w ∧ lastMoves.foldlM step w = .ok w' ∧
      w.committed <+: w'.committed ∧
      ∃ history s replies, history.map Received.arrival = w'.committed ∧
        Server.empty.process .twoCopy history = .ok (s, replies) ∧
        s.storage.view.flat = w'.threads.storage.view.flat ∧
        ∀ c, restrict c w'.committed <+: w'.calls c ∧
          restrict c w'.threads.sent <+: (restrict c (replies.map Sent.delivery)).map .ok ∧
          (restrict c (replies.map Sent.delivery)).length ≤
            (restrict c w'.threads.sent).length + 1 :=
  replies_linearizable throughout_spares_moves

/-- No socket writes a key that another one asks for. -/
def Private (w : Sessions) : Prop :=
  ∀ c d, c ≠ d → ∀ x ∈ w.calls c, ∀ y ∈ w.calls d,
    (deserialize y).type = .setFields → (deserialize y).key ≠ (deserialize x).key

section Private

variable {w w' : Sessions} {e : Advance} {c : ℤ}

theorem Stepped.calls_isPrefix (h : Stepped w e w') (hw : w.Regular) (c : ℤ) :
    w.calls c <+: w'.calls c := by
  by_cases hc : c = e.clientSocket
  · subst hc
    obtain ⟨awaited, owed, ha⟩ := hw.attends e.clientSocket
    cases h with
    | accept _ => exact List.prefix_rfl
    | read _ =>
      rw [calls_read ha]
      exact List.prefix_append _ _
    | turn _ _ =>
      unfold proceed
      split
      · exact List.prefix_rfl
      · exact List.prefix_rfl
      · exact List.prefix_rfl
  · have h' := h.apart hc
    rw [calls, calls, h'.past, h'.reads]

theorem Private.of_isPrefix (hp : w'.Private) (hle : ∀ c, w.calls c <+: w'.calls c) : w.Private :=
  fun c d hne x hx y hy => hp c d hne x ((hle c).subset hx) y ((hle d).subset hy)

theorem Regular.exists_command (hw : w.Regular) {msg : Request}
    (hph : w.threads.phase c = .inserted msg ∨
      ∃ r seen, w.threads.phase c = .responding msg r seen) :
    ∃ command ∈ w.calls c, msg = deserialize command := by
  obtain ⟨awaited, owed, ha⟩ := hw.attends c
  have hs := ha.stands
  cases hstage : w.stage c with
  | free =>
    rw [hstage] at hs
    obtain ⟨hidle, -⟩ := stands_free hs
    simp [hidle] at hph
  | reading data =>
    rw [hstage] at hs
    obtain ⟨hidle, -⟩ := stands_reading hs
    simp [hidle] at hph
  | processing command =>
    refine ⟨command, ha.called command hstage, ?_⟩
    rw [hstage] at hs
    rcases hph with hph | ⟨r, seen, hph⟩
    · rw [hph] at hs
      exact (stands_inserted hs).1
    · rw [hph] at hs
      exact (stands_responding hs).1

/-- Clients with keys of their own spare each other's pending responses. -/
theorem spares_of_private (hw : w.Regular) (hp : w.Private) (e : Advance) : w.Spares e := by
  intro msg hph c msg' r seen hpending hkey
  obtain ⟨y, hy, rfl⟩ := hw.exists_command (Or.inl hph)
  obtain ⟨x, hx, rfl⟩ := hw.exists_command (Or.inr ⟨r, seen, hpending⟩)
  have hne : c ≠ e.clientSocket := by
    rintro rfl
    rw [hph] at hpending
    cases hpending
  exact absurd hkey.symm
    (hp c e.clientSocket hne x hx y hy (hw.linearized.consistent.inserted hph).1)

theorem throughout_of_private (hw : w.Regular) {l : List Advance} (hrun : l.foldlM step w = .ok w')
    (hp : w'.Private) : w.Private ∧ Throughout step Spares w l := by
  induction l generalizing w with
  | nil =>
    cases hrun
    exact ⟨hp, trivial⟩
  | cons e l ih =>
    obtain ⟨w₁, hstep, hstepped⟩ := stepped_of_regular hw e
    rw [run_cons hstep] at hrun
    obtain ⟨hp₁, hthroughout⟩ := ih (hstepped.regular hw) hrun
    have hpw := hp₁.of_isPrefix (hstepped.calls_isPrefix hw)
    exact ⟨hpw, .cons (spares_of_private hw hpw e) hstep hthroughout⟩

/-- What one socket is sent is allowed without the requests of the others, when these
write to other keys. -/
theorem allowsAll_restrict {build : Build} {g g' : FlatMap} {msgs : List (ℤ × Request)}
    {replies : List (ℤ × Bytes)} (hkeys : replies.map Prod.fst = msgs.map Prod.fst)
    (hother : ∀ d y, (d, y) ∈ msgs → d ≠ c → y.type = .setFields →
      ∀ x ∈ restrict c msgs, y.key ≠ x.key)
    (hg : ∀ x ∈ restrict c msgs, g x.key = g' x.key)
    (h : AllowsAll build g (msgs.map Prod.snd) (replies.map Prod.snd)) :
    AllowsAll build g' (restrict c msgs) (restrict c replies) := by
  induction msgs generalizing g g' replies with
  | nil =>
    rw [List.map_nil, List.map_eq_nil_iff] at hkeys
    rw [hkeys]
    trivial
  | cons m msgs ih =>
    obtain ⟨d, msg⟩ := m
    cases replies with
    | nil => cases h
    | cons sent replies =>
      obtain ⟨d', bytes⟩ := sent
      obtain ⟨rfl, htail⟩ : d' = d ∧ replies.map Prod.fst = msgs.map Prod.fst :=
        List.cons.inj hkeys
      obtain ⟨hbytes, hrest⟩ := h
      by_cases hc : d' = c
      · subst hc
        rw [restrict_cons_self] at hg hother ⊢
        rw [restrict_cons_self]
        refine ⟨allows_congr (hg msg (by simp)) hbytes, ih htail ?_ ?_ hrest⟩
        · intro d y hy hne ht x hx
          exact hother d y (List.mem_cons_of_mem _ hy) hne ht x (List.mem_cons_of_mem _ hx)
        · intro x hx
          -- its own request changes both contents in the same way
          by_cases ht : msg.type = .setFields
          · rw [flatAfter_of_setFields ht, flatAfter_of_setFields ht, hg msg (by simp)]
            by_cases hk : x.key = msg.key
            · rw [hk, Function.update_self, Function.update_self]
            · rw [Function.update_of_ne hk, Function.update_of_ne hk, hg x (by simp [hx])]
          · rw [flatAfter_of_ne ht, flatAfter_of_ne ht, hg x (by simp [hx])]
      · rw [restrict_cons_of_ne hc] at hg hother ⊢
        rw [restrict_cons_of_ne hc]
        refine ih htail ?_ ?_ hrest
        · intro d y hy
          exact hother d y (List.mem_cons_of_mem _ hy)
        · intro x hx
          rw [← hg x hx]
          by_cases ht : msg.type = .setFields
          · have hne := hother d' msg (by simp) hc ht x hx
            rw [flatAfter_of_setFields ht, Function.update_of_ne (Ne.symm hne)]
          · rw [flatAfter_of_ne ht]

end Private

/-- Clients that keep to keys of their own are sent what the server would send them if
they were alone, however the threads interleave. -/
theorem replies_of_private (l : List Advance) :
    ∃ w, l.foldlM step start = .ok w ∧ (w.Private → ∀ c, ∃ history s replies,
      history.map Received.arrival = (restrict c w.committed).map (fun command => (c, command)) ∧
        Server.empty.process .twoCopy history = .ok (s, replies) ∧
        restrict c w.threads.sent <+: replies.map (fun sent => .ok sent.bytes) ∧
        replies.length ≤ (restrict c w.threads.sent).length + 1) := by
  obtain ⟨w, hrun, hw⟩ := regular_start.exists_run l
  refine ⟨w, hrun, ?_⟩
  intro hp c
  obtain ⟨w', hrun', horderly, -⟩ :=
    orderly_start.exists_run (throughout_of_private regular_start hrun hp).2
  rw [hrun, Except.ok.injEq] at hrun'
  subst hrun'
  obtain ⟨replies, hkeys, hall, hsent⟩ := horderly.exists_replies
  have hcalled : ∀ d y, (d, y) ∈ w.committed → y ∈ w.calls d := by
    intro d y hy
    obtain ⟨awaited, owed, ha⟩ := hw.attends d
    rw [← ha.committed]
    exact List.mem_append_left _ (mem_restrict.mpr hy)
  let msgs : List (ℤ × Request) := w.committed.map fun e => (e.1, deserialize e.2)
  have hmsgs : ∀ d, restrict d msgs = (restrict d w.committed).map deserialize :=
    fun d => restrict_map d deserialize w.committed
  let g : FlatMap := fun _ _ => none
  -- what this client names no other client writes
  have hmine : AllowsAll .twoCopy g (restrict c msgs) (restrict c replies) := by
    refine allowsAll_restrict (g := g) ?_ ?_ (fun _ _ => rfl) ?_
    · rw [hkeys, List.map_map]
      rfl
    · intro d y hy hne ht x hx
      obtain ⟨⟨d', command⟩, hcommand, heq⟩ := List.mem_map.mp hy
      obtain ⟨rfl, rfl⟩ := Prod.ext_iff.mp heq
      rw [hmsgs] at hx
      obtain ⟨other, hother, rfl⟩ := List.mem_map.mp hx
      exact hp c d' (Ne.symm hne) other (hcalled c other (mem_restrict.mp hother)) command
        (hcalled d' command hcommand) ht
    · rw [List.map_map]
      exact hall
  rw [hmsgs] at hmine
  -- the commands of this client, and a run of theirs alone
  let mine : List (ℤ × Bytes) := (restrict c w.committed).map fun command => (c, command)
  let answers : List (ℤ × Bytes) := (restrict c replies).map fun bytes => (c, bytes)
  have hsockets : answers.map Prod.fst = mine.map Prod.fst := by
    have hlen := hmine.length_eq
    rw [List.length_map] at hlen
    simp [answers, mine, Function.comp_def, hlen]
  have hallowed : AllowsAll .twoCopy (fun _ _ => none) (mine.map fun e => deserialize e.2)
      (answers.map Prod.snd) := by
    simpa [answers, mine, Function.comp_def] using hmine
  obtain ⟨history, s, harrivals, hprocess⟩ := exists_process_of_allowsAll hsockets hallowed
  refine ⟨history, s, _, harrivals, hprocess, ?_, ?_⟩
  · simpa [answers, Function.comp_def, Sent.ofDelivery] using (hsent c).1
  · simpa [answers] using (hsent c).2

def ownKeys : List Advance :=
  [move 4, receive 4 "SET_FIELDS k a=1", move 5, receive 5 "SET_FIELDS m a=2", move 4, move 5,
    move 4, move 5, move 5, receive 5 "GETALL m", move 5, move 4, move 5]

theorem calls_ownKeys : ∃ w, ownKeys.foldlM step start = .ok w ∧
    w.calls 4 = [ascii "SET_FIELDS k a=1"] ∧
    w.calls 5 = [ascii "SET_FIELDS m a=2", ascii "GETALL m"] ∧
    ∀ c, c ≠ 4 → c ≠ 5 → w.calls c = [] := by
  refine ⟨_, rfl, rfl, rfl, ?_⟩
  intro c h4 h5
  have hnil : ∀ l : List ReadResult, l = [] → ([] ++ [l]).flatMap (handleClient []) = [] := by
    rintro _ rfl
    rfl
  exact hnil _ ((Function.update_of_ne h5 ..).trans
    ((Function.update_of_ne h5 ..).trans (Function.update_of_ne h4 ..)))

theorem private_ownKeys : ∃ w, ownKeys.foldlM step start = .ok w ∧ w.Private := by
  obtain ⟨w, hrun, h4, h5, hnil⟩ := calls_ownKeys
  have hkey : ∀ c, ∀ x ∈ w.calls c, c = 4 ∧ (deserialize x).key = ascii "k" ∨
      c = 5 ∧ (deserialize x).key = ascii "m" := by
    intro c x hx
    by_cases hc4 : c = 4
    · subst hc4
      rw [h4, List.mem_singleton] at hx
      subst hx
      exact Or.inl ⟨rfl, by decide⟩
    · by_cases hc5 : c = 5
      · subst hc5
        rw [h5] at hx
        rcases List.mem_pair.mp hx with rfl | rfl
        · exact Or.inr ⟨rfl, by decide⟩
        · exact Or.inr ⟨rfl, by decide⟩
      · rw [hnil c hc4 hc5] at hx
        exact absurd hx List.not_mem_nil
  refine ⟨w, hrun, ?_⟩
  intro c d hne x hx y hy _
  rcases hkey c x hx with ⟨rfl, hkx⟩ | ⟨rfl, hkx⟩
  · rcases hkey d y hy with ⟨rfl, hky⟩ | ⟨rfl, hky⟩
    · exact absurd rfl hne
    · rw [hkx, hky]
      decide
  · rcases hkey d y hy with ⟨rfl, hky⟩ | ⟨rfl, hky⟩
    · rw [hkx, hky]
      decide
    · exact absurd rfl hne

theorem replies_of_private_ownKeys :
    ∃ w, ownKeys.foldlM step start = .ok w ∧ ∀ c, ∃ history s replies,
      history.map Received.arrival = (restrict c w.committed).map (fun command => (c, command)) ∧
        Server.empty.process .twoCopy history = .ok (s, replies) ∧
        restrict c w.threads.sent <+: replies.map (fun sent => .ok sent.bytes) ∧
        replies.length ≤ (restrict c w.threads.sent).length + 1 := by
  obtain ⟨w, hrun, h⟩ := replies_of_private ownKeys
  obtain ⟨w', hrun', hp⟩ := private_ownKeys
  rw [hrun, Except.ok.injEq] at hrun'
  subst hrun'
  exact ⟨w, hrun, h hp⟩

end Sessions

end MuStore
