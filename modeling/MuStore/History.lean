import MuStore.Server

namespace MuStore

open Protocol Server

def dropQuotes (value : Bytes) : Bytes :=
  if value.head? = some quote ∧ value.getLast? = some quote then value.tail.dropLast else value

def pairOf (token : Bytes) : Option (Σ _ : Bytes, Bytes) :=
  if kvSep ∈ token then
    some ⟨token.takeWhile (· != kvSep), dropQuotes (token.dropWhile (· != kvSep)).tail⟩
  else none

/-- The pairs that a command writes under a key, in order. -/
def writesTo (key : Bytes) (command : Bytes) : List (Σ _ : Bytes, Bytes) :=
  match words isSpace command with
  | name :: k :: tokens =>
    if name = ascii "SET_FIELDS" ∧ k = key then tokens.filterMap pairOf else []
  | _ => []

/-- The value in the last pair for a field of a key. -/
def lastWrite (history : List Bytes) (key : Bytes) : Bytes → Option Bytes :=
  fun f => (history.flatMap (writesTo key)).reverse.dlookup f

example : lastWrite
    [ascii "SET_FIELDS k a=1 b=\"\" a=\"2\"", ascii "GETALL k", ascii "SET_FIELDS j a=3"]
    (ascii "k") (ascii "a") = some (ascii "2") := by decide

theorem unquote_eq_dropQuotes (value : Bytes) : unquote value = dropQuotes value := by
  unfold unquote dropQuotes substr
  congr 1
  rw [List.dropLast_eq_take, List.length_tail, ← List.drop_one]
  congr 1

theorem parsePair_eq_pairOf (token : Bytes) : parsePair token = pairOf token := by
  by_cases ht : kvSep ∈ token
  · obtain ⟨field, value, rfl, hf⟩ := List.eq_append_cons_of_mem ht
    have hall : ∀ b ∈ field, (b != kvSep) = true := by
      intro b hb
      rw [bne_iff_ne]
      rintro rfl
      exact hf hb
    rw [parsePair_append hf, pairOf, if_pos ht, List.takeWhile_append_of_pos hall,
      List.dropWhile_append_of_pos hall, List.takeWhile_cons_of_neg (by simp),
      List.dropWhile_cons_of_neg (by simp), List.append_nil, List.tail_cons, unquote_eq_dropQuotes]
  · rw [parsePair_of_notMem ht, pairOf, if_neg ht]

theorem pairs_eq (tokens : List Bytes) : pairs tokens = tokens.filterMap pairOf := by
  unfold pairs
  congr 1
  funext token
  exact parsePair_eq_pairOf token

/-- One command assigns its pairs one after another, and nothing else. -/
theorem flatAfter_eq_assignAll (g : FlatMap) (command key : Bytes) :
    flatAfter g (deserialize command) key = assignAll (writesTo key command) (g key) := by
  rw [deserialize_eq, writesTo]
  cases words isSpace command with
  | nil => rfl
  | cons name args =>
    by_cases hset : name = ascii "SET_FIELDS"
    · subst hset
      rw [ofWords_setFields, pairs_eq]
      cases args with
      | nil =>
        -- a command that names no key sets the empty key, and has no pairs
        by_cases hk : key = []
        · subst hk
          simp [flatAfter, Function.update_self]
        · simp [flatAfter, Function.update_of_ne hk]
      | cons k tokens =>
        by_cases hk : key = k
        · subst hk
          funext f
          simp only [flatAfter, List.headD_cons, Function.update_self, List.tail_cons, and_self,
            if_true, lookup_foldl_pairs, assignAll_eq_dlookup_reverse]
        · simp [flatAfter, Function.update_of_ne hk, Ne.symm hk]
    · have hother : (ofWords (name :: args)).type ≠ .setFields := by
        unfold ofWords
        simp only [if_neg hset]
        split_ifs <;> simp
      rw [flatAfter_of_ne hother]
      cases args with
      | nil => rfl
      | cons k tokens => simp [hset]

theorem flatAfterAll_eq_assignAll (g : FlatMap) (l : List Received) (key : Bytes) :
    flatAfterAll g l key = assignAll ((l.map Received.command).flatMap (writesTo key)) (g key) := by
  induction l generalizing g with
  | nil => rfl
  | cons c l ih =>
    change flatAfterAll (flatAfter g (deserialize c.command)) l key = _
    rw [ih, List.map_cons, List.flatMap_cons, assignAll_append, flatAfter_eq_assignAll]

theorem flatAfterAll_empty (l : List Received) :
    flatAfterAll Storage.empty.view.flat l = lastWrite (l.map Received.command) := by
  funext key f
  rw [flatAfterAll_eq_assignAll, assignAll_eq_dlookup_reverse, lastWrite]
  exact Option.or_none

/-- From the empty store every history runs, and leaves its last writes. -/
theorem process_lastWrite (build : Build) (history : List Received) :
    ∃ s replies, Server.empty.process build history = .ok (s, replies) ∧ s.storage.Owned ∧
      ∀ key, s.storage.view.flat key = lastWrite (history.map Received.command) key := by
  obtain ⟨s, replies, hrun, ho, hflat⟩ := process_spec build owned_storage_empty history
  refine ⟨s, replies, hrun, ho, ?_⟩
  intro key
  rw [hflat]
  exact congrFun (flatAfterAll_empty history) key

def getAllReply (l : List (Σ _ : Bytes, Bytes)) (key : Bytes) : Bytes :=
  if l = [] then ascii "0 Error\n"
  else decimal l.length ++ [space] ++ (l.map Sigma.snd).flatten ++ key ++ [newline]

theorem encode_getAll {l : List (Σ _ : Bytes, Bytes)} (hl : l ≠ []) (key : Bytes) :
    encode .twoCopy .getAll l key = getAllReply l key := by
  simp [encode, carried, getAllReply, hl]

theorem processCommand_getAll {s : Server} (ho : s.storage.Owned) (c : Received)
    {args : List Bytes} (hc : words isSpace c.command = ascii "GETALL" :: args) :
    ∃ iovecs, s.processCommand .twoCopy c = .ok (⟨s.storage, iovecs⟩, ⟨c.clientSocket,
      getAllReply (c.choices.pointers.deref s.storage.heap (s.storage.kv.getFields (args.headD [])))
        (args.headD [])⟩) := by
  have hmsg : deserialize c.command = ⟨.getAll, args.headD [], ∅, []⟩ := by
    rw [deserialize_getAll hc]
  have ht : (deserialize c.command).type = .getAll := by rw [hmsg]
  have ha := answers_getAll ho c.clientSocket ht
  have hr : respond c.choices s.storage (deserialize c.command) c.clientSocket =
      .ok (s.storage, getAllResponse (deserialize c.command)
        (s.storage.kv.getFields (deserialize c.command).key) c.clientSocket) := by
    simp only [respond, hmsg]
    rfl
  obtain ⟨iovecs, hcmd⟩ :=
    processCommand_of_respond .twoCopy hr ha.live ha.fieldNames ha.clientSocket
  have hen := c.choices.pointers.enumerates_deref ha.live
  rw [ha.fields] at hen
  rw [fields_getAllResponse] at hcmd hen
  have hfails : Fails s.storage.view.flat (deserialize c.command) ↔
      c.choices.pointers.deref s.storage.heap
        (s.storage.kv.getFields (deserialize c.command).key) = [] := by
    rw [hen.eq_nil_iff, hmsg, Fails, requested]
  refine ⟨iovecs, ?_⟩
  rw [hcmd]
  by_cases hf : Fails s.storage.view.flat (deserialize c.command)
  · obtain ⟨ht, hk⟩ := ha.error hf
    rw [ht, hk, hfails.mp hf]
    have hnil := hfails.mp hf
    rw [hmsg] at hnil
    rw [hnil]
    rfl
  · obtain ⟨ht, hk⟩ := ha.success hf
    rw [ht, hk, hmsg]
    have hne := fun h => hf (hfails.mpr h)
    rw [hmsg] at hne
    rw [RequestType.toResponseType, encode_getAll hne]

theorem enumerates_getAll {s : Storage} (ho : s.Owned) (o : IterOrder Bytes Addr) (key : Bytes) :
    Enumerates (o.deref s.heap (s.kv.getFields key)) (s.view.flat key) := by
  have hen := o.enumerates_deref (live_getFields ho key)
  rwa [KVStore.pointees_getFields] at hen

/-- Last write wins, end to end: after any history the reply to `GETALL` counts,
concatenates and names exactly the last writes of the key. -/
theorem getAll_reply_lastWrite (history : List Received) (c : Received) (args : List Bytes)
    (hc : words isSpace c.command = ascii "GETALL" :: args) :
    ∃ s replies s' l, Server.empty.process .twoCopy history = .ok (s, replies) ∧
      s.processCommand .twoCopy c = .ok (s', ⟨c.clientSocket, getAllReply l (args.headD [])⟩) ∧
      Enumerates l (lastWrite (history.map Received.command) (args.headD [])) := by
  obtain ⟨s, replies, hrun, ho, hlast⟩ := process_lastWrite .twoCopy history
  obtain ⟨iovecs, hcmd⟩ := processCommand_getAll ho c hc
  refine ⟨s, replies, _, _, hrun, hcmd, ?_⟩
  rw [← hlast]
  exact enumerates_getAll ho c.choices.pointers (args.headD [])

theorem getAll_reply_lastWrite_update :
    ∃ s replies s' l, Server.empty.process .twoCopy
        [⟨Choices.plain, 4, ascii "SET_FIELDS k a=1 b=2"⟩,
          ⟨Choices.plain, 5, ascii "SET_FIELDS k a=\"3\""⟩] = .ok (s, replies) ∧
      s.processCommand .twoCopy ⟨Choices.plain, 4, ascii "GETALL k\n"⟩ =
        .ok (s', ⟨4, getAllReply l (ascii "k")⟩) ∧
      Enumerates l (lastWrite [ascii "SET_FIELDS k a=1 b=2", ascii "SET_FIELDS k a=\"3\""]
        (ascii "k")) :=
  getAll_reply_lastWrite _ ⟨Choices.plain, 4, ascii "GETALL k\n"⟩ [ascii "k"] (by decide)

end MuStore
