import MuStore.Protocol
import MuStore.Serializer

namespace MuStore

def RequestType.toResponseType : RequestType → ResponseType
  | .setFields => .setFields
  | .getAll => .getAll
  | .getFields => .getFields
  | .invalid => .response

def Response.toError (r : Response) : Response :=
  { r with type := .response, key := ascii "Error" }

namespace Storage

def insert (s : Storage) (key : Bytes) : Storage := ⟨s.heap, (s.kv.insert key).1⟩

def setFields (ch : Choices) (s : Storage) (key : Bytes) (fields : UnorderedMap Bytes Bytes) :
    Except MemFault (Storage × Bool) := do
  let (h, kv, success) ← s.kv.setFields ch s.heap key fields
  pure (⟨h, kv⟩, success)

end Storage

namespace Server

def invalidResponse (clientSocket : ℤ) : Response :=
  ⟨.response, ascii "Error", ∅, [], clientSocket⟩

def setFieldsResponse (msg : Request) (success : Bool) (clientSocket : ℤ) : Response :=
  let response : Response := ⟨.setFields, msg.key, ∅, [], clientSocket⟩
  if success then response else response.toError

def getAllResponse (msg : Request) (fields : UnorderedMap Bytes Addr) (clientSocket : ℤ) :
    Response :=
  let response : Response := ⟨.getAll, msg.key, fields, [], clientSocket⟩
  let response :=
    if fields.entries.any fun e => e.2 == null then response.toError else response
  if fields.size = 0 then response.toError else response

/-- The response to `GET_FIELDS`. Nothing is assigned to `response.fieldNames`. -/
def getFieldsResponse (msg : Request) (fields : UnorderedMap Bytes Addr) (clientSocket : ℤ) :
    Response :=
  let response : Response := ⟨.getFields, msg.key, fields, [], clientSocket⟩
  if fields.size = 0 ∨ fields.size ≠ msg.fieldNames.length then response.toError else response

/-- `processCommand` between `deserialize` and `serializeAndSend`. The `default`
branch of the `switch` is left out: an invalid request has returned before it. -/
def respond (ch : Choices) (s : Storage) (msg : Request) (clientSocket : ℤ) :
    Except MemFault (Storage × Response) :=
  match msg.type with
  | .invalid => pure (s, invalidResponse clientSocket)
  | .setFields => do
    let (s, success) ← (s.insert msg.key).setFields ch msg.key msg.fields
    pure (s, setFieldsResponse msg success clientSocket)
  | .getAll => pure (s, getAllResponse msg (s.kv.getFields msg.key) clientSocket)
  | .getFields =>
    pure (s, getFieldsResponse msg (s.kv.getSelectedFields msg.key msg.fieldNames) clientSocket)

end Server

/-- The builds that send text. -/
inductive Build where
  | twoCopy
  | oneCopy
  | zeroCopy
  deriving DecidableEq, Repr

/-- `Protocol::serializeAndSend`: the table of the process-wide `IOVecSerializer`
afterwards, which the two-copy build does not have, and the bytes sent. -/
def Protocol.serializeAndSend (build : Build) (o : IterOrder Bytes Addr) (h : Heap Bytes)
    (iovecs : List Iovec) (msg : Response) : List Iovec × Except SerializeError Bytes :=
  match build with
  | .twoCopy => (iovecs, TwoCopySerializer.serialize o h msg)
  | .oneCopy => IOVecSerializer.serialize o h iovecs msg
  | .zeroCopy => IOVecSerializer.serialize o h iovecs msg

structure Sent where
  clientSocket : ℤ
  bytes : Bytes
  deriving DecidableEq, Repr

structure Received where
  choices : Choices
  clientSocket : ℤ
  command : Bytes

structure Server where
  storage : Storage
  iovecs : List Iovec

namespace Server

def empty : Server := ⟨Storage.empty, []⟩

def processCommand (build : Build) (s : Server) (r : Received) :
    Except SerializeError (Server × Sent) := do
  let msg := Protocol.deserialize r.command
  let (storage, response) ← (respond r.choices s.storage msg r.clientSocket).mapError .memory
  let (iovecs, sent) :=
    Protocol.serializeAndSend build r.choices.pointers storage.heap s.iovecs response
  let bytes ← sent
  pure (⟨storage, iovecs⟩, ⟨response.clientSocket, bytes⟩)

def process (build : Build) (s : Server) :
    List Received → Except SerializeError (Server × List Sent)
  | [] => pure (s, [])
  | r :: rest => do
    let (s, sent) ← s.processCommand build r
    let (s, replies) ← s.process build rest
    pure (s, sent :: replies)

/-- Fields of keys, keys without fields being invisible. -/
abbrev FlatMap := Bytes → Bytes → Option Bytes

def flatAfter (g : FlatMap) (msg : Request) : FlatMap :=
  match msg.type with
  | .setFields => Function.update g msg.key fun f => (msg.fields.lookup f).or (g msg.key f)
  | _ => g

theorem flatAfter_of_setFields {msg : Request} (ht : msg.type = .setFields) (g : FlatMap) :
    flatAfter g msg =
      Function.update g msg.key fun f => (msg.fields.lookup f).or (g msg.key f) := by
  rw [flatAfter, ht]

theorem flatAfter_of_ne {msg : Request} (ht : msg.type ≠ .setFields) (g : FlatMap) :
    flatAfter g msg = g := by
  unfold flatAfter
  split
  · exact absurd ‹_› ht
  · rfl

def requested (g : FlatMap) (msg : Request) : Bytes → Option Bytes :=
  match msg.type with
  | .getAll => g msg.key
  | .getFields => NestedMap.select msg.fieldNames (g msg.key)
  | _ => fun _ => none

def Fails (g : FlatMap) (msg : Request) : Prop :=
  match msg.type with
  | .invalid => True
  | .setFields => False
  | .getAll => ∀ f, g msg.key f = none
  | .getFields =>
    ¬(msg.fieldNames ≠ [] ∧ msg.fieldNames.Nodup ∧ ∀ f ∈ msg.fieldNames, g msg.key f ≠ none)

/-- The response that the flat contents call for, its pointers live on the heap. -/
structure Answers (g : FlatMap) (msg : Request) (clientSocket : ℤ) (h : Heap Bytes)
    (r : Response) : Prop where
  live : Live h r.fields
  fields : KVStore.pointees h r.fields = requested g msg
  fieldNames : r.fieldNames = []
  clientSocket : r.clientSocket = clientSocket
  error : Fails g msg → r.type = .response ∧ r.key = ascii "Error"
  success : ¬Fails g msg → r.type = msg.type.toResponseType ∧ r.key = msg.key

section Sections

variable {s : Storage} {msg : Request}

theorem pointees_empty (h : Heap Bytes) : KVStore.pointees h ∅ = fun _ => none := rfl

theorem live_empty (h : Heap Bytes) : Live h ∅ := by
  intro f a hf
  cases hf

theorem answers_invalid (g : FlatMap) (h : Heap Bytes) (clientSocket : ℤ)
    (ht : msg.type = .invalid) : Answers g msg clientSocket h (invalidResponse clientSocket) where
  live := live_empty h
  fields := by simp only [invalidResponse, pointees_empty, requested, ht]
  fieldNames := rfl
  clientSocket := rfl
  error _ := ⟨rfl, rfl⟩
  success hf := by
    simp only [Fails, ht, not_true_eq_false] at hf

theorem answers_setFields (g : FlatMap) (h : Heap Bytes) (clientSocket : ℤ)
    (ht : msg.type = .setFields) :
    Answers g msg clientSocket h (setFieldsResponse msg true clientSocket) where
  live := live_empty h
  fields := by simp only [setFieldsResponse, if_pos, pointees_empty, requested, ht]
  fieldNames := rfl
  clientSocket := rfl
  error hf := by simp only [Fails, ht] at hf
  success _ := ⟨by rw [ht]; rfl, rfl⟩

theorem live_of_cell (ho : s.Owned) {key : Bytes} {fields : UnorderedMap Bytes Addr}
    (hc : ∀ f a, fields.lookup f = some a → s.kv.cell (key, f) = some a) : Live s.heap fields :=
  fun f a hf => ho.live (hc f a hf)

theorem live_getFields (ho : s.Owned) (key : Bytes) : Live s.heap (s.kv.getFields key) :=
  live_of_cell ho fun f a hf => by rwa [KVStore.lookup_getFields] at hf

@[simp] theorem fields_getAllResponse (msg : Request) (fields : UnorderedMap Bytes Addr)
    (clientSocket : ℤ) : (getAllResponse msg fields clientSocket).fields = fields := by
  unfold getAllResponse
  simp only
  split_ifs <;> rfl

@[simp] theorem fields_getFieldsResponse (msg : Request) (fields : UnorderedMap Bytes Addr)
    (clientSocket : ℤ) : (getFieldsResponse msg fields clientSocket).fields = fields := by
  unfold getFieldsResponse
  split_ifs <;> rfl

theorem answers_getAll (ho : s.Owned) (clientSocket : ℤ) (ht : msg.type = .getAll) :
    Answers s.view.flat msg clientSocket s.heap
      (getAllResponse msg (s.kv.getFields msg.key) clientSocket) := by
  have hc : ∀ f a, (s.kv.getFields msg.key).lookup f = some a → s.kv.cell (msg.key, f) = some a :=
    fun f a hf => by rwa [KVStore.lookup_getFields] at hf
  -- the store holds no null pointer, so the loop over the fields finds none
  have hnull : ((s.kv.getFields msg.key).entries.any fun e => e.2 == null) = false := by
    rw [List.any_eq_false]
    rintro ⟨f, a⟩ hm
    have hf := hc f a (AList.mem_lookup_iff.mpr hm)
    simpa using ho.nonnull hf
  have hsize : (s.kv.getFields msg.key).size = 0 ↔ ∀ f, s.view.flat msg.key f = none := by
    rw [UnorderedMap.size_eq_zero_iff]
    apply forall_congr'
    intro f
    rw [KVStore.lookup_getFields, Storage.view, KVStore.flat_view, contents_eq_none_iff ho]
  have hresp : getAllResponse msg (s.kv.getFields msg.key) clientSocket =
      if (s.kv.getFields msg.key).size = 0 then
        ⟨.response, ascii "Error", s.kv.getFields msg.key, [], clientSocket⟩
      else ⟨.getAll, msg.key, s.kv.getFields msg.key, [], clientSocket⟩ := by
    simp only [getAllResponse, hnull, Bool.false_eq_true, if_false]
    rfl
  have hfails : Fails s.view.flat msg ↔ (s.kv.getFields msg.key).size = 0 := by
    rw [hsize, Fails, ht]
  refine ⟨?_, ?_, ?_, ?_, ?_, ?_⟩
  · rw [fields_getAllResponse]
    exact live_getFields ho msg.key
  · rw [fields_getAllResponse, KVStore.pointees_getFields, requested, ht]
    rfl
  · rw [hresp]
    split_ifs <;> rfl
  · rw [hresp]
    split_ifs <;> rfl
  · intro hf
    rw [hresp, if_pos (hfails.mp hf)]
    exact ⟨rfl, rfl⟩
  · intro hf
    rw [hresp, if_neg (fun h => hf (hfails.mpr h)), ht]
    exact ⟨rfl, rfl⟩

theorem answers_getFields (ho : s.Owned) (clientSocket : ℤ) (ht : msg.type = .getFields) :
    Answers s.view.flat msg clientSocket s.heap
      (getFieldsResponse msg (s.kv.getSelectedFields msg.key msg.fieldNames) clientSocket) := by
  have hlook := fun f => s.kv.lookup_getSelectedFields msg.key msg.fieldNames f
  have hc : ∀ f a, (s.kv.getSelectedFields msg.key msg.fieldNames).lookup f = some a →
      s.kv.cell (msg.key, f) = some a := by
    intro f a hf
    rw [hlook] at hf
    split_ifs at hf
    exact hf
  have hnone : ∀ f ∈ msg.fieldNames,
      ((s.kv.getSelectedFields msg.key msg.fieldNames).lookup f = none ↔
        s.view.flat msg.key f = none) := by
    intro f hf
    rw [hlook, if_pos hf, Storage.view, KVStore.flat_view, contents_eq_none_iff ho]
  have hnames : ∀ f, (s.kv.getSelectedFields msg.key msg.fieldNames).lookup f ≠ none →
      f ∈ msg.fieldNames := by
    intro f hf
    by_contra hmem
    rw [hlook, if_neg hmem] at hf
    exact hf rfl
  -- the sizes agree exactly when the names are distinct and all of them are there
  have hsize := UnorderedMap.size_eq_length_iff hnames
  have hfails : Fails s.view.flat msg ↔
      ((s.kv.getSelectedFields msg.key msg.fieldNames).size = 0 ∨
        (s.kv.getSelectedFields msg.key msg.fieldNames).size ≠ msg.fieldNames.length) := by
    rw [Fails, ht]
    simp only
    rw [← not_iff_not, not_not, not_or, not_not, hsize]
    constructor
    · rintro ⟨hne, hnd, hall⟩
      have hall' : ∀ f ∈ msg.fieldNames,
          (s.kv.getSelectedFields msg.key msg.fieldNames).lookup f ≠ none :=
        fun f hf => fun h => hall f hf ((hnone f hf).mp h)
      refine ⟨?_, hnd, hall'⟩
      rw [hsize.mpr ⟨hnd, hall'⟩, List.length_eq_zero_iff]
      exact hne
    · rintro ⟨hpos, hnd, hall⟩
      refine ⟨?_, hnd, fun f hf => fun h => hall f hf ((hnone f hf).mpr h)⟩
      rintro hnil
      rw [hsize.mpr ⟨hnd, hall⟩, hnil] at hpos
      exact hpos rfl
  refine ⟨?_, ?_, ?_, ?_, ?_, ?_⟩
  · rw [fields_getFieldsResponse]
    exact live_of_cell ho hc
  · rw [fields_getFieldsResponse, KVStore.pointees_getSelectedFields, requested, ht]
    rfl
  · unfold getFieldsResponse
    split_ifs <;> rfl
  · unfold getFieldsResponse
    split_ifs <;> rfl
  · intro hf
    rw [getFieldsResponse, if_pos (hfails.mp hf)]
    exact ⟨rfl, rfl⟩
  · intro hf
    rw [getFieldsResponse, if_neg (fun h => hf (hfails.mpr h)), ht]
    exact ⟨rfl, rfl⟩

end Sections

end Server

namespace Storage

variable {s : Storage}

theorem insert_spec (ho : s.Owned) (key : Bytes) :
    (s.insert key).Owned ∧ (s.insert key).view.flat = s.view.flat ∧
      ∀ k, ((s.insert key).view k).isSome = (decide (k = key) || (s.view k).isSome) := by
  obtain ⟨ho', heq⟩ := KVStore.insert_spec ho key
  have hv : (s.insert key).view = (s.view.insert key).1 := (Prod.ext_iff.mp heq).1
  refine ⟨ho', ?_, ?_⟩
  · rw [hv, NestedMap.flat_insert]
  · intro k
    rw [hv, NestedMap.isSome_insert]

theorem setFields_spec (ch : Choices) (ho : s.Owned) {key : Bytes}
    (hk : (s.view key).isSome = true) (fields : UnorderedMap Bytes Bytes) :
    ∃ s', s.setFields ch key fields = .ok (s', true) ∧ s'.Owned ∧
      s'.view.flat = Function.update s.view.flat key
        (fun f => (fields.lookup f).or (s.view.flat key f)) ∧
      ∀ k, (s'.view k).isSome = (s.view k).isSome := by
  obtain ⟨h', kv', b, hset, ho', heq⟩ := KVStore.setFields_spec ch ho key fields
  have hv : Storage.view ⟨h', kv'⟩ = (s.view.setFields key fun f => fields.lookup f).1 :=
    (Prod.ext_iff.mp heq).1
  have hb : b = (s.view.setFields key fun f => fields.lookup f).2 := (Prod.ext_iff.mp heq).2
  rw [NestedMap.setFields, NestedMap.modify_of_isSome _ hk] at hb
  subst hb
  refine ⟨⟨h', kv'⟩, by rw [setFields, hset]; rfl, ho', ?_, ?_⟩
  · rw [hv, NestedMap.setFields, NestedMap.flat_modify _ hk]
  · intro k
    rw [hv, NestedMap.setFields, NestedMap.isSome_modify]

theorem cell_insert (s : Storage) (key : Bytes) : (s.insert key).kv.cell = s.kv.cell :=
  KVStore.cell_insert s.kv key

theorem setFields_eq_ok {ch : Choices} {s' : Storage} {key : Bytes}
    {fields : UnorderedMap Bytes Bytes} {b : Bool} (hs : s.setFields ch key fields = .ok (s', b)) :
    s.kv.setFields ch s.heap key fields = .ok (s'.heap, s'.kv, b) := by
  unfold setFields at hs
  obtain ⟨r, hset, hs'⟩ := bind_eq_ok.mp hs
  cases hs'
  exact hset

theorem cell_of_setFields {ch : Choices} {s' : Storage} {key k f : Bytes}
    {fields : UnorderedMap Bytes Bytes} {b : Bool}
    (hs : s.setFields ch key fields = .ok (s', b)) (hf : k = key → fields.lookup f = none) :
    s'.kv.cell (k, f) = s.kv.cell (k, f) :=
  KVStore.cell_of_setFields (setFields_eq_ok hs) hf

theorem lookup_heap_of_setFields {ch : Choices} {s' : Storage} {key x : Bytes}
    {fields : UnorderedMap Bytes Bytes} {b : Bool} {a : Addr}
    (hs : s.setFields ch key fields = .ok (s', b)) (ha : s.heap.lookup a = some x)
    (hne : ∀ f, fields.lookup f ≠ none → s.kv.cell (key, f) ≠ some a) :
    s'.heap.lookup a = some x :=
  KVStore.lookup_heap_of_setFields (setFields_eq_ok hs) ha hne

end Storage

namespace Server

variable {s : Storage}

/-- A request never touches a dead address, changes the flat contents as
`flatAfter` says, and is answered from what they were. -/
theorem respond_spec (ch : Choices) (ho : s.Owned) (msg : Request) (clientSocket : ℤ) :
    ∃ s' r, respond ch s msg clientSocket = .ok (s', r) ∧ s'.Owned ∧
      s'.view.flat = flatAfter s.view.flat msg ∧
      Answers s.view.flat msg clientSocket s'.heap r := by
  cases ht : msg.type with
  | invalid =>
    refine ⟨s, invalidResponse clientSocket, by simp only [respond, ht]; rfl, ho, ?_,
      answers_invalid _ _ _ ht⟩
    rw [flatAfter_of_ne (by simp [ht])]
  | setFields =>
    obtain ⟨ho₁, hflat₁, hkeys₁⟩ := Storage.insert_spec ho msg.key
    -- the key exists after `insert`, so `setFields` returns true
    have hk : ((s.insert msg.key).view msg.key).isSome = true := by simp [hkeys₁]
    obtain ⟨s', hset, ho', hflat', -⟩ := Storage.setFields_spec ch ho₁ hk msg.fields
    refine ⟨s', setFieldsResponse msg true clientSocket, ?_, ho', ?_, answers_setFields _ _ _ ht⟩
    · simp only [respond, ht, hset]
      rfl
    · rw [hflat', hflat₁, flatAfter_of_setFields ht]
  | getAll =>
    refine ⟨s, _, by simp only [respond, ht]; rfl, ho, ?_, answers_getAll ho clientSocket ht⟩
    rw [flatAfter_of_ne (by simp [ht])]
  | getFields =>
    refine ⟨s, _, by simp only [respond, ht]; rfl, ho, ?_, answers_getFields ho clientSocket ht⟩
    rw [flatAfter_of_ne (by simp [ht])]

theorem spec_of_respond {ch : Choices} (ho : s.Owned) {clientSocket : ℤ} {s' : Storage}
    {r : Response} (hr : respond ch s msg clientSocket = .ok (s', r)) :
    s'.Owned ∧ s'.view.flat = flatAfter s.view.flat msg ∧
      Answers s.view.flat msg clientSocket s'.heap r := by
  obtain ⟨t, r', hr', hspec⟩ := respond_spec ch ho msg clientSocket
  rw [hr, Except.ok.injEq, Prod.mk.injEq] at hr'
  obtain ⟨rfl, rfl⟩ := hr'
  exact hspec

/-- The fields whose values a reply carries: the serializers loop over
`fieldNames` for `GET_FIELDS`, and that list is empty. -/
def carried (t : ResponseType) (l : List (Σ _ : Bytes, Bytes)) : List (Σ _ : Bytes, Bytes) :=
  if t = .getFields then [] else l

/-- The bytes of a reply: only the two-copy build counts the values. -/
def encode (build : Build) (t : ResponseType) (l : List (Σ _ : Bytes, Bytes)) (key : Bytes) :
    Bytes :=
  (if build = .twoCopy then decimal (carried t l).length ++ [space] else []) ++
    ((carried t l).map Sigma.snd).flatten ++ key ++ [newline]

theorem serializeAndSend_spec (build : Build) (o : IterOrder Bytes Addr) {h : Heap Bytes}
    (iovecs : List Iovec) {r : Response} (hl : Live h r.fields) (hn : r.fieldNames = []) :
    (Protocol.serializeAndSend build o h iovecs r).2 =
      .ok (encode build r.type (o.deref h r.fields) r.key) := by
  by_cases ht : r.type = .getFields
  · have htwo := TwoCopySerializer.serialize_of_getFields (h := h) o ht hn
    have hvec := IOVecSerializer.serialize_of_getFields (h := h) o ht hn iovecs
    cases build <;> simp [Protocol.serializeAndSend, htwo, hvec, encode, carried, ht]
  · have htwo := TwoCopySerializer.serialize_of_ne_getFields o hl ht
    have hvec := IOVecSerializer.serialize_of_ne_getFields o hl ht iovecs
    cases build <;> simp [Protocol.serializeAndSend, htwo, hvec, encode, carried, ht]

theorem processCommand_of_respond (build : Build) {s : Server} {c : Received} {st : Storage}
    {r : Response}
    (hr : respond c.choices s.storage (Protocol.deserialize c.command) c.clientSocket =
      .ok (st, r))
    (hl : Live st.heap r.fields) (hn : r.fieldNames = []) (hs : r.clientSocket = c.clientSocket) :
    ∃ iovecs, s.processCommand build c = .ok (⟨st, iovecs⟩, ⟨c.clientSocket,
      encode build r.type (c.choices.pointers.deref st.heap r.fields) r.key⟩) := by
  have hsend := serializeAndSend_spec build c.choices.pointers s.iovecs hl hn
  cases hser : Protocol.serializeAndSend build c.choices.pointers st.heap s.iovecs r with
  | mk iovecs sent =>
    rw [hser] at hsend
    have hsent :
        sent = .ok (encode build r.type (c.choices.pointers.deref st.heap r.fields) r.key) :=
      hsend
    subst hsent
    refine ⟨iovecs, ?_⟩
    rw [processCommand, hr]
    simp only [Except.mapError, bind, Except.bind, hser, hs]
    rfl

/-- One command: no fault, the flat contents change as the request says, and
the reply goes back to the client. -/
theorem processCommand_spec (build : Build) {s : Server} (ho : s.storage.Owned) (c : Received) :
    ∃ s' r, s.processCommand build c = .ok (s', ⟨c.clientSocket,
        encode build r.type (c.choices.pointers.deref s'.storage.heap r.fields) r.key⟩) ∧
      s'.storage.Owned ∧
      s'.storage.view.flat = flatAfter s.storage.view.flat (Protocol.deserialize c.command) ∧
      Answers s.storage.view.flat (Protocol.deserialize c.command) c.clientSocket
        s'.storage.heap r := by
  obtain ⟨st, r, hresp, ho', hflat, ha⟩ :=
    respond_spec c.choices ho (Protocol.deserialize c.command) c.clientSocket
  obtain ⟨iovecs, hcmd⟩ :=
    processCommand_of_respond build hresp ha.live ha.fieldNames ha.clientSocket
  exact ⟨⟨st, iovecs⟩, r, hcmd, ho', hflat, ha⟩

def flatAfterAll (g : FlatMap) (l : List Received) : FlatMap :=
  l.foldl (fun g c => flatAfter g (Protocol.deserialize c.command)) g

theorem process_cons_of_ok {build : Build} {s s₁ s₂ : Server} {c : Received} {sent : Sent}
    {l : List Received} {replies : List Sent} (hcmd : s.processCommand build c = .ok (s₁, sent))
    (hrest : s₁.process build l = .ok (s₂, replies)) :
    s.process build (c :: l) = .ok (s₂, sent :: replies) := by
  rw [process, hcmd]
  change (do let (s, replies) ← s₁.process build l; pure (s, sent :: replies)) = _
  rw [hrest]
  rfl

theorem process_spec (build : Build) {s : Server} (ho : s.storage.Owned) (l : List Received) :
    ∃ s' replies, s.process build l = .ok (s', replies) ∧ s'.storage.Owned ∧
      s'.storage.view.flat = flatAfterAll s.storage.view.flat l := by
  induction l generalizing s with
  | nil => exact ⟨s, [], rfl, ho, rfl⟩
  | cons c l ih =>
    obtain ⟨s₁, r, hcmd, ho₁, hflat₁, -⟩ := processCommand_spec build ho c
    obtain ⟨s₂, replies, hrest, ho₂, hflat₂⟩ := ih ho₁
    refine ⟨s₂, _, process_cons_of_ok hcmd hrest, ho₂, ?_⟩
    rw [hflat₂, hflat₁]
    rfl

theorem owned_storage_empty : Server.empty.storage.Owned := Storage.owned_empty

theorem spec_of_process {build : Build} {l : List Received} {s : Server} {replies : List Sent}
    (h : Server.empty.process build l = .ok (s, replies)) :
    s.storage.Owned ∧ s.storage.view.flat = flatAfterAll Server.empty.storage.view.flat l := by
  obtain ⟨t, replies', hrun, hspec⟩ := process_spec build owned_storage_empty l
  rw [h, Except.ok.injEq, Prod.mk.injEq] at hrun
  rw [hrun.1]
  exact hspec

theorem flat_empty (k : Bytes) : Server.empty.storage.view.flat k = fun _ => none := rfl

end Server

end MuStore
