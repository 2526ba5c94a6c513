import MuStore.KVStoreRefinement

namespace MuStore

inductive SerializeError where
  | memory (e : MemFault)
  | outOfRange (name : Bytes)
  deriving DecidableEq, Repr

def readString (h : Heap Bytes) (a : Addr) : Except SerializeError Bytes :=
  (Heap.read h a).mapError .memory

def fieldAt (fields : UnorderedMap Bytes Addr) (field : Bytes) : Except SerializeError Addr :=
  match fields.lookup field with
  | some a => .ok a
  | none => .error (.outOfRange field)

def IterOrder.addresses (o : IterOrder Bytes Addr) (fields : UnorderedMap Bytes Addr) :
    List Addr := (o.visit fields).map Sigma.snd

namespace TwoCopySerializer

def writeValues (h : Heap Bytes) : List Addr → Except SerializeError Bytes
  | [] => pure []
  | a :: rest => do
    let value ← readString h a
    let oss ← writeValues h rest
    pure (value ++ oss)

def writeNamed (h : Heap Bytes) (fields : UnorderedMap Bytes Addr) :
    List Bytes → Except SerializeError Bytes
  | [] => pure []
  | field :: rest => do
    let a ← fieldAt fields field
    let value ← readString h a
    let oss ← writeNamed h fields rest
    pure (value ++ oss)

def serializeFields (o : IterOrder Bytes Addr) (h : Heap Bytes) (msg : Response) :
    Except SerializeError Bytes := do
  let oss ← writeValues h (o.addresses msg.fields)
  pure (decimal msg.fields.size ++ [space] ++ oss)

def serializeGetFields (h : Heap Bytes) (msg : Response) : Except SerializeError Bytes := do
  let oss ← writeNamed h msg.fields msg.fieldNames
  pure (decimal msg.fieldNames.length ++ [space] ++ oss)

def serializeGetAll (o : IterOrder Bytes Addr) (h : Heap Bytes) (msg : Response) :
    Except SerializeError Bytes := do
  let oss ← writeValues h (o.addresses msg.fields)
  pure (decimal msg.fields.size ++ [space] ++ oss)

def serializeByType (o : IterOrder Bytes Addr) (h : Heap Bytes) (msg : Response) :
    Except SerializeError Bytes :=
  match msg.type with
  | .setFields => serializeFields o h msg
  | .response => serializeFields o h msg
  | .getFields => serializeGetFields h msg
  | .getAll => serializeGetAll o h msg

/-- The string passed to `send`. -/
def serialize (o : IterOrder Bytes Addr) (h : Heap Bytes) (msg : Response) :
    Except SerializeError Bytes := do
  let oss ← serializeByType o h msg
  pure (oss ++ msg.key ++ [newline])

end TwoCopySerializer

/-- The memory an `iovec` points into: the characters of a string of the store,
of the response's own key, or of the literal `"\n"`. -/
inductive Buffer where
  | value (a : Addr)
  | key (k : Bytes)
  | newline
  deriving DecidableEq, Repr

structure Iovec where
  base : Buffer
  len : ℕ
  deriving DecidableEq, Repr

namespace IOVecSerializer

def valueIovec (h : Heap Bytes) (a : Addr) : Except SerializeError Iovec := do
  let value ← readString h a
  pure ⟨.value a, value.length⟩

/-- The arguments of the `addIovec` calls, an error where the call is not reached. -/
def serializeFields (o : IterOrder Bytes Addr) (h : Heap Bytes) (msg : Response) :
    List (Except SerializeError Iovec) := (o.addresses msg.fields).map (valueIovec h)

def serializeGetFields (h : Heap Bytes) (msg : Response) : List (Except SerializeError Iovec) :=
  msg.fieldNames.map fun field => do
    let a ← fieldAt msg.fields field
    valueIovec h a

def serializeGetAll (o : IterOrder Bytes Addr) (h : Heap Bytes) (msg : Response) :
    List (Except SerializeError Iovec) := (o.addresses msg.fields).map (valueIovec h)

def fieldIovecs (o : IterOrder Bytes Addr) (h : Heap Bytes) (msg : Response) :
    List (Except SerializeError Iovec) :=
  match msg.type with
  | .setFields => serializeFields o h msg
  | .response => serializeFields o h msg
  | .getFields => serializeGetFields h msg
  | .getAll => serializeGetAll o h msg

def keyIovec (msg : Response) : Iovec := ⟨.key msg.key, msg.key.length⟩

def newlineIovec : Iovec := ⟨.newline, 1⟩

def addIovecs (o : IterOrder Bytes Addr) (h : Heap Bytes) (msg : Response) :
    List (Except SerializeError Iovec) :=
  fieldIovecs o h msg ++ [.ok (keyIovec msg), .ok newlineIovec]

def pushAll (iovecs : List Iovec) :
    List (Except SerializeError Iovec) → List Iovec × Option SerializeError
  | [] => (iovecs, none)
  | .ok iov :: rest => pushAll (iovecs ++ [iov]) rest
  | .error e :: _ => (iovecs, some e)

def readBuffer (h : Heap Bytes) : Buffer → Except SerializeError Bytes
  | .value a => readString h a
  | .key k => .ok k
  | .newline => .ok [MuStore.newline]

/-- What `sendmsg` gathers from the table at the moment it runs. -/
def gather (h : Heap Bytes) : List Iovec → Except SerializeError Bytes
  | [] => pure []
  | iov :: rest => do
    let buf ← readBuffer h iov.base
    let out ← gather h rest
    pure (buf.take iov.len ++ out)

/-- The table left behind and the bytes gathered, from the table found. -/
def serialize (o : IterOrder Bytes Addr) (h : Heap Bytes) (_iovecs : List Iovec)
    (msg : Response) : List Iovec × Except SerializeError Bytes :=
  -- `iovecs.clear()`
  match pushAll [] (addIovecs o h msg) with
  | (iovecs, some e) => (iovecs, .error e)
  | (iovecs, none) => (iovecs, gather h iovecs)

end IOVecSerializer

/-- Every pointer of the map leads to a live string. -/
def Live (h : Heap Bytes) (fields : UnorderedMap Bytes Addr) : Prop :=
  ∀ f a, fields.lookup f = some a → a ∈ h

def IterOrder.deref (o : IterOrder Bytes Addr) (h : Heap Bytes) (fields : UnorderedMap Bytes Addr) :
    List (Σ _ : Bytes, Bytes) :=
  (o.visit fields).map (Sigma.map id fun _ a => (h.lookup a).getD [])

abbrev LeadTo (h : Heap Bytes) (as : List Addr) (vs : List Bytes) : Prop :=
  List.Forall₂ (fun a v => h.lookup a = some v) as vs

section Deref

variable {h : Heap Bytes} {fields : UnorderedMap Bytes Addr}

@[simp] theorem IterOrder.length_deref (o : IterOrder Bytes Addr) :
    (o.deref h fields).length = fields.size := by
  simp [IterOrder.deref]

theorem IterOrder.enumerates_deref (o : IterOrder Bytes Addr) (hl : Live h fields) :
    Enumerates (o.deref h fields) (KVStore.pointees h fields) where
  nodupKeys := (o.visit_nodupKeys fields).map₂ _ _
  lookup := by
    intro f
    rw [IterOrder.deref, List.dlookup_map₂, o.dlookup_visit, KVStore.pointees]
    cases hf : fields.lookup f with
    | none => rfl
    | some a =>
      obtain ⟨v, hv⟩ := Finmap.mem_iff.mp (hl f a hf)
      simp [hv]

theorem IterOrder.leadTo_deref (o : IterOrder Bytes Addr) (hl : Live h fields) :
    LeadTo h (o.addresses fields) ((o.deref h fields).map Sigma.snd) := by
  rw [IterOrder.addresses, IterOrder.deref, LeadTo, List.map_map, List.forall₂_map_left_iff,
    List.forall₂_map_right_iff, List.forall₂_same]
  rintro ⟨f, a⟩ hm
  rw [o.mem_visit] at hm
  obtain ⟨v, hv⟩ := Finmap.mem_iff.mp (hl f a hm)
  simp [hv, Sigma.map]

theorem IterOrder.exists_deref_eq (hl : Live h fields) {l : List (Σ _ : Bytes, Bytes)}
    (he : Enumerates l (KVStore.pointees h fields)) : ∃ o : IterOrder Bytes Addr,
      o.deref h fields = l := by
  have hperm := he.perm (IterOrder.stored.enumerates_deref hl)
  obtain ⟨m, rfl, hm⟩ := (congrFun₂ (List.eq_map_comp_perm _) _ _).mpr hperm
  obtain ⟨o, ho⟩ := IterOrder.exists_visit_eq (hm.trans (IterOrder.stored.perm fields))
  exact ⟨o, by rw [IterOrder.deref, ho]⟩

theorem readString_of_lookup {a : Addr} {v : Bytes} (ha : h.lookup a = some v) :
    readString h a = .ok v := by
  rw [readString, Heap.read_of_lookup ha]
  rfl

end Deref

namespace TwoCopySerializer

variable {h : Heap Bytes} {msg : Response}

theorem writeValues_of_leadTo {as : List Addr} {vs : List Bytes} (hl : LeadTo h as vs) :
    writeValues h as = .ok vs.flatten := by
  induction hl with
  | nil => rfl
  | cons ha _ ih =>
    rw [writeValues, readString_of_lookup ha, ih]
    rfl

/-- Every type but `GET_FIELDS` is sent as a count, the values and the key. -/
theorem serialize_of_ne_getFields (o : IterOrder Bytes Addr) (hl : Live h msg.fields)
    (ht : msg.type ≠ .getFields) :
    serialize o h msg = .ok (decimal msg.fields.size ++ [space] ++
      ((o.deref h msg.fields).map Sigma.snd).flatten ++ msg.key ++ [newline]) := by
  have hw := writeValues_of_leadTo (o.leadTo_deref hl)
  unfold serialize serializeByType
  cases hm : msg.type with
  | getFields => exact absurd hm ht
  | setFields => simp only [serializeFields, hw]; rfl
  | response => simp only [serializeFields, hw]; rfl
  | getAll => simp only [serializeGetAll, hw]; rfl

theorem serialize_of_getFields (o : IterOrder Bytes Addr) (ht : msg.type = .getFields)
    (hn : msg.fieldNames = []) :
    serialize o h msg = .ok (decimal 0 ++ [space] ++ msg.key ++ [newline]) := by
  unfold serialize serializeByType
  simp only [ht, serializeGetFields, hn, writeNamed, List.length_nil]
  rfl

end TwoCopySerializer

namespace IOVecSerializer

variable {h : Heap Bytes} {msg : Response}

theorem pushAll_ok (iovecs l : List Iovec) :
    pushAll iovecs (l.map .ok) = (iovecs ++ l, none) := by
  induction l generalizing iovecs with
  | nil => simp [pushAll]
  | cons iov l ih => rw [List.map_cons, pushAll, ih, List.append_assoc, List.singleton_append]

theorem pushAll_none {l : List (Except SerializeError Iovec)} {iovecs t : List Iovec}
    (hp : pushAll iovecs l = (t, none)) : iovecs.map .ok ++ l = t.map .ok := by
  induction l generalizing iovecs with
  | nil =>
    have ht : iovecs = t := (Prod.ext_iff.mp hp).1
    rw [ht, List.append_nil]
  | cons x l ih =>
    cases x with
    | error e => cases (Prod.ext_iff.mp hp).2
    | ok iov =>
      have h := ih hp
      rwa [List.map_append, List.append_assoc] at h

theorem valueIovecs_of_leadTo {as : List Addr} {vs : List Bytes} (hl : LeadTo h as vs) :
    ∃ l : List Iovec, as.map (valueIovec h) = l.map .ok ∧
      ∀ l' out, gather h l' = .ok out → gather h (l ++ l') = .ok (vs.flatten ++ out) := by
  induction hl with
  | nil => exact ⟨[], rfl, fun l' out h' => h'⟩
  | @cons a v as vs ha _ ih =>
    obtain ⟨l, hmap, hg⟩ := ih
    have hread := readString_of_lookup ha
    refine ⟨⟨.value a, v.length⟩ :: l, ?_, ?_⟩
    · rw [List.map_cons, List.map_cons, hmap, valueIovec, hread]
      rfl
    · intro l' out h'
      rw [List.cons_append, gather, readBuffer, hread, hg l' out h', List.flatten_cons,
        List.append_assoc]
      change Except.ok (v.take v.length ++ (vs.flatten ++ out)) = _
      rw [List.take_length]

/-- A call whose pushes all succeed sends what its own table gathers, whatever
the table held before. -/
theorem serialize_of_addIovecs {o : IterOrder Bytes Addr} {l : List Iovec}
    (hp : addIovecs o h msg = l.map .ok) (iovecs : List Iovec) :
    serialize o h iovecs msg = (l, gather h l) := by
  rw [serialize, hp, pushAll_ok, List.nil_append]

theorem valueIovec_eq_ok {a : Addr} {iov : Iovec} (hv : valueIovec h a = .ok iov) :
    ∃ v, h.lookup a = some v ∧ iov = ⟨.value a, v.length⟩ := by
  unfold valueIovec readString Heap.read at hv
  cases hl : h.lookup a with
  | none =>
    rw [hl] at hv
    cases hv
  | some v =>
    rw [hl] at hv
    cases hv
    exact ⟨v, rfl, rfl⟩

theorem valueIovec_of_mem_fieldIovecs {o : IterOrder Bytes Addr} {iov : Iovec}
    (hm : .ok iov ∈ fieldIovecs o h msg) : ∃ a, valueIovec h a = .ok iov := by
  have hall : .ok iov ∈ (o.addresses msg.fields).map (valueIovec h) →
      ∃ a, valueIovec h a = .ok iov := by
    intro hm
    obtain ⟨a, -, ha⟩ := List.mem_map.mp hm
    exact ⟨a, ha⟩
  unfold fieldIovecs at hm
  cases ht : msg.type with
  | setFields =>
    rw [ht] at hm
    exact hall hm
  | response =>
    rw [ht] at hm
    exact hall hm
  | getAll =>
    rw [ht] at hm
    exact hall hm
  | getFields =>
    rw [ht] at hm
    obtain ⟨field, -, hfield⟩ := List.mem_map.mp hm
    cases hat : fieldAt msg.fields field with
    | error e =>
      rw [hat] at hfield
      cases hfield
    | ok a =>
      rw [hat] at hfield
      exact ⟨a, hfield⟩

theorem entry_of_mem_addIovecs {o : IterOrder Bytes Addr} {iov : Iovec}
    (hm : .ok iov ∈ addIovecs o h msg) :
    (∃ a v, h.lookup a = some v ∧ iov = ⟨.value a, v.length⟩) ∨ iov = keyIovec msg ∨
      iov = newlineIovec := by
  rw [addIovecs, List.mem_append] at hm
  rcases hm with hm | hm
  · obtain ⟨a, ha⟩ := valueIovec_of_mem_fieldIovecs hm
    obtain ⟨v, hv, hiov⟩ := valueIovec_eq_ok ha
    exact .inl ⟨a, v, hv, hiov⟩
  · simp only [List.mem_cons, List.not_mem_nil, or_false, Except.ok.injEq] at hm
    exact .inr hm

theorem addIovecs_of_serialize {o : IterOrder Bytes Addr} {iovecs l : List Iovec} {bytes : Bytes}
    (hs : serialize o h iovecs msg = (l, .ok bytes)) :
    addIovecs o h msg = l.map .ok ∧ gather h l = .ok bytes := by
  unfold serialize at hs
  cases hp : pushAll [] (addIovecs o h msg) with
  | mk t e =>
    rw [hp] at hs
    cases e with
    | some e => cases (Prod.ext_iff.mp hs).2
    | none =>
      obtain ⟨rfl, hg⟩ := Prod.ext_iff.mp hs
      exact ⟨pushAll_none hp, hg⟩

theorem gather_key_newline (h : Heap Bytes) (msg : Response) :
    gather h [keyIovec msg, newlineIovec] = .ok (msg.key ++ [newline]) := by
  change Except.ok (msg.key.take msg.key.length ++ [newline]) = _
  rw [List.take_length]

/-- The values that the fields lead to are sent one after another, then the key. -/
theorem serialize_of_fieldIovecs {o : IterOrder Bytes Addr} {as : List Addr} {vs : List Bytes}
    (hf : fieldIovecs o h msg = as.map (valueIovec h)) (hl : LeadTo h as vs)
    (iovecs : List Iovec) :
    (serialize o h iovecs msg).2 = .ok (vs.flatten ++ msg.key ++ [newline]) := by
  obtain ⟨l, hmap, hg⟩ := valueIovecs_of_leadTo hl
  have hadd : addIovecs o h msg = (l ++ [keyIovec msg, newlineIovec]).map .ok := by
    rw [addIovecs, hf, hmap, List.map_append]
    rfl
  rw [serialize_of_addIovecs hadd, hg _ _ (gather_key_newline h msg), List.append_assoc]

/-- Every type but `GET_FIELDS` is sent as the values and the key, without a count. -/
theorem serialize_of_ne_getFields (o : IterOrder Bytes Addr) (hl : Live h msg.fields)
    (ht : msg.type ≠ .getFields) (iovecs : List Iovec) :
    (serialize o h iovecs msg).2 =
      .ok (((o.deref h msg.fields).map Sigma.snd).flatten ++ msg.key ++ [newline]) := by
  refine serialize_of_fieldIovecs ?_ (o.leadTo_deref hl) iovecs
  unfold fieldIovecs
  cases hm : msg.type with
  | getFields => exact absurd hm ht
  | setFields => rfl
  | response => rfl
  | getAll => rfl

theorem serialize_of_getFields (o : IterOrder Bytes Addr) (ht : msg.type = .getFields)
    (hn : msg.fieldNames = []) (iovecs : List Iovec) :
    (serialize o h iovecs msg).2 = .ok (msg.key ++ [newline]) := by
  refine serialize_of_fieldIovecs ?_ .nil iovecs
  simp [fieldIovecs, ht, serializeGetFields, hn]

end IOVecSerializer

end MuStore
