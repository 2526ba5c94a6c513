import MuStore.Serializer

namespace MuStore

def Response.count (msg : Response) : ℕ :=
  if msg.type = .getFields then msg.fieldNames.length else msg.fields.size

section Named

variable {h : Heap Bytes} {fields : UnorderedMap Bytes Addr} {names : List Bytes}

theorem fieldAt_of_lookup {field : Bytes} {a : Addr} (hf : fields.lookup field = some a) :
    fieldAt fields field = .ok a := by
  rw [fieldAt, hf]

theorem exists_leadTo_names (hl : Live h fields) (hn : ∀ f ∈ names, f ∈ fields) :
    ∃ as vs, names.map (fieldAt fields) = as.map .ok ∧ LeadTo h as vs := by
  induction names with
  | nil => exact ⟨[], [], rfl, .nil⟩
  | cons field names ih =>
    obtain ⟨as, vs, hmap, hlead⟩ := ih fun f hf => hn f (by simp [hf])
    have hmem := AList.lookup_isSome.mpr (hn field (by simp))
    obtain ⟨a, ha⟩ := Option.isSome_iff_exists.mp hmem
    obtain ⟨v, hv⟩ := Finmap.mem_iff.mp (hl field a ha)
    refine ⟨a :: as, v :: vs, ?_, .cons hv hlead⟩
    rw [List.map_cons, List.map_cons, fieldAt_of_lookup ha, hmap]

theorem writeNamed_eq_writeValues {as : List Addr}
    (hmap : names.map (fieldAt fields) = as.map .ok) :
    TwoCopySerializer.writeNamed h fields names = TwoCopySerializer.writeValues h as := by
  induction names generalizing as with
  | nil =>
    rw [List.map_nil, eq_comm, List.map_eq_nil_iff] at hmap
    rw [hmap]
    rfl
  | cons field names ih =>
    cases as with
    | nil => cases hmap
    | cons a as =>
      rw [List.map_cons, List.map_cons, List.cons.injEq] at hmap
      rw [TwoCopySerializer.writeNamed, hmap.1, TwoCopySerializer.writeValues, ih hmap.2]
      rfl

theorem serializeGetFields_eq_map {msg : Response} {as : List Addr}
    (hmap : msg.fieldNames.map (fieldAt msg.fields) = as.map .ok) :
    IOVecSerializer.serializeGetFields h msg = as.map (IOVecSerializer.valueIovec h) := by
  have hbind := congrArg (List.map fun x => x >>= IOVecSerializer.valueIovec h) hmap
  rw [List.map_map, List.map_map] at hbind
  exact hbind

end Named

variable {h : Heap Bytes} {msg : Response}

/-- Both encoders write the same values, in the same order, and the key. -/
theorem exists_body (o : IterOrder Bytes Addr) (hl : Live h msg.fields)
    (hn : ∀ f ∈ msg.fieldNames, f ∈ msg.fields) (iovecs : List Iovec) :
    ∃ body, TwoCopySerializer.serialize o h msg = .ok (decimal msg.count ++ space :: body) ∧
      (IOVecSerializer.serialize o h iovecs msg).2 = .ok body := by
  by_cases ht : msg.type = .getFields
  · obtain ⟨as, vs, hmap, hlead⟩ := exists_leadTo_names hl hn
    have hwrite := TwoCopySerializer.writeValues_of_leadTo hlead
    have hfields : IOVecSerializer.fieldIovecs o h msg = as.map (IOVecSerializer.valueIovec h) := by
      simp only [IOVecSerializer.fieldIovecs, ht]
      exact serializeGetFields_eq_map hmap
    refine ⟨_, ?_, IOVecSerializer.serialize_of_fieldIovecs hfields hlead iovecs⟩
    simp only [TwoCopySerializer.serialize, TwoCopySerializer.serializeByType, ht,
      TwoCopySerializer.serializeGetFields, writeNamed_eq_writeValues hmap, hwrite,
      Response.count, if_pos]
    simp [bind, Except.bind, pure, Except.pure]
  · refine ⟨_, ?_, IOVecSerializer.serialize_of_ne_getFields o hl ht iovecs⟩
    rw [TwoCopySerializer.serialize_of_ne_getFields o hl ht, Response.count, if_neg ht]
    simp

/-- The transports never agree: the count is missing from what `sendmsg` gathers,
and nothing else differs. -/
theorem twoCopy_ne_iovec (o : IterOrder Bytes Addr) (hl : Live h msg.fields)
    (hn : ∀ f ∈ msg.fieldNames, f ∈ msg.fields) (iovecs : List Iovec) :
    ∃ sent gathered, TwoCopySerializer.serialize o h msg = .ok sent ∧
      (IOVecSerializer.serialize o h iovecs msg).2 = .ok gathered ∧
      sent = decimal msg.count ++ space :: gathered ∧ gathered ≠ sent := by
  obtain ⟨body, hsent, hgathered⟩ := exists_body o hl hn iovecs
  refine ⟨_, body, hsent, hgathered, rfl, ?_⟩
  intro heq
  have hlen := congrArg List.length heq
  rw [List.length_append, List.length_cons] at hlen
  omega

def johnHeap : Heap Bytes := (∅ : Heap Bytes).insert 1 (ascii "John")

def johnResponse : Response :=
  ⟨.getFields, ascii "user123", (∅ : UnorderedMap Bytes Addr).insert (ascii "name") 1,
    [ascii "name"], 4⟩

theorem live_johnResponse : Live johnHeap johnResponse.fields := by
  intro f a hf
  have hmem := AList.mem_lookup_iff.mp hf
  have ha : a = 1 := eq_of_heq (Sigma.mk.inj_iff.mp (List.mem_singleton.mp hmem)).2
  rw [ha]
  exact Finmap.mem_insert.mpr (Or.inl rfl)

theorem twoCopy_ne_iovec_john :
    ∃ sent gathered, TwoCopySerializer.serialize IterOrder.stored johnHeap johnResponse = .ok sent ∧
      (IOVecSerializer.serialize IterOrder.stored johnHeap [] johnResponse).2 = .ok gathered ∧
      sent = decimal johnResponse.count ++ space :: gathered ∧ gathered ≠ sent := by
  apply twoCopy_ne_iovec
  · exact live_johnResponse
  · rw [johnResponse, List.forall_mem_singleton]
    decide

/-- An error is sent as `0 Error` by one encoder and as `Error` by the other. -/
theorem not_twoCopy_eq_iovec :
    ¬∀ (o : IterOrder Bytes Addr) (h : Heap Bytes) (msg : Response) (iovecs : List Iovec),
      Live h msg.fields → (∀ f ∈ msg.fieldNames, f ∈ msg.fields) →
      (IOVecSerializer.serialize o h iovecs msg).2 = TwoCopySerializer.serialize o h msg := by
  intro h
  have hsame : Except.ok (ε := SerializeError) (ascii "Error\n") = .ok (ascii "0 Error\n") :=
    h IterOrder.stored ∅ ⟨.response, ascii "Error", ∅, [], 4⟩ [] (fun f a hf => by cases hf)
      (fun f hf => by cases hf)
  revert hsame
  decide

end MuStore
