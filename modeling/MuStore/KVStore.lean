import MuStore.Message
import MuStore.Library.Runs

namespace MuStore

/-- What one call leaves to the implementation: the addresses that `new` returns, and the
orders of the loops over an `unordered_map`. -/
structure Choices where
  alloc : Allocator Bytes Bytes
  newFields : IterOrder Bytes Bytes
  pointers : IterOrder Bytes Addr

def Choices.plain : Choices := ⟨Allocator.bump, IterOrder.stored, IterOrder.stored⟩

structure Value where
  fields : UnorderedMap Bytes Addr
  deriving DecidableEq

namespace Value

def hasField (v : Value) (field : Bytes) : Bool := decide (field ∈ v.fields)

def getField (v : Value) (field : Bytes) : Addr := (v.fields.lookup field).getD null

/-- `if(hasField(field)) delete fields[field]`, which leaves the pointer in the map. -/
def deleteField (v : Value) (h : Heap Bytes) (field : Bytes) : Except MemFault (Heap Bytes) :=
  if v.hasField field then Heap.delete h (v.getField field) else pure h

def setField (alloc : Allocator Bytes Bytes) (h : Heap Bytes) (v : Value)
    (field value : Bytes) : Except MemFault (Heap Bytes × Value) := do
  let h ← v.deleteField h field
  let (a, h) := Heap.new alloc field h value
  pure (h, ⟨v.fields.insert field a⟩)

def removeField (h : Heap Bytes) (v : Value) (field : Bytes) :
    Except MemFault (Heap Bytes × Value × Bool) := do
  let h ← v.deleteField h field
  pure (h, ⟨v.fields.erase field⟩, v.hasField field)

def setEach (alloc : Allocator Bytes Bytes) (h : Heap Bytes) (v : Value) :
    List (Σ _ : Bytes, Bytes) → Except MemFault (Heap Bytes × Value)
  | [] => pure (h, v)
  | e :: rest => do
    let (h, v) ← v.setField alloc h e.1 e.2
    setEach alloc h v rest

def setFields (ch : Choices) (h : Heap Bytes) (v : Value) (newFields : UnorderedMap Bytes Bytes) :
    Except MemFault (Heap Bytes × Value) :=
  setEach ch.alloc h v (ch.newFields.visit newFields)

def getFields (v : Value) : UnorderedMap Bytes Addr := v.fields

def getSelectedFields (v : Value) (fieldNames : List Bytes) : UnorderedMap Bytes Addr :=
  fieldNames.foldl
    (fun result field =>
      match v.fields.lookup field with
      | some a => result.insert field a
      | none => result) ∅

end Value

/-- A method holds the mutex for its whole body, so each is one step of the store. -/
structure KVStore where
  store : UnorderedMap Bytes Value
  deriving DecidableEq

namespace KVStore

def empty : KVStore := ⟨∅⟩

def insert (kv : KVStore) (key : Bytes) : KVStore × Bool :=
  match kv.store.lookup key with
  | some _ => (kv, false)
  | none => (⟨kv.store.insert key ⟨∅⟩⟩, true)

def setField (alloc : Allocator Bytes Bytes) (h : Heap Bytes) (kv : KVStore)
    (key field value : Bytes) : Except MemFault (Heap Bytes × KVStore × Bool) :=
  match kv.store.lookup key with
  | none => pure (h, kv, false)
  | some v => do
    let (h, v) ← v.setField alloc h field value
    pure (h, ⟨kv.store.insert key v⟩, true)

def getField (kv : KVStore) (key field : Bytes) : Addr :=
  match kv.store.lookup key with
  | none => null
  | some v => v.getField field

def removeField (h : Heap Bytes) (kv : KVStore) (key field : Bytes) :
    Except MemFault (Heap Bytes × KVStore × Bool) :=
  match kv.store.lookup key with
  | none => pure (h, kv, false)
  | some v => do
    let (h, v, erased) ← v.removeField h field
    pure (h, ⟨kv.store.insert key v⟩, erased)

/-- `store.erase(key) > 0`. A `Value` has no destructor: its strings stay on the heap. -/
def remove (kv : KVStore) (key : Bytes) : KVStore × Bool :=
  (⟨kv.store.erase key⟩, decide (key ∈ kv.store))

def setFields (ch : Choices) (h : Heap Bytes) (kv : KVStore) (key : Bytes)
    (fields : UnorderedMap Bytes Bytes) : Except MemFault (Heap Bytes × KVStore × Bool) :=
  match kv.store.lookup key with
  | none => pure (h, kv, false)
  | some v => do
    let (h, v) ← v.setFields ch h fields
    pure (h, ⟨kv.store.insert key v⟩, true)

def getFields (kv : KVStore) (key : Bytes) : UnorderedMap Bytes Addr :=
  match kv.store.lookup key with
  | none => ∅
  | some v => v.getFields

def getSelectedFields (kv : KVStore) (key : Bytes) (fields : List Bytes) :
    UnorderedMap Bytes Addr :=
  match kv.store.lookup key with
  | none => ∅
  | some v => v.getSelectedFields fields

end KVStore

namespace KVStore

def cell (kv : KVStore) (c : Bytes × Bytes) : Option Addr :=
  (kv.store.lookup c.1).bind fun v => v.fields.lookup c.2

def put (kv : KVStore) (key : Bytes) (v : Value) : KVStore := ⟨kv.store.insert key v⟩

@[simp] theorem lookup_put_self (kv : KVStore) (key : Bytes) (v : Value) :
    (kv.put key v).store.lookup key = some v := AList.lookup_insert _

theorem lookup_put_of_ne {k key : Bytes} (hk : k ≠ key) (kv : KVStore) (v : Value) :
    (kv.put key v).store.lookup k = kv.store.lookup k := AList.lookup_insert_ne hk

@[simp] theorem cell_put_self (kv : KVStore) (key : Bytes) (v : Value) (f : Bytes) :
    (kv.put key v).cell (key, f) = v.fields.lookup f := by
  simp [cell]

theorem cell_put_of_ne {k key : Bytes} (hk : k ≠ key) (kv : KVStore) (v : Value) (f : Bytes) :
    (kv.put key v).cell (k, f) = kv.cell (k, f) := by
  simp only [cell, lookup_put_of_ne hk]

theorem cell_put_of_lookup {kv : KVStore} {key : Bytes} {v : Value}
    (hv : kv.store.lookup key = some v) : (kv.put key v).cell = kv.cell := by
  funext ⟨k, f⟩
  by_cases hk : k = key
  · subst hk
    rw [cell_put_self, cell, hv, Option.bind_some]
  · exact cell_put_of_ne hk kv v f

theorem cell_put_insert (kv : KVStore) (key : Bytes) (v : Value) (f : Bytes) (a : Addr) :
    (kv.put key ⟨v.fields.insert f a⟩).cell =
      Function.update (kv.put key v).cell (key, f) (some a) := by
  funext ⟨k, g⟩
  by_cases hk : k = key
  · subst hk
    by_cases hg : g = f
    · subst hg
      rw [Function.update_self, cell_put_self, AList.lookup_insert]
    · rw [Function.update_of_ne (by simp [hg]), cell_put_self, cell_put_self,
        AList.lookup_insert_ne hg]
  · rw [Function.update_of_ne (by simp [hk]), cell_put_of_ne hk, cell_put_of_ne hk]

theorem cell_put_erase (kv : KVStore) (key : Bytes) (v : Value) (f : Bytes) :
    (kv.put key ⟨v.fields.erase f⟩).cell =
      Function.update (kv.put key v).cell (key, f) none := by
  funext ⟨k, g⟩
  by_cases hk : k = key
  · subst hk
    by_cases hg : g = f
    · subst hg
      rw [Function.update_self, cell_put_self, AList.lookup_erase]
    · rw [Function.update_of_ne (by simp [hg]), cell_put_self, cell_put_self,
        AList.lookup_erase_ne hg]
  · rw [Function.update_of_ne (by simp [hk]), cell_put_of_ne hk, cell_put_of_ne hk]

end KVStore

section ValueSpec

variable {kv : KVStore} {key : Bytes} {v : Value} {h : Heap Bytes}

theorem Value.deleteField_cases (ho : Owns (kv.put key v).cell h) (field : Bytes) :
    (v.fields.lookup field = none ∧ v.deleteField h field = .ok h) ∨
      ∃ a, v.fields.lookup field = some a ∧ v.deleteField h field = .ok (h.erase a) := by
  cases hf : v.fields.lookup field with
  | none =>
    have hno : v.hasField field = false := by
      simpa [hasField] using AList.lookup_eq_none.mp hf
    refine Or.inl ⟨rfl, ?_⟩
    rw [deleteField, hno, if_neg Bool.false_ne_true]
    rfl
  | some a =>
    have hcell : (kv.put key v).cell (key, field) = some a := by rw [KVStore.cell_put_self, hf]
    have hyes : v.hasField field = true := by
      rw [hasField, decide_eq_true_eq, ← AList.lookup_isSome, hf, Option.isSome_some]
    refine Or.inr ⟨a, rfl, ?_⟩
    rw [deleteField, hyes, if_pos rfl, getField, hf, Option.getD_some,
      Heap.delete_of_mem (ho.nonnull hcell) (ho.live hcell)]

theorem Value.deleteField_spec (ho : Owns (kv.put key v).cell h) (field : Bytes) :
    ∃ h', v.deleteField h field = .ok h' ∧
      Owns (Function.update (kv.put key v).cell (key, field) none) h' ∧
      contents (Function.update (kv.put key v).cell (key, field) none) h' =
        Function.update (contents (kv.put key v).cell h) (key, field) none := by
  rcases Value.deleteField_cases ho field with ⟨hf, hdel⟩ | ⟨a, hf, hdel⟩
  · have hcell : (kv.put key v).cell (key, field) = none := by rw [KVStore.cell_put_self, hf]
    have hcont : contents (kv.put key v).cell h (key, field) = none :=
      (contents_eq_none_iff ho _).mpr hcell
    refine ⟨h, hdel, ?_, ?_⟩
    · rwa [Function.update_eq_self_iff.mpr hcell.symm]
    · rw [Function.update_eq_self_iff.mpr hcell.symm, Function.update_eq_self_iff.mpr hcont.symm]
  · have hcell : (kv.put key v).cell (key, field) = some a := by rw [KVStore.cell_put_self, hf]
    exact ⟨h.erase a, hdel, ho.release hcell, contents_release ho hcell⟩

theorem Value.setField_spec (alloc : Allocator Bytes Bytes) (ho : Owns (kv.put key v).cell h)
    (field value : Bytes) :
    ∃ h' v', v.setField alloc h field value = .ok (h', v') ∧ Owns (kv.put key v').cell h' ∧
      contents (kv.put key v').cell h' =
        Function.update (contents (kv.put key v).cell h) (key, field) (some value) := by
  obtain ⟨h₁, hdel, ho₁, hc₁⟩ := Value.deleteField_spec ho field
  have ho₂ := ho₁.acquire (i := (key, field)) (alloc.fresh field h₁) (alloc.nonnull field h₁) value
  have hc₂ := contents_acquire (i := (key, field)) ho₁ (alloc.fresh field h₁) value
  rw [Function.update_idem, ← KVStore.cell_put_insert] at ho₂ hc₂
  refine ⟨_, ⟨v.fields.insert field (alloc.pick field h₁)⟩, ?_, ho₂, ?_⟩
  · rw [setField, hdel]
    rfl
  · rw [hc₂, hc₁, Function.update_idem]

theorem Value.removeField_spec (ho : Owns (kv.put key v).cell h) (field : Bytes) :
    ∃ h' v', v.removeField h field = .ok (h', v', v.hasField field) ∧
      Owns (kv.put key v').cell h' ∧
      contents (kv.put key v').cell h' =
        Function.update (contents (kv.put key v).cell h) (key, field) none := by
  obtain ⟨h₁, hdel, ho₁, hc₁⟩ := Value.deleteField_spec ho field
  rw [← KVStore.cell_put_erase] at ho₁ hc₁
  refine ⟨h₁, ⟨v.fields.erase field⟩, ?_, ho₁, hc₁⟩
  rw [removeField, hdel]
  rfl

/-- The loop of `setFields`: the cells of the key are assigned one after another. -/
theorem Value.setEach_spec (alloc : Allocator Bytes Bytes) (l : List (Σ _ : Bytes, Bytes))
    (ho : Owns (kv.put key v).cell h) :
    ∃ h' v', v.setEach alloc h l = .ok (h', v') ∧ Owns (kv.put key v').cell h' ∧
      ∀ k f, contents (kv.put key v').cell h' (k, f) =
        if k = key then assignAll l (fun f => contents (kv.put key v).cell h (key, f)) f
        else contents (kv.put key v).cell h (k, f) := by
  induction l generalizing h v with
  | nil =>
    refine ⟨h, v, rfl, ho, ?_⟩
    intro k f
    split_ifs with hk
    · rw [hk, assignAll_nil]
    · rfl
  | cons e l ih =>
    obtain ⟨h₁, v₁, hset, ho₁, hc₁⟩ := Value.setField_spec alloc ho e.1 e.2
    obtain ⟨h₂, v₂, heach, ho₂, hc₂⟩ := ih ho₁
    refine ⟨h₂, v₂, ?_, ho₂, ?_⟩
    · rw [setEach, hset]
      exact heach
    · intro k f
      rw [hc₂, hc₁]
      split_ifs with hk
      · -- the rest starts from the contents with the first field written
        rw [assignAll_cons]
        congr 1
        funext g
        by_cases hg : g = e.1
        · rw [hg, Function.update_self, Function.update_self]
        · rw [Function.update_of_ne (by simp [hg]), Function.update_of_ne hg]
      · rw [Function.update_of_ne (by simp [hk])]

end ValueSpec

theorem Value.lookup_getSelectedFields (v : Value) (names : List Bytes) (f : Bytes) :
    (v.getSelectedFields names).lookup f = if f ∈ names then v.fields.lookup f else none := by
  suffices hfold : ∀ m : UnorderedMap Bytes Addr,
      (names.foldl (fun result field => match v.fields.lookup field with
        | some a => result.insert field a
        | none => result) m).lookup f =
      if f ∈ names then (v.fields.lookup f).or (m.lookup f) else m.lookup f by
    have h := hfold ∅
    rw [AList.lookup_empty, Option.or_none] at h
    exact h
  induction names with
  | nil => simp
  | cons name names ih =>
    intro m
    rw [List.foldl_cons, ih]
    by_cases hf : f = name
    · subst hf
      cases hl : v.fields.lookup f <;> simp
    · cases hl : v.fields.lookup name <;> simp [hf, AList.lookup_insert_ne]

section Frame

variable {alloc : Allocator Bytes Bytes} {h h' : Heap Bytes} {v v' : Value} {f : Bytes}

theorem Value.setField_eq_ok {field value : Bytes}
    (hs : v.setField alloc h field value = .ok (h', v')) :
    ∃ h₁, v.deleteField h field = .ok h₁ ∧ h' = h₁.insert (alloc.pick field h₁) value ∧
      v' = ⟨v.fields.insert field (alloc.pick field h₁)⟩ := by
  unfold setField at hs
  obtain ⟨h₁, hdel, hnew⟩ := bind_eq_ok.mp hs
  cases hnew
  exact ⟨h₁, hdel, rfl, rfl⟩

theorem Value.lookup_of_setField {field value : Bytes}
    (hs : v.setField alloc h field value = .ok (h', v')) (hf : f ≠ field) :
    v'.fields.lookup f = v.fields.lookup f := by
  obtain ⟨h₁, -, -, rfl⟩ := Value.setField_eq_ok hs
  exact AList.lookup_insert_ne hf

theorem Value.lookup_of_setEach {l : List (Σ _ : Bytes, Bytes)}
    (hs : v.setEach alloc h l = .ok (h', v')) (hf : f ∉ l.keys) :
    v'.fields.lookup f = v.fields.lookup f := by
  induction l generalizing h v with
  | nil =>
    cases hs
    rfl
  | cons e l ih =>
    rw [List.keys_cons, List.mem_cons, not_or] at hf
    obtain ⟨r, hset, hrest⟩ := bind_eq_ok.mp hs
    rw [ih hrest hf.2, Value.lookup_of_setField hset hf.1]

theorem Value.lookup_heap_of_deleteField {field x : Bytes} {a : Addr}
    (hdel : v.deleteField h field = .ok h') (ha : h.lookup a = some x)
    (hne : v.fields.lookup field ≠ some a) : h'.lookup a = some x := by
  unfold deleteField at hdel
  split_ifs at hdel with hhas
  · rw [hasField, decide_eq_true_eq, ← AList.lookup_isSome] at hhas
    obtain ⟨b, hb⟩ := Option.isSome_iff_exists.mp hhas
    have hba : a ≠ b := fun hab => hne (hab ▸ hb)
    rw [getField, hb, Option.getD_some] at hdel
    unfold Heap.delete at hdel
    split_ifs at hdel
    · cases hdel
      exact ha
    · cases hdel
      rwa [Finmap.lookup_erase_ne hba]
  · cases hdel
    exact ha

theorem Value.lookup_heap_of_setField {field value x : Bytes} {a : Addr}
    (hs : v.setField alloc h field value = .ok (h', v')) (ha : h.lookup a = some x)
    (hne : v.fields.lookup field ≠ some a) :
    h'.lookup a = some x ∧ ∀ f, v.fields.lookup f ≠ some a → v'.fields.lookup f ≠ some a := by
  obtain ⟨h₁, hdel, rfl, rfl⟩ := Value.setField_eq_ok hs
  have ha₁ := Value.lookup_heap_of_deleteField hdel ha hne
  have hpick : a ≠ alloc.pick field h₁ := by
    intro heq
    exact alloc.fresh field h₁ (heq ▸ Finmap.mem_iff.mpr ⟨x, ha₁⟩)
  refine ⟨(Finmap.lookup_insert_of_ne h₁ hpick).trans ha₁, ?_⟩
  intro f hf
  show (v.fields.insert field (alloc.pick field h₁)).lookup f ≠ some a
  by_cases hff : f = field
  · rw [hff, AList.lookup_insert]
    exact fun heq => hpick (Option.some.inj heq).symm
  · rwa [AList.lookup_insert_ne hff]

theorem Value.lookup_heap_of_setEach {l : List (Σ _ : Bytes, Bytes)} {x : Bytes} {a : Addr}
    (hs : v.setEach alloc h l = .ok (h', v')) (ha : h.lookup a = some x)
    (hne : ∀ f ∈ l.keys, v.fields.lookup f ≠ some a) : h'.lookup a = some x := by
  induction l generalizing h v with
  | nil =>
    cases hs
    exact ha
  | cons e l ih =>
    rw [List.keys_cons] at hne
    obtain ⟨r, hset, hrest⟩ := bind_eq_ok.mp hs
    obtain ⟨ha₁, hkeep⟩ := Value.lookup_heap_of_setField hset ha (hne e.1 (by simp))
    exact ih hrest ha₁ fun f hf => hkeep f (hne f (by simp [hf]))

namespace KVStore

variable {kv kv' : KVStore} {key : Bytes}

theorem cell_insert (kv : KVStore) (key : Bytes) : (kv.insert key).1.cell = kv.cell := by
  cases hv : kv.store.lookup key with
  | some v => simp only [insert, hv]
  | none =>
    simp only [insert, hv]
    funext ⟨k, f⟩
    by_cases hk : k = key
    · subst hk
      simp [cell, hv]
    · exact cell_put_of_ne hk kv ⟨∅⟩ f

theorem setField_eq_ok {field value : Bytes} {b : Bool}
    (hs : kv.setField alloc h key field value = .ok (h', kv', b)) :
    h' = h ∧ kv' = kv ∨ ∃ v v', kv.store.lookup key = some v ∧
      v.setField alloc h field value = .ok (h', v') ∧ kv' = kv.put key v' := by
  unfold setField at hs
  cases hv : kv.store.lookup key with
  | none =>
    simp only [hv] at hs
    cases hs
    exact Or.inl ⟨rfl, rfl⟩
  | some v =>
    simp only [hv] at hs
    obtain ⟨r, hset, hput⟩ := bind_eq_ok.mp hs
    cases hput
    exact Or.inr ⟨v, r.2, rfl, hset, rfl⟩

theorem removeField_eq_ok {field : Bytes} {b : Bool}
    (hs : kv.removeField h key field = .ok (h', kv', b)) :
    h' = h ∧ kv' = kv ∨ ∃ v v' erased, kv.store.lookup key = some v ∧
      v.removeField h field = .ok (h', v', erased) ∧ kv' = kv.put key v' := by
  unfold removeField at hs
  cases hv : kv.store.lookup key with
  | none =>
    simp only [hv] at hs
    cases hs
    exact Or.inl ⟨rfl, rfl⟩
  | some v =>
    simp only [hv] at hs
    obtain ⟨r, hrem, hput⟩ := bind_eq_ok.mp hs
    cases hput
    exact Or.inr ⟨v, r.2.1, r.2.2, rfl, hrem, rfl⟩

theorem setFields_eq_ok {ch : Choices} {fields : UnorderedMap Bytes Bytes} {b : Bool}
    (hs : kv.setFields ch h key fields = .ok (h', kv', b)) :
    h' = h ∧ kv' = kv ∨ ∃ v v', kv.store.lookup key = some v ∧
      v.setEach ch.alloc h (ch.newFields.visit fields) = .ok (h', v') ∧ kv' = kv.put key v' := by
  unfold setFields at hs
  cases hv : kv.store.lookup key with
  | none =>
    simp only [hv] at hs
    cases hs
    exact Or.inl ⟨rfl, rfl⟩
  | some v =>
    simp only [hv] at hs
    obtain ⟨r, hset, hput⟩ := bind_eq_ok.mp hs
    cases hput
    exact Or.inr ⟨v, r.2, rfl, hset, rfl⟩

theorem cell_of_setFields {ch : Choices} {fields : UnorderedMap Bytes Bytes} {b : Bool} {k : Bytes}
    (hs : kv.setFields ch h key fields = .ok (h', kv', b))
    (hf : k = key → fields.lookup f = none) : kv'.cell (k, f) = kv.cell (k, f) := by
  rcases setFields_eq_ok hs with ⟨-, rfl⟩ | ⟨v, v', hv, hset, rfl⟩
  · rfl
  · by_cases hk : k = key
    · subst hk
      have hnot : f ∉ (ch.newFields.visit fields).keys := by
        rw [← List.dlookup_eq_none, ch.newFields.dlookup_visit]
        exact hf rfl
      rw [cell_put_self, Value.lookup_of_setEach hset hnot, ← cell_put_self kv,
        cell_put_of_lookup hv]
    · exact cell_put_of_ne hk kv v' f

theorem lookup_heap_of_setFields {ch : Choices} {fields : UnorderedMap Bytes Bytes} {b : Bool}
    {x : Bytes} {a : Addr} (hs : kv.setFields ch h key fields = .ok (h', kv', b))
    (ha : h.lookup a = some x)
    (hne : ∀ f, fields.lookup f ≠ none → kv.cell (key, f) ≠ some a) : h'.lookup a = some x := by
  rcases setFields_eq_ok hs with ⟨rfl, -⟩ | ⟨v, v', hv, hset, -⟩
  · exact ha
  · apply Value.lookup_heap_of_setEach hset ha
    intro f hf
    have hcell := hne f (by
      rwa [ne_eq, ← ch.newFields.dlookup_visit, List.dlookup_eq_none, not_not])
    rwa [← cell_put_of_lookup hv, cell_put_self] at hcell

end KVStore

end Frame

end MuStore
