import MuStore.KVStore
import MuStore.Library.NestedMap

namespace MuStore

namespace KVStore

def pointees (h : Heap Bytes) (m : UnorderedMap Bytes Addr) : Bytes → Option Bytes :=
  fun f => (m.lookup f).bind fun a => h.lookup a

/-- The contents of the store, addresses replaced by the strings they hold. -/
def view (kv : KVStore) (h : Heap Bytes) : NestedMap Bytes Bytes Bytes :=
  fun k => (kv.store.lookup k).map fun v => pointees h v.fields

section

variable {kv : KVStore} {h : Heap Bytes} {key : Bytes}

theorem view_eq (kv : KVStore) (h : Heap Bytes) (k : Bytes) :
    kv.view h k = (kv.store.lookup k).map fun _ f => contents kv.cell h (k, f) := by
  cases hk : kv.store.lookup k with
  | none => simp [view, hk]
  | some v =>
    simp only [view, hk, Option.map_some, Option.some.injEq]
    funext f
    simp [pointees, contents, cell, hk]

theorem flat_view (kv : KVStore) (h : Heap Bytes) (k f : Bytes) :
    (kv.view h).flat k f = contents kv.cell h (k, f) := by
  rw [NestedMap.flat, view_eq]
  cases hk : kv.store.lookup k with
  | none => simp [contents, cell, hk]
  | some v => rfl

theorem isSome_view (kv : KVStore) (h : Heap Bytes) (k : Bytes) :
    (kv.view h k).isSome = decide (k ∈ kv.store) := by
  rw [view, Option.isSome_map, Bool.eq_iff_iff, AList.lookup_isSome, decide_eq_true_eq]

theorem view_put {v v' : Value} {h' : Heap Bytes}
    {g : (Bytes → Option Bytes) → Bytes → Option Bytes}
    (hv : kv.store.lookup key = some v)
    (hc : ∀ k f, contents (kv.put key v').cell h' (k, f) =
      if k = key then g (fun f => contents kv.cell h (key, f)) f else contents kv.cell h (k, f)) :
    (kv.put key v').view h' = ((kv.view h).modify key g).1 ∧
      ((kv.view h).modify key g).2 = true := by
  have hview : kv.view h key = some fun f => contents kv.cell h (key, f) := by
    rw [view_eq, hv, Option.map_some]
  simp only [NestedMap.modify, hview, and_true]
  funext k
  by_cases hk : k = key
  · subst hk
    rw [Function.update_self, view_eq, lookup_put_self, Option.map_some, Option.some.injEq]
    funext f
    rw [hc, if_pos rfl]
  · rw [Function.update_of_ne hk, view_eq, view_eq, lookup_put_of_ne hk]
    simp only [hc, if_neg hk]

theorem view_put_field {v v' : Value} {h' : Heap Bytes} {field : Bytes} {x : Option Bytes}
    (hv : kv.store.lookup key = some v)
    (hc : contents (kv.put key v').cell h' =
      Function.update (contents kv.cell h) (key, field) x) :
    (kv.put key v').view h' =
        ((kv.view h).modify key fun fs => Function.update fs field x).1 ∧
      ((kv.view h).modify key fun fs => Function.update fs field x).2 = true := by
  apply view_put hv
  intro k f
  rw [hc]
  by_cases hk : k = key
  · by_cases hf : f = field
    · simp [hk, hf]
    · simp [hk, hf]
  · simp [hk]

theorem modify_of_lookup_none (hv : kv.store.lookup key = none)
    (g : (Bytes → Option Bytes) → Bytes → Option Bytes) :
    (kv.view h).modify key g = (kv.view h, false) := by
  simp [NestedMap.modify, view, hv]

end

section Updates

variable {kv : KVStore} {h : Heap Bytes}

theorem insert_spec (ho : Owns kv.cell h) (key : Bytes) :
    Owns (kv.insert key).1.cell h ∧
      ((kv.insert key).1.view h, (kv.insert key).2) = (kv.view h).insert key := by
  cases hv : kv.store.lookup key with
  | some v =>
    have hview : kv.view h key = some (pointees h v.fields) := by simp [view, hv]
    simp only [insert, hv, NestedMap.insert, hview]
    exact ⟨ho, trivial⟩
  | none =>
    have hview : kv.view h key = none := by simp [view, hv]
    have hput : kv.insert key = (kv.put key ⟨∅⟩, true) := by simp [insert, hv, put]
    refine ⟨by rwa [cell_insert], ?_⟩
    rw [hput]
    simp only [NestedMap.insert, hview, Prod.mk.injEq, and_true]
    funext k
    by_cases hk : k = key
    · subst hk
      rw [Function.update_self, view, lookup_put_self]
      rfl
    · rw [Function.update_of_ne hk, view, view, lookup_put_of_ne hk]

theorem setField_spec (alloc : Allocator Bytes Bytes) (ho : Owns kv.cell h)
    (key field value : Bytes) :
    ∃ h' kv' b, kv.setField alloc h key field value = .ok (h', kv', b) ∧ Owns kv'.cell h' ∧
      (kv'.view h', b) = (kv.view h).setField key field value := by
  cases hv : kv.store.lookup key with
  | none =>
    refine ⟨h, kv, false, by simp [setField, hv]; rfl, ho, ?_⟩
    rw [NestedMap.setField, modify_of_lookup_none hv]
  | some v =>
    rw [← cell_put_of_lookup hv] at ho
    obtain ⟨h', v', hset, ho', hc⟩ := Value.setField_spec alloc ho field value
    refine ⟨h', kv.put key v', true, ?_, ho', ?_⟩
    · simp only [setField, hv, hset]
      rfl
    · rw [cell_put_of_lookup hv] at hc
      have hview := view_put_field hv hc
      rw [NestedMap.setField, hview.1, ← hview.2]

theorem removeField_spec (ho : Owns kv.cell h) (key field : Bytes) :
    ∃ h' kv' b, kv.removeField h key field = .ok (h', kv', b) ∧ Owns kv'.cell h' ∧
      (kv'.view h', b) = (kv.view h).removeField key field := by
  cases hv : kv.store.lookup key with
  | none =>
    refine ⟨h, kv, false, by simp [removeField, hv]; rfl, ho, ?_⟩
    rw [NestedMap.removeField, modify_of_lookup_none hv, flat_view]
    simp [contents, cell, hv]
  | some v =>
    have hsome : v.hasField field = ((kv.view h).flat key field).isSome := by
      rw [flat_view, Bool.eq_iff_iff, ← Option.ne_none_iff_isSome, Ne, contents_eq_none_iff ho,
        cell, hv, Option.bind_some, Value.hasField, decide_eq_true_eq, ← AList.lookup_isSome,
        ← Option.ne_none_iff_isSome]
    rw [← cell_put_of_lookup hv] at ho
    obtain ⟨h', v', hrem, ho', hc⟩ := Value.removeField_spec ho field
    refine ⟨h', kv.put key v', v.hasField field, ?_, ho', ?_⟩
    · simp only [removeField, hv, hrem]
      rfl
    · rw [cell_put_of_lookup hv] at hc
      have hview := view_put_field hv hc
      rw [NestedMap.removeField, hview.1, hsome]

theorem remove_spec (ho : Owns kv.cell h) (key : Bytes) :
    Owns (kv.remove key).1.cell h ∧
      ((kv.remove key).1.view h, (kv.remove key).2) = (kv.view h).remove key := by
  have hlookup : ∀ k, (kv.remove key).1.store.lookup k =
      if k = key then none else kv.store.lookup k := by
    intro k
    split_ifs with hk
    · rw [hk]
      exact AList.lookup_erase key kv.store
    · exact AList.lookup_erase_ne hk
  have hcell : ∀ {c a}, (kv.remove key).1.cell c = some a → kv.cell c = some a := by
    intro c a hc
    rw [cell, hlookup] at hc
    by_cases hk : c.1 = key
    · rw [if_pos hk] at hc
      cases hc
    · rwa [if_neg hk] at hc
  refine ⟨⟨fun hc => ho.live (hcell hc), fun hc => ho.nonnull (hcell hc),
    fun hc hc' => ho.unshared (hcell hc) (hcell hc')⟩, ?_⟩
  rw [NestedMap.remove, isSome_view]
  congr 1
  funext k
  by_cases hk : k = key
  · rw [view, hlookup, if_pos hk, hk, Function.update_self, Option.map_none]
  · rw [view, hlookup, if_neg hk, Function.update_of_ne hk, view]

theorem setFields_spec (ch : Choices) (ho : Owns kv.cell h) (key : Bytes)
    (fields : UnorderedMap Bytes Bytes) :
    ∃ h' kv' b, kv.setFields ch h key fields = .ok (h', kv', b) ∧ Owns kv'.cell h' ∧
      (kv'.view h', b) = (kv.view h).setFields key fun f => fields.lookup f := by
  cases hv : kv.store.lookup key with
  | none =>
    refine ⟨h, kv, false, by simp [setFields, hv]; rfl, ho, ?_⟩
    rw [NestedMap.setFields, modify_of_lookup_none hv]
  | some v =>
    rw [← cell_put_of_lookup hv] at ho
    obtain ⟨h', v', hset, ho', hc⟩ :=
      Value.setEach_spec ch.alloc (ch.newFields.visit fields) ho
    refine ⟨h', kv.put key v', true, ?_, ho', ?_⟩
    · simp only [setFields, hv, Value.setFields, hset]
      rfl
    · have hview := view_put (g := fun fs f => (fields.lookup f).or (fs f)) hv (by
        intro k f
        rw [hc, cell_put_of_lookup hv, IterOrder.assignAll_visit])
      rw [NestedMap.setFields, hview.1, ← hview.2]

end Updates

section Queries

variable (kv : KVStore) (h : Heap Bytes)

theorem lookup_getFields (key f : Bytes) : (kv.getFields key).lookup f = kv.cell (key, f) := by
  cases hv : kv.store.lookup key with
  | none => simp [getFields, cell, hv]
  | some v => simp [getFields, cell, hv, Value.getFields]

theorem lookup_getSelectedFields (key : Bytes) (names : List Bytes) (f : Bytes) :
    (kv.getSelectedFields key names).lookup f = if f ∈ names then kv.cell (key, f) else none := by
  cases hv : kv.store.lookup key with
  | none => simp [getSelectedFields, cell, hv]
  | some v => simp [getSelectedFields, cell, hv, Value.lookup_getSelectedFields]

theorem pointees_getFields (key : Bytes) :
    pointees h (kv.getFields key) = (kv.view h).getFields key := by
  funext f
  rw [pointees, lookup_getFields, NestedMap.getFields, flat_view, contents]

theorem pointees_getSelectedFields (key : Bytes) (names : List Bytes) :
    pointees h (kv.getSelectedFields key names) = (kv.view h).getSelectedFields key names := by
  funext f
  rw [pointees, lookup_getSelectedFields, NestedMap.getSelectedFields, NestedMap.select, flat_view,
    contents]
  split_ifs <;> rfl

theorem getField_eq (key field : Bytes) :
    kv.getField key field = (kv.cell (key, field)).getD null := by
  cases hv : kv.store.lookup key with
  | none => simp [getField, cell, hv]
  | some v => simp [getField, cell, hv, Value.getField]

end Queries

end KVStore

structure Storage where
  heap : Heap Bytes
  kv : KVStore

def Storage.empty : Storage := ⟨∅, KVStore.empty⟩

inductive Call where
  | insert (key : Bytes)
  | setField (key field value : Bytes)
  | setFields (key : Bytes) (fields : UnorderedMap Bytes Bytes)
  | removeField (key field : Bytes)
  | remove (key : Bytes)
  | getField (key field : Bytes)
  | getFields (key : Bytes)
  | getSelectedFields (key : Bytes) (fields : List Bytes)

inductive Returned (ν : Type) where
  | flag (b : Bool)
  | pointer (p : Option ν)
  | pointers (m : Bytes → Option ν)

def Returned.map {ν μ : Type} (g : ν → μ) : Returned ν → Returned μ
  | .flag b => .flag b
  | .pointer p => .pointer (p.map g)
  | .pointers m => .pointers fun f => (m f).map g

namespace Storage

def call (ch : Choices) (s : Storage) : Call → Except MemFault (Storage × Returned Addr)
  | .insert key => pure (⟨s.heap, (s.kv.insert key).1⟩, .flag (s.kv.insert key).2)
  | .setField key field value => do
    let (h, kv, b) ← s.kv.setField ch.alloc s.heap key field value
    pure (⟨h, kv⟩, .flag b)
  | .setFields key fields => do
    let (h, kv, b) ← s.kv.setFields ch s.heap key fields
    pure (⟨h, kv⟩, .flag b)
  | .removeField key field => do
    let (h, kv, b) ← s.kv.removeField s.heap key field
    pure (⟨h, kv⟩, .flag b)
  | .remove key => pure (⟨s.heap, (s.kv.remove key).1⟩, .flag (s.kv.remove key).2)
  | .getField key field =>
    let a := s.kv.getField key field
    pure (s, .pointer (if a = null then none else some a))
  | .getFields key => pure (s, .pointers fun f => (s.kv.getFields key).lookup f)
  | .getSelectedFields key fields =>
    pure (s, .pointers fun f => (s.kv.getSelectedFields key fields).lookup f)

/-- Call after call; whatever pointers a call returns are read at once. -/
def calls (s : Storage) :
    List (Choices × Call) → Except MemFault (Storage × List (Returned (Except MemFault Bytes)))
  | [] => pure (s, [])
  | (ch, c) :: rest => do
    let (s, r) ← s.call ch c
    let (s', rs) ← s.calls rest
    pure (s', r.map (Heap.read s.heap) :: rs)

end Storage

namespace NestedMap

def call (m : NestedMap Bytes Bytes Bytes) : Call → NestedMap Bytes Bytes Bytes × Returned Bytes
  | .insert key => ((m.insert key).1, .flag (m.insert key).2)
  | .setField key field value =>
    ((m.setField key field value).1, .flag (m.setField key field value).2)
  | .setFields key fields =>
    ((m.setFields key fun f => fields.lookup f).1,
      .flag (m.setFields key fun f => fields.lookup f).2)
  | .removeField key field => ((m.removeField key field).1, .flag (m.removeField key field).2)
  | .remove key => ((m.remove key).1, .flag (m.remove key).2)
  | .getField key field => (m, .pointer (m.getField key field))
  | .getFields key => (m, .pointers (m.getFields key))
  | .getSelectedFields key fields => (m, .pointers (m.getSelectedFields key fields))

def calls (m : NestedMap Bytes Bytes Bytes) :
    List Call → NestedMap Bytes Bytes Bytes × List (Returned Bytes)
  | [] => (m, [])
  | c :: rest => (((m.call c).1.calls rest).1, (m.call c).2 :: ((m.call c).1.calls rest).2)

end NestedMap

namespace Storage

variable {s : Storage}

def Owned (s : Storage) : Prop := Owns s.kv.cell s.heap

def view (s : Storage) : NestedMap Bytes Bytes Bytes := s.kv.view s.heap

theorem owned_empty : Storage.empty.Owned := owns_empty

theorem map_read_cell (ho : s.Owned) (c : Bytes × Bytes) :
    (s.kv.cell c).map (Heap.read s.heap) = (contents s.kv.cell s.heap c).map .ok := by
  cases hc : s.kv.cell c with
  | none => simp [contents, hc]
  | some a =>
    obtain ⟨v, hv⟩ := Finmap.mem_iff.mp (ho.live hc)
    simp [contents, hc, hv, Heap.read_of_lookup hv]

/-- One call does to the storage what it does to the nested map. -/
theorem call_spec (ch : Choices) (ho : s.Owned) (c : Call) :
    ∃ s' r, s.call ch c = .ok (s', r) ∧ s'.Owned ∧ s'.view = (s.view.call c).1 ∧
      r.map (Heap.read s'.heap) = (s.view.call c).2.map .ok := by
  cases c with
  | insert key =>
    obtain ⟨ho', heq⟩ := KVStore.insert_spec ho key
    obtain ⟨hv, hb⟩ := Prod.ext_iff.mp heq
    exact ⟨_, _, rfl, ho', hv, congrArg Returned.flag hb⟩
  | setField key field value =>
    obtain ⟨h', kv', b, hcall, ho', heq⟩ := KVStore.setField_spec ch.alloc ho key field value
    obtain ⟨hv, hb⟩ := Prod.ext_iff.mp heq
    exact ⟨⟨h', kv'⟩, .flag b, by rw [call, hcall]; rfl, ho', hv, congrArg Returned.flag hb⟩
  | setFields key fields =>
    obtain ⟨h', kv', b, hcall, ho', heq⟩ := KVStore.setFields_spec ch ho key fields
    obtain ⟨hv, hb⟩ := Prod.ext_iff.mp heq
    exact ⟨⟨h', kv'⟩, .flag b, by rw [call, hcall]; rfl, ho', hv, congrArg Returned.flag hb⟩
  | removeField key field =>
    obtain ⟨h', kv', b, hcall, ho', heq⟩ := KVStore.removeField_spec ho key field
    obtain ⟨hv, hb⟩ := Prod.ext_iff.mp heq
    exact ⟨⟨h', kv'⟩, .flag b, by rw [call, hcall]; rfl, ho', hv, congrArg Returned.flag hb⟩
  | remove key =>
    obtain ⟨ho', heq⟩ := KVStore.remove_spec ho key
    obtain ⟨hv, hb⟩ := Prod.ext_iff.mp heq
    exact ⟨_, _, rfl, ho', hv, congrArg Returned.flag hb⟩
  | getField key field =>
    refine ⟨s, _, rfl, ho, rfl, ?_⟩
    have hcell : (if s.kv.getField key field = null then none else some (s.kv.getField key field)) =
        s.kv.cell (key, field) := by
      rw [KVStore.getField_eq]
      cases hc : s.kv.cell (key, field) with
      | none => simp
      | some a => simpa using ho.nonnull hc
    simp only [Returned.map, NestedMap.call, NestedMap.getField]
    rw [hcell, map_read_cell ho, view, KVStore.flat_view]
  | getFields key =>
    refine ⟨s, _, rfl, ho, rfl, ?_⟩
    simp only [Returned.map, NestedMap.call, NestedMap.getFields, Returned.pointers.injEq]
    funext f
    rw [KVStore.lookup_getFields, map_read_cell ho, view, KVStore.flat_view]
  | getSelectedFields key fields =>
    refine ⟨s, _, rfl, ho, rfl, ?_⟩
    simp only [Returned.map, NestedMap.call, NestedMap.getSelectedFields, NestedMap.select,
      Returned.pointers.injEq]
    funext f
    rw [KVStore.lookup_getSelectedFields]
    split_ifs
    · rw [map_read_cell ho, view, KVStore.flat_view]
    · rfl

theorem calls_spec (l : List (Choices × Call)) (ho : s.Owned) :
    ∃ s' rs, s.calls l = .ok (s', rs) ∧ s'.Owned ∧
      s'.view = (s.view.calls (l.map Prod.snd)).1 ∧
      rs = (s.view.calls (l.map Prod.snd)).2.map (Returned.map .ok) := by
  induction l generalizing s with
  | nil => exact ⟨s, [], rfl, ho, rfl, rfl⟩
  | cons e l ih =>
    obtain ⟨ch, c⟩ := e
    obtain ⟨s₁, r, hcall, ho₁, hv₁, hr⟩ := call_spec ch ho c
    obtain ⟨s₂, rs, hcalls, ho₂, hv₂, hrs⟩ := ih ho₁
    rw [hv₁] at hv₂ hrs
    refine ⟨s₂, r.map (Heap.read s₁.heap) :: rs, ?_, ho₂, hv₂, ?_⟩
    · rw [calls, hcall]
      change (do let (s', rs) ← s₁.calls l; pure (s', r.map (Heap.read s₁.heap) :: rs)) = _
      rw [hcalls]
      rfl
    · rw [hr, hrs]
      rfl

/-- From the empty store no call deletes or returns a dead address, the store
owns its strings throughout, and it answers as a nested map does. -/
theorem calls_refine_nestedMap (l : List (Choices × Call)) :
    ∃ s rs, Storage.empty.calls l = .ok (s, rs) ∧ Owns s.kv.cell s.heap ∧
      s.view = (NestedMap.empty.calls (l.map Prod.snd)).1 ∧
      rs = (NestedMap.empty.calls (l.map Prod.snd)).2.map (Returned.map .ok) :=
  calls_spec l owned_empty

end Storage

end MuStore
