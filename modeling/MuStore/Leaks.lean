import MuStore.KVStoreRefinement

namespace MuStore

section Updates

variable {kv kv' : KVStore} {key : Bytes} {v v' : Value} {h h' : Heap Bytes}

theorem Value.leaked_of_deleteField (ho : Owns (kv.put key v).cell h) {field : Bytes}
    (hdel : v.deleteField h field = .ok h') :
    leaked (Function.update (kv.put key v).cell (key, field) none) h' =
      leaked (kv.put key v).cell h := by
  rcases Value.deleteField_cases ho field with ⟨hf, hdel'⟩ | ⟨a, hf, hdel'⟩
  · rw [hdel, Except.ok.injEq] at hdel'
    have hcell : (kv.put key v).cell (key, field) = none := by rw [KVStore.cell_put_self, hf]
    rw [hdel', Function.update_eq_self_iff.mpr hcell.symm]
  · rw [hdel, Except.ok.injEq] at hdel'
    rw [hdel']
    apply leaked_release
    rw [KVStore.cell_put_self, hf]

theorem Value.leaked_of_setField (ho : Owns (kv.put key v).cell h) {alloc : Allocator Bytes Bytes}
    {field value : Bytes} (hs : v.setField alloc h field value = .ok (h', v')) :
    leaked (kv.put key v').cell h' = leaked (kv.put key v).cell h := by
  obtain ⟨h₁, hdel, rfl, rfl⟩ := Value.setField_eq_ok hs
  have hacquire := leaked_acquire (Function.update_self (key, field) none (kv.put key v).cell)
    (alloc.fresh field h₁) value
  rw [Function.update_idem, ← KVStore.cell_put_insert] at hacquire
  rw [hacquire, Value.leaked_of_deleteField ho hdel]

theorem Value.leaked_of_removeField (ho : Owns (kv.put key v).cell h) {field : Bytes} {b : Bool}
    (hs : v.removeField h field = .ok (h', v', b)) :
    leaked (kv.put key v').cell h' = leaked (kv.put key v).cell h := by
  obtain ⟨h₁, hdel, hpure⟩ := bind_eq_ok.mp hs
  cases hpure
  rw [KVStore.cell_put_erase, Value.leaked_of_deleteField ho hdel]

theorem Value.leaked_of_setEach {alloc : Allocator Bytes Bytes} {l : List (Σ _ : Bytes, Bytes)}
    (ho : Owns (kv.put key v).cell h) (hs : v.setEach alloc h l = .ok (h', v')) :
    leaked (kv.put key v').cell h' = leaked (kv.put key v).cell h := by
  induction l generalizing h v with
  | nil =>
    cases hs
    rfl
  | cons e l ih =>
    obtain ⟨h₁, v₁, hset, ho₁, -⟩ := Value.setField_spec alloc ho e.1 e.2
    have hrest : v₁.setEach alloc h₁ l = .ok (h', v') := by
      rw [Value.setEach, hset] at hs
      exact hs
    rw [ih ho₁ hrest, Value.leaked_of_setField ho hset]

end Updates

namespace Storage

variable {s s' : Storage}

def leaked (s : Storage) : Set Addr := MuStore.leaked s.kv.cell s.heap

/-- The strings whose pointers are dropped without being deleted. -/
def abandoned (s : Storage) : Call → Set Addr
  | .remove key => {a | ∃ field, s.kv.cell (key, field) = some a}
  | _ => ∅

theorem cell_remove (kv : KVStore) (key : Bytes) (c : Bytes × Bytes) :
    (kv.remove key).1.cell c = if c.1 = key then none else kv.cell c := by
  obtain ⟨k, f⟩ := c
  simp only [KVStore.remove, KVStore.cell]
  by_cases hk : k = key
  · rw [if_pos hk, hk, AList.lookup_erase]
    rfl
  · rw [if_neg hk, AList.lookup_erase_ne hk]

theorem leaked_of_remove (ho : s.Owned) (key : Bytes) :
    leaked ⟨s.heap, (s.kv.remove key).1⟩ = s.leaked ∪ s.abandoned (.remove key) := by
  have hsub : ∀ c, (s.kv.remove key).1.cell c = s.kv.cell c ∨
      (s.kv.remove key).1.cell c = none := by
    intro c
    rw [cell_remove]
    split_ifs
    · exact Or.inr rfl
    · exact Or.inl rfl
  unfold leaked
  rw [Owns.leaked_forget ho hsub]
  congr 1
  ext a
  constructor
  · rintro ⟨⟨k, f⟩, hc, hnone⟩
    rw [cell_remove] at hnone
    split_ifs at hnone with hk
    · have hk : k = key := hk
      exact ⟨f, hk ▸ hc⟩
    · rw [hc] at hnone
      cases hnone
  · rintro ⟨f, hc⟩
    exact ⟨(key, f), hc, by rw [cell_remove, if_pos rfl]⟩

theorem leaked_put {h' : Heap Bytes} {key : Bytes} {v v' : Value} (ho : s.Owned)
    (hv : s.kv.store.lookup key = some v)
    (hl : Owns (s.kv.put key v).cell s.heap →
      MuStore.leaked (s.kv.put key v').cell h' = MuStore.leaked (s.kv.put key v).cell s.heap) :
    leaked ⟨h', s.kv.put key v'⟩ = s.leaked := by
  have hcell := KVStore.cell_put_of_lookup hv
  rw [hcell] at hl
  exact hl ho

/-- A call leaks what it abandons. -/
theorem leaked_of_call (ho : s.Owned) {ch : Choices} {c : Call} {r : Returned Addr}
    (hc : s.call ch c = .ok (s', r)) : s'.leaked = s.leaked ∪ s.abandoned c := by
  cases c with
  | insert key =>
    cases hc
    show leaked _ = s.leaked ∪ ∅
    rw [Set.union_empty, leaked, leaked, KVStore.cell_insert]
  | setField key field value =>
    show s'.leaked = s.leaked ∪ ∅
    obtain ⟨⟨h', kv', b⟩, hset, hpure⟩ := bind_eq_ok.mp hc
    cases hpure
    rw [Set.union_empty]
    rcases KVStore.setField_eq_ok hset with ⟨rfl, rfl⟩ | ⟨v, v', hv, hval, rfl⟩
    · rfl
    · exact leaked_put ho hv fun ho' => Value.leaked_of_setField ho' hval
  | setFields key fields =>
    show s'.leaked = s.leaked ∪ ∅
    obtain ⟨⟨h', kv', b⟩, hset, hpure⟩ := bind_eq_ok.mp hc
    cases hpure
    rw [Set.union_empty]
    rcases KVStore.setFields_eq_ok hset with ⟨rfl, rfl⟩ | ⟨v, v', hv, hval, rfl⟩
    · rfl
    · exact leaked_put ho hv fun ho' => Value.leaked_of_setEach ho' hval
  | removeField key field =>
    show s'.leaked = s.leaked ∪ ∅
    obtain ⟨⟨h', kv', b⟩, hrem, hpure⟩ := bind_eq_ok.mp hc
    cases hpure
    rw [Set.union_empty]
    rcases KVStore.removeField_eq_ok hrem with ⟨rfl, rfl⟩ | ⟨v, v', erased, hv, hval, rfl⟩
    · rfl
    · exact leaked_put ho hv fun ho' => Value.leaked_of_removeField ho' hval
  | remove key =>
    cases hc
    exact leaked_of_remove ho key
  | getField key field =>
    cases hc
    exact (Set.union_empty _).symm
  | getFields key =>
    cases hc
    exact (Set.union_empty _).symm
  | getSelectedFields key fields =>
    cases hc
    exact (Set.union_empty _).symm

def step (s : Storage) (e : Choices × Call) : Except MemFault Storage := do
  let (s, _) ← s.call e.1 e.2
  pure s

def RemovesEmpty (s : Storage) (e : Choices × Call) : Prop :=
  ∀ key, e.2 = .remove key → ∀ field, s.kv.cell (key, field) = none

theorem abandoned_eq_empty_iff (e : Choices × Call) : s.abandoned e.2 = ∅ ↔ s.RemovesEmpty e := by
  obtain ⟨ch, c⟩ := e
  cases c with
  | remove key =>
    rw [RemovesEmpty, Set.eq_empty_iff_forall_notMem]
    constructor
    · intro h key' hkey field
      cases hkey
      rw [Option.eq_none_iff_forall_ne_some]
      exact fun a ha => h a ⟨field, ha⟩
    · rintro h a ⟨field, ha⟩
      rw [h key rfl field] at ha
      cases ha
  | _ => simp [RemovesEmpty, abandoned]

/-- Nothing that has leaked is ever freed. -/
theorem run_leaked_iff (l : List (Choices × Call)) (ho : s.Owned) :
    ∃ s', l.foldlM step s = .ok s' ∧ s'.Owned ∧
      (s'.leaked = ∅ ↔ s.leaked = ∅ ∧ Throughout step RemovesEmpty s l) := by
  induction l generalizing s with
  | nil => exact ⟨s, rfl, ho, (and_iff_left trivial).symm⟩
  | cons e l ih =>
    obtain ⟨s₁, r, hcall, ho₁, -⟩ := call_spec e.1 ho e.2
    have hstep : s.step e = .ok s₁ := by
      rw [step, hcall]
      rfl
    obtain ⟨s₂, hrun, ho₂, hiff⟩ := ih ho₁
    refine ⟨s₂, by rw [run_cons hstep, hrun], ho₂, ?_⟩
    rw [hiff, leaked_of_call ho hcall, Set.union_empty_iff, abandoned_eq_empty_iff, and_assoc]
    constructor
    · rintro ⟨hnone, hcond, hrest⟩
      exact ⟨hnone, hrest.cons hcond hstep⟩
    · rintro ⟨hnone, hcond, hrest⟩
      exact ⟨hnone, hcond, hrest s₁ hstep⟩

/-- The live strings are those of the store exactly when every `remove` so far has met a
key without fields. -/
theorem live_eq_reachable_iff (l : List (Choices × Call)) :
    ∃ s, l.foldlM step Storage.empty = .ok s ∧
      (s.heap.live = reachable s.kv.cell ↔ Throughout step RemovesEmpty Storage.empty l) := by
  obtain ⟨s, hrun, ho, hiff⟩ := run_leaked_iff l owned_empty
  refine ⟨s, hrun, ?_⟩
  have hstart : Storage.empty.leaked = ∅ := by
    rw [leaked, MuStore.leaked, Set.sdiff_eq_empty]
    intro a ha
    exact absurd ha Finmap.notMem_empty
  rw [← Owns.leaked_eq_empty_iff ho]
  exact hiff.trans (and_iff_right hstart)

/-- The key goes and its string stays. -/
theorem not_live_eq_reachable :
    ¬∀ (l : List (Choices × Call)) (s : Storage), l.foldlM step Storage.empty = .ok s →
      s.heap.live = reachable s.kv.cell := by
  intro h
  have hrun : [(Choices.plain, Call.insert (ascii "k")),
      (Choices.plain, Call.setField (ascii "k") (ascii "f") (ascii "v")),
      (Choices.plain, Call.remove (ascii "k"))].foldlM step Storage.empty =
        .ok ⟨Finmap.singleton 1 (ascii "v"), ⟨∅⟩⟩ := rfl
  have hlive : 1 ∈ Heap.live (Finmap.singleton 1 (ascii "v")) := by
    show _ ∈ Finmap.singleton _ _
    simp
  rw [h _ _ hrun] at hlive
  obtain ⟨c, hc⟩ := hlive
  cases hc

end Storage

end MuStore
