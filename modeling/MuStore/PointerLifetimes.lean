import MuStore.Leaks

namespace MuStore

def Call.Touches (key field : Bytes) : Call → Prop
  | .setField k f _ => k = key ∧ f = field
  | .setFields k fields => k = key ∧ fields.lookup field ≠ none
  | .removeField k f => k = key ∧ f = field
  | _ => False

/-- No call overwrites or removes the field as long as its key is not removed. -/
def Outlives (key field : Bytes) : List Call → Prop
  | [] => True
  | c :: rest => c = .remove key ∨ ¬c.Touches key field ∧ Outlives key field rest

/-- The allocator that takes the first address above every live one, except for one
that it never returns. -/
def Allocator.avoid {ρ α : Type} (a : Addr) : Allocator ρ α where
  pick r h := if bump.pick r h = a then bump.pick r h + 1 else bump.pick r h
  fresh r h := by
    split_ifs
    · intro hm
      have hle := Finset.le_sup (f := id) (Finmap.mem_keys.mpr hm)
      exact Nat.not_succ_le_self _ (Nat.le_of_succ_le hle)
    · exact bump.fresh r h
  nonnull r h := by
    split_ifs
    · exact Nat.succ_ne_zero _
    · exact bump.nonnull r h

theorem Allocator.avoid_pick_ne {ρ α : Type} (a : Addr) (r : ρ) (h : Heap α) :
    (avoid a).pick r h ≠ a := by
  show (if bump.pick r h = a then bump.pick r h + 1 else bump.pick r h) ≠ a
  split_ifs with heq
  · rw [heq]
    exact Nat.succ_ne_self a
  · exact heq

section Kept

variable {h h' : Heap Bytes} {v v' : Value} {a : Addr} {x : Bytes}

theorem Value.lookup_heap_of_removeField {field : Bytes} {b : Bool}
    (hs : v.removeField h field = .ok (h', v', b)) (ha : h.lookup a = some x)
    (hne : v.fields.lookup field ≠ some a) : h'.lookup a = some x := by
  obtain ⟨h₁, hdel, hpure⟩ := bind_eq_ok.mp hs
  cases hpure
  exact Value.lookup_heap_of_deleteField hdel ha hne

theorem Value.lookup_of_removeField {field f : Bytes} {b : Bool}
    (hs : v.removeField h field = .ok (h', v', b)) (hf : f ≠ field) :
    v'.fields.lookup f = v.fields.lookup f := by
  obtain ⟨h₁, -, hpure⟩ := bind_eq_ok.mp hs
  cases hpure
  exact AList.lookup_erase_ne hf

end Kept

namespace Storage

variable {s s' : Storage} {ch : Choices} {c : Call} {r : Returned Addr} {key field : Bytes}
  {a : Addr} {v : Bytes}

theorem fields_lookup_of_cell {k f : Bytes} {value : Value}
    (hv : s.kv.store.lookup k = some value) : value.fields.lookup f = s.kv.cell (k, f) := by
  rw [KVStore.cell, hv]
  rfl

theorem lookup_heap_of_call (hc : s.call ch c = .ok (s', r)) (ha : s.heap.lookup a = some v)
    (hne : ∀ k f, c.Touches k f → s.kv.cell (k, f) ≠ some a) : s'.heap.lookup a = some v := by
  cases c with
  | insert k =>
    cases hc
    exact ha
  | setField k f value =>
    obtain ⟨⟨h', kv', b⟩, hset, hpure⟩ := bind_eq_ok.mp hc
    cases hpure
    rcases KVStore.setField_eq_ok hset with ⟨rfl, -⟩ | ⟨val, val', hv, hval, -⟩
    · exact ha
    · refine (Value.lookup_heap_of_setField hval ha ?_).1
      rw [fields_lookup_of_cell hv]
      exact hne k f ⟨rfl, rfl⟩
  | setFields k fields =>
    obtain ⟨⟨h', kv', b⟩, hset, hpure⟩ := bind_eq_ok.mp hc
    cases hpure
    exact KVStore.lookup_heap_of_setFields hset ha fun f hf => hne k f ⟨rfl, hf⟩
  | removeField k f =>
    obtain ⟨⟨h', kv', b⟩, hrem, hpure⟩ := bind_eq_ok.mp hc
    cases hpure
    rcases KVStore.removeField_eq_ok hrem with ⟨rfl, -⟩ | ⟨val, val', erased, hv, hval, -⟩
    · exact ha
    · refine Value.lookup_heap_of_removeField hval ha ?_
      rw [fields_lookup_of_cell hv]
      exact hne k f ⟨rfl, rfl⟩
  | remove k =>
    cases hc
    exact ha
  | getField k f =>
    cases hc
    exact ha
  | getFields k =>
    cases hc
    exact ha
  | getSelectedFields k fields =>
    cases hc
    exact ha

theorem cell_of_call (hc : s.call ch c = .ok (s', r)) (hkey : c ≠ .remove key)
    (hfield : ¬c.Touches key field) : s'.kv.cell (key, field) = s.kv.cell (key, field) := by
  cases c with
  | insert k =>
    cases hc
    exact congrFun (KVStore.cell_insert s.kv k) (key, field)
  | setField k f value =>
    obtain ⟨⟨h', kv', b⟩, hset, hpure⟩ := bind_eq_ok.mp hc
    cases hpure
    rcases KVStore.setField_eq_ok hset with ⟨-, rfl⟩ | ⟨val, val', hv, hval, rfl⟩
    · rfl
    · by_cases hk : key = k
      · subst hk
        have hf : field ≠ f := fun hf => hfield ⟨rfl, hf.symm⟩
        rw [KVStore.cell_put_self, Value.lookup_of_setField hval hf, fields_lookup_of_cell hv]
      · exact KVStore.cell_put_of_ne hk ..
  | setFields k fields =>
    obtain ⟨⟨h', kv', b⟩, hset, hpure⟩ := bind_eq_ok.mp hc
    cases hpure
    refine KVStore.cell_of_setFields hset fun hk => ?_
    by_contra hf
    exact hfield ⟨hk.symm, hf⟩
  | removeField k f =>
    obtain ⟨⟨h', kv', b⟩, hrem, hpure⟩ := bind_eq_ok.mp hc
    cases hpure
    rcases KVStore.removeField_eq_ok hrem with ⟨-, rfl⟩ | ⟨val, val', erased, hv, hval, rfl⟩
    · rfl
    · by_cases hk : key = k
      · subst hk
        have hf : field ≠ f := fun hf => hfield ⟨rfl, hf.symm⟩
        rw [KVStore.cell_put_self, Value.lookup_of_removeField hval hf, fields_lookup_of_cell hv]
      · exact KVStore.cell_put_of_ne hk ..
  | remove k =>
    cases hc
    rw [cell_remove, if_neg fun hk => hkey (by rw [show k = key from hk.symm])]
  | getField k f =>
    cases hc
    rfl
  | getFields k =>
    cases hc
    rfl
  | getSelectedFields k fields =>
    cases hc
    rfl

theorem exists_step (ho : s.Owned) (e : Choices × Call) :
    ∃ s' r, s.call e.1 e.2 = .ok (s', r) ∧ s.step e = .ok s' ∧ s'.Owned := by
  obtain ⟨s', r, hcall, ho', -⟩ := call_spec e.1 ho e.2
  refine ⟨s', r, hcall, ?_, ho'⟩
  rw [step, hcall]
  rfl

theorem lookup_heap_of_leaked (ho : s.Owned) (hl : a ∈ s.leaked) (ha : s.heap.lookup a = some v)
    (l : List (Choices × Call)) :
    ∃ s', l.foldlM step s = .ok s' ∧ s'.heap.lookup a = some v := by
  induction l generalizing s with
  | nil => exact ⟨s, rfl, ha⟩
  | cons e l ih =>
    obtain ⟨s₁, r, hcall, hstep, ho₁⟩ := exists_step ho e
    have hl₁ : a ∈ s₁.leaked := by
      rw [leaked_of_call ho hcall]
      exact Or.inl hl
    have ha₁ := lookup_heap_of_call hcall ha fun k f _ hcell => hl.2 ⟨(k, f), hcell⟩
    obtain ⟨s', hrun, ha'⟩ := ih ho₁ hl₁ ha₁
    exact ⟨s', by rw [run_cons hstep, hrun], ha'⟩

/-- As long as no call touches its field a pointer leads to the same string. -/
theorem lookup_heap_of_outlives (ho : s.Owned) (hcell : s.kv.cell (key, field) = some a)
    (ha : s.heap.lookup a = some v) {l : List (Choices × Call)}
    (hl : Outlives key field (l.map Prod.snd)) :
    ∃ s', l.foldlM step s = .ok s' ∧ s'.heap.lookup a = some v := by
  induction l generalizing s with
  | nil => exact ⟨s, rfl, ha⟩
  | cons e l ih =>
    obtain ⟨s₁, r, hcall, hstep, ho₁⟩ := exists_step ho e
    rw [run_cons hstep]
    by_cases hremove : e.2 = .remove key
    · -- the key goes, and the string is left with nobody to free it
      have hl₁ : a ∈ s₁.leaked := by
        rw [leaked_of_call ho hcall, hremove]
        exact Or.inr ⟨field, hcell⟩
      refine lookup_heap_of_leaked ho₁ hl₁ (lookup_heap_of_call hcall ha ?_) l
      rw [hremove]
      exact fun k f h => h.elim
    · obtain ⟨hfield, hrest⟩ := hl.resolve_left hremove
      refine ih ho₁ ((cell_of_call hcall hremove hfield).trans hcell) ?_ hrest
      refine lookup_heap_of_call hcall ha fun k f htouch hcell' => hfield ?_
      obtain ⟨rfl, rfl⟩ := Prod.ext_iff.mp (ho.unshared hcell' hcell)
      exact htouch

section Freed

variable {h h' : Heap Bytes} {value value' : Value} {alloc : Allocator Bytes Bytes}

theorem notMem_of_deleteField {f : Bytes} (hs : value.deleteField h f = .ok h') (ha : a ∉ h) :
    a ∉ h' := by
  unfold Value.deleteField at hs
  split_ifs at hs
  · unfold Heap.delete at hs
    split_ifs at hs
    · cases hs
      exact ha
    · cases hs
      exact fun hm => ha (Finmap.mem_erase.mp hm).2
  · cases hs
    exact ha

theorem notMem_of_deleteField_self {f : Bytes} (hs : value.deleteField h f = .ok h')
    (hf : value.fields.lookup f = some a) (hn : a ≠ null) : a ∉ h' := by
  have hhas : value.hasField f = true := by
    rw [Value.hasField, decide_eq_true_eq, ← AList.lookup_isSome, hf]
    rfl
  unfold Value.deleteField at hs
  rw [if_pos hhas, Value.getField, hf, Option.getD_some, Heap.delete, if_neg hn] at hs
  split_ifs at hs
  cases hs
  exact fun hm => (Finmap.mem_erase.mp hm).1 rfl

theorem notMem_of_setField {f x : Bytes} (hs : value.setField alloc h f x = .ok (h', value'))
    (havoid : ∀ r h, alloc.pick r h ≠ a) (ha : a ∉ h) : a ∉ h' := by
  obtain ⟨h₁, hdel, rfl, -⟩ := Value.setField_eq_ok hs
  intro hm
  rcases Finmap.mem_insert.mp hm with heq | hm
  · exact havoid _ _ heq.symm
  · exact notMem_of_deleteField hdel ha hm

theorem notMem_of_setField_self {f x : Bytes}
    (hs : value.setField alloc h f x = .ok (h', value')) (havoid : ∀ r h, alloc.pick r h ≠ a)
    (hf : value.fields.lookup f = some a) (hn : a ≠ null) : a ∉ h' := by
  obtain ⟨h₁, hdel, rfl, -⟩ := Value.setField_eq_ok hs
  intro hm
  rcases Finmap.mem_insert.mp hm with heq | hm
  · exact havoid _ _ heq.symm
  · exact notMem_of_deleteField_self hdel hf hn hm

theorem notMem_of_setEach {l : List (Σ _ : Bytes, Bytes)}
    (hs : value.setEach alloc h l = .ok (h', value')) (havoid : ∀ r h, alloc.pick r h ≠ a)
    (ha : a ∉ h) : a ∉ h' := by
  induction l generalizing h value with
  | nil =>
    cases hs
    exact ha
  | cons e l ih =>
    obtain ⟨⟨h₁, value₁⟩, hset, hrest⟩ := bind_eq_ok.mp hs
    exact ih hrest (notMem_of_setField hset havoid ha)

theorem notMem_of_setEach_self {l : List (Σ _ : Bytes, Bytes)} {f : Bytes}
    (hs : value.setEach alloc h l = .ok (h', value')) (havoid : ∀ r h, alloc.pick r h ≠ a)
    (hf : value.fields.lookup f = some a) (hn : a ≠ null) (hmem : f ∈ l.keys) : a ∉ h' := by
  induction l generalizing h value with
  | nil => cases hmem
  | cons e l ih =>
    obtain ⟨⟨h₁, value₁⟩, hset, hrest⟩ := bind_eq_ok.mp hs
    by_cases hfe : f = e.1
    · subst hfe
      exact notMem_of_setEach hrest havoid (notMem_of_setField_self hset havoid hf hn)
    · refine ih hrest ((Value.lookup_of_setField hset hfe).trans hf) ?_
      rw [List.keys_cons] at hmem
      exact (List.mem_cons.mp hmem).resolve_left hfe

end Freed

theorem notMem_of_call (hc : s.call ch c = .ok (s', r)) (havoid : ∀ r h, ch.alloc.pick r h ≠ a)
    (ha : a ∉ s.heap) : a ∉ s'.heap := by
  cases c with
  | insert k =>
    cases hc
    exact ha
  | setField k f value =>
    obtain ⟨⟨h', kv', b⟩, hset, hpure⟩ := bind_eq_ok.mp hc
    cases hpure
    rcases KVStore.setField_eq_ok hset with ⟨rfl, -⟩ | ⟨val, val', -, hval, -⟩
    · exact ha
    · exact notMem_of_setField hval havoid ha
  | setFields k fields =>
    obtain ⟨⟨h', kv', b⟩, hset, hpure⟩ := bind_eq_ok.mp hc
    cases hpure
    rcases KVStore.setFields_eq_ok hset with ⟨rfl, -⟩ | ⟨val, val', -, hval, -⟩
    · exact ha
    · exact notMem_of_setEach hval havoid ha
  | removeField k f =>
    obtain ⟨⟨h', kv', b⟩, hrem, hpure⟩ := bind_eq_ok.mp hc
    cases hpure
    rcases KVStore.removeField_eq_ok hrem with ⟨rfl, -⟩ | ⟨val, val', erased, -, hval, -⟩
    · exact ha
    · obtain ⟨h₁, hdel, hpure⟩ := bind_eq_ok.mp hval
      cases hpure
      exact notMem_of_deleteField hdel ha
  | remove k =>
    cases hc
    exact ha
  | getField k f =>
    cases hc
    exact ha
  | getFields k =>
    cases hc
    exact ha
  | getSelectedFields k fields =>
    cases hc
    exact ha

/-- A call that touches the field frees its string. -/
theorem notMem_of_touches (ho : s.Owned) (hc : s.call ch c = .ok (s', r))
    (havoid : ∀ r h, ch.alloc.pick r h ≠ a) (hcell : s.kv.cell (key, field) = some a)
    (htouch : c.Touches key field) : a ∉ s'.heap := by
  have hn := ho.nonnull hcell
  obtain ⟨val, hv, hf⟩ := Option.bind_eq_some_iff.mp hcell
  cases c with
  | setField k f value =>
    obtain ⟨rfl, rfl⟩ := htouch
    obtain ⟨⟨h', kv', b⟩, hset, hpure⟩ := bind_eq_ok.mp hc
    cases hpure
    simp only [KVStore.setField, hv] at hset
    obtain ⟨⟨h₁, val₁⟩, hval, hpure⟩ := bind_eq_ok.mp hset
    cases hpure
    exact notMem_of_setField_self hval havoid hf hn
  | setFields k fields =>
    obtain ⟨rfl, hgiven⟩ := htouch
    obtain ⟨⟨h', kv', b⟩, hset, hpure⟩ := bind_eq_ok.mp hc
    cases hpure
    simp only [KVStore.setFields, hv] at hset
    obtain ⟨⟨h₁, val₁⟩, hval, hpure⟩ := bind_eq_ok.mp hset
    cases hpure
    -- the loop comes to the field at some point
    refine notMem_of_setEach_self hval havoid hf hn ?_
    by_contra hmem
    rw [← List.dlookup_eq_none, ch.newFields.dlookup_visit] at hmem
    exact hgiven hmem
  | removeField k f =>
    obtain ⟨rfl, rfl⟩ := htouch
    obtain ⟨⟨h', kv', b⟩, hrem, hpure⟩ := bind_eq_ok.mp hc
    cases hpure
    simp only [KVStore.removeField, hv] at hrem
    obtain ⟨⟨h₁, val₁, erased⟩, hval, hpure⟩ := bind_eq_ok.mp hrem
    cases hpure
    obtain ⟨h₁, hdel, hpure⟩ := bind_eq_ok.mp hval
    cases hpure
    exact notMem_of_deleteField_self hdel hf hn
  | insert k => exact htouch.elim
  | remove k => exact htouch.elim
  | getField k f => exact htouch.elim
  | getFields k => exact htouch.elim
  | getSelectedFields k fields => exact htouch.elim

theorem notMem_of_run (ho : s.Owned) {l : List (Choices × Call)}
    (havoid : ∀ e ∈ l, ∀ r h, e.1.alloc.pick r h ≠ a) (ha : a ∉ s.heap) :
    ∃ s', l.foldlM step s = .ok s' ∧ a ∉ s'.heap := by
  induction l generalizing s with
  | nil => exact ⟨s, rfl, ha⟩
  | cons e l ih =>
    obtain ⟨s₁, r, hcall, hstep, ho₁⟩ := exists_step ho e
    rw [run_cons hstep]
    exact ih ho₁ (fun e he => havoid e (List.mem_cons_of_mem _ he))
      (notMem_of_call hcall (havoid e (by simp)) ha)

theorem notMem_of_not_outlives (ho : s.Owned) (hcell : s.kv.cell (key, field) = some a)
    {l : List (Choices × Call)} (havoid : ∀ e ∈ l, ∀ r h, e.1.alloc.pick r h ≠ a)
    (hl : ¬Outlives key field (l.map Prod.snd)) :
    ∃ s', l.foldlM step s = .ok s' ∧ a ∉ s'.heap := by
  induction l generalizing s with
  | nil => exact absurd trivial hl
  | cons e l ih =>
    obtain ⟨s₁, r, hcall, hstep, ho₁⟩ := exists_step ho e
    have havoid' : ∀ e ∈ l, ∀ r h, e.1.alloc.pick r h ≠ a :=
      fun e he => havoid e (List.mem_cons_of_mem _ he)
    rw [List.map_cons, Outlives, not_or] at hl
    obtain ⟨hremove, hrest⟩ := hl
    rw [run_cons hstep]
    by_cases htouch : e.2.Touches key field
    · exact notMem_of_run ho₁ havoid'
        (notMem_of_touches ho hcall (havoid e (by simp)) hcell htouch)
    · refine ih ho₁ ((cell_of_call hcall hremove htouch).trans hcell) havoid' ?_
      exact fun hout => hrest ⟨htouch, hout⟩

/-- A pointer that `getField` has returned after any calls leads to its string after any
further calls, whatever the implementation chooses, exactly when none of them
overwrites or removes its field as long as the key is there. -/
theorem getField_outlives_iff (history : List (Choices × Call)) :
    ∃ s, history.foldlM step Storage.empty = .ok s ∧
      ∀ key field, s.kv.getField key field ≠ null →
        ∃ v, s.heap.lookup (s.kv.getField key field) = some v ∧ ∀ calls : List Call,
          ((∀ l : List (Choices × Call), l.map Prod.snd = calls →
            ∃ s', l.foldlM step s = .ok s' ∧
              s'.heap.lookup (s.kv.getField key field) = some v) ↔ Outlives key field calls) := by
  obtain ⟨s, hrun, ho, -⟩ := run_leaked_iff history owned_empty
  refine ⟨s, hrun, ?_⟩
  intro key field hn
  rw [KVStore.getField_eq] at hn ⊢
  cases hcell : s.kv.cell (key, field) with
  | none =>
    rw [hcell] at hn
    exact absurd rfl hn
  | some a =>
    obtain ⟨v, hv⟩ := Finmap.mem_iff.mp (ho.live hcell)
    refine ⟨v, hv, ?_⟩
    intro calls
    constructor
    · intro h
      by_contra hout
      -- an implementation whose `new` does not return the address
      let choices : Choices := ⟨Allocator.avoid a, IterOrder.stored, IterOrder.stored⟩
      let l : List (Choices × Call) := calls.map fun c => (choices, c)
      have hcalls : l.map Prod.snd = calls := by simp [l, Function.comp_def]
      have havoid : ∀ e ∈ l, ∀ r h, e.1.alloc.pick r h ≠ a := by
        intro e he
        obtain ⟨c, -, rfl⟩ := List.mem_map.mp he
        exact Allocator.avoid_pick_ne a
      rw [← hcalls] at hout
      obtain ⟨s', hs', hlook⟩ := h l hcalls
      obtain ⟨s'', hs'', hdead⟩ := notMem_of_not_outlives ho hcell havoid hout
      rw [hs', Except.ok.injEq] at hs''
      subst hs''
      exact hdead (Finmap.mem_iff.mpr ⟨v, hlook⟩)
    · rintro hout l rfl
      exact lookup_heap_of_outlives ho hcell hv hout

end Storage

end MuStore
