import MuStore.Observability

namespace MuStore

open Protocol Server

theorem lastWrite_append (history history' : List Bytes) (key f : Bytes) :
    lastWrite (history ++ history') key f =
      (lastWrite history' key f).or (lastWrite history key f) := by
  rw [lastWrite, List.flatMap_append, List.reverse_append, List.dlookup_append]
  rfl

/-- A block of commands that is sent again right away changes nothing, in any build. -/
theorem indistinguishable_retry (build : Build) (before block after : List Bytes) :
    Indistinguishable build (before ++ block ++ block ++ after) (before ++ block ++ after) := by
  apply indistinguishable_of_lastWrite
  intro key
  funext f
  simp only [lastWrite_append]
  cases lastWrite block key f with
  | none => rw [Option.none_or, Option.none_or]
  | some v => rw [Option.some_or, Option.some_or]

/-- Histories that write the same pairs under each key, in the same order, are the same
to clients, however the keys take turns and whatever is read in between. -/
theorem indistinguishable_of_writesTo (build : Build) {history history' : List Bytes}
    (h : ∀ key, history.flatMap (writesTo key) = history'.flatMap (writesTo key)) :
    Indistinguishable build history history' := by
  apply indistinguishable_of_lastWrite
  intro key
  funext f
  rw [lastWrite, lastWrite, h]

def Value.dump (v : Value) (h : Heap Bytes) : List (Σ _ : Bytes, Bytes) :=
  IterOrder.stored.deref h v.fields

/-- A `SET_FIELDS` with all its fields for each key that has any. -/
def Storage.snapshot (s : Storage) : List Bytes :=
  (s.kv.store.entries.filter fun e => e.2.fields.size ≠ 0).map fun e =>
    quotedCommand e.1 (e.2.dump s.heap)

theorem writesTo_quotedCommand {key : Bytes} {l : List (Σ _ : Bytes, Bytes)} (hl : l ≠ [])
    (hw : ∀ e ∈ l, Writable key e) (key' : Bytes) :
    writesTo key' (quotedCommand key l) = if key = key' then l else [] := by
  obtain ⟨e, he⟩ := List.exists_mem_of_ne_nil l hl
  have hwords := words_quotedCommand (hw e he).key_ne_nil (hw e he).key_spaceFree
    fun e he => ⟨(hw e he).field_spaceFree, (hw e he).value_spaceFree⟩
  have hpairs := pairs_map_quotedPair fun e he => (hw e he).field_noSep
  rw [pairs_eq] at hpairs
  rw [writesTo, hwords]
  simp only [true_and, hpairs]

section Snapshot

variable {s : Storage}

theorem flat_of_mem_entries {key : Bytes} {v : Value} (he : ⟨key, v⟩ ∈ s.kv.store.entries) :
    s.view.flat key = KVStore.pointees s.heap v.fields := by
  have hlook : s.kv.store.lookup key = some v := AList.mem_lookup_iff.mpr he
  rw [NestedMap.flat, Storage.view, KVStore.view, hlook]
  rfl

theorem enumerates_dump (ho : s.Owned) {key : Bytes} {v : Value}
    (he : ⟨key, v⟩ ∈ s.kv.store.entries) : Enumerates (v.dump s.heap) (s.view.flat key) := by
  have hlook : s.kv.store.lookup key = some v := AList.mem_lookup_iff.mpr he
  rw [flat_of_mem_entries he]
  apply IterOrder.stored.enumerates_deref
  have hcell : ∀ f a, v.fields.lookup f = some a → s.kv.cell (key, f) = some a := by
    intro f a hf
    rw [KVStore.cell, hlook, Option.bind_some]
    exact hf
  exact live_of_cell ho hcell

theorem dump_ne_nil {v : Value} {h : Heap Bytes} (hs : v.fields.size ≠ 0) : v.dump h ≠ [] := by
  intro hnil
  rw [← List.length_eq_zero_iff, Value.dump, IterOrder.length_deref] at hnil
  exact hs hnil

/-- What the commands of a snapshot write under a key is what the key has. -/
theorem flatMap_writesTo_snapshot (ho : s.Owned)
    (hw : ∀ k f v, s.view.flat k f = some v → Writable k ⟨f, v⟩) (key : Bytes) :
    ∃ l, s.snapshot.flatMap (writesTo key) = l ∧ Enumerates l (s.view.flat key) := by
  have hwrites : ∀ e ∈ s.kv.store.entries, e.2.fields.size ≠ 0 →
      writesTo key (quotedCommand e.1 (e.2.dump s.heap)) =
        if e.1 = key then e.2.dump s.heap else [] := by
    rintro ⟨k, v⟩ he hsize
    refine writesTo_quotedCommand (dump_ne_nil hsize) ?_ key
    rintro ⟨f, x⟩ hm
    exact hw k f x (((enumerates_dump ho he).mem_iff f x).mp hm)
  have hflat : s.snapshot.flatMap (writesTo key) =
      s.kv.store.entries.flatMap fun e => if e.1 = key then e.2.dump s.heap else [] := by
    rw [Storage.snapshot, List.flatMap_map]
    generalize s.kv.store.entries = entries at hwrites
    induction entries with
    | nil => rfl
    | cons e entries ih =>
      have hrest := ih fun e' he' => hwrites e' (List.mem_cons_of_mem _ he')
      by_cases hsize : e.2.fields.size = 0
      · have hnil : e.2.dump s.heap = [] := by
          rw [← List.length_eq_zero_iff, Value.dump, IterOrder.length_deref, hsize]
        rw [List.filter_cons_of_neg (by simp [hsize]), hrest, List.flatMap_cons, hnil, ite_self,
          List.nil_append]
      · rw [List.filter_cons_of_pos (by simp [hsize]), List.flatMap_cons, List.flatMap_cons, hrest,
          hwrites e (by simp) hsize]
  refine ⟨_, hflat, ?_⟩
  rw [flatMap_of_nodupKeys s.kv.store.nodupKeys key fun v => v.dump s.heap]
  cases hlook : s.kv.store.entries.dlookup key with
  | none =>
    have hnone : s.kv.store.lookup key = none := hlook
    refine ⟨List.nodupKeys_nil, fun f => ?_⟩
    rw [NestedMap.flat, Storage.view, KVStore.view, hnone]
    rfl
  | some v => exact enumerates_dump ho (List.of_mem_dlookup hlook)

theorem lastWrite_snapshot (ho : s.Owned)
    (hw : ∀ k f v, s.view.flat k f = some v → Writable k ⟨f, v⟩) :
    lastWrite s.snapshot = s.view.flat := by
  funext key f
  obtain ⟨l, hl, hen⟩ := flatMap_writesTo_snapshot ho hw key
  rw [lastWrite, hl, ← hen.lookup]
  exact (List.perm_dlookup f hen.nodupKeys (List.reverse_perm l).symm).symm

theorem nodup_keys_snapshot (ho : s.Owned)
    (hw : ∀ k f v, s.view.flat k f = some v → Writable k ⟨f, v⟩) :
    (s.snapshot.map fun command => (deserialize command).key).Nodup := by
  have hkeys : (s.snapshot.map fun command => (deserialize command).key) =
      (s.kv.store.entries.filter fun e => e.2.fields.size ≠ 0).keys := by
    rw [Storage.snapshot, List.map_map, List.keys]
    apply List.map_congr_left
    rintro ⟨k, v⟩ he
    rw [List.mem_filter, decide_eq_true_eq] at he
    have hwrite : ∀ e ∈ v.dump s.heap, Writable k e := fun ⟨f, x⟩ hm =>
      hw k f x (((enumerates_dump ho he.1).mem_iff f x).mp hm)
    obtain ⟨e, hm⟩ := List.exists_mem_of_ne_nil _ (dump_ne_nil (h := s.heap) he.2)
    exact congrArg Request.key (deserialize_quotedCommand (hwrite e hm).key_ne_nil
      (hwrite e hm).key_spaceFree
      (fun e he => ⟨(hwrite e he).field_spaceFree, (hwrite e he).value_spaceFree⟩)
      fun e he => (hwrite e he).field_noSep)
  rw [hkeys]
  exact (List.filter_sublist.map _).nodup s.kv.store.nodupKeys

end Snapshot

/-- After every history a snapshot rebuilds the store as far as clients can tell, with
one command for each key. -/
theorem snapshot_indistinguishable (build : Build) (history : List Received) :
    ∃ s replies, Server.empty.process build history = .ok (s, replies) ∧
      (s.storage.snapshot.map fun command => (deserialize command).key).Nodup ∧
      Indistinguishable build s.storage.snapshot (history.map Received.command) := by
  obtain ⟨s, replies, hrun, ho, hlast⟩ := process_lastWrite build history
  have hw : ∀ k f v, s.storage.view.flat k f = some v → Writable k ⟨f, v⟩ := by
    intro k f v hv
    rw [hlast] at hv
    exact writable_of_lastWrite hv
  refine ⟨s, replies, hrun, nodup_keys_snapshot ho hw, indistinguishable_of_lastWrite ?_⟩
  intro key
  rw [lastWrite_snapshot ho hw, hlast]

end MuStore
