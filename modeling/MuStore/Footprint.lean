import MuStore.Sessions
import MuStore.Leaks
import Mathlib.Data.Set.Card

namespace MuStore

open Server

namespace Threads

/-- A turn makes one call of the store or none, and never `remove`. -/
theorem call_of_turn {w w' : Threads} {t : Turn} (h : w.turn t = .ok w') :
    w'.storage = w.storage ∨ ∃ c r, (∀ key, c ≠ .remove key) ∧
      w.storage.call t.choices c = .ok (w'.storage, r) := by
  unfold turn at h
  cases hph : w.phase t.clientSocket with
  | idle =>
    simp only [hph] at h
    split at h
    · cases h
      exact Or.inl rfl
    · cases h
      exact Or.inr ⟨.insert _, _, fun _ => nofun, rfl⟩
    · cases h
      exact Or.inl rfl
    · cases h
      exact Or.inl rfl
  | inserted msg =>
    simp only [hph] at h
    obtain ⟨⟨storage, success⟩, hset, hpure⟩ := bind_eq_ok.mp h
    cases hpure
    refine Or.inr ⟨.setFields msg.key msg.fields, .flag success, fun _ => nofun, ?_⟩
    obtain ⟨⟨h', kv', b⟩, hset', hpure⟩ := bind_eq_ok.mp hset
    cases hpure
    rw [Storage.call, hset']
    rfl
  | responding msg r seen =>
    simp only [hph] at h
    cases h
    exact Or.inl rfl

theorem leaked_of_turn {w w' : Threads} {t : Turn} (ho : w.storage.Owned)
    (h : w.turn t = .ok w') : w'.storage.leaked = w.storage.leaked := by
  rcases call_of_turn h with hsame | ⟨c, r, hc, hcall⟩
  · rw [hsame]
  · rw [Storage.leaked_of_call ho hcall]
    cases c with
    | remove key => exact absurd rfl (hc key)
    | insert key => exact Set.union_empty _
    | setField key field value => exact Set.union_empty _
    | setFields key fields => exact Set.union_empty _
    | removeField key field => exact Set.union_empty _
    | getField key field => exact Set.union_empty _
    | getFields key => exact Set.union_empty _
    | getSelectedFields key fields => exact Set.union_empty _

end Threads

namespace Sessions

theorem leaked_of_step {w w' : Sessions} {e : Advance} (hw : w.Regular)
    (h : w.step e = .ok w') : w'.threads.storage.leaked = w.threads.storage.leaked := by
  unfold step at h
  cases hstage : w.stage e.clientSocket with
  | free =>
    rw [hstage] at h
    cases h
    rfl
  | reading data =>
    rw [hstage] at h
    cases h
    rw [(read_eq ..).1]
  | processing command =>
    rw [hstage] at h
    obtain ⟨threads, hturn, hpure⟩ := bind_eq_ok.mp h
    cases hpure
    rw [threads_proceed]
    exact Threads.leaked_of_turn hw.linearized.consistent.owned hturn

theorem ncard_live_of_reachable {s : Storage} (ho : s.Owned)
    (hlive : s.heap.live = reachable s.kv.cell) :
    s.heap.live.ncard = {c : Bytes × Bytes | s.view.flat c.1 c.2 ≠ none}.ncard := by
  have hcell : ∀ c : Bytes × Bytes, s.view.flat c.1 c.2 ≠ none ↔ s.kv.cell c ≠ none := by
    intro c
    rw [ne_eq, ne_eq, Storage.view, KVStore.flat_view, contents_eq_none_iff ho]
  rw [hlive]
  refine (Set.ncard_congr (fun c hc => (s.kv.cell c).get (Option.isSome_iff_ne_none.mpr
    ((hcell c).mp hc))) ?_ ?_ ?_).symm
  · intro c hc
    exact ⟨c, (Option.some_get _).symm⟩
  · intro c d hc hd heq
    apply ho.unshared (Option.some_get _).symm
    rw [heq]
    exact (Option.some_get _).symm
  · rintro a ⟨c, hc⟩
    refine ⟨c, (hcell c).mpr (by rw [hc]; exact Option.some_ne_none a), ?_⟩
    simp only [hc, Option.get_some]

/-- After every run of the server each live string is that of one field, and there are
as many as fields have been written, at any time and by any thread. -/
theorem one_string_for_each_field (l : List Advance) :
    ∃ w, l.foldlM step start = .ok w ∧
      w.threads.storage.heap.live = reachable w.threads.storage.kv.cell ∧
      w.threads.storage.heap.live.ncard =
        {c : Bytes × Bytes | lastWrite (w.committed.map Prod.snd) c.1 c.2 ≠ none}.ncard := by
  have hstep : ∀ (w : Sessions) (e : Advance),
      w.Regular ∧ w.threads.storage.leaked = ∅ →
        ∃ w', w.step e = .ok w' ∧ w'.Regular ∧ w'.threads.storage.leaked = ∅ := by
    rintro w e ⟨hw, hleaked⟩
    obtain ⟨w', hstep, hstepped⟩ := stepped_of_regular hw e
    exact ⟨w', hstep, hstepped.regular hw, (leaked_of_step hw hstep).trans hleaked⟩
  have hstart : start.threads.storage.leaked = ∅ := by
    rw [Storage.leaked, leaked, Set.sdiff_eq_empty]
    intro a ha
    exact absurd ha Finmap.notMem_empty
  obtain ⟨w, hrun, hw, hleaked⟩ := exists_run hstep l ⟨regular_start, hstart⟩
  have ho := hw.linearized.consistent.owned
  have hlive := (Owns.leaked_eq_empty_iff ho).mp hleaked
  refine ⟨w, hrun, hlive, ?_⟩
  rw [ncard_live_of_reachable ho hlive, hw.flat_eq]

end Sessions

end MuStore
