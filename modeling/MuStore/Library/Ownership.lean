import Mathlib.Data.Finmap
import Mathlib.Logic.Function.Basic
import Mathlib.Order.Lattice.Nat

namespace MuStore

abbrev Addr := ℕ

def null : Addr := 0

abbrev Heap (α : Type) := Finmap fun _ : Addr => α

/-- The accesses that are undefined behaviour. -/
inductive MemFault where
  | deadDelete (a : Addr)
  | deadRead (a : Addr)
  deriving DecidableEq, Repr

/-- `new` may return any address that is not live, one deleted earlier included.
The request `ρ` lets the choice differ between allocations from equal heaps. -/
structure Allocator (ρ α : Type) where
  pick : ρ → Heap α → Addr
  fresh : ∀ r h, pick r h ∉ h
  nonnull : ∀ r h, pick r h ≠ null

variable {ρ α ι : Type}

namespace Heap

def new (alloc : Allocator ρ α) (r : ρ) (h : Heap α) (v : α) : Addr × Heap α :=
  (alloc.pick r h, h.insert (alloc.pick r h) v)

def delete (h : Heap α) (a : Addr) : Except MemFault (Heap α) :=
  if a = null then .ok h
  else if a ∈ h then .ok (h.erase a)
  else .error (.deadDelete a)

def read (h : Heap α) (a : Addr) : Except MemFault α :=
  match h.lookup a with
  | some v => .ok v
  | none => .error (.deadRead a)

theorem delete_of_mem {h : Heap α} {a : Addr} (hn : a ≠ null) (ha : a ∈ h) :
    delete h a = .ok (h.erase a) := by
  rw [delete, if_neg hn, if_pos ha]

theorem read_of_lookup {h : Heap α} {a : Addr} {v : α} (ha : h.lookup a = some v) :
    read h a = .ok v := by
  rw [read, ha]

end Heap

def Allocator.bump : Allocator ρ α where
  pick _ h := h.keys.sup id + 1
  fresh _ h hm := by
    exact Nat.not_succ_le_self _ (Finset.le_sup (f := id) (Finmap.mem_keys.mpr hm))
  nonnull _ _ := Nat.succ_ne_zero _

/-- The allocator that returns one wanted address whenever that address is free. -/
def Allocator.reuse (a : Addr) (ha : a ≠ null) : Allocator ρ α where
  pick r h := if a ∈ h then bump.pick r h else a
  fresh r h := by
    split_ifs with hm
    · exact bump.fresh r h
    · exact hm
  nonnull r h := by
    split_ifs
    · exact bump.nonnull r h
    · exact ha

/-- Every address in a cell is live and not null, and no two cells share one. -/
structure Owns (cell : ι → Option Addr) (h : Heap α) : Prop where
  live : ∀ {i a}, cell i = some a → a ∈ h
  nonnull : ∀ {i a}, cell i = some a → a ≠ null
  unshared : ∀ {i j a}, cell i = some a → cell j = some a → i = j

/-- The values behind the cells. -/
def contents (cell : ι → Option Addr) (h : Heap α) : ι → Option α :=
  fun i => (cell i).bind fun a => h.lookup a

theorem contents_eq_none_iff {cell : ι → Option Addr} {h : Heap α} (ho : Owns cell h) (i : ι) :
    contents cell h i = none ↔ cell i = none := by
  cases hi : cell i with
  | none => simp [contents, hi]
  | some a =>
    obtain ⟨v, hv⟩ := Finmap.mem_iff.mp (ho.live hi)
    simp [contents, hi, hv]

theorem owns_empty : Owns (fun _ : ι => none) (∅ : Heap α) where
  live h := by cases h
  nonnull h := by cases h
  unshared h := by cases h

section Update

variable [DecidableEq ι] {cell : ι → Option Addr} {h : Heap α} {i : ι} {a : Addr}

/-- A cell gives its value back: its address dies and no other cell had it. -/
theorem Owns.release (ho : Owns cell h) (hi : cell i = some a) :
    Owns (Function.update cell i none) (h.erase a) where
  live := by
    intro j b hj
    by_cases hji : j = i
    · simp [hji] at hj
    · rw [Function.update_of_ne hji] at hj
      have hba : b ≠ a := fun hba => hji (ho.unshared hj (hba ▸ hi))
      exact Finmap.mem_erase.mpr ⟨hba, ho.live hj⟩
  nonnull := by
    intro j b hj
    by_cases hji : j = i
    · simp [hji] at hj
    · exact ho.nonnull (by rwa [Function.update_of_ne hji] at hj)
  unshared := by
    intro j k b hj hk
    by_cases hji : j = i
    · simp [hji] at hj
    · by_cases hki : k = i
      · simp [hki] at hk
      · rw [Function.update_of_ne hji] at hj
        rw [Function.update_of_ne hki] at hk
        exact ho.unshared hj hk

theorem contents_release (ho : Owns cell h) (hi : cell i = some a) :
    contents (Function.update cell i none) (h.erase a) =
      Function.update (contents cell h) i none := by
  funext j
  by_cases hji : j = i
  · subst hji
    simp [contents]
  · rw [contents, Function.update_of_ne hji, Function.update_of_ne hji, contents]
    cases hj : cell j with
    | none => rfl
    | some b =>
      have hba : b ≠ a := fun hba => hji (ho.unshared hj (hba ▸ hi))
      exact Finmap.lookup_erase_ne hba

/-- A cell takes a value at an address that was free. -/
theorem Owns.acquire (ho : Owns cell h) (ha : a ∉ h) (hn : a ≠ null) (v : α) :
    Owns (Function.update cell i (some a)) (h.insert a v) where
  live := by
    intro j b hj
    by_cases hji : j = i
    · have hab : a = b := by simpa [hji] using hj
      exact Finmap.mem_insert.mpr (Or.inl hab.symm)
    · rw [Function.update_of_ne hji] at hj
      exact Finmap.mem_insert.mpr (Or.inr (ho.live hj))
  nonnull := by
    intro j b hj
    by_cases hji : j = i
    · have hab : a = b := by simpa [hji] using hj
      exact hab ▸ hn
    · exact ho.nonnull (by rwa [Function.update_of_ne hji] at hj)
  unshared := by
    intro j k b hj hk
    by_cases hji : j = i <;> by_cases hki : k = i
    · exact hji.trans hki.symm
    · have hab : a = b := by simpa [hji] using hj
      rw [Function.update_of_ne hki] at hk
      exact absurd (ho.live hk) (hab ▸ ha)
    · have hab : a = b := by simpa [hki] using hk
      rw [Function.update_of_ne hji] at hj
      exact absurd (ho.live hj) (hab ▸ ha)
    · rw [Function.update_of_ne hji] at hj
      rw [Function.update_of_ne hki] at hk
      exact ho.unshared hj hk

theorem contents_acquire (ho : Owns cell h) (ha : a ∉ h) (v : α) :
    contents (Function.update cell i (some a)) (h.insert a v) =
      Function.update (contents cell h) i (some v) := by
  funext j
  by_cases hji : j = i
  · subst hji
    simp [contents]
  · rw [contents, Function.update_of_ne hji, Function.update_of_ne hji, contents]
    cases hj : cell j with
    | none => rfl
    | some b =>
      have hba : b ≠ a := fun hba => ha (hba ▸ ho.live hj)
      exact Finmap.lookup_insert_of_ne h hba

end Update

def Heap.live (h : Heap α) : Set Addr := {a | a ∈ h}

def reachable (cell : ι → Option Addr) : Set Addr := {a | ∃ i, cell i = some a}

def leaked (cell : ι → Option Addr) (h : Heap α) : Set Addr := h.live \ reachable cell

section Leaks

variable {cell cell' : ι → Option Addr} {h : Heap α} {i : ι} {a : Addr}

theorem Owns.reachable_subset (ho : Owns cell h) : reachable cell ⊆ h.live := by
  rintro a ⟨i, hi⟩
  exact ho.live hi

theorem Owns.leaked_eq_empty_iff (ho : Owns cell h) :
    leaked cell h = ∅ ↔ h.live = reachable cell := by
  rw [leaked, Set.sdiff_eq_empty]
  exact ⟨fun hsub => hsub.antisymm ho.reachable_subset, fun heq => heq.subset⟩

/-- Forgetting cells without giving their values back leaks the values. -/
theorem Owns.leaked_forget (ho : Owns cell h) (hsub : ∀ j, cell' j = cell j ∨ cell' j = none) :
    leaked cell' h = leaked cell h ∪ {a | ∃ j, cell j = some a ∧ cell' j = none} := by
  ext a
  constructor
  · rintro ⟨hlive, hnot⟩
    by_cases hr : a ∈ reachable cell
    · obtain ⟨j, hj⟩ := hr
      rcases hsub j with heq | hnone
      · exact absurd ⟨j, heq.trans hj⟩ hnot
      · exact Or.inr ⟨j, hj, hnone⟩
    · exact Or.inl ⟨hlive, hr⟩
  · rintro (⟨hlive, hnot⟩ | ⟨j, hj, hnone⟩)
    · refine ⟨hlive, ?_⟩
      rintro ⟨k, hk⟩
      rcases hsub k with heq | hnone
      · exact hnot ⟨k, heq.symm.trans hk⟩
      · rw [hnone] at hk
        cases hk
    · refine ⟨ho.live hj, ?_⟩
      rintro ⟨k, hk⟩
      rcases hsub k with heq | hnone'
      · -- only the forgotten cell had the address
        have hkj : k = j := ho.unshared (heq.symm.trans hk) hj
        rw [hkj, hnone] at hk
        cases hk
      · rw [hnone'] at hk
        cases hk

variable [DecidableEq ι]

theorem leaked_release (hi : cell i = some a) :
    leaked (Function.update cell i none) (h.erase a) = leaked cell h := by
  ext b
  constructor
  · rintro ⟨hlive, hnot⟩
    obtain ⟨hba, hb⟩ := Finmap.mem_erase.mp hlive
    refine ⟨hb, ?_⟩
    rintro ⟨j, hj⟩
    have hji : j ≠ i := by
      rintro rfl
      exact hba (Option.some.inj (hj.symm.trans hi))
    exact hnot ⟨j, by rwa [Function.update_of_ne hji]⟩
  · rintro ⟨hlive, hnot⟩
    have hba : b ≠ a := fun hba => hnot ⟨i, hba ▸ hi⟩
    refine ⟨Finmap.mem_erase.mpr ⟨hba, hlive⟩, ?_⟩
    rintro ⟨j, hj⟩
    by_cases hji : j = i
    · simp [hji] at hj
    · exact hnot ⟨j, by rwa [Function.update_of_ne hji] at hj⟩

theorem leaked_acquire (hi : cell i = none) (ha : a ∉ h) (v : α) :
    leaked (Function.update cell i (some a)) (h.insert a v) = leaked cell h := by
  ext b
  have hreach : b ≠ a → (b ∈ reachable (Function.update cell i (some a)) ↔
      b ∈ reachable cell) := by
    intro hba
    constructor
    · rintro ⟨j, hj⟩
      by_cases hji : j = i
      · have hab : a = b := by simpa [hji] using hj
        exact absurd hab.symm hba
      · exact ⟨j, by rwa [Function.update_of_ne hji] at hj⟩
    · rintro ⟨j, hj⟩
      have hji : j ≠ i := by
        rintro rfl
        rw [hi] at hj
        cases hj
      exact ⟨j, by rwa [Function.update_of_ne hji]⟩
  constructor
  · rintro ⟨hlive, hnot⟩
    have hba : b ≠ a := fun hba => hnot ⟨i, by rw [Function.update_self, hba]⟩
    exact ⟨(Finmap.mem_insert.mp hlive).resolve_left hba, by rwa [← hreach hba]⟩
  · rintro ⟨hlive, hnot⟩
    have hba : b ≠ a := fun hba => ha (hba ▸ hlive)
    exact ⟨Finmap.mem_insert.mpr (Or.inr hlive), by rwa [hreach hba]⟩

end Leaks

end MuStore
