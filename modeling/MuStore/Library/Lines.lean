import Mathlib.Data.List.TakeWhile
import Mathlib.Data.List.Basic

namespace MuStore

variable {α : Type}

def unlines (sep : α) (lines : List (List α)) : List α := lines.flatMap (· ++ [sep])

@[simp] theorem unlines_nil (sep : α) : unlines sep [] = [] := rfl

@[simp] theorem unlines_cons (sep : α) (line : List α) (lines : List (List α)) :
    unlines sep (line :: lines) = line ++ sep :: unlines sep lines := by
  simp [unlines]

theorem splitOn_unlines [DecidableEq α] {sep : α} {lines : List (List α)}
    (hl : ∀ line ∈ lines, sep ∉ line) :
    (unlines sep lines).splitOn sep = lines ++ [[]] := by
  induction lines with
  | nil => rfl
  | cons line lines ih =>
    rw [unlines_cons, List.splitOn_append_cons_self_of_not_mem (hl line (by simp)),
      ih (fun l h => hl l (by simp [h])), List.cons_append]

def Terminated [DecidableEq α] (sep : α) (l : List α) : Prop :=
  l.count sep = 1 ∧ l.getLast? = some sep

section

variable [DecidableEq α] {sep : α}

theorem terminated_concat {line : List α} (hl : sep ∉ line) : Terminated sep (line ++ [sep]) := by
  refine ⟨?_, List.getLast?_concat⟩
  rw [List.count_append, List.count_eq_zero.mpr hl, List.count_singleton_self]

theorem Terminated.eq_concat {l : List α} (ht : Terminated sep l) : l = l.dropLast ++ [sep] := by
  have hne : l ≠ [] := by
    rintro rfl
    cases ht.2
  have hlast : l.getLast hne = sep := by
    have h := ht.2
    rwa [List.getLast?_eq_some_getLast hne, Option.some.injEq] at h
  rw [← hlast, List.dropLast_append_getLast]

theorem Terminated.notMem_dropLast {l : List α} (ht : Terminated sep l) : sep ∉ l.dropLast := by
  have hc := ht.1
  rw [ht.eq_concat, List.count_append, List.count_singleton_self] at hc
  exact List.count_eq_zero.mp (Nat.succ.inj hc)

/-- A concatenation of terminated messages splits into exactly these messages. -/
theorem splitOn_flatten_terminated {ls : List (List α)} (hl : ∀ l ∈ ls, Terminated sep l) :
    ls.flatten.splitOn sep = ls.map List.dropLast ++ [[]] := by
  have hlines : ls.flatten = unlines sep (ls.map List.dropLast) := by
    rw [unlines, List.flatMap_map, ← List.flatMap_id]
    apply List.flatMap_congr
    intro l hm
    exact (hl l hm).eq_concat
  rw [hlines, splitOn_unlines]
  intro line hm
  obtain ⟨l, hl', rfl⟩ := List.mem_map.mp hm
  exact (hl l hl').notMem_dropLast

end

end MuStore
