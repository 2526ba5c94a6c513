import Mathlib.Logic.Function.Basic
import Mathlib.Data.Option.Basic

namespace MuStore

/-- A map from keys to maps from fields to values. A key may be present and have no
field. -/
abbrev NestedMap (κ φ ν : Type) := κ → Option (φ → Option ν)

namespace NestedMap

variable {κ φ ν : Type}

def empty : NestedMap κ φ ν := fun _ => none

/-- The fields of a key, none when the key is absent. -/
def flat (m : NestedMap κ φ ν) (k : κ) : φ → Option ν := (m k).getD fun _ => none

section Updates

variable [DecidableEq κ]

def insert (m : NestedMap κ φ ν) (k : κ) : NestedMap κ φ ν × Bool :=
  match m k with
  | some _ => (m, false)
  | none => (Function.update m k (some fun _ => none), true)

def modify (m : NestedMap κ φ ν) (k : κ) (g : (φ → Option ν) → φ → Option ν) :
    NestedMap κ φ ν × Bool :=
  match m k with
  | none => (m, false)
  | some fs => (Function.update m k (some (g fs)), true)

def setField [DecidableEq φ] (m : NestedMap κ φ ν) (k : κ) (f : φ) (v : ν) :
    NestedMap κ φ ν × Bool :=
  m.modify k fun fs => Function.update fs f (some v)

def setFields (m : NestedMap κ φ ν) (k : κ) (new : φ → Option ν) : NestedMap κ φ ν × Bool :=
  m.modify k fun fs f => (new f).or (fs f)

def removeField [DecidableEq φ] (m : NestedMap κ φ ν) (k : κ) (f : φ) : NestedMap κ φ ν × Bool :=
  ((m.modify k fun fs => Function.update fs f none).1, (m.flat k f).isSome)

def remove (m : NestedMap κ φ ν) (k : κ) : NestedMap κ φ ν × Bool :=
  (Function.update m k none, (m k).isSome)

end Updates

def getField (m : NestedMap κ φ ν) (k : κ) (f : φ) : Option ν := m.flat k f

def getFields (m : NestedMap κ φ ν) (k : κ) : φ → Option ν := m.flat k

def select [DecidableEq φ] (names : List φ) (fs : φ → Option ν) : φ → Option ν :=
  fun f => if f ∈ names then fs f else none

def getSelectedFields [DecidableEq φ] (m : NestedMap κ φ ν) (k : κ) (names : List φ) :
    φ → Option ν := select names (m.flat k)

section Flat

variable [DecidableEq κ] (m : NestedMap κ φ ν)

theorem flat_insert (k : κ) : (m.insert k).1.flat = m.flat := by
  unfold insert
  cases hk : m k with
  | some fs => rfl
  | none =>
    funext k'
    by_cases h : k' = k
    · subst h
      simp [flat, hk]
    · simp [flat, Function.update_of_ne h]

theorem isSome_insert (k k' : κ) :
    ((m.insert k).1 k').isSome = (decide (k' = k) || (m k').isSome) := by
  unfold insert
  by_cases h : k' = k
  · subst h
    cases hk : m k' <;> simp [hk]
  · cases hk : m k <;> simp [h]

theorem modify_of_isSome {k : κ} (hk : (m k).isSome = true)
    (g : (φ → Option ν) → φ → Option ν) :
    m.modify k g = (Function.update m k (some (g (m.flat k))), true) := by
  obtain ⟨fs, hfs⟩ := Option.isSome_iff_exists.mp hk
  simp [modify, flat, hfs]

theorem flat_modify {k : κ} (hk : (m k).isSome = true) (g : (φ → Option ν) → φ → Option ν) :
    (m.modify k g).1.flat = Function.update m.flat k (g (m.flat k)) := by
  rw [modify_of_isSome m hk]
  funext k'
  by_cases h : k' = k
  · subst h
    simp [flat]
  · simp [flat, Function.update_of_ne h]

theorem isSome_modify (k k' : κ) (g : (φ → Option ν) → φ → Option ν) :
    ((m.modify k g).1 k').isSome = (m k').isSome := by
  unfold modify
  cases hk : m k with
  | none => rfl
  | some fs =>
    by_cases h : k' = k
    · subst h
      simp [hk]
    · simp [Function.update_of_ne h]

end Flat

end NestedMap

end MuStore
