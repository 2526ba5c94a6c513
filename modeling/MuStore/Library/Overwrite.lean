import Mathlib.Data.List.Basic

namespace MuStore

variable {α : Type}

/-- Replace the cells from a position on; `none` when they do not fit. -/
def overwrite (buf : List α) (pos : ℕ) (src : List α) : Option (List α) :=
  if pos + src.length ≤ buf.length then
    some (buf.take pos ++ src ++ buf.drop (pos + src.length))
  else none

theorem overwrite_append {tail src : List α} (h : src.length ≤ tail.length) (w : List α) :
    overwrite (w ++ tail) w.length src = some (w ++ src ++ tail.drop src.length) := by
  have hle : w.length + src.length ≤ (w ++ tail).length := by
    rw [List.length_append]
    omega
  rw [overwrite, if_pos hle, List.take_left, List.drop_append]
  simp

theorem overwrite_middle {old new : List α} (h : new.length = old.length) (w tail : List α) :
    overwrite (w ++ old ++ tail) w.length new = some (w ++ new ++ tail) := by
  have hle : new.length ≤ (old ++ tail).length := by
    rw [List.length_append]
    omega
  rw [List.append_assoc, overwrite_append hle, h, List.drop_left]

/-- An array of fixed size that is written from its start. -/
structure Cursor (α : Type) where
  buf : List α
  pos : ℕ

namespace Cursor

def write (c : Cursor α) (src : List α) : Option (Cursor α) :=
  (overwrite c.buf c.pos src).map fun buf => ⟨buf, c.pos + src.length⟩

def patch (c : Cursor α) (pos : ℕ) (src : List α) : Option (Cursor α) :=
  (overwrite c.buf pos src).map fun buf => { c with buf := buf }

/-- `w` has been written and `room` cells are left. -/
structure At (c : Cursor α) (w : List α) (room : ℕ) : Prop where
  pos : c.pos = w.length
  buf : ∃ tail, c.buf = w ++ tail ∧ tail.length = room

theorem at_start (buf : List α) : At ⟨buf, 0⟩ [] buf.length := ⟨rfl, buf, rfl, rfl⟩

/-- When no cell is left the array is what has been written. -/
theorem At.buf_eq {c : Cursor α} {w : List α} (h : c.At w 0) : c.buf = w := by
  obtain ⟨tail, hbuf, htail⟩ := h.buf
  rw [hbuf, List.length_eq_zero_iff.mp htail, List.append_nil]

theorem At.write {c : Cursor α} {w : List α} {room : ℕ} (src : List α)
    (h : c.At w (src.length + room)) :
    ∃ c', c.write src = some c' ∧ c'.At (w ++ src) room := by
  obtain ⟨tail, hbuf, htail⟩ := h.buf
  have hover := overwrite_append (show src.length ≤ tail.length by omega) w
  rw [← hbuf, ← h.pos] at hover
  refine ⟨_, by rw [Cursor.write, hover]; rfl, ?_, tail.drop src.length, rfl, ?_⟩
  · rw [List.length_append, ← h.pos]
  · rw [List.length_drop]
    omega

theorem At.patch {c : Cursor α} {u old v : List α} {room : ℕ} (new : List α)
    (h : c.At (u ++ old ++ v) room) (hlen : new.length = old.length) :
    ∃ c', c.patch u.length new = some c' ∧ c'.At (u ++ new ++ v) room := by
  obtain ⟨tail, hbuf, htail⟩ := h.buf
  have hover := overwrite_middle hlen u (v ++ tail)
  rw [← List.append_assoc, ← hbuf] at hover
  refine ⟨_, by rw [Cursor.patch, hover]; rfl, ?_, tail, ?_, htail⟩
  · rw [h.pos]
    simp [hlen]
  · simp

theorem length_of_overwrite {buf src buf' : List α} {pos : ℕ}
    (h : overwrite buf pos src = some buf') : buf'.length = buf.length := by
  unfold overwrite at h
  split_ifs at h with hle
  cases h
  rw [List.length_append, List.length_append, List.length_take, List.length_drop]
  omega

structure Moved (c : Cursor α) (n : ℕ) (c' : Cursor α) : Prop where
  pos : c'.pos = c.pos + n
  length : c'.buf.length = c.buf.length

variable {c c₁ c₂ : Cursor α} {m n : ℕ}

theorem Moved.refl (c : Cursor α) : c.Moved 0 c := ⟨rfl, rfl⟩

theorem Moved.trans (h₁ : c.Moved m c₁) (h₂ : c₁.Moved n c₂) : c.Moved (m + n) c₂ := by
  refine ⟨?_, h₂.length.trans h₁.length⟩
  rw [h₂.pos, h₁.pos, Nat.add_assoc]

theorem moved_of_write {src : List α} (h : c.write src = some c₁) : c.Moved src.length c₁ := by
  obtain ⟨buf, hbuf, rfl⟩ := Option.map_eq_some_iff.mp h
  exact ⟨rfl, length_of_overwrite hbuf⟩

theorem pos_le_of_write {src : List α} (h : c.write src = some c₁) : c₁.pos ≤ c₁.buf.length := by
  obtain ⟨buf, hbuf, rfl⟩ := Option.map_eq_some_iff.mp h
  show c.pos + src.length ≤ buf.length
  rw [length_of_overwrite hbuf]
  unfold overwrite at hbuf
  split_ifs at hbuf with hle
  exact hle

theorem moved_of_patch {src : List α} {pos : ℕ} (h : c.patch pos src = some c₁) :
    c.Moved 0 c₁ := by
  obtain ⟨buf, hbuf, rfl⟩ := Option.map_eq_some_iff.mp h
  exact ⟨rfl, length_of_overwrite hbuf⟩

theorem drop_of_overwrite {buf src buf' : List α} {pos n : ℕ}
    (h : overwrite buf pos src = some buf') (hn : pos + src.length ≤ n) :
    buf'.drop n = buf.drop n := by
  unfold overwrite at h
  split_ifs at h with hle
  cases h
  have hlen : (buf.take pos ++ src).length = pos + src.length := by
    rw [List.length_append, List.length_take]
    omega
  rw [List.drop_append, List.drop_eq_nil_of_le (by omega), List.nil_append, List.drop_drop, hlen]
  congr 1
  omega

structure Keeps (c c' : Cursor α) : Prop where
  pos_le : c.pos ≤ c'.pos
  drop_eq : c'.buf.drop c'.pos = c.buf.drop c'.pos

theorem Keeps.refl (c : Cursor α) : c.Keeps c := ⟨Nat.le_refl _, rfl⟩

theorem Keeps.trans (h₁ : c.Keeps c₁) (h₂ : c₁.Keeps c₂) : c.Keeps c₂ := by
  refine ⟨Nat.le_trans h₁.pos_le h₂.pos_le, ?_⟩
  obtain ⟨n, hn⟩ := Nat.exists_eq_add_of_le h₂.pos_le
  rw [h₂.drop_eq, hn, ← List.drop_drop, h₁.drop_eq, List.drop_drop]

theorem keeps_of_write {src : List α} (h : c.write src = some c₁) : c.Keeps c₁ := by
  obtain ⟨buf, hbuf, rfl⟩ := Option.map_eq_some_iff.mp h
  exact ⟨Nat.le_add_right _ _, drop_of_overwrite hbuf (Nat.le_refl _)⟩

theorem keeps_of_patch {src : List α} {pos : ℕ} (h : c.patch pos src = some c₁)
    (hpos : pos + src.length ≤ c.pos) : c.Keeps c₁ := by
  obtain ⟨buf, hbuf, rfl⟩ := Option.map_eq_some_iff.mp h
  exact ⟨Nat.le_refl _, drop_of_overwrite hbuf hpos⟩

end Cursor

end MuStore
