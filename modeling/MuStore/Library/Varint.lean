import Mathlib.Data.Nat.Basic

namespace MuStore

/-- Seven bits in a byte, the lowest first, and the high bit set in every byte but the
last. -/
def varint (n : ℕ) : List UInt8 :=
  if n < 128 then [UInt8.ofNat n] else UInt8.ofNat (n % 128 + 128) :: varint (n / 128)
termination_by n
decreasing_by omega

theorem varint_of_lt {n : ℕ} (h : n < 128) : varint n = [UInt8.ofNat n] := by
  rw [varint, if_pos h]

theorem varint_of_le {n : ℕ} (h : 128 ≤ n) :
    varint n = UInt8.ofNat (n % 128 + 128) :: varint (n / 128) := by
  rw [varint, if_neg (Nat.not_lt.mpr h)]

/-- The high bit tells whether the byte is the last. -/
theorem eq_of_varint_append {n m : ℕ} {r r' : List UInt8}
    (h : varint n ++ r = varint m ++ r') : n = m ∧ r = r' := by
  induction n using Nat.strong_induction_on generalizing m with
  | _ n ih =>
    have hbyte : ∀ {k : ℕ}, k < 256 → (UInt8.ofNat k).toNat = k :=
      fun hk => UInt8.toNat_ofNat_of_lt' hk
    rcases Nat.lt_or_ge n 128 with hn | hn <;> rcases Nat.lt_or_ge m 128 with hm | hm
    · rw [varint_of_lt hn, varint_of_lt hm] at h
      obtain ⟨hhead, htail⟩ := List.cons.inj h
      have hhead := congrArg UInt8.toNat hhead
      rw [hbyte (by omega), hbyte (by omega)] at hhead
      exact ⟨hhead, htail⟩
    · rw [varint_of_lt hn, varint_of_le hm] at h
      have hhead := congrArg UInt8.toNat (List.cons.inj h).1
      rw [hbyte (by omega), hbyte (by omega)] at hhead
      omega
    · rw [varint_of_le hn, varint_of_lt hm] at h
      have hhead := congrArg UInt8.toNat (List.cons.inj h).1
      rw [hbyte (by omega), hbyte (by omega)] at hhead
      omega
    · rw [varint_of_le hn, varint_of_le hm] at h
      obtain ⟨hhead, htail⟩ := List.cons.inj h
      have hhead := congrArg UInt8.toNat hhead
      rw [hbyte (by omega), hbyte (by omega)] at hhead
      obtain ⟨hquot, hr⟩ := ih (n / 128) (by omega) htail
      refine ⟨?_, hr⟩
      omega

end MuStore
