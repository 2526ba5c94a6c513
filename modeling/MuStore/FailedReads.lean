import MuStore.Connection

namespace MuStore.Connection

variable {reads : ℕ → ReadResult} {l : List ReadResult} {data : Bytes} {i n : ℕ}

def firstReads (reads : ℕ → ReadResult) (n : ℕ) : List ReadResult := (List.range n).map reads

def firstCalls (reads : ℕ → ReadResult) (n : ℕ) : List Bytes := handleClient [] (firstReads reads n)

/-- No call is made after a read has failed, and reads that all fail from some point
on make finitely many calls. -/
structure ExecutesNothing (reads : ℕ → ReadResult) : Prop where
  stops : ∀ i, reads i = .error → ∀ n, i ≤ n → firstCalls reads n = firstCalls reads i
  ends : ∀ i, (∀ n, i ≤ n → reads n = .error) → ∃ bound, ∀ n, (firstCalls reads n).length ≤ bound

theorem firstReads_add (reads : ℕ → ReadResult) (i n : ℕ) :
    firstReads reads (i + n) = firstReads reads i ++ firstReads (fun j => reads (i + j)) n := by
  rw [firstReads, firstReads, firstReads, List.range_add, List.map_append, List.map_map]
  rfl

theorem mem_firstReads {r : ReadResult} : r ∈ firstReads reads n ↔ ∃ j < n, reads j = r := by
  simp [firstReads]

@[simp] theorem length_firstReads (reads : ℕ → ReadResult) (n : ℕ) :
    (firstReads reads n).length = n := by
  simp [firstReads]

theorem length_handleClient_le (data : Bytes) (l : List ReadResult) :
    (handleClient data l).length ≤ l.length := by
  induction l generalizing data with
  | nil => simp [handleClient]
  | cons r l ih =>
    rw [List.length_cons]
    cases r with
    | error =>
      rw [handleClient, List.length_cons]
      exact Nat.succ_le_succ (ih [])
    | bytes buffer =>
      rw [handleClient]
      split_ifs
      · simp
      · rw [List.length_cons]
        exact Nat.succ_le_succ (ih [])
      · exact Nat.le_succ_of_le (ih _)

/-- Until the stream ends the loop goes on with what it has gathered. -/
theorem handleClient_append (hl : .bytes [] ∉ l) (rest : List ReadResult) :
    handleClient data (l ++ rest) =
      handleClient data l ++ handleClient (discarded data l) rest := by
  induction l generalizing data with
  | nil => rfl
  | cons r l ih =>
    rw [List.mem_cons, not_or] at hl
    cases r with
    | error =>
      rw [List.cons_append, handleClient, ih hl.2]
      rfl
    | bytes buffer =>
      have hne : buffer ≠ [] := by
        rintro rfl
        exact hl.1 rfl
      rw [List.cons_append, handleClient, handleClient, discarded, if_neg hne, if_neg hne,
        if_neg hne]
      split_ifs
      · rw [ih hl.2, List.cons_append]
      · exact ih hl.2

theorem handleClient_append_of_mem (hl : .bytes [] ∈ l) (rest : List ReadResult) :
    handleClient data (l ++ rest) = handleClient data l := by
  induction l generalizing data with
  | nil => cases hl
  | cons r l ih =>
    rw [List.cons_append]
    cases r with
    | error =>
      have hl' : .bytes [] ∈ l := by simpa using hl
      rw [handleClient, handleClient, ih hl']
    | bytes buffer =>
      rw [handleClient, handleClient]
      by_cases hb : buffer = []
      · rw [if_pos hb, if_pos hb]
      · have hl' : .bytes [] ∈ l := by
          rcases List.mem_cons.mp hl with heq | hl'
          · exact absurd (ReadResult.bytes.inj heq).symm hb
          · exact hl'
        rw [if_neg hb, if_neg hb, ih hl', ih hl']

theorem firstCalls_succ_of_error (hi : reads i = .error) (hopen : ∀ j < i, reads j ≠ .bytes []) :
    firstCalls reads (i + 1) = firstCalls reads i ++ [discarded [] (firstReads reads i)] := by
  have hmem : .bytes [] ∉ firstReads reads i := by
    rw [mem_firstReads]
    rintro ⟨j, hj, heq⟩
    exact hopen j hj heq
  have hlast : firstReads (fun j => reads (i + j)) 1 = [.error] := by
    simp [firstReads, hi]
  rw [firstCalls, firstReads_add, hlast, handleClient_append hmem]
  rfl

theorem firstCalls_of_end {j : ℕ} (hj : reads j = .bytes []) (hlt : j < i) (hn : i ≤ n) :
    firstCalls reads n = firstCalls reads i := by
  obtain ⟨k, rfl⟩ := Nat.exists_eq_add_of_le hn
  rw [firstCalls, firstReads_add, handleClient_append_of_mem (mem_firstReads.mpr ⟨j, hlt, hj⟩)]
  rfl

theorem length_firstCalls_of_errors (hopen : ∀ j < i, reads j ≠ .bytes [])
    (hfail : ∀ n, i ≤ n → reads n = .error) (n : ℕ) :
    (firstCalls reads (i + n)).length = (firstCalls reads i).length + n := by
  induction n with
  | zero => rfl
  | succ n ih =>
    have hopen' : ∀ j < i + n, reads j ≠ .bytes [] := by
      intro j hj
      by_cases hlt : j < i
      · exact hopen j hlt
      · rw [hfail j (by omega)]
        exact nofun
    rw [← Nat.add_assoc, firstCalls_succ_of_error (hfail _ (by omega)) hopen', List.length_append,
      ih, List.length_singleton, Nat.add_assoc]

/-- A failed read executes nothing exactly when it comes after the end of the stream,
where no read is made any more. -/
theorem executesNothing_iff (reads : ℕ → ReadResult) :
    ExecutesNothing reads ↔ ∀ i, reads i = .error → ∃ j < i, reads j = .bytes [] := by
  constructor
  · intro h i hi
    by_contra hopen
    push Not at hopen
    have hcalls := congrArg List.length (h.stops i hi (i + 1) (by omega))
    rw [firstCalls_succ_of_error hi hopen, List.length_append, List.length_singleton] at hcalls
    omega
  · intro h
    have hstops : ∀ i, reads i = .error → ∀ n, i ≤ n → firstCalls reads n = firstCalls reads i := by
      intro i hi n hn
      obtain ⟨j, hlt, hj⟩ := h i hi
      exact firstCalls_of_end hj hlt hn
    refine ⟨hstops, ?_⟩
    intro i hfail
    refine ⟨i, ?_⟩
    intro n
    have hle : ∀ m, (firstCalls reads m).length ≤ m := by
      intro m
      have h := length_handleClient_le [] (firstReads reads m)
      rwa [length_firstReads] at h
    by_cases hn : i ≤ n
    · rw [hstops i (hfail i (Nat.le_refl i)) n hn]
      exact hle i
    · exact (hle n).trans (by omega)

def broken (n : ℕ) : ReadResult :=
  if n = 0 then .bytes (ascii "SET_FIELDS k a=" ++ List.replicate 1009 0x31) else .error

/-- The part that has arrived is executed, and the empty command over and over after it. -/
theorem not_executesNothing : ¬∀ reads, ExecutesNothing reads := by
  intro h
  have hopen : ∀ j < 1, broken j ≠ .bytes [] := by
    intro j hj
    rw [Nat.lt_one_iff.mp hj, broken, if_pos rfl]
    intro heq
    exact List.append_ne_nil_of_left_ne_nil (by decide) _ (ReadResult.bytes.inj heq)
  have hfail : ∀ n, 1 ≤ n → broken n = .error := fun n hn => if_neg (by omega)
  obtain ⟨bound, hbound⟩ := (h broken).ends 1 hfail
  have hlen := hbound (1 + (bound + 1))
  rw [length_firstCalls_of_errors hopen hfail] at hlen
  omega

end MuStore.Connection
