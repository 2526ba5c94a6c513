import MuStore.Protocol
import MuStore.Library.Lines
import Mathlib.Data.List.DropRight

namespace MuStore

namespace Connection

open Protocol

def bufferSize : ℕ := 1024

/-- What `read` returns: a negative number, or the bytes read, none at the end of
the stream. -/
inductive ReadResult where
  | error
  | bytes (buffer : Bytes)
  deriving DecidableEq, Repr

/-- The arguments of the calls of `processCommand`, where `data` has been gathered
for the next one. After the last of the given reads the thread still waits. -/
def handleClient (data : Bytes) : List ReadResult → List Bytes
  | [] => []
  | .error :: reads => data :: handleClient [] reads
  | .bytes buffer :: reads =>
    if buffer = [] then []
    else if buffer.length < bufferSize then (data ++ buffer) :: handleClient [] reads
    else handleClient (data ++ buffer) reads

/-- The calls for a stream that arrives in these reads and then ends. -/
def calls (reads : List Bytes) : List Bytes :=
  handleClient [] (reads.map .bytes ++ [.bytes []])

/-- What `data` holds when the loop ends or waits, and no call gets. -/
def discarded (data : Bytes) : List ReadResult → Bytes
  | [] => data
  | .error :: reads => discarded [] reads
  | .bytes buffer :: reads =>
    if buffer = [] then data
    else if buffer.length < bufferSize then discarded [] reads
    else discarded (data ++ buffer) reads

def remainder (reads : List Bytes) : Bytes :=
  discarded [] (reads.map .bytes ++ [.bytes []])

structure Cut (stream : Bytes) (reads : List Bytes) : Prop where
  flatten : reads.flatten = stream
  ne_nil : ∀ b ∈ reads, b ≠ []
  length_le : ∀ b ∈ reads, b.length ≤ bufferSize

def EndsShort (reads : List Bytes) : Prop :=
  ∀ b, reads.getLast? = some b → b.length < bufferSize

def trim (s : Bytes) : Bytes := (s.dropWhile isSpace).rdropWhile isSpace

/-- Reads as the calls that they make and a rest: a call takes full reads and one
shorter read, and only full reads are left over. -/
inductive Batched : List Bytes → List Bytes → Bytes → Prop
  | rest {full : List Bytes} (hfull : ∀ b ∈ full, b.length = bufferSize) :
      Batched full [] full.flatten
  | call {full reads calls : List Bytes} {last rest : Bytes}
      (hfull : ∀ b ∈ full, b.length = bufferSize) (hne : last ≠ [])
      (hlast : last.length < bufferSize) (h : Batched reads calls rest) :
      Batched (full ++ last :: reads) ((full.flatten ++ last) :: calls) rest

/-- Each line comes, up to the whitespace around it, in some full reads and one
shorter read. -/
inductive Aligned : List Bytes → List Bytes → Prop
  | nil : Aligned [] []
  | cons {line last : Bytes} {lines full reads : List Bytes}
      (hfull : ∀ b ∈ full, b.length = bufferSize) (hlast : last.length < bufferSize)
      (hline : trim (full.flatten ++ last) = trim line) (h : Aligned lines reads) :
      Aligned (line :: lines) (full ++ last :: reads)

theorem words_trim (s : Bytes) : words isSpace (trim s) = words isSpace s := by
  rw [trim, words_rdropWhile, words_dropWhile]

theorem deserialize_trim (s : Bytes) : deserialize (trim s) = deserialize s := by
  rw [deserialize_eq, deserialize_eq, words_trim]

section Batch

variable {full reads : List Bytes} {last data : Bytes}

theorem loop_full {α : Type} {loop : Bytes → List ReadResult → α}
    (hloop : ∀ data b reads, b.length = bufferSize →
      loop data (.bytes b :: reads) = loop (data ++ b) reads)
    (hfull : ∀ b ∈ full, b.length = bufferSize) (rest : List ReadResult) :
    loop data (full.map .bytes ++ rest) = loop (data ++ full.flatten) rest := by
  induction full generalizing data with
  | nil => simp
  | cons b full ih =>
    rw [List.map_cons, List.cons_append, hloop data b _ (hfull b (by simp)),
      ih fun b hb => hfull b (by simp [hb]), List.flatten_cons, List.append_assoc]

theorem ne_nil_of_full {b : Bytes} (hb : b.length = bufferSize) : b ≠ [] := by
  rintro rfl
  cases hb

theorem handleClient_full (hfull : ∀ b ∈ full, b.length = bufferSize) (rest : List ReadResult) :
    handleClient data (full.map .bytes ++ rest) = handleClient (data ++ full.flatten) rest := by
  apply loop_full _ hfull
  intro data b reads hb
  rw [handleClient, if_neg (ne_nil_of_full hb), if_neg (by omega)]

theorem calls_batch (hfull : ∀ b ∈ full, b.length = bufferSize) (hne : last ≠ [])
    (hlast : last.length < bufferSize) :
    calls (full ++ last :: reads) = (full.flatten ++ last) :: calls reads := by
  rw [calls, List.map_append, List.append_assoc, handleClient_full hfull, List.map_cons,
    List.cons_append, handleClient, if_neg hne, if_pos hlast, List.nil_append]
  rfl

theorem discarded_full (hfull : ∀ b ∈ full, b.length = bufferSize) (rest : List ReadResult) :
    discarded data (full.map .bytes ++ rest) = discarded (data ++ full.flatten) rest := by
  apply loop_full _ hfull
  intro data b reads hb
  rw [discarded, if_neg (ne_nil_of_full hb), if_neg (by omega)]

theorem remainder_batch (hfull : ∀ b ∈ full, b.length = bufferSize) (hne : last ≠ [])
    (hlast : last.length < bufferSize) : remainder (full ++ last :: reads) = remainder reads := by
  rw [remainder, List.map_append, List.append_assoc, discarded_full hfull, List.map_cons,
    List.cons_append, discarded, if_neg hne, if_pos hlast]
  rfl

theorem calls_full (hfull : ∀ b ∈ full, b.length = bufferSize) : calls full = [] := by
  rw [calls, handleClient_full hfull, handleClient, if_pos rfl]

theorem remainder_full (hfull : ∀ b ∈ full, b.length = bufferSize) :
    remainder full = full.flatten := by
  rw [remainder, discarded_full hfull, discarded, if_pos rfl, List.nil_append]

theorem full_or_batch (hle : ∀ b ∈ reads, b.length ≤ bufferSize) :
    (∀ b ∈ reads, b.length = bufferSize) ∨
      ∃ full last reads', reads = full ++ last :: reads' ∧
        (∀ b ∈ full, b.length = bufferSize) ∧ last.length < bufferSize := by
  induction reads with
  | nil => exact Or.inl (by simp)
  | cons b reads ih =>
    by_cases hb : b.length < bufferSize
    · exact Or.inr ⟨[], b, reads, rfl, by simp, hb⟩
    · have hfull : b.length = bufferSize :=
        Nat.le_antisymm (hle b (by simp)) (Nat.le_of_not_lt hb)
      rcases ih (fun c hc => hle c (by simp [hc])) with
        hall | ⟨full, last, reads', rfl, hfulls, hlast⟩
      · exact Or.inl (List.forall_mem_cons.mpr ⟨hfull, hall⟩)
      · exact Or.inr ⟨b :: full, last, reads', rfl, List.forall_mem_cons.mpr ⟨hfull, hfulls⟩, hlast⟩

theorem exists_batch (hle : ∀ b ∈ reads, b.length ≤ bufferSize) (hend : EndsShort reads)
    (hne : reads ≠ []) :
    ∃ full last reads', reads = full ++ last :: reads' ∧ (∀ b ∈ full, b.length = bufferSize) ∧
      last.length < bufferSize ∧ EndsShort reads' := by
  rcases full_or_batch hle with hall | ⟨full, last, reads', rfl, hfull, hlast⟩
  · -- a full read is not the last one
    have hb := List.getLast?_eq_getLast_of_ne_nil hne
    have hshort := hend _ hb
    have hfull := hall _ (List.getLast_mem hne)
    omega
  · refine ⟨full, last, reads', rfl, hfull, hlast, ?_⟩
    intro b hb
    apply hend b
    rw [List.getLast?_append, List.getLast?_cons, hb]
    rfl

theorem calls_of_aligned {lines : List Bytes} (ha : Aligned lines reads)
    (hne : ∀ b ∈ reads, b ≠ []) : (calls reads).map trim = lines.map trim := by
  induction ha with
  | nil => rfl
  | cons hfull hlast hline _ ih =>
    rw [calls_batch hfull (hne _ (by simp)) hlast, List.map_cons, List.map_cons, hline,
      ih fun b hb => hne b (by simp [hb])]

/-- An aligned cut makes the requests that its lines spell. -/
theorem requests_of_aligned {lines : List Bytes} (ha : Aligned lines reads)
    (hne : ∀ b ∈ reads, b ≠ []) : (calls reads).map deserialize = lines.map deserialize := by
  have h := congrArg (List.map deserialize) (calls_of_aligned ha hne)
  simpa only [List.map_map, Function.comp_def, deserialize_trim] using h

theorem aligned_of_calls {lines : List Bytes} (hne : ∀ b ∈ reads, b ≠ [])
    (hle : ∀ b ∈ reads, b.length ≤ bufferSize) (hend : EndsShort reads)
    (hcalls : (calls reads).map trim = lines.map trim) : Aligned lines reads := by
  induction lines generalizing reads with
  | nil =>
    by_cases hnil : reads = []
    · exact hnil ▸ Aligned.nil
    · obtain ⟨full, last, reads', rfl, hfull, hlast, -⟩ := exists_batch hle hend hnil
      rw [calls_batch hfull (hne _ (by simp)) hlast] at hcalls
      cases hcalls
  | cons line lines ih =>
    by_cases hnil : reads = []
    · subst hnil
      cases hcalls
    · obtain ⟨full, last, reads', rfl, hfull, hlast, hend'⟩ := exists_batch hle hend hnil
      rw [calls_batch hfull (hne _ (by simp)) hlast, List.map_cons, List.map_cons,
        List.cons.injEq] at hcalls
      exact .cons hfull hlast hcalls.1 (ih (fun b hb => hne b (by simp [hb]))
        (fun b hb => hle b (by simp [hb])) hend' hcalls.2)

theorem batched_reads (hne : ∀ b ∈ reads, b ≠ []) (hle : ∀ b ∈ reads, b.length ≤ bufferSize) :
    Batched reads (calls reads) (remainder reads) := by
  induction hn : reads.length using Nat.strong_induction_on generalizing reads with
  | _ n ih =>
    rcases full_or_batch hle with hall | ⟨full, last, reads', rfl, hfull, hlast⟩
    · rw [calls_full hall, remainder_full hall]
      exact .rest hall
    · have hlt : reads'.length < n := by
        rw [← hn, List.length_append, List.length_cons]
        omega
      have h := ih _ hlt (fun b hb => hne b (by simp [hb])) (fun b hb => hle b (by simp [hb])) rfl
      rw [calls_batch hfull (hne last (by simp)) hlast,
        remainder_batch hfull (hne last (by simp)) hlast]
      exact .call hfull (hne last (by simp)) hlast h

theorem Batched.flatten_append {calls : List Bytes} {rest : Bytes} (h : Batched reads calls rest) :
    calls.flatten ++ rest = reads.flatten := by
  induction h with
  | rest => rfl
  | call _ _ _ _ ih => simp [← ih]

theorem Batched.ne_nil {calls : List Bytes} {rest : Bytes} (h : Batched reads calls rest) :
    ∀ c ∈ calls, c ≠ [] := by
  induction h with
  | rest => simp
  | call _ hne _ _ ih =>
    exact List.forall_mem_cons.mpr ⟨List.append_ne_nil_of_right_ne_nil _ hne, ih⟩

end Batch

/-- The loop loses, repeats and reorders nothing: the calls and the rest, made of
full reads, put the stream together again. -/
theorem calls_append_remainder {reads : List Bytes} (hne : ∀ b ∈ reads, b ≠ [])
    (hle : ∀ b ∈ reads, b.length ≤ bufferSize) :
    (calls reads).flatten ++ remainder reads = reads.flatten ∧ (∀ c ∈ calls reads, c ≠ []) ∧
      Batched reads (calls reads) (remainder reads) := by
  have h := batched_reads hne hle
  exact ⟨h.flatten_append, h.ne_nil, h⟩

theorem calls_append_remainder_getAll :
    (calls [ascii "GETALL a", List.replicate 1024 space]).flatten ++
          remainder [ascii "GETALL a", List.replicate 1024 space] =
        [ascii "GETALL a", List.replicate 1024 space].flatten ∧
      (∀ c ∈ calls [ascii "GETALL a", List.replicate 1024 space], c ≠ []) ∧
      Batched [ascii "GETALL a", List.replicate 1024 space]
        (calls [ascii "GETALL a", List.replicate 1024 space])
        (remainder [ascii "GETALL a", List.replicate 1024 space]) := by
  refine calls_append_remainder ?_ ?_
  · rw [List.forall_mem_cons, List.forall_mem_singleton]
    refine ⟨by decide, List.ne_nil_of_length_pos ?_⟩
    rw [List.length_replicate]
    decide
  · rw [List.forall_mem_cons, List.forall_mem_singleton, List.length_replicate]
    decide

/-- Two ways to cut a stream of lines give the same calls, one for each line, exactly
when both cuts are aligned with the lines. -/
theorem calls_eq_lines_iff {lines reads reads' : List Bytes}
    (hcut : Cut (unlines newline lines) reads) (hend : EndsShort reads)
    (hcut' : Cut (unlines newline lines) reads') (hend' : EndsShort reads') :
    (calls reads).map trim = (calls reads').map trim ∧ (calls reads).map trim = lines.map trim ↔
      Aligned lines reads ∧ Aligned lines reads' := by
  constructor
  · rintro ⟨hsame, hlines⟩
    exact ⟨aligned_of_calls hcut.ne_nil hcut.length_le hend hlines,
      aligned_of_calls hcut'.ne_nil hcut'.length_le hend' (hsame.symm.trans hlines)⟩
  · rintro ⟨ha, ha'⟩
    have hlines := calls_of_aligned ha hcut.ne_nil
    exact ⟨hlines.trans (calls_of_aligned ha' hcut'.ne_nil).symm, hlines⟩

theorem calls_eq_lines_iff_getAll :
    (calls [ascii "GETALL a\n", ascii " GETALL b\n"]).map trim =
        (calls [ascii "GETALL a\n ", ascii "GETALL b\n"]).map trim ∧
      (calls [ascii "GETALL a\n", ascii " GETALL b\n"]).map trim =
        [ascii "GETALL a", ascii " GETALL b"].map trim := by
  have hshort : ∀ {r s : Bytes}, s.length < bufferSize → EndsShort [r, s] := by
    rintro r s hs b hb
    cases hb
    exact hs
  refine (calls_eq_lines_iff ⟨by decide, by decide, by decide⟩ (hshort (by decide))
    ⟨by decide, by decide, by decide⟩ (hshort (by decide))).mpr ⟨?_, ?_⟩
  · refine @Aligned.cons _ _ _ [] _ (by simp) (by decide) (by decide) ?_
    exact @Aligned.cons _ _ _ [] _ (by simp) (by decide) (by decide) .nil
  · refine @Aligned.cons _ _ _ [] _ (by simp) (by decide) (by decide) ?_
    exact @Aligned.cons _ _ _ [] _ (by simp) (by decide) (by decide) .nil

/-- Two lines that arrive in one read are one command. -/
theorem not_calls_eq_lines :
    ¬∀ lines reads reads' : List Bytes, (∀ line ∈ lines, newline ∉ line) →
      Cut (unlines newline lines) reads → Cut (unlines newline lines) reads' →
        (calls reads).map trim = (calls reads').map trim ∧
          (calls reads).map trim = lines.map trim := by
  intro h
  have hsame := (h [ascii "GETALL a", ascii "GETALL b"] [ascii "GETALL a\nGETALL b\n"]
    [ascii "GETALL a\n", ascii "GETALL b\n"] (by decide) ⟨by decide, by decide, by decide⟩
    ⟨by decide, by decide, by decide⟩).1
  revert hsame
  decide

end Connection

end MuStore
