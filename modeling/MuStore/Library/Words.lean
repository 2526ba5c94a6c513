import Mathlib.Data.List.TakeWhile
import Mathlib.Data.List.DropRight

namespace MuStore

variable {α : Type}

/-- One `operator>>`: the word read, empty exactly when the read fails, and the
characters that stay in the stream. -/
def extract (p : α → Bool) (s : List α) : List α × List α :=
  ((s.dropWhile p).takeWhile (fun a => !p a), (s.dropWhile p).dropWhile (fun a => !p a))

def wordsFrom (p : α → Bool) (w : List α) : List α → List (List α)
  | [] => if w.isEmpty then [] else [w]
  | a :: s =>
    if p a then
      if w.isEmpty then wordsFrom p [] s else w :: wordsFrom p [] s
    else wordsFrom p (w ++ [a]) s

/-- The words that `while (stream >> word)` reads. -/
def words (p : α → Bool) (s : List α) : List (List α) := wordsFrom p [] s

variable {p : α → Bool}

@[simp] theorem words_nil : words p ([] : List α) = [] := rfl

theorem wordsFrom_cons_sep {a : α} (ha : p a = true) (w s : List α) :
    wordsFrom p w (a :: s) = (if w.isEmpty then [] else [w]) ++ words p s := by
  cases w <;> simp [wordsFrom, ha, words]

theorem wordsFrom_append_noSep {u : List α} (hu : ∀ a ∈ u, p a = false) (w s : List α) :
    wordsFrom p w (u ++ s) = wordsFrom p (w ++ u) s := by
  induction u generalizing w with
  | nil => simp
  | cons a u ih =>
    have ha : p a = false := hu a (by simp)
    rw [List.cons_append, wordsFrom, ha, if_neg Bool.false_ne_true,
      ih (fun b hb => hu b (by simp [hb])), List.append_assoc, List.singleton_append]

theorem words_cons_sep {a : α} (ha : p a = true) (s : List α) : words p (a :: s) = words p s :=
  wordsFrom_cons_sep ha [] s

theorem wordsFrom_append_sep {a : α} (ha : p a = true) (s t : List α) (w : List α) :
    wordsFrom p w (s ++ a :: t) = wordsFrom p w s ++ words p t := by
  induction s generalizing w with
  | nil => rw [List.nil_append, wordsFrom_cons_sep ha, wordsFrom]
  | cons b s ih =>
    by_cases hb : p b = true
    · rw [List.cons_append, wordsFrom_cons_sep hb, wordsFrom_cons_sep hb, words, ih,
        List.append_assoc]
      rfl
    · have hb' : p b = false := by simpa using hb
      rw [List.cons_append, wordsFrom, wordsFrom, hb', if_neg Bool.false_ne_true,
        if_neg Bool.false_ne_true, ih]

theorem words_append_sep {a : α} (ha : p a = true) (s t : List α) :
    words p (s ++ a :: t) = words p s ++ words p t := wordsFrom_append_sep ha s t []

theorem words_dropWhile (s : List α) : words p (s.dropWhile p) = words p s := by
  induction s with
  | nil => rfl
  | cons a s ih =>
    by_cases ha : p a = true
    · rw [List.dropWhile_cons_of_pos ha, ih, words_cons_sep ha]
    · rw [List.dropWhile_cons_of_neg ha]

theorem words_rdropWhile (s : List α) : words p (s.rdropWhile p) = words p s := by
  induction s using List.reverseRecOn with
  | nil => rw [List.rdropWhile_nil]
  | append_singleton s a ih =>
    by_cases ha : p a = true
    · rw [List.rdropWhile_concat_pos p s a ha, ih, words_append_sep ha, words_nil, List.append_nil]
    · rw [List.rdropWhile_concat_neg p s a ha]

theorem words_noSep {w : List α} (hw : ∀ a ∈ w, p a = false) (hne : w ≠ []) :
    words p w = [w] := by
  have h := wordsFrom_append_noSep hw [] []
  rw [List.append_nil, List.nil_append] at h
  rw [words, h, wordsFrom, if_neg (by simpa using hne)]

theorem extract_cons_sep {a : α} (ha : p a = true) (s : List α) :
    extract p (a :: s) = extract p s := by
  rw [extract, List.dropWhile_cons_of_pos ha, extract]

theorem extract_cons_noSep {a : α} (ha : p a = false) (s : List α) :
    extract p (a :: s) =
      (a :: s.takeWhile (fun a => !p a), s.dropWhile (fun a => !p a)) := by
  simp [extract, ha]

/-- `words` is the loop over `extract`: it stops at the first read that yields
no character. -/
theorem words_eq_extract (s : List α) :
    words p s =
      if (extract p s).1.isEmpty then [] else (extract p s).1 :: words p (extract p s).2 := by
  induction s with
  | nil => rfl
  | cons a s ih =>
    by_cases ha : p a = true
    · rw [words_cons_sep ha, extract_cons_sep ha, ih]
    · have ha' : p a = false := by simpa using ha
      rw [extract_cons_noSep ha', if_neg (by simp)]
      have hw : ∀ b ∈ s.takeWhile (fun a => !p a), p b = false := fun b hb => by
        simpa using List.mem_takeWhile_imp hb
      have hsplit := wordsFrom_append_noSep hw [a] (s.dropWhile fun a => !p a)
      rw [List.takeWhile_append_dropWhile] at hsplit
      rw [words, wordsFrom, ha', if_neg Bool.false_ne_true, List.nil_append, hsplit,
        List.singleton_append]
      -- the word ends at a separator or at the end of the sequence
      cases hrest : s.dropWhile (fun a => !p a) with
      | nil => simp [wordsFrom]
      | cons b t =>
        have hb : p b = true := by
          have h := List.head?_dropWhile_not (fun a => !p a) s
          simpa [hrest] using h
        rw [wordsFrom_cons_sep hb, words_cons_sep hb]
        simp

theorem extract_snd_of_isEmpty {s : List α} (h : (extract p s).1.isEmpty = true) :
    (extract p s).2 = [] := by
  induction s with
  | nil => rfl
  | cons a s ih =>
    by_cases ha : p a = true
    · rw [extract_cons_sep ha] at h ⊢
      exact ih h
    · rw [extract_cons_noSep (by simpa using ha)] at h
      simp at h

theorem extract_fst (s : List α) : (extract p s).1 = (words p s).headD [] := by
  rw [words_eq_extract]
  split_ifs with h
  · simpa using h
  · rfl

theorem words_extract_snd (s : List α) : words p (extract p s).2 = (words p s).tail := by
  rw [words_eq_extract s]
  split_ifs with h
  · rw [extract_snd_of_isEmpty h]
    rfl
  · rfl

theorem mem_wordsFrom {w s u : List α} (hw : ∀ a ∈ w, p a = false) (hu : u ∈ wordsFrom p w s) :
    u ≠ [] ∧ ∀ a ∈ u, p a = false ∧ (a ∈ w ∨ a ∈ s) := by
  induction s generalizing w with
  | nil =>
    cases w with
    | nil => simp [wordsFrom] at hu
    | cons b w =>
      have hub : u = b :: w := by simpa [wordsFrom] using hu
      subst hub
      exact ⟨by simp, fun a ha => ⟨hw a ha, Or.inl ha⟩⟩
  | cons c s ih =>
    by_cases hc : p c = true
    · rw [wordsFrom_cons_sep hc, List.mem_append] at hu
      rcases hu with hu | hu
      · cases w with
        | nil => simp at hu
        | cons b w =>
          have hub : u = b :: w := by simpa using hu
          subst hub
          exact ⟨by simp, fun a ha => ⟨hw a ha, Or.inl ha⟩⟩
      · obtain ⟨hne, hmem⟩ := ih (w := []) (by simp) hu
        refine ⟨hne, fun a ha => ⟨(hmem a ha).1, ?_⟩⟩
        exact Or.inr (List.mem_cons_of_mem c (by simpa using (hmem a ha).2))
    · have hc' : p c = false := by simpa using hc
      rw [wordsFrom, hc', if_neg Bool.false_ne_true] at hu
      have hwc : ∀ a ∈ w ++ [c], p a = false := by
        simp only [List.mem_append, List.mem_singleton]
        rintro a (ha | rfl)
        · exact hw a ha
        · exact hc'
      obtain ⟨hne, hmem⟩ := ih hwc hu
      refine ⟨hne, fun a ha => ⟨(hmem a ha).1, ?_⟩⟩
      simpa [or_assoc] using (hmem a ha).2

theorem ne_nil_of_mem_words {s u : List α} (hu : u ∈ words p s) : u ≠ [] :=
  (mem_wordsFrom (by simp) hu).1

theorem noSep_of_mem_words {s u : List α} (hu : u ∈ words p s) : ∀ a ∈ u, p a = false :=
  fun a ha => ((mem_wordsFrom (by simp) hu).2 a ha).1

theorem words_flatMap_cons {a : α} (ha : p a = true) {w : List α} (ws : List (List α))
    (hw : w ≠ [] ∧ ∀ b ∈ w, p b = false) (hws : ∀ u ∈ ws, u ≠ [] ∧ ∀ b ∈ u, p b = false) :
    words p (w ++ ws.flatMap (fun u => a :: u)) = w :: ws := by
  induction ws generalizing w with
  | nil => simpa using words_noSep hw.2 hw.1
  | cons u ws ih =>
    rw [List.flatMap_cons, List.cons_append, words_append_sep ha, words_noSep hw.2 hw.1,
      ih (hws u (by simp)) (fun v hv => hws v (by simp [hv])), List.singleton_append]

end MuStore
