import MuStore.Protocol
import MuStore.Library.Runs

namespace MuStore.Protocol

/-- What `front()` and `back()` do not allow, and a `size_t` that wraps. -/
inductive StringFault where
  | emptyFront
  | emptyBack
  | wraps
  deriving DecidableEq, Repr

def front (s : Bytes) : Except StringFault UInt8 :=
  match s.head? with
  | some c => pure c
  | none => throw .emptyFront

def back (s : Bytes) : Except StringFault UInt8 :=
  match s.getLast? with
  | some c => pure c
  | none => throw .emptyBack

def sub (a b : ℕ) : Except StringFault ℕ :=
  if b ≤ a then pure (a - b) else throw .wraps

/-- The statement on the quotes, `&&` looking at the last byte only after a quote. -/
def unquoteChecked (value : Bytes) : Except StringFault Bytes := do
  let first ← front value
  if first = quote then
    let last ← back value
    if last = quote then
      let count ← sub value.length 2
      pure (substr value 1 count)
    else pure value
  else pure value

def addPairChecked (msg : Request) (pair : Bytes) : Except StringFault Request :=
  match find pair kvSep with
  | none => pure msg
  | some pos => do
    let field := substr pair 0 pos
    let value ← unquoteChecked (pair.drop (pos + 1))
    pure { msg with
      fields := msg.fields.insert field value, fieldNames := msg.fieldNames ++ [field] }

def deserializeChecked (data : Bytes) : Except StringFault Request :=
  let (command, iss) := extract isSpace data
  if command = ascii "SET_FIELDS" then
    let (key, iss) := extract isSpace iss
    (words isSpace iss).foldlM addPairChecked ⟨.setFields, key, ∅, []⟩
  else pure (deserialize data)

def pairValue (pair : Bytes) : Option Bytes :=
  (find pair kvSep).map fun pos => pair.drop (pos + 1)

def pairValues (data : Bytes) : List Bytes :=
  match words isSpace data with
  | [] => []
  | command :: args => if command = ascii "SET_FIELDS" then args.tail.filterMap pairValue else []

def Quotable (value : Bytes) : Prop := value ≠ [] ∧ value ≠ [quote]

theorem two_le_length {value : Bytes} (h : Quotable value) (hfirst : value.head? = some quote) :
    2 ≤ value.length := by
  obtain ⟨hnil, hlone⟩ := h
  match value with
  | [] => exact absurd rfl hnil
  | [c] =>
    cases hfirst
    exact absurd rfl hlone
  | _ :: _ :: _ => simp

theorem unquoteChecked_of_quotable {value : Bytes} (h : Quotable value) :
    unquoteChecked value = .ok (unquote value) := by
  have hfirst := List.head?_eq_some_head h.1
  have hlast := List.getLast?_eq_some_getLast h.1
  have hlength := two_le_length h
  rw [unquoteChecked, unquote, front, back, hlast]
  rw [hfirst] at hlength ⊢
  simp only [bind, Except.bind, pure, Except.pure, Option.some.injEq] at hlength ⊢
  by_cases hf : value.head h.1 = quote
  · by_cases hl : value.getLast h.1 = quote
    · simp only [hf, hl, sub, hlength hf, if_true, and_self]
      rfl
    · simp only [hf, hl, if_true, if_false, and_false]
  · simp only [hf, if_false, false_and]

theorem unquoteChecked_error {value : Bytes} (h : ¬Quotable value) :
    ∃ fault, unquoteChecked value = .error fault := by
  rw [Quotable, not_and_or, not_not, not_not] at h
  rcases h with rfl | rfl
  · exact ⟨.emptyFront, rfl⟩
  · exact ⟨.wraps, rfl⟩

theorem unquote_eq {value : Bytes} (h : Quotable value) (hfirst : value.head? = some quote)
    (hlast : value.getLast? = some quote) : value = quote :: (unquote value ++ [quote]) := by
  have hlength := two_le_length h hfirst
  obtain ⟨rest, rfl⟩ := List.head?_eq_some_iff.mp hfirst
  have hrest : rest ≠ [] := by
    rintro rfl
    exact h.2 rfl
  obtain ⟨inner, rfl⟩ : ∃ inner, rest = inner ++ [quote] := by
    rw [List.getLast?_cons_of_ne_nil hrest] at hlast
    exact List.getLast?_eq_some_iff.mp hlast
  rw [unquote_quoted]

theorem addPairChecked_of_quotable {pair : Bytes}
    (h : ∀ value, pairValue pair = some value → Quotable value) (msg : Request) :
    addPairChecked msg pair = .ok (addPair msg pair) := by
  unfold addPairChecked addPair parsePair
  unfold pairValue at h
  cases hpos : find pair kvSep with
  | none => rfl
  | some pos =>
    rw [hpos] at h
    simp only [unquoteChecked_of_quotable (h _ rfl)]
    rfl

theorem addPairChecked_error {pair : Bytes}
    (h : ¬∀ value, pairValue pair = some value → Quotable value) (msg : Request) :
    ∃ fault, addPairChecked msg pair = .error fault := by
  rw [not_forall] at h
  obtain ⟨value, h⟩ := h
  rw [Classical.not_imp] at h
  obtain ⟨hvalue, hbad⟩ := h
  unfold pairValue at hvalue
  obtain ⟨pos, hpos, rfl⟩ := Option.map_eq_some_iff.mp hvalue
  obtain ⟨fault, hfault⟩ := unquoteChecked_error hbad
  refine ⟨fault, ?_⟩
  unfold addPairChecked
  simp only [hpos, hfault]
  rfl

section Commands

variable {data : Bytes} {args : List Bytes}

theorem deserializeChecked_setFields (hw : words isSpace data = ascii "SET_FIELDS" :: args) :
    deserializeChecked data =
      args.tail.foldlM addPairChecked ⟨.setFields, args.headD [], ∅, []⟩ := by
  unfold deserializeChecked
  simp only [extract_fst, words_extract_snd, hw]
  rfl

theorem deserializeChecked_other (hw : ∀ args, words isSpace data ≠ ascii "SET_FIELDS" :: args) :
    deserializeChecked data = .ok (deserialize data) := by
  unfold deserializeChecked
  simp only [extract_fst]
  rw [if_neg]
  · rfl
  · intro hcommand
    cases hwords : words isSpace data with
    | nil =>
      rw [hwords] at hcommand
      revert hcommand
      decide
    | cons command args =>
      rw [hwords, List.headD_cons] at hcommand
      exact hw args (hcommand ▸ hwords)

theorem pairValues_setFields (hw : words isSpace data = ascii "SET_FIELDS" :: args) :
    pairValues data = args.tail.filterMap pairValue := by
  rw [pairValues, hw]
  exact if_pos rfl

theorem pairValues_other (hw : ∀ args, words isSpace data ≠ ascii "SET_FIELDS" :: args) :
    pairValues data = [] := by
  rw [pairValues]
  cases hwords : words isSpace data with
  | nil => rfl
  | cons command args =>
    refine if_neg ?_
    rintro rfl
    exact hw args hwords

end Commands

/-- The checks pass exactly when every value has two ends to look at. -/
theorem deserializeChecked_eq_ok_iff (data : Bytes) :
    deserializeChecked data = .ok (deserialize data) ↔
      ∀ value ∈ pairValues data, Quotable value := by
  by_cases hw : ∃ args, words isSpace data = ascii "SET_FIELDS" :: args
  · obtain ⟨args, hw⟩ := hw
    have hplain :
        args.tail.foldl addPair ⟨.setFields, args.headD [], ∅, []⟩ = deserialize data := by
      rw [deserialize_eq, hw, ofWords, if_pos rfl]
    rw [deserializeChecked_setFields hw, pairValues_setFields hw,
      foldlM_eq_ok_iff (fun msg pair h => addPairChecked_of_quotable h msg)
        (fun msg pair h => addPairChecked_error h msg)]
    simp only [hplain, and_true, List.mem_filterMap]
    constructor
    · rintro h value ⟨pair, hpair, hvalue⟩
      exact h pair hpair value hvalue
    · intro h pair hpair value hvalue
      exact h value ⟨pair, hpair, hvalue⟩
  · rw [not_exists] at hw
    rw [deserializeChecked_other hw, pairValues_other hw]
    simp

/-- Every check passes, and where quotes are stripped they are two. -/
structure StripsQuotes (data : Bytes) : Prop where
  checked : deserializeChecked data = .ok (deserialize data)
  two : ∀ value ∈ pairValues data, value.head? = some quote → value.getLast? = some quote →
    value = quote :: (unquote value ++ [quote])

/-- Quotes are stripped as they should be exactly when no value is empty or a lone quote. -/
theorem stripsQuotes_iff (data : Bytes) :
    StripsQuotes data ↔ ∀ value ∈ pairValues data, value ≠ [] ∧ value ≠ [quote] := by
  constructor
  · intro h
    exact (deserializeChecked_eq_ok_iff data).mp h.checked
  · intro h
    exact ⟨(deserializeChecked_eq_ok_iff data).mpr h,
      fun value hvalue hfirst hlast => unquote_eq (h value hvalue) hfirst hlast⟩

/-- A pair that ends with its separator. -/
theorem not_stripsQuotes :
    ¬∀ data : Bytes, (deserialize data).type = .setFields → StripsQuotes data := by
  intro h
  have hchecked := (h (ascii "SET_FIELDS k a=") (by decide)).checked
  revert hchecked
  decide

end MuStore.Protocol
