import Mathlib.Data.List.Forall2
import Mathlib.Data.List.Flatten

namespace MuStore

variable {α β γ δ ι : Type}

/-- A stream that starts with a code tells what was encoded and where the code ends. What
a reader knows beforehand is put into `R`, and `c` is what the code carries. -/
def SelfDelimiting (R : α → α → Prop) (enc : α → List β) (c : α → γ) : Prop :=
  ∀ a a' r r', R a a' → enc a ++ r = enc a' ++ r' → c a = c a' ∧ r = r'

namespace SelfDelimiting

variable {R : α → α → Prop} {enc head body : α → List β} {c : α → γ} {d : α → δ}

theorem content_eq (h : SelfDelimiting R enc c) {a a' : α} (hR : R a a') (heq : enc a = enc a') :
    c a = c a' := (h a a' [] [] hR (by rw [heq])).1

theorem of_length (h : ∀ a a', R a a' → (enc a).length = (enc a').length) :
    SelfDelimiting R enc enc :=
  fun a a' _ _ hR heq => List.append_inj heq (h a a' hR)

theorem map (h : SelfDelimiting R enc c) {g : α → δ}
    (hg : ∀ a a', R a a' → c a = c a' → g a = g a') : SelfDelimiting R enc g := by
  intro a a' r r' hR heq
  obtain ⟨hc, hr⟩ := h a a' r r' hR heq
  exact ⟨hg a a' hR hc, hr⟩

theorem mono (h : SelfDelimiting R enc c) {R' : α → α → Prop} (hR : ∀ a a', R' a a' → R a a') :
    SelfDelimiting R' enc c := fun a a' r r' hR' => h a a' r r' (hR a a' hR')

theorem comap (h : SelfDelimiting R enc c) (f : ι → α) :
    SelfDelimiting (fun i j => R (f i) (f j)) (fun i => enc (f i)) (fun i => c (f i)) :=
  fun i j r r' hR => h (f i) (f j) r r' hR

/-- One code after another: the content of the first is known to the reader of the
second. -/
theorem append (hhead : SelfDelimiting R head c)
    (hbody : SelfDelimiting (fun a a' => R a a' ∧ c a = c a') body d) :
    SelfDelimiting R (fun a => head a ++ body a) d := by
  intro a a' r r' hR heq
  simp only [List.append_assoc] at heq
  obtain ⟨hc, hrest⟩ := hhead a a' _ _ hR heq
  exact hbody a a' r r' ⟨hR, hc⟩ hrest

/-- Codes that are followed by anything, up to a length that is known beforehand. -/
theorem padded (h : SelfDelimiting R enc c) {padding : α → List β}
    (hlength : ∀ a a', R a a' → (enc a ++ padding a).length = (enc a' ++ padding a').length) :
    SelfDelimiting R (fun a => enc a ++ padding a) c := by
  intro a a' r r' hR heq
  obtain ⟨hcode, hr⟩ := List.append_inj heq (hlength a a' hR)
  exact ⟨(h a a' _ _ hR hcode).1, hr⟩

/-- A code that is left out of some values, the reader knowing which. -/
theorem ite {present : α → Bool} (hpresent : ∀ a a', R a a' → present a = present a')
    (h : SelfDelimiting (fun a a' => R a a' ∧ present a) enc c) :
    SelfDelimiting R (fun a => if present a then enc a else [])
      (fun a => if present a then some (c a) else none) := by
  intro a a' r r' hR heq
  have hp := hpresent a a' hR
  cases ha : present a with
  | false =>
    rw [ha] at hp
    simpa [ha, ← hp] using heq
  | true =>
    rw [ha] at hp
    simp only [ha, ← hp, if_true] at heq ⊢
    obtain ⟨hc, hr⟩ := h a a' r r' ⟨hR, ha⟩ heq
    exact ⟨by rw [hc], hr⟩

/-- The codes of a list one after another, read with what is known of each element. -/
theorem flatMap (h : SelfDelimiting R enc c) :
    SelfDelimiting (List.Forall₂ R) (fun l => l.flatMap enc) (fun l => l.map c) := by
  intro l l' r r' hl heq
  induction hl generalizing r r' with
  | nil => exact ⟨rfl, heq⟩
  | cons hR _ ih =>
    simp only [List.flatMap_cons, List.append_assoc] at heq
    obtain ⟨hc, hrest⟩ := h _ _ _ _ hR heq
    obtain ⟨hcs, hr⟩ := ih _ _ hrest
    exact ⟨List.cons_eq_cons.mpr ⟨hc, hcs⟩, hr⟩

/-- Of codes that are not empty the beginning of a stream tells the beginning of what
was encoded, however long either is. -/
theorem isPrefix_of_flatMap (h : SelfDelimiting R enc c) {l l' : List α}
    (hR : ∀ a ∈ l, ∀ a' ∈ l', R a a') (hne : ∀ a ∈ l, enc a ≠ [])
    (hstream : l.flatMap enc <+: l'.flatMap enc) : l.map c <+: l'.map c := by
  induction l generalizing l' with
  | nil => exact ⟨_, rfl⟩
  | cons a l ih =>
    cases l' with
    | nil =>
      have hnil := List.prefix_nil.mp hstream
      rw [List.flatMap_cons, List.append_eq_nil_iff] at hnil
      exact absurd hnil.1 (hne a (by simp))
    | cons a' l' =>
      obtain ⟨r, hr⟩ := hstream
      rw [List.flatMap_cons, List.flatMap_cons, List.append_assoc] at hr
      obtain ⟨hc, hrest⟩ := h a a' _ _ (hR a (by simp) a' (by simp)) hr
      rw [List.map_cons, List.map_cons, hc]
      apply (List.prefix_cons_inj _).mpr
      apply ih
      · intro b hb b' hb'
        exact hR b (by simp [hb]) b' (by simp [hb'])
      · intro b hb
        exact hne b (by simp [hb])
      · exact ⟨r, hrest⟩

end SelfDelimiting

end MuStore
