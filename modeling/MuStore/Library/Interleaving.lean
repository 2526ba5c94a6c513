import Mathlib.Data.List.Forall2
import Mathlib.Logic.Function.Basic

namespace MuStore

variable {ι α β : Type} [DecidableEq ι]

/-- What one index has of a list. -/
def restrict (i : ι) (l : List (ι × α)) : List α := (l.filter fun e => e.1 = i).map Prod.snd

section Restrict

variable {i j : ι} {a : α} {l : List (ι × α)}

@[simp] theorem restrict_nil (i : ι) : restrict i ([] : List (ι × α)) = [] := rfl

@[simp] theorem restrict_append (i : ι) (l l' : List (ι × α)) :
    restrict i (l ++ l') = restrict i l ++ restrict i l' := by
  rw [restrict, List.filter_append, List.map_append]
  rfl

@[simp] theorem restrict_cons_self (i : ι) (a : α) (l : List (ι × α)) :
    restrict i ((i, a) :: l) = a :: restrict i l := by
  rw [restrict, List.filter_cons_of_pos (by simp), List.map_cons]
  rfl

theorem restrict_cons_of_ne (h : j ≠ i) (a : α) (l : List (ι × α)) :
    restrict i ((j, a) :: l) = restrict i l := by
  rw [restrict, List.filter_cons_of_neg (by simpa using h)]
  rfl

theorem restrict_concat_self (i : ι) (a : α) (l : List (ι × α)) :
    restrict i (l ++ [(i, a)]) = restrict i l ++ [a] := by
  rw [restrict_append, restrict_cons_self, restrict_nil]

theorem restrict_concat_of_ne (h : j ≠ i) (a : α) (l : List (ι × α)) :
    restrict i (l ++ [(j, a)]) = restrict i l := by
  rw [restrict_append, restrict_cons_of_ne h, restrict_nil, List.append_nil]

theorem mem_restrict : a ∈ restrict i l ↔ (i, a) ∈ l := by
  simp [restrict]

theorem restrict_map (i : ι) (f : α → β) (l : List (ι × α)) :
    restrict i (l.map fun e => (e.1, f e.2)) = (restrict i l).map f := by
  induction l with
  | nil => rfl
  | cons e l ih =>
    obtain ⟨j, a⟩ := e
    by_cases hj : j = i
    · subst hj
      rw [List.map_cons, restrict_cons_self, restrict_cons_self, List.map_cons, ih]
    · rw [List.map_cons, restrict_cons_of_ne hj, restrict_cons_of_ne hj, ih]

theorem restrict_isPrefix (i : ι) {l l' : List (ι × α)} (h : l <+: l') :
    restrict i l <+: restrict i l' := by
  obtain ⟨r, rfl⟩ := h
  rw [restrict_append]
  exact List.prefix_append _ _

end Restrict

/-- Lists that fit the restrictions of a list are the restrictions of one that fits it. -/
theorem exists_interleaving {R : α → β → Prop} {l : List (ι × α)} {f : ι → List β}
    (h : ∀ i, List.Forall₂ R (restrict i l) (f i)) :
    ∃ l' : List (ι × β), l'.map Prod.fst = l.map Prod.fst ∧
      List.Forall₂ R (l.map Prod.snd) (l'.map Prod.snd) ∧ ∀ i, restrict i l' = f i := by
  induction l generalizing f with
  | nil =>
    refine ⟨[], rfl, .nil, fun i => ?_⟩
    exact (List.forall₂_nil_left_iff.mp (h i)).symm
  | cons e l ih =>
    obtain ⟨j, a⟩ := e
    have hj := h j
    rw [restrict_cons_self, List.forall₂_cons_left_iff] at hj
    obtain ⟨b, bs, hab, hbs, hf⟩ := hj
    -- the head of its index's list comes first, the others are untouched
    have hrest : ∀ i, List.Forall₂ R (restrict i l) (Function.update f j bs i) := by
      intro i
      by_cases hi : i = j
      · subst hi
        rwa [Function.update_self]
      · have hi' := h i
        rw [restrict_cons_of_ne (Ne.symm hi)] at hi'
        rwa [Function.update_of_ne hi]
    obtain ⟨l', hkeys, hall, hl'⟩ := ih hrest
    refine ⟨(j, b) :: l', by rw [List.map_cons, List.map_cons, hkeys], .cons hab hall, ?_⟩
    intro i
    by_cases hi : i = j
    · subst hi
      rw [restrict_cons_self, hl', Function.update_self, hf]
    · rw [restrict_cons_of_ne (Ne.symm hi), hl', Function.update_of_ne hi]

end MuStore
