import Mathlib.Data.List.Basic

namespace MuStore

variable {σ ε δ : Type} {step : σ → ε → Except δ σ} {s s' : σ}

theorem bind_eq_ok {α β : Type} {x : Except δ α} {f : α → Except δ β} {b : β} :
    x >>= f = .ok b ↔ ∃ a, x = .ok a ∧ f a = .ok b := by
  cases x with
  | error e => simp [bind, Except.bind]
  | ok a => simp [bind, Except.bind]

theorem run_cons {e : ε} (h : step s e = .ok s') (l : List ε) :
    (e :: l).foldlM step s = l.foldlM step s' := by
  rw [List.foldlM_cons, h]
  rfl

/-- Every step of the run from `s` meets a condition on the state before it. -/
def Throughout (step : σ → ε → Except δ σ) (cond : σ → ε → Prop) (s : σ) : List ε → Prop
  | [] => True
  | e :: l => cond s e ∧ ∀ s', step s e = .ok s' → Throughout step cond s' l

theorem Throughout.cons {cond : σ → ε → Prop} {e : ε} {l : List ε} (hc : cond s e)
    (hs : step s e = .ok s') (h : Throughout step cond s' l) : Throughout step cond s (e :: l) := by
  refine ⟨hc, ?_⟩
  intro s₁ hs₁
  rw [hs, Except.ok.injEq] at hs₁
  exact hs₁ ▸ h

theorem throughout_true (s : σ) (l : List ε) : Throughout step (fun _ _ => True) s l := by
  induction l generalizing s with
  | nil => trivial
  | cons e l ih => exact ⟨trivial, fun s' _ => ih s'⟩

theorem throughout_of_forall {P : ε → Prop} {l : List ε} (h : ∀ e ∈ l, P e) (s : σ) :
    Throughout step (fun _ e => P e) s l := by
  induction l generalizing s with
  | nil => trivial
  | cons e l ih => exact ⟨h e (by simp), fun s' _ => ih (fun e he => h e (by simp [he])) s'⟩

theorem Throughout.of_isPrefix {cond : σ → ε → Prop} {l l' : List ε}
    (h : Throughout step cond s l') (hp : l <+: l') : Throughout step cond s l := by
  obtain ⟨r, rfl⟩ := hp
  induction l generalizing s with
  | nil => trivial
  | cons e l ih => exact ⟨h.1, fun s' hs => ih (h.2 s' hs)⟩

theorem Throughout.of_append {cond : σ → ε → Prop} {l l' : List ε}
    (h : Throughout step cond s (l ++ l')) (hrun : l.foldlM step s = .ok s') :
    Throughout step cond s' l' := by
  induction l generalizing s with
  | nil =>
    cases hrun
    exact h
  | cons e l ih =>
    rw [List.foldlM_cons] at hrun
    obtain ⟨s₁, hs₁, hrest⟩ := bind_eq_ok.mp hrun
    exact ih (h.2 s₁ hs₁) hrest

/-- From a step to a run: no step fails, and the invariant holds at the end. -/
theorem Throughout.exists_run {Inv : σ → Prop} {cond : σ → ε → Prop}
    (hstep : ∀ s e, Inv s → cond s e → ∃ s', step s e = .ok s' ∧ Inv s') {l : List ε}
    (h : Throughout step cond s l) (hs : Inv s) : ∃ s', l.foldlM step s = .ok s' ∧ Inv s' := by
  induction l generalizing s with
  | nil => exact ⟨s, rfl, hs⟩
  | cons e l ih =>
    obtain ⟨s₁, hs₁, hinv⟩ := hstep s e hs h.1
    obtain ⟨s₂, hs₂, hinv₂⟩ := ih (h.2 s₁ hs₁) hinv
    exact ⟨s₂, by rw [run_cons hs₁, hs₂], hinv₂⟩

theorem exists_run {Inv : σ → Prop} (hstep : ∀ s e, Inv s → ∃ s', step s e = .ok s' ∧ Inv s')
    (l : List ε) (hs : Inv s) : ∃ s', l.foldlM step s = .ok s' ∧ Inv s' :=
  (throughout_true s l).exists_run (fun s e hi _ => hstep s e hi) hs

/-- A run whose steps fail on certain events, and otherwise do what a function does. -/
theorem foldlM_eq_ok_iff {f : σ → ε → σ} {good : ε → Prop}
    (hok : ∀ s e, good e → step s e = .ok (f s e))
    (herr : ∀ s e, ¬good e → ∃ d, step s e = .error d) (l : List ε) :
    l.foldlM step s = .ok s' ↔ (∀ e ∈ l, good e) ∧ l.foldl f s = s' := by
  induction l generalizing s with
  | nil => simp [pure, Except.pure]
  | cons e l ih =>
    by_cases he : good e
    · rw [run_cons (hok s e he), ih, List.forall_mem_cons, List.foldl_cons]
      simp only [he, true_and]
    · obtain ⟨d, hd⟩ := herr s e he
      constructor
      · intro h
        rw [List.foldlM_cons, hd] at h
        cases h
      · rintro ⟨hall, -⟩
        exact absurd (hall e (by simp)) he

section MapM

variable {α β : Type} {g : α → Except δ β} {l : List α}

theorem mapM_eq_ok_map {f : α → β} (h : ∀ x ∈ l, g x = .ok (f x)) : l.mapM g = .ok (l.map f) := by
  induction l with
  | nil => rfl
  | cons x l ih =>
    rw [List.mapM_cons, h x (by simp), ih fun x hx => h x (by simp [hx])]
    rfl

/-- If some call fails, the first one that does ends the loop with its error. -/
theorem exists_mapM_error {e : α → δ} (h : ∀ x ∈ l, (∃ y, g x = .ok y) ∨ g x = .error (e x))
    (hbad : ∃ x ∈ l, g x = .error (e x)) : ∃ x ∈ l, l.mapM g = .error (e x) := by
  induction l with
  | nil =>
    obtain ⟨x, hx, -⟩ := hbad
    cases hx
  | cons x l ih =>
    rcases h x (by simp) with ⟨y, hy⟩ | hx
    · have hrest : ∃ x ∈ l, g x = .error (e x) := by
        obtain ⟨x', hx', he⟩ := hbad
        rcases List.mem_cons.mp hx' with rfl | hx'
        · rw [hy] at he
          cases he
        · exact ⟨x', hx', he⟩
      obtain ⟨x', hx', he⟩ := ih (fun x hx => h x (by simp [hx])) hrest
      refine ⟨x', List.mem_cons_of_mem _ hx', ?_⟩
      rw [List.mapM_cons, hy, he]
      rfl
    · refine ⟨x, by simp, ?_⟩
      rw [List.mapM_cons, hx]
      rfl

theorem of_mapM_eq_error {P : δ → Prop} {d : δ} (h : ∀ x ∈ l, ∀ d, g x = .error d → P d)
    (herr : l.mapM g = .error d) : P d := by
  induction l with
  | nil => cases herr
  | cons x l ih =>
    rw [List.mapM_cons] at herr
    cases hx : g x with
    | error d' =>
      rw [hx] at herr
      cases herr
      exact h x (by simp) d hx
    | ok y =>
      rw [hx] at herr
      cases hl : l.mapM g with
      | error d' =>
        rw [hl] at herr
        cases herr
        exact ih (fun x hx => h x (by simp [hx])) hl
      | ok ys =>
        rw [hl] at herr
        cases herr

end MapM

end MuStore
