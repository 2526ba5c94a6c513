import MuStore.KVStoreRefinement

namespace MuStore

/-- `fail` counts the allocations that succeed before the one that throws. In
`fields[field] = new std::string(value)` the right operand comes first, so the map is not
touched when it throws. -/
def Value.setFieldFailing (alloc : Allocator Bytes Bytes) (h : Heap Bytes) (v : Value)
    (field value : Bytes) (fail : ℕ) : Except MemFault (Heap Bytes × Value × Bool) := do
  let h ← v.deleteField h field
  match fail with
  | 0 => pure (h, v, true)
  | _ + 1 =>
    let (a, h) := Heap.new alloc field h value
    pure (h, ⟨v.fields.insert field a⟩, false)

def Value.setEachFailing (alloc : Allocator Bytes Bytes) (h : Heap Bytes) (v : Value) :
    List (Σ _ : Bytes, Bytes) → ℕ → Except MemFault (Heap Bytes × Value × Bool)
  | [], _ => pure (h, v, false)
  | e :: rest, fail => do
    let (h, v, thrown) ← v.setFieldFailing alloc h e.1 e.2 fail
    if thrown then pure (h, v, true)
    else setEachFailing alloc h v rest (fail - 1)

def Value.setFieldsFailing (ch : Choices) (h : Heap Bytes) (v : Value)
    (newFields : UnorderedMap Bytes Bytes) (fail : ℕ) :
    Except MemFault (Heap Bytes × Value × Bool) :=
  v.setEachFailing ch.alloc h (ch.newFields.visit newFields) fail

def KVStore.setFieldFailing (alloc : Allocator Bytes Bytes) (h : Heap Bytes) (kv : KVStore)
    (key field value : Bytes) (fail : ℕ) : Except MemFault (Heap Bytes × KVStore × Bool) :=
  match kv.store.lookup key with
  | none => pure (h, kv, false)
  | some v => do
    let (h, v, thrown) ← v.setFieldFailing alloc h field value fail
    pure (h, ⟨kv.store.insert key v⟩, thrown)

def KVStore.setFieldsFailing (ch : Choices) (h : Heap Bytes) (kv : KVStore) (key : Bytes)
    (fields : UnorderedMap Bytes Bytes) (fail : ℕ) :
    Except MemFault (Heap Bytes × KVStore × Bool) :=
  match kv.store.lookup key with
  | none => pure (h, kv, false)
  | some v => do
    let (h, v, thrown) ← v.setFieldsFailing ch h fields fail
    pure (h, ⟨kv.store.insert key v⟩, thrown)

structure Attempt where
  choices : Choices
  call : Call
  fail : ℕ

/-- The other calls create no string. -/
def Storage.attempt (s : Storage) (e : Attempt) : Except MemFault (Storage × Bool) :=
  match e.call with
  | .setField key field value => do
    let (h, kv, thrown) ← s.kv.setFieldFailing e.choices.alloc s.heap key field value e.fail
    pure (⟨h, kv⟩, thrown)
  | .setFields key fields => do
    let (h, kv, thrown) ← s.kv.setFieldsFailing e.choices s.heap key fields e.fail
    pure (⟨h, kv⟩, thrown)
  | c => do
    let (s, _) ← s.call e.choices c
    pure (s, false)

def Storage.attemptStep (s : Storage) (e : Attempt) : Except MemFault Storage := do
  let (s, _) ← s.attempt e
  pure s

def Attempt.assigns (e : Attempt) : Option (Bytes × List (Σ _ : Bytes, Bytes)) :=
  match e.call with
  | .setField key field value => some (key, [⟨field, value⟩])
  | .setFields key fields => some (key, e.choices.newFields.visit fields)
  | _ => none

theorem Attempt.nodupKeys {e : Attempt} {key : Bytes} {l : List (Σ _ : Bytes, Bytes)}
    (he : e.assigns = some (key, l)) : l.NodupKeys := by
  unfold assigns at he
  cases hc : e.call with
  | setField key' field value =>
    rw [hc] at he
    cases he
    exact List.nodupKeys_singleton _
  | setFields key' fields =>
    rw [hc] at he
    cases he
    exact e.choices.newFields.visit_nodupKeys fields
  | _ =>
    rw [hc] at he
    cases he

section Loop

variable {alloc : Allocator Bytes Bytes} {h : Heap Bytes} {v : Value}

theorem Value.setFieldFailing_succ (field value : Bytes) (fail : ℕ) :
    v.setFieldFailing alloc h field value (fail + 1) =
      (v.setField alloc h field value).map fun (h, v) => (h, v, false) := by
  unfold setFieldFailing setField
  cases v.deleteField h field with
  | error e => rfl
  | ok h₁ => rfl

theorem Value.setFieldFailing_eq_setEachFailing (field value : Bytes) (fail : ℕ) :
    v.setFieldFailing alloc h field value fail =
      v.setEachFailing alloc h [⟨field, value⟩] fail := by
  rw [setEachFailing]
  cases v.setFieldFailing alloc h field value fail with
  | error e => rfl
  | ok r =>
    obtain ⟨h₁, v₁, thrown⟩ := r
    cases thrown with
    | false => rfl
    | true => rfl

/-- With enough memory the loop is the loop of `setFields`. -/
theorem Value.setEachFailing_of_length_le {l : List (Σ _ : Bytes, Bytes)} {fail : ℕ}
    (hfail : l.length ≤ fail) : v.setEachFailing alloc h l fail =
      (v.setEach alloc h l).map fun (h, v) => (h, v, false) := by
  induction l generalizing h v fail with
  | nil => rfl
  | cons e l ih =>
    rw [List.length_cons] at hfail
    obtain ⟨fail, rfl⟩ := Nat.exists_eq_add_one.mpr (Nat.zero_lt_of_lt hfail)
    rw [setEachFailing, setFieldFailing_succ, setEach]
    cases v.setField alloc h e.1 e.2 with
    | error e => rfl
    | ok r => exact ih (Nat.le_of_succ_le_succ hfail)

theorem Value.setEachFailing_of_getElem? {l : List (Σ _ : Bytes, Bytes)} {fail : ℕ}
    {e : Σ _ : Bytes, Bytes} (he : l[fail]? = some e) :
    v.setEachFailing alloc h l fail = (do
      let (h, v) ← v.setEach alloc h (l.take fail)
      let h ← v.deleteField h e.1
      pure (h, v, true)) := by
  induction l generalizing h v fail with
  | nil => cases he
  | cons e' l ih =>
    cases fail with
    | zero =>
      cases he
      simp only [setEachFailing, setFieldFailing, List.take_zero, setEach, bind, Except.bind, pure,
        Except.pure]
      cases v.deleteField h e.1 with
      | error e => rfl
      | ok h₁ => rfl
    | succ fail =>
      rw [setEachFailing, setFieldFailing_succ, List.take_succ_cons, setEach]
      cases v.setField alloc h e'.1 e'.2 with
      | error e => rfl
      | ok r => exact ih he

end Loop

section Thrown

variable {kv : KVStore} {key : Bytes} {h : Heap Bytes} {v : Value}
  {l : List (Σ _ : Bytes, Bytes)} {fail : ℕ} {e : Σ _ : Bytes, Bytes}

theorem keys_take_of_getElem? (hl : l.NodupKeys) (he : l[fail]? = some e) :
    e.1 ∉ (l.take fail).keys := by
  obtain ⟨hlt, hget⟩ := List.getElem?_eq_some_iff.mp he
  rw [← List.take_append_drop fail l, List.drop_eq_getElem_cons hlt, hget, List.nodupKeys_middle,
    List.nodupKeys_cons] at hl
  intro hmem
  apply hl.1
  rw [List.keys, List.map_append]
  exact List.mem_append_left _ hmem

/-- The fields before the one that fails have their new values, and the string of that
one is deleted while its pointer stays. -/
theorem Value.setEachFailing_spec (alloc : Allocator Bytes Bytes)
    (ho : Owns (kv.put key v).cell h) (hl : l.NodupKeys) (he : l[fail]? = some e) :
    ∃ h₁ h₂ v₁, v.setEachFailing alloc h l fail = .ok (h₂, v₁, true) ∧
      Owns (kv.put key v₁).cell h₁ ∧
      (∀ k f, contents (kv.put key v₁).cell h₁ (k, f) =
        if k = key then assignAll (l.take fail) (fun f => contents (kv.put key v).cell h (key, f)) f
        else contents (kv.put key v).cell h (k, f)) ∧
      ((v.fields.lookup e.1 = none ∧ h₂ = h₁) ∨
        ∃ a, v.fields.lookup e.1 = some a ∧ v₁.fields.lookup e.1 = some a ∧ h₂ = h₁.erase a) := by
  obtain ⟨h₁, v₁, heach, ho₁, hc₁⟩ := Value.setEach_spec alloc (l.take fail) ho
  have hsame := Value.lookup_of_setEach heach (keys_take_of_getElem? hl he)
  have hrun : ∀ {h₂}, v₁.deleteField h₁ e.1 = .ok h₂ →
      v.setEachFailing alloc h l fail = .ok (h₂, v₁, true) := by
    intro h₂ hdel
    rw [setEachFailing_of_getElem? he, heach]
    simp only [bind, Except.bind, hdel, pure, Except.pure]
  rcases Value.deleteField_cases ho₁ e.1 with ⟨hf, hdel⟩ | ⟨a, hf, hdel⟩
  · exact ⟨h₁, h₁, v₁, hrun hdel, ho₁, hc₁, Or.inl ⟨hsame ▸ hf, rfl⟩⟩
  · exact ⟨h₁, h₁.erase a, v₁, hrun hdel, ho₁, hc₁, Or.inr ⟨a, hsame ▸ hf, hf, rfl⟩⟩

end Thrown

namespace Storage

variable {s s' : Storage} {e : Attempt} {key : Bytes} {l : List (Σ _ : Bytes, Bytes)}

theorem attempt_of_lookup {v : Value} (ha : e.assigns = some (key, l))
    (hv : s.kv.store.lookup key = some v) : s.attempt e =
      (v.setEachFailing e.choices.alloc s.heap l e.fail).map fun (h, v, thrown) =>
        (⟨h, s.kv.put key v⟩, thrown) := by
  obtain ⟨ch, c, fail⟩ := e
  cases c with
  | setField key' field value =>
    cases ha
    simp only [attempt, KVStore.setFieldFailing, hv, Value.setFieldFailing_eq_setEachFailing]
    cases v.setEachFailing ch.alloc s.heap [⟨field, value⟩] fail with
    | error e => rfl
    | ok r => rfl
  | setFields key' fields =>
    cases ha
    simp only [attempt, KVStore.setFieldsFailing, hv, Value.setFieldsFailing]
    cases v.setEachFailing ch.alloc s.heap (ch.newFields.visit fields) fail with
    | error e => rfl
    | ok r => rfl
  | _ => cases ha

theorem attempt_of_lookup_none (ha : e.assigns = some (key, l))
    (hv : s.kv.store.lookup key = none) : s.attempt e = .ok (s, false) := by
  obtain ⟨ch, c, fail⟩ := e
  cases c with
  | setField key' field value =>
    cases ha
    simp only [attempt, KVStore.setFieldFailing, hv]
    rfl
  | setFields key' fields =>
    cases ha
    simp only [attempt, KVStore.setFieldsFailing, hv]
    rfl
  | _ => cases ha

/-- After an exception in a call that sets fields of a key: no pointer dangles, every
field of the key has its old or its new value, and the other keys are as they were. -/
structure Intact (s s' : Storage) (key : Bytes) (l : List (Σ _ : Bytes, Bytes)) : Prop where
  valid : ∀ {c a}, s'.kv.cell c = some a → a ∈ s'.heap ∧ a ≠ null
  old_or_new : ∀ f, contents s'.kv.cell s'.heap (key, f) = contents s.kv.cell s.heap (key, f) ∨
    ∃ x, ⟨f, x⟩ ∈ l ∧ contents s'.kv.cell s'.heap (key, f) = some x
  others : ∀ k, k ≠ key → s'.kv.store.lookup k = s.kv.store.lookup k ∧
    ∀ f, contents s'.kv.cell s'.heap (k, f) = contents s.kv.cell s.heap (k, f)

/-- One call: what it leaves is intact exactly when the field is new. -/
theorem thrown_spec (ho : s.Owned) (ha : e.assigns = some (key, l)) (hkey : key ∈ s.kv.store)
    {x : Σ _ : Bytes, Bytes} (hx : l[e.fail]? = some x) :
    ∃ s', s.attempt e = .ok (s', true) ∧
      (s.kv.cell (key, x.1) = none → s'.Owned ∧ s.Intact s' key l) ∧
      (s.kv.cell (key, x.1) ≠ none → ¬s.Intact s' key l) := by
  obtain ⟨v, hv⟩ := Option.isSome_iff_exists.mp (AList.lookup_isSome.mpr hkey)
  have hcell := KVStore.cell_put_of_lookup hv
  have ho' : Owns (s.kv.put key v).cell s.heap := by
    rwa [hcell]
  have hfield : s.kv.cell (key, x.1) = v.fields.lookup x.1 := by
    rw [← hcell, KVStore.cell_put_self]
  obtain ⟨h₁, h₂, v₁, hloop, ho₁, hc₁, hcases⟩ :=
    Value.setEachFailing_spec e.choices.alloc ho' (Attempt.nodupKeys ha) hx
  rw [hcell] at hc₁
  refine ⟨⟨h₂, s.kv.put key v₁⟩, by rw [attempt_of_lookup ha hv, hloop]; rfl, ?_, ?_⟩
  · intro hnone
    rw [hfield] at hnone
    rcases hcases with ⟨-, rfl⟩ | ⟨a, hsome, -, -⟩
    · refine ⟨ho₁, ⟨fun hc => ⟨ho₁.live hc, ho₁.nonnull hc⟩, ?_, ?_⟩⟩
      · intro f
        show contents (s.kv.put key v₁).cell h₂ (key, f) = _ ∨
          ∃ x, _ ∧ contents (s.kv.put key v₁).cell h₂ (key, f) = _
        have htake := (List.take_sublist e.fail l)
        rw [hc₁, if_pos rfl, assignAll_of_nodupKeys ((Attempt.nodupKeys ha).sublist htake)]
        cases hd : (l.take e.fail).dlookup f with
        | none => exact Or.inl Option.none_or
        | some y => exact Or.inr ⟨y, htake.subset (List.of_mem_dlookup hd), rfl⟩
      · intro k hk
        refine ⟨KVStore.lookup_put_of_ne hk s.kv v₁, ?_⟩
        intro f
        show contents (s.kv.put key v₁).cell h₂ (k, f) = _
        rw [hc₁, if_neg hk]
    · rw [hsome] at hnone
      cases hnone
  · intro hsome hintact
    rw [hfield] at hsome
    rcases hcases with ⟨hnone, -⟩ | ⟨a, -, hptr, rfl⟩
    · exact hsome hnone
    · -- the pointer is still in the map
      have hlive := (hintact.valid (c := (key, x.1)) (a := a) (by
        rw [KVStore.cell_put_self, hptr])).1
      exact (Finmap.mem_erase.mp hlive).1 rfl

def FailsAtNew (s : Storage) (e : Attempt) : Prop :=
  ∀ key l x, e.assigns = some (key, l) → l[e.fail]? = some x → s.kv.cell (key, x.1) = none

theorem attemptStep_owned (ho : s.Owned) (hnew : s.FailsAtNew e) :
    ∃ s', s.attemptStep e = .ok s' ∧ s'.Owned := by
  cases ha : e.assigns with
  | none =>
    obtain ⟨ch, c, fail⟩ := e
    obtain ⟨s', r, hcall, ho', -⟩ := call_spec ch ho c
    refine ⟨s', ?_, ho'⟩
    unfold attemptStep attempt
    cases c with
    | setField key field value => cases ha
    | setFields key fields => cases ha
    | _ =>
      simp only [hcall]
      rfl
  | some p =>
    obtain ⟨key, l⟩ := p
    cases hv : s.kv.store.lookup key with
    | none => exact ⟨s, by rw [attemptStep, attempt_of_lookup_none ha hv]; rfl, ho⟩
    | some v =>
      have hkey : key ∈ s.kv.store := by
        rw [← AList.lookup_isSome, hv, Option.isSome_some]
      cases hx : l[e.fail]? with
      | some x =>
        obtain ⟨s', hatt, hgood, -⟩ := thrown_spec ho ha hkey hx
        exact ⟨s', by rw [attemptStep, hatt]; rfl, (hgood (hnew key l x ha hx)).1⟩
      | none =>
        have hcell := KVStore.cell_put_of_lookup hv
        rw [Owned, ← hcell] at ho
        obtain ⟨h₁, v₁, heach, ho₁, -⟩ := Value.setEach_spec e.choices.alloc l ho
        refine ⟨⟨h₁, s.kv.put key v₁⟩, ?_, ho₁⟩
        rw [attemptStep, attempt_of_lookup ha hv,
          Value.setEachFailing_of_length_le (List.getElem?_eq_none_iff.mp hx), heach]
        rfl

theorem owned_of_attempts {es : List Attempt}
    (hes : Throughout attemptStep FailsAtNew Storage.empty es)
    (hs : es.foldlM attemptStep Storage.empty = .ok s) : s.Owned := by
  obtain ⟨s₁, hs₁, ho⟩ := hes.exists_run (fun s e ho hnew => attemptStep_owned ho hnew) owned_empty
  rw [hs, Except.ok.injEq] at hs₁
  exact hs₁ ▸ ho

/-- In a run in which allocations fail only at new fields, the next exception leaves the
store intact exactly when it, too, comes at a new field. -/
theorem intact_iff {es : List Attempt} (hes : Throughout attemptStep FailsAtNew Storage.empty es)
    (hs : es.foldlM attemptStep Storage.empty = .ok s) (ha : e.assigns = some (key, l))
    (hkey : key ∈ s.kv.store) {x : Σ _ : Bytes, Bytes} (hx : l[e.fail]? = some x) :
    (∃ s', s.attempt e = .ok (s', true) ∧ s.Intact s' key l) ↔ s.kv.cell (key, x.1) = none := by
  obtain ⟨s', hatt, hgood, hbad⟩ := thrown_spec (owned_of_attempts hes hs) ha hkey hx
  constructor
  · rintro ⟨s₂, hatt₂, hintact⟩
    rw [hatt, Except.ok.injEq, Prod.mk.injEq] at hatt₂
    by_contra hold
    exact hbad hold (hatt₂.1 ▸ hintact)
  · intro hnone
    exact ⟨s', hatt, (hgood hnone).2⟩

def oneField : List Attempt :=
  [⟨.plain, .insert (ascii "k"), 0⟩, ⟨.plain, .setField (ascii "k") (ascii "f") (ascii "v"), 1⟩]

theorem throughout_oneField : Throughout attemptStep FailsAtNew Storage.empty oneField := by
  refine Throughout.cons ?_ rfl (Throughout.cons ?_ rfl trivial)
  · intro key l x ha
    cases ha
  · intro key l x ha hx
    cases ha
    cases hx

def withOneField : Storage :=
  ⟨Finmap.singleton 1 (ascii "v"), ⟨AList.singleton (ascii "k") ⟨AList.singleton (ascii "f") 1⟩⟩⟩

theorem run_oneField : oneField.foldlM attemptStep Storage.empty = .ok withOneField := rfl

def failsAtSecond : Attempt :=
  ⟨.plain, .setFields (ascii "k") (AList.insert (ascii "f") (ascii "w")
    (AList.singleton (ascii "g") (ascii "x"))), 1⟩

theorem intact_iff_failsAtSecond :
    (∃ s', withOneField.attempt failsAtSecond = .ok (s', true) ∧
        withOneField.Intact s' (ascii "k") [⟨ascii "f", ascii "w"⟩, ⟨ascii "g", ascii "x"⟩]) ↔
      withOneField.kv.cell (ascii "k", ascii "g") = none :=
  intact_iff throughout_oneField run_oneField rfl (by decide) (x := ⟨ascii "g", ascii "x"⟩) rfl

/-- The allocation for the field that is there fails. -/
theorem not_intact_overwritten :
    ¬∀ (es : List Attempt) (s : Storage) (e : Attempt) (key : Bytes)
      (l : List (Σ _ : Bytes, Bytes)) (x : Σ _ : Bytes, Bytes),
      Throughout attemptStep FailsAtNew Storage.empty es →
      es.foldlM attemptStep Storage.empty = .ok s → e.assigns = some (key, l) →
      key ∈ s.kv.store → l[e.fail]? = some x →
        ∃ s', s.attempt e = .ok (s', true) ∧ s.Intact s' key l := by
  intro h
  have ha : Attempt.assigns ⟨.plain, .setField (ascii "k") (ascii "f") (ascii "w"), 0⟩ =
      some (ascii "k", [⟨ascii "f", ascii "w"⟩]) := rfl
  have hkey : ascii "k" ∈ withOneField.kv.store := by decide
  have ho := owned_of_attempts throughout_oneField run_oneField
  obtain ⟨s', hatt, hintact⟩ := h _ _ _ _ _ _ throughout_oneField run_oneField ha hkey rfl
  obtain ⟨s₁, hatt₁, -, hbad⟩ := thrown_spec ho ha hkey rfl
  rw [hatt, Except.ok.injEq, Prod.mk.injEq] at hatt₁
  exact hbad (by decide) (hatt₁.1 ▸ hintact)

end Storage

end MuStore
