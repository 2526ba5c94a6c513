import Mathlib.Data.List.AList
import Mathlib.Data.List.Perm.Subperm

namespace MuStore

/-- `std::unordered_map`, read through `lookup` and its size only: where the entries lie
is for an `IterOrder` to say. -/
abbrev UnorderedMap (κ ν : Type) := AList fun _ : κ => ν

/-- What one loop over an unordered map may do: visit every entry once, in an
order that the standard leaves open. -/
structure IterOrder (κ ν : Type) where
  visit : UnorderedMap κ ν → List (Σ _ : κ, ν)
  perm : ∀ m, (visit m).Perm m.entries

variable {κ ν μ : Type}

namespace UnorderedMap

def size (m : UnorderedMap κ ν) : ℕ := m.entries.length

theorem size_eq_keys_length (m : UnorderedMap κ ν) : m.size = m.keys.length := by
  simp [size, AList.keys, List.keys]

theorem size_eq_zero_iff [DecidableEq κ] (m : UnorderedMap κ ν) :
    m.size = 0 ↔ ∀ k, m.lookup k = none := by
  simp only [size_eq_keys_length, List.length_eq_zero_iff, AList.lookup_eq_none, AList.mem_keys,
    List.eq_nil_iff_forall_not_mem]

/-- A map whose keys all come from a list has as many entries as the list is long
exactly when the list repeats nothing and every name in it is a key. -/
theorem size_eq_length_iff [DecidableEq κ] {m : UnorderedMap κ ν} {names : List κ}
    (hm : ∀ k, m.lookup k ≠ none → k ∈ names) :
    m.size = names.length ↔ names.Nodup ∧ ∀ k ∈ names, m.lookup k ≠ none := by
  have hkey : ∀ k, k ∈ m.keys ↔ m.lookup k ≠ none := by
    intro k
    rw [← AList.mem_keys, ← AList.lookup_isSome, Option.isSome_iff_ne_none]
  have hsub : m.keys.Subperm names :=
    List.subperm_of_subset m.keys_nodup fun k hk => hm k ((hkey k).mp hk)
  rw [size_eq_keys_length]
  constructor
  · intro hlen
    have hperm := hsub.perm_of_length_le (Nat.le_of_eq hlen.symm)
    exact ⟨hperm.nodup_iff.mp m.keys_nodup, fun k hk => (hkey k).mp (hperm.mem_iff.mpr hk)⟩
  · rintro ⟨hnodup, hall⟩
    apply Nat.le_antisymm hsub.length_le
    exact (List.subperm_of_subset hnodup fun k hk => (hkey k).mpr (hall k hk)).length_le

end UnorderedMap

section Assign

variable [DecidableEq κ]

def assignAll (l : List (Σ _ : κ, ν)) (g : κ → Option ν) : κ → Option ν :=
  l.foldl (fun g e => Function.update g e.1 (some e.2)) g

@[simp] theorem assignAll_nil (g : κ → Option ν) : assignAll [] g = g := rfl

@[simp] theorem assignAll_cons (e : Σ _ : κ, ν) (l : List (Σ _ : κ, ν)) (g : κ → Option ν) :
    assignAll (e :: l) g = assignAll l (Function.update g e.1 (some e.2)) := rfl

theorem assignAll_append (l l' : List (Σ _ : κ, ν)) (g : κ → Option ν) :
    assignAll (l ++ l') g = assignAll l' (assignAll l g) := List.foldl_append

theorem assignAll_of_notMem {l : List (Σ _ : κ, ν)} {k : κ} (hk : k ∉ l.keys)
    (g : κ → Option ν) : assignAll l g k = g k := by
  induction l generalizing g with
  | nil => rfl
  | cons e l ih =>
    rw [List.keys_cons, List.mem_cons, not_or] at hk
    rw [assignAll_cons, ih hk.2, Function.update_of_ne hk.1]

/-- With distinct keys the order of the assignments is irrelevant: each key gets
its entry, or keeps what it had. -/
theorem assignAll_of_nodupKeys {l : List (Σ _ : κ, ν)} (hl : l.NodupKeys) (g : κ → Option ν)
    (k : κ) : assignAll l g k = (l.dlookup k).or (g k) := by
  induction l generalizing g with
  | nil => rfl
  | cons e l ih =>
    obtain ⟨a, v⟩ := e
    rw [List.nodupKeys_cons] at hl
    by_cases hk : k = a
    · subst hk
      -- the rest of the list does not assign the key again
      rw [assignAll_cons, assignAll_of_notMem hl.1, Function.update_self, List.dlookup_cons_eq]
      rfl
    · rw [assignAll_cons, ih hl.2, Function.update_of_ne hk, List.dlookup_cons_ne l ⟨a, v⟩ hk]

theorem lookup_foldl_insert (l : List (Σ _ : κ, ν)) (m : UnorderedMap κ ν) (k : κ) :
    (l.foldl (fun m e => m.insert e.1 e.2) m).lookup k = assignAll l (fun k => m.lookup k) k := by
  induction l generalizing m with
  | nil => rfl
  | cons e l ih =>
    rw [List.foldl_cons, ih, assignAll_cons]
    congr 1
    funext j
    by_cases hj : j = e.1
    · subst hj
      rw [AList.lookup_insert, Function.update_self]
    · rw [AList.lookup_insert_ne hj, Function.update_of_ne hj]

theorem assignAll_eq_dlookup_reverse (l : List (Σ _ : κ, ν)) (g : κ → Option ν) (k : κ) :
    assignAll l g k = (l.reverse.dlookup k).or (g k) := by
  induction l generalizing g with
  | nil => rfl
  | cons e l ih =>
    rw [assignAll_cons, ih, List.reverse_cons, List.dlookup_append, Option.or_assoc]
    congr 1
    by_cases hk : k = e.1
    · subst hk
      rw [Function.update_self, List.dlookup_cons_eq, Option.some_or]
    · rw [Function.update_of_ne hk, List.dlookup_cons_ne [] e hk, List.dlookup_nil,
        Option.none_or]

theorem flatMap_of_nodupKeys {α : Type} {l : List (Σ _ : κ, ν)} (hl : l.NodupKeys) (k : κ)
    (g : ν → List α) :
    (l.flatMap fun e => if e.1 = k then g e.2 else []) = ((l.dlookup k).map g).getD [] := by
  induction l with
  | nil => rfl
  | cons e l ih =>
    obtain ⟨a, v⟩ := e
    rw [List.nodupKeys_cons] at hl
    rw [List.flatMap_cons, ih hl.2]
    by_cases hk : a = k
    · subst hk
      rw [if_pos rfl, List.dlookup_cons_eq, List.dlookup_eq_none.mpr hl.1]
      simp
    · rw [if_neg hk, List.dlookup_cons_ne l ⟨a, v⟩ (Ne.symm hk), List.nil_append]

/-- `l` lists the entries of the map that `g` looks up, each once, in some order. -/
structure Enumerates (l : List (Σ _ : κ, ν)) (g : κ → Option ν) : Prop where
  nodupKeys : l.NodupKeys
  lookup : ∀ k, l.dlookup k = g k

theorem Enumerates.mem_iff {l : List (Σ _ : κ, ν)} {g : κ → Option ν} (he : Enumerates l g)
    (k : κ) (v : ν) : ⟨k, v⟩ ∈ l ↔ g k = some v := by
  rw [← he.lookup, ← Option.mem_def, List.mem_dlookup_iff he.nodupKeys]

theorem Enumerates.eq_nil_iff {l : List (Σ _ : κ, ν)} {g : κ → Option ν} (he : Enumerates l g) :
    l = [] ↔ ∀ k, g k = none := by
  constructor
  · rintro rfl k
    rw [← he.lookup, List.dlookup_nil]
  · intro h
    apply List.eq_nil_iff_forall_not_mem.mpr
    rintro ⟨k, v⟩ hm
    rw [he.mem_iff, h k] at hm
    cases hm

theorem Enumerates.perm {l l' : List (Σ _ : κ, ν)} {g : κ → Option ν} (he : Enumerates l g)
    (he' : Enumerates l' g) : l.Perm l' := by
  apply List.lookup_ext he.nodupKeys he'.nodupKeys
  intro k v
  rw [he.lookup, he'.lookup]

end Assign

namespace IterOrder

def stored : IterOrder κ ν where
  visit m := m.entries
  perm _ := List.Perm.refl _

theorem visit_nodupKeys (o : IterOrder κ ν) (m : UnorderedMap κ ν) : (o.visit m).NodupKeys :=
  (List.perm_nodupKeys (o.perm m)).mpr m.nodupKeys

@[simp] theorem length_visit (o : IterOrder κ ν) (m : UnorderedMap κ ν) :
    (o.visit m).length = m.size := (o.perm m).length_eq

theorem dlookup_visit [DecidableEq κ] (o : IterOrder κ ν) (m : UnorderedMap κ ν) (k : κ) :
    (o.visit m).dlookup k = m.lookup k :=
  List.perm_dlookup k (o.visit_nodupKeys m) (o.perm m)

theorem mem_visit [DecidableEq κ] (o : IterOrder κ ν) (m : UnorderedMap κ ν) (k : κ) (v : ν) :
    ⟨k, v⟩ ∈ o.visit m ↔ m.lookup k = some v := by
  rw [← o.dlookup_visit, ← Option.mem_def, List.mem_dlookup_iff (o.visit_nodupKeys m)]

/-- A loop that assigns every entry it visits has one outcome, whatever the order. -/
theorem assignAll_visit [DecidableEq κ] (o : IterOrder κ ν) (m : UnorderedMap κ ν)
    (g : κ → Option ν) (k : κ) : assignAll (o.visit m) g k = (m.lookup k).or (g k) := by
  rw [assignAll_of_nodupKeys (o.visit_nodupKeys m), o.dlookup_visit]

/-- Every rearrangement of the entries of one map is the visit of some order. -/
theorem exists_visit_eq [DecidableEq κ] [DecidableEq ν] {m : UnorderedMap κ ν}
    {l : List (Σ _ : κ, ν)} (h : l.Perm m.entries) : ∃ o : IterOrder κ ν, o.visit m = l := by
  let o : IterOrder κ ν :=
    { visit := fun m' => if l.Perm m'.entries then l else m'.entries
      perm := by
        intro m'
        by_cases hp : l.Perm m'.entries
        · simpa only [if_pos hp] using hp
        · simp only [if_neg hp, List.Perm.refl] }
  exact ⟨o, if_pos h⟩

end IterOrder

end MuStore
