import MuStore.WireFormat

namespace MuStore.User

/-- A `SingleComplexFieldValue` as it is while values are set: `val_`, given by the bytes
that it leads to, and `len_`, which keeps 32 bits of a length. -/
structure StringValue where
  val : Option Bytes
  len : UInt32
  deriving DecidableEq

namespace StringValue

def init : StringValue := ⟨none, 0⟩

def setVal (val : Bytes) : StringValue := ⟨some val, .ofNat val.length⟩

def getValStr (v : StringValue) : Except Fault Bytes :=
  match v.val with
  | some val => pure (cStr val)
  | none => throw .outOfRange

end StringValue

/-- `values_` and `bitmap_` of a message whose members are eleven single strings. -/
structure StringPerson where
  values : List StringValue
  length_values : values.length = 11
  bitmap : UInt32

inductive Member where
  | field1
  | field2
  | field3
  | field4
  | field5
  | field6
  | field7
  | field8
  | field9
  | field10
  | field11
  deriving DecidableEq

def Member.id : Member → ℕ
  | .field1 => 1
  | .field2 => 2
  | .field3 => 3
  | .field4 => 4
  | .field5 => 5
  | .field6 => 6
  | .field7 => 7
  | .field8 => 8
  | .field9 => 9
  | .field10 => 10
  | .field11 => 11

namespace StringPerson

def fresh : StringPerson := ⟨List.replicate 11 .init, rfl, 0⟩

/-- The body that the setters share, with the `id` of each. -/
def setField (p : StringPerson) (id : ℕ) (val : Bytes) : Except Fault StringPerson := do
  let idx := id - 1
  if idx < p.values.length then
    let mask ← getMask id
    pure ⟨p.values.set idx (.setVal val), (List.length_set ..).trans p.length_values,
      p.bitmap ||| mask⟩
  else throw .outOfRange

def setField1 (p : StringPerson) := p.setField 1
def setField2 (p : StringPerson) := p.setField 2
def setField3 (p : StringPerson) := p.setField 3
def setField4 (p : StringPerson) := p.setField 4
def setField5 (p : StringPerson) := p.setField 5
def setField6 (p : StringPerson) := p.setField 6
def setField7 (p : StringPerson) := p.setField 7
def setField8 (p : StringPerson) := p.setField 8
def setField9 (p : StringPerson) := p.setField 9
def setField10 (p : StringPerson) := p.setField 10
def setField11 (p : StringPerson) := p.setField 11

/-- The body that the getters share, with the `id` of each. -/
def getField (p : StringPerson) (id : ℕ) : Except Fault Bytes := do
  let idx := id - 1
  let present ← isPresent p.bitmap id
  -- `return nullptr`, which makes a string of a pointer to nothing
  if !present then throw .outOfRange
  match p.values[idx]? with
  | some field => field.getValStr
  | none => throw .outOfRange

def getField1 (p : StringPerson) := p.getField 1
def getField2 (p : StringPerson) := p.getField 1
def getField3 (p : StringPerson) := p.getField 1
def getField4 (p : StringPerson) := p.getField 4
def getField5 (p : StringPerson) := p.getField 1
def getField6 (p : StringPerson) := p.getField 1
def getField7 (p : StringPerson) := p.getField 1
def getField8 (p : StringPerson) := p.getField 1
def getField9 (p : StringPerson) := p.getField 1
def getField10 (p : StringPerson) := p.getField 1
def getField11 (p : StringPerson) := p.getField 1

def set (p : StringPerson) : Member → Bytes → Except Fault StringPerson
  | .field1 => setField1 p
  | .field2 => setField2 p
  | .field3 => setField3 p
  | .field4 => setField4 p
  | .field5 => setField5 p
  | .field6 => setField6 p
  | .field7 => setField7 p
  | .field8 => setField8 p
  | .field9 => setField9 p
  | .field10 => setField10 p
  | .field11 => setField11 p

def get (p : StringPerson) : Member → Except Fault Bytes
  | .field1 => getField1 p
  | .field2 => getField2 p
  | .field3 => getField3 p
  | .field4 => getField4 p
  | .field5 => getField5 p
  | .field6 => getField6 p
  | .field7 => getField7 p
  | .field8 => getField8 p
  | .field9 => getField9 p
  | .field10 => getField10 p
  | .field11 => getField11 p

def setAll (p : StringPerson) : List (Σ _ : Member, Bytes) → Except Fault StringPerson
  | [] => pure p
  | c :: calls => do
    let p ← p.set c.1 c.2
    p.setAll calls

end StringPerson

theorem toNat_mask {id : ℕ} (h : 0 < id ∧ id < 33) :
    (1 <<< UInt32.ofNat (id - 1) : UInt32).toNat = 2 ^ (id - 1) := by
  have hlt : 2 ^ (id - 1) < 2 ^ 32 := Nat.pow_lt_pow_right (by omega) (by omega)
  have hid : (UInt32.ofNat (id - 1)).toNat % 32 = id - 1 := by
    rw [UInt32.toNat_ofNat']
    omega
  rw [UInt32.toNat_shiftLeft, hid, UInt32.toNat_one, Nat.one_shiftLeft, Nat.mod_eq_of_lt hlt]

theorem and_two_pow_eq_zero_iff (n k : ℕ) : n &&& 2 ^ k = 0 ↔ n.testBit k = false := by
  constructor
  · intro h
    have hbit : (n &&& 2 ^ k).testBit k = false := by rw [h, Nat.zero_testBit]
    rwa [Nat.testBit_and, Nat.testBit_two_pow_self, Bool.and_true] at hbit
  · intro h
    apply Nat.eq_of_testBit_eq
    intro i
    rw [Nat.testBit_and, Nat.testBit_two_pow, Nat.zero_testBit]
    by_cases hi : k = i
    · rw [← hi, h, Bool.false_and]
    · rw [decide_eq_false hi, Bool.and_false]

theorem present_eq_testBit {id : ℕ} (h : 0 < id ∧ id < 33) (bitmap : UInt32) :
    present bitmap id = bitmap.toNat.testBit (id - 1) := by
  have hzero : bitmap &&& (1 <<< UInt32.ofNat (id - 1)) = 0 ↔
      bitmap.toNat.testBit (id - 1) = false := by
    rw [← UInt32.toNat_inj, UInt32.toNat_and, toNat_mask h]
    exact and_two_pow_eq_zero_iff _ _
  rw [present, Bool.eq_iff_iff, bne_iff_ne, ne_eq, hzero, Bool.not_eq_false]

theorem present_or_mask {id id' : ℕ} (h : 0 < id ∧ id < 33) (h' : 0 < id' ∧ id' < 33)
    (bitmap : UInt32) :
    present (bitmap ||| (1 <<< UInt32.ofNat (id - 1))) id' =
      (present bitmap id' || decide (id = id')) := by
  have hiff : id - 1 = id' - 1 ↔ id = id' := by omega
  rw [present_eq_testBit h', present_eq_testBit h', UInt32.toNat_or, toNat_mask h, Nat.testBit_or,
    Nat.testBit_two_pow]
  simp only [hiff]

namespace Member

theorem id_bounds (m : Member) : 0 < m.id ∧ m.id < 12 := by
  cases m <;> decide

theorem id_injective {m m' : Member} (h : m.id = m'.id) : m = m' := by
  cases m <;> cases m' <;> first | rfl | cases h

def read : Member → Member
  | .field4 => .field4
  | _ => .field1

end Member

namespace StringPerson

theorem set_eq (p : StringPerson) (m : Member) : p.set m = p.setField m.id := by
  cases m <;> rfl

theorem get_eq (p : StringPerson) (m : Member) : p.get m = p.getField m.read.id := by
  cases m <;> rfl

def Holds (p : StringPerson) (g : Member → Option Bytes) : Prop :=
  ∀ m, present p.bitmap m.id = (g m).isSome ∧
    (p.values[m.id - 1]?).map StringValue.val = some (g m)

variable {p : StringPerson} {g : Member → Option Bytes}

theorem holds_fresh : fresh.Holds fun _ => none := by
  intro m
  cases m <;> decide

theorem setField_spec (h : p.Holds g) (m : Member) (val : Bytes) :
    ∃ p', p.setField m.id val = .ok p' ∧ p'.Holds (Function.update g m (some val)) := by
  have hm := m.id_bounds
  have hidx : m.id - 1 < p.values.length := by
    rw [p.length_values]
    omega
  refine ⟨⟨p.values.set (m.id - 1) (.setVal val), (List.length_set ..).trans p.length_values,
    p.bitmap ||| (1 <<< UInt32.ofNat (m.id - 1))⟩, ?_, ?_⟩
  · rw [setField, if_pos hidx, getMask, if_pos (by omega)]
    rfl
  · intro m'
    have hm' := m'.id_bounds
    by_cases heq : m' = m
    · subst heq
      rw [present_or_mask (by omega) (by omega), Function.update_self]
      simp [hidx, StringValue.setVal]
    · have hid : m.id ≠ m'.id := fun hid => heq (Member.id_injective hid).symm
      have hne : m.id - 1 ≠ m'.id - 1 := by omega
      rw [present_or_mask (by omega) (by omega), Function.update_of_ne heq,
        List.getElem?_set_ne hne, decide_eq_false hid, Bool.or_false]
      exact h m'

theorem getField_eq (h : p.Holds g) (m : Member) :
    p.getField m.id =
      match g m with
      | some val => .ok (cStr val)
      | none => .error .outOfRange := by
  obtain ⟨hbit, hval⟩ := h m
  have hm := m.id_bounds
  obtain ⟨field, hfield, hptr⟩ := Option.map_eq_some_iff.mp hval
  rw [getField, isPresent_of_lt (by omega), hbit]
  cases hg : g m with
  | none => rfl
  | some val =>
    rw [hg] at hptr
    simp only [bind, Except.bind, hfield, StringValue.getValStr, hptr]
    rfl

theorem setAll_spec (h : p.Holds g) (calls : List (Σ _ : Member, Bytes)) :
    ∃ p', p.setAll calls = .ok p' ∧ p'.Holds (assignAll calls g) := by
  induction calls generalizing p g with
  | nil => exact ⟨p, rfl, h⟩
  | cons c calls ih =>
    obtain ⟨p₁, hset, h₁⟩ := setField_spec h c.1 c.2
    obtain ⟨p₂, hrest, h₂⟩ := ih h₁
    refine ⟨p₂, ?_, h₂⟩
    rw [setAll, set_eq, hset]
    exact hrest

def lastSet (calls : List (Σ _ : Member, Bytes)) : Member → Option Bytes :=
  assignAll calls fun _ => none

/-- The getter returns what the last call has set. -/
def Returns (calls : List (Σ _ : Member, Bytes)) (m : Member) (val : Bytes) : Prop :=
  ∃ p, fresh.setAll calls = .ok p ∧ p.get m = .ok val

theorem returns_iff_read (calls : List (Σ _ : Member, Bytes)) (m : Member) (val : Bytes) :
    Returns calls m val ↔ ∃ last, lastSet calls m.read = some last ∧ cStr last = val := by
  obtain ⟨p, hset, hholds⟩ := setAll_spec holds_fresh calls
  have hget := getField_eq hholds m.read
  rw [← get_eq] at hget
  constructor
  · rintro ⟨p', hset', hval⟩
    rw [hset, Except.ok.injEq] at hset'
    subst hset'
    rw [hget] at hval
    cases hlast : assignAll calls (fun _ => none) m.read with
    | none =>
      rw [hlast] at hval
      cases hval
    | some last =>
      rw [hlast] at hval
      cases hval
      exact ⟨last, hlast, rfl⟩
  · rintro ⟨last, hlast, rfl⟩
    refine ⟨p, hset, ?_⟩
    unfold lastSet at hlast
    rw [hget, hlast]

theorem notMem_of_lastSet {calls : List (Σ _ : Member, Bytes)} (hnul : ∀ c ∈ calls, 0 ∉ c.2)
    {m : Member} {val : Bytes} (hlast : lastSet calls m = some val) : 0 ∉ val := by
  rw [lastSet, assignAll_eq_dlookup_reverse, Option.or_none] at hlast
  exact hnul _ (List.mem_reverse.mp (List.of_mem_dlookup hlast))

/-- A getter returns the last value set where it uses its own id, and where the first
member happens to have the same value. -/
theorem returns_lastSet_iff {calls : List (Σ _ : Member, Bytes)} (hnul : ∀ c ∈ calls, 0 ∉ c.2)
    {m : Member} {val : Bytes} (hlast : lastSet calls m = some val) :
    Returns calls m val ↔ m = .field1 ∨ m = .field4 ∨ lastSet calls .field1 = some val := by
  rw [returns_iff_read]
  have hread : (∃ last, lastSet calls m.read = some last ∧ cStr last = val) ↔
      lastSet calls m.read = some val := by
    constructor
    · rintro ⟨last, hl, rfl⟩
      rw [hl, cStr_eq_self_iff.mpr (notMem_of_lastSet hnul hl)]
    · intro hl
      exact ⟨val, hl, cStr_eq_self_iff.mpr (notMem_of_lastSet hnul hl)⟩
  rw [hread]
  by_cases h1 : m = .field1
  · subst h1
    simp [Member.read, hlast]
  by_cases h4 : m = .field4
  · subst h4
    simp [Member.read, hlast]
  · have hfirst : m.read = .field1 := by
      cases m <;> first | rfl | exact absurd rfl h4
    simp [hfirst, h1, h4]

theorem returns_lastSet_iff_field2 :
    Returns [⟨.field1, ascii "a"⟩, ⟨.field2, ascii "b"⟩, ⟨.field2, ascii "a"⟩] .field2
        (ascii "a") ↔
      Member.field2 = .field1 ∨ Member.field2 = .field4 ∨
        lastSet [⟨.field1, ascii "a"⟩, ⟨.field2, ascii "b"⟩, ⟨.field2, ascii "a"⟩] .field1 =
          some (ascii "a") :=
  returns_lastSet_iff (by decide) (by decide)

/-- The second getter returns the first member. -/
theorem not_returns_lastSet :
    ¬∀ (calls : List (Σ _ : Member, Bytes)) (m : Member) (val : Bytes),
      (∀ c ∈ calls, 0 ∉ c.2) → lastSet calls m = some val → Returns calls m val := by
  intro h
  have hret := h [⟨.field1, ascii "a"⟩, ⟨.field2, ascii "b"⟩] .field2 (ascii "b") (by decide)
    (by decide)
  rw [returns_iff_read] at hret
  revert hret
  decide

end StringPerson

end MuStore.User
