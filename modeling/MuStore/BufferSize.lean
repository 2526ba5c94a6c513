import MuStore.WireFormat

namespace MuStore.User

variable {τ : Type} {types : TypeHelper τ} {size : ℕ} {complex repeated : Bool}

/-- `serializeAndWriteCOPY` up to `Write`, with the cursor where the loop leaves it. -/
def Person.fillBuffer [DecidableEq τ] {schema : Schema types} (malloc : Malloc)
    (p : Person schema) : Except Fault (List (Field types) × Cursor UInt8) := do
  let bufLen ← p.getBufLen
  let buf := malloc.block (4 + bufLen).toNat
  let c ← copyNext ⟨buf, 0⟩ (u32Bytes p.bitmap) 4
  visitPresent p.bitmap (fun _ f c => f.copy c) 0 p.values c

theorem Person.serializeAndWriteCOPY_eq_fillBuffer [DecidableEq τ] {schema : Schema types}
    (malloc : Malloc) (p : Person schema) : p.serializeAndWriteCOPY malloc =
      (p.fillBuffer malloc).map fun (values, c) => (values, c.buf) := by
  unfold serializeAndWriteCOPY fillBuffer
  cases p.getBufLen with
  | error e => rfl
  | ok bufLen =>
    simp only [bind, Except.bind]
    cases copyNext ⟨malloc.block (4 + bufLen).toNat, 0⟩ (u32Bytes p.bitmap) 4 with
    | error e => rfl
    | ok c => 
      simp only
      cases visitPresent p.bitmap (fun _ f c => f.copy c) 0 p.values c with
      | error e => rfl
      | ok x => rfl

/-- The loop goes through and has written as many bytes as `malloc` was asked for. -/
def Person.FillsExactly [DecidableEq τ] {schema : Schema types} (malloc : Malloc)
    (p : Person schema) : Prop :=
  ∃ bufLen values c, p.getBufLen = .ok bufLen ∧ p.fillBuffer malloc = .ok (values, c) ∧
    c.pos = (4 + bufLen).toNat

section Copied

variable {c c' : Cursor UInt8}

theorem moved_of_copyNext {obj : Bytes} {n : ℕ} (h : copyNext c obj n = .ok c') :
    c.Moved n c' := by
  obtain ⟨bytes, hload, hrest⟩ := bind_eq_ok.mp h
  cases hw : c.write bytes with
  | none =>
    rw [hw] at hrest
    cases hrest
  | some c₁ =>
    rw [hw] at hrest
    cases hrest
    rw [← length_of_load hload]
    exact Cursor.moved_of_write hw

theorem moved_of_copyAt {obj : Bytes} {pos n : ℕ} (h : copyAt c pos obj n = .ok c') :
    c.Moved 0 c' := by
  obtain ⟨bytes, -, hrest⟩ := bind_eq_ok.mp h
  cases hw : c.patch pos bytes with
  | none =>
    rw [hw] at hrest
    cases hrest
  | some c₁ =>
    rw [hw] at hrest
    cases hrest
    exact Cursor.moved_of_patch hw

theorem moved_of_copyItems {items : List Bytes} (hitems : ∀ item ∈ items, item.length = size)
    (h : copyItems size items c = .ok c') : c.Moved items.flatten.length c' := by
  induction items generalizing c with
  | nil =>
    cases h
    exact .refl _
  | cons item items ih =>
    obtain ⟨c₁, hitem, hrest⟩ := bind_eq_ok.mp h
    rw [List.flatten_cons, List.length_append, hitems item (by simp)]
    exact (moved_of_copyNext hitem).trans (ih (fun item hi => hitems item (by simp [hi])) hrest)

theorem moved_of_copyComplex {v : SingleComplexFieldValue} {c₁ : Cursor UInt8}
    (hlen : copyNext c (u32Bytes v.len) 4 = .ok c₁)
    (hval : copyNext c₁ v.val v.len.toNat = .ok c') : c.Moved v.wire.length c' := by
  rw [v.length_wire, ← v.len_eq]
  exact (moved_of_copyNext hlen).trans (moved_of_copyNext hval)

theorem moved_of_copyElements {l : List SingleComplexFieldValue} {listLen sum : UInt32}
    (h : copyElements l listLen c = .ok (sum, c')) :
    c.Moved (l.flatMap SingleComplexFieldValue.wire).length c' := by
  induction l generalizing c listLen with
  | nil =>
    cases h
    exact .refl _
  | cons v l ih =>
    obtain ⟨c₁, hlen, hrest⟩ := bind_eq_ok.mp h
    obtain ⟨c₂, hval, hrest⟩ := bind_eq_ok.mp hrest
    rw [List.flatMap_cons, List.length_append]
    exact (moved_of_copyComplex hlen hval).trans (ih hrest)

theorem FieldValue.moved_of_copy (hsize : complex = false → size ≤ 8)
    {v v' : FieldValue size complex repeated} (h : v.copy c = .ok (v', c')) :
    c.Moved v.wire.length c' := by
  cases v with
  | singleSimple v =>
    obtain ⟨c₁, hdata, hpure⟩ := bind_eq_ok.mp h
    cases hpure
    have hlen : (v.data.take size).length = size := by
      rw [List.length_take, v.length_data, Nat.min_eq_left (hsize rfl)]
    rw [wire, hlen]
    exact moved_of_copyNext hdata
  | repeatedSimple v =>
    obtain ⟨c₁, hcount, hrest⟩ := bind_eq_ok.mp h
    obtain ⟨c₂, hitems, hpure⟩ := bind_eq_ok.mp hrest
    cases hpure
    rw [wire, List.length_append, length_u32Bytes]
    exact (moved_of_copyNext hcount).trans (moved_of_copyItems v.length_value hitems)
  | singleComplex v =>
    obtain ⟨c₁, hlen, hrest⟩ := bind_eq_ok.mp h
    obtain ⟨c₂, hval, hpure⟩ := bind_eq_ok.mp hrest
    cases hpure
    exact moved_of_copyComplex hlen hval
  | repeatedComplex v =>
    obtain ⟨c₁, hheader, hrest⟩ := bind_eq_ok.mp h
    obtain ⟨⟨listLen, c₂⟩, helements, hrest⟩ := bind_eq_ok.mp hrest
    obtain ⟨c₃, hpatch, hpure⟩ := bind_eq_ok.mp hrest
    cases hpure
    have hmoved := ((moved_of_copyNext hheader).trans (moved_of_copyElements helements)).trans
      (moved_of_copyAt hpatch)
    rwa [wire, List.length_append, List.length_append, length_u32Bytes, length_u32Bytes]

theorem Field.moved_of_copy {f f' : Field types}
    (hsize : types.isComplexType f.symbol.type = false → types.typeSize f.symbol.type ≤ 8)
    (h : f.copy c = .ok (f', c')) : c.Moved f.value.wire.length c' := by
  obtain ⟨⟨v, c₁⟩, hcopy, hpure⟩ := bind_eq_ok.mp h
  cases hpure
  exact FieldValue.moved_of_copy hsize hcopy

theorem moved_of_visitPresent [DecidableEq τ] {bitmap : UInt32} {l l' : List (Field types)} {i : ℕ}
    (hsize : ∀ f ∈ l, types.isComplexType f.symbol.type = false →
      types.typeSize f.symbol.type ≤ 8)
    (h : visitPresent bitmap (fun _ f c => f.copy c) i l c = .ok (l', c')) :
    (∀ f ∈ l, f.symbol.id < 33) ∧
      c.Moved (output bitmap (fun _ f => f.value.wire) i l).length c' := by
  apply visitPresent_through (fun c w c' => c.Moved w.length c') (fun _ f => f.value.wire)
    Cursor.Moved.refl _ _ h
  · intro c c₁ c₂ w w' h₁ h₂
    rw [List.length_append]
    exact h₁.trans h₂
  · intro f hf i c f' c' hcopy
    exact f.moved_of_copy (hsize f hf) hcopy

end Copied

namespace Person

variable {schema : Schema types}

theorem typeSize_le (p : Person schema) {f : Field types} (hf : f ∈ p.values) :
    types.isComplexType f.symbol.type = false → types.typeSize f.symbol.type ≤ 8 := by
  intro hsimple
  refine (types.typeSize_simple (schema.ne_message _ ?_) hsimple).2
  rw [← p.symbols]
  exact List.mem_map_of_mem hf

variable [DecidableEq τ] {malloc : Malloc} {p : Person schema}

theorem moved_of_fillBuffer {values : List (Field types)} {c : Cursor UInt8}
    (h : p.fillBuffer malloc = .ok (values, c)) :
    schema.members.length ≤ 32 ∧ c.pos = p.encodedSize := by
  obtain ⟨bufLen, -, hrest⟩ := bind_eq_ok.mp h
  obtain ⟨c₁, hbitmap, hloop⟩ := bind_eq_ok.mp hrest
  obtain ⟨hids, hmoved⟩ := moved_of_visitPresent (fun f hf => p.typeSize_le hf) hloop
  refine ⟨p.length_members_le hids, ?_⟩
  rw [((moved_of_copyNext hbitmap).trans hmoved).pos, encodedSize_eq, Nat.zero_add]

theorem fillsExactly_of_lt (hlen : schema.members.length ≤ 32) (hbits : p.BitsNameMembers)
    (hsize : p.encodedSize < 2 ^ 32) : p.FillsExactly malloc := by
  have hcopy := p.serializeAndWriteCOPY_eq hlen hbits hsize malloc
  rw [serializeAndWriteCOPY_eq_fillBuffer] at hcopy
  cases hfill : p.fillBuffer malloc with
  | error e =>
    rw [hfill] at hcopy
    cases hcopy
  | ok x =>
    obtain ⟨values, c⟩ := x
    refine ⟨_, values, c, p.getBufLen_eq hlen hbits, hfill, ?_⟩
    rw [(moved_of_fillBuffer hfill).2, encodedSize_eq]
    rw [encodedSize_eq] at hsize
    exact (toNat_add_ofNat hsize).symm

/-- The buffer is filled exactly when the size has not been wrapped to 32 bits. -/
theorem fillsExactly_iff (malloc : Malloc) (hbits : p.BitsNameMembers) :
    p.FillsExactly malloc ↔ schema.members.length ≤ 32 ∧ p.encodedSize < 2 ^ 32 := by
  constructor
  · rintro ⟨bufLen, values, c, -, hfill, hpos⟩
    obtain ⟨hlen, hencoded⟩ := moved_of_fillBuffer hfill
    refine ⟨hlen, ?_⟩
    rw [← hencoded, hpos]
    exact UInt32.toNat_lt _
  · rintro ⟨hlen, hsize⟩
    exact fillsExactly_of_lt hlen hbits hsize

end Person

namespace Sample

theorem fillsExactly_iff_person : (person 7).FillsExactly zeroed ↔
    schema.members.length ≤ 32 ∧ (person 7).encodedSize < 2 ^ 32 :=
  Person.fillsExactly_iff zeroed (bitsNameMembers 7)

def stringPerson (v : SingleComplexFieldValue) : Person schema where
  values := ⟨⟨.string, false, 1⟩, .singleComplex v⟩ :: (person 0).values.tail
  symbols := rfl
  bitmap := 1

theorem bitsNameMembers_stringPerson (v : SingleComplexFieldValue) :
    (stringPerson v).BitsNameMembers := by
  apply Person.bitsNameMembers_of_forall
  change ∀ id ∈ List.range' 1 32, present 1 id = true → id ≤ 4
  decide

theorem encodedSize_stringPerson (v : SingleComplexFieldValue) :
    (stringPerson v).encodedSize = 8 + v.val.length := by
  have h₁ : present 1 1 = true := by decide
  have h₂ : present 1 2 = false := by decide
  have h₃ : present 1 3 = false := by decide
  have h₄ : present 1 4 = false := by decide
  have hout : output (stringPerson v).bitmap (fun _ f => f.value.wire) 0 (stringPerson v).values =
      v.wire := by
    simp [stringPerson, person, output, h₁, h₂, h₃, h₄, FieldValue.wire]
  rw [Person.encodedSize_eq, hout, v.length_wire]
  omega

theorem exists_longest : ∃ v : SingleComplexFieldValue, v.val.length = 4294967295 :=
  ⟨⟨List.replicate 4294967295 0, 4294967295, by rw [List.length_replicate]; rfl⟩,
    List.length_replicate⟩

/-- With the bitmap and the length of the string the sum wraps. -/
theorem not_fillsExactly :
    ¬∀ (τ : Type) (_ : DecidableEq τ) (types : TypeHelper τ) (schema : Schema types)
      (malloc : Malloc) (p : Person schema), p.BitsNameMembers → p.FillsExactly malloc := by
  intro h
  obtain ⟨v, hv⟩ := exists_longest
  obtain ⟨bufLen, values, c, -, hfill, hpos⟩ :=
    h Kind inferInstance types schema zeroed (stringPerson v) (bitsNameMembers_stringPerson v)
  have hlt := UInt32.toNat_lt (4 + bufLen)
  rw [← hpos, (Person.moved_of_fillBuffer hfill).2, encodedSize_stringPerson, hv] at hlt
  omega

end Sample

end MuStore.User
