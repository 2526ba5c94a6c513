import MuStore.Gathering
import Mathlib.Algebra.GroupWithZero.Nat

namespace MuStore.User

variable {τ : Type} {types : TypeHelper τ} {size : ℕ} {complex repeated : Bool}

section Grown

variable {t t' t₁ : Table} {w w' : List Iov}

structure Table.Grown (t : Table) (w : List Iov) (t' : Table) : Prop where
  moved : t.iov.Moved w.length t'.iov
  inside : t.iov.pos ≤ t.iov.buf.length → t'.iov.pos ≤ t'.iov.buf.length
  offset : t'.offset = t.offset + .ofNat (w.map Iov.len).sum

theorem Table.Grown.refl (t : Table) : t.Grown [] t where
  moved := .refl _
  inside h := h
  offset := (UInt32.add_zero _).symm

theorem Table.Grown.trans (h : t.Grown w t₁) (h' : t₁.Grown w' t') : t.Grown (w ++ w') t' where
  moved := by
    rw [List.length_append]
    exact h.moved.trans h'.moved
  inside hin := h'.inside (h.inside hin)
  offset := by
    rw [h'.offset, h.offset, List.map_append, List.sum_append, UInt32.ofNat_add, UInt32.add_assoc]

theorem Table.grown_of_push {base : Ref} {len : ℕ} (h : t.push base len = .ok t') :
    t.Grown [⟨base, len⟩] t' := by
  unfold push at h
  cases hw : t.iov.write [some ⟨base, len⟩] with
  | none =>
    rw [hw] at h
    cases h
  | some iov =>
    rw [hw] at h
    cases h
    exact ⟨Cursor.moved_of_write hw, fun _ => Cursor.pos_le_of_write hw, rfl⟩

theorem grown_of_fillItems {i j : ℕ} {items : List Bytes}
    (h : fillItems i size j items t = .ok t') : t.Grown (itemEntries i size j items) t' := by
  induction items generalizing j t with
  | nil =>
    cases h
    exact .refl _
  | cons item items ih =>
    obtain ⟨t₁, hpush, hrest⟩ := bind_eq_ok.mp h
    exact (Table.grown_of_push hpush).trans (ih hrest)

theorem grown_of_fillElements {i j : ℕ} {l : List SingleComplexFieldValue} {listLen sum : UInt32}
    (h : fillElements i j l listLen t = .ok (sum, t')) : t.Grown (elementEntries i j l) t' := by
  induction l generalizing j t listLen with
  | nil =>
    cases h
    exact .refl _
  | cons v l ih =>
    obtain ⟨t₁, hlen, hrest⟩ := bind_eq_ok.mp h
    obtain ⟨t₂, hval, hrest⟩ := bind_eq_ok.mp hrest
    exact (Table.grown_of_push hlen).trans ((Table.grown_of_push hval).trans (ih hrest))

theorem FieldValue.grown_of_fill {i : ℕ} {v v' : FieldValue size complex repeated}
    (h : v.fill i t = .ok (v', t')) : t.Grown (v.entries i) t' := by
  cases v with
  | singleSimple v =>
    obtain ⟨t₁, hpush, hpure⟩ := bind_eq_ok.mp h
    cases hpure
    exact Table.grown_of_push hpush
  | repeatedSimple v =>
    obtain ⟨t₁, hcount, hrest⟩ := bind_eq_ok.mp h
    obtain ⟨t₂, hitems, hpure⟩ := bind_eq_ok.mp hrest
    cases hpure
    exact (Table.grown_of_push hcount).trans (grown_of_fillItems hitems)
  | singleComplex v =>
    obtain ⟨t₁, hlen, hrest⟩ := bind_eq_ok.mp h
    obtain ⟨t₂, hval, hpure⟩ := bind_eq_ok.mp hrest
    cases hpure
    exact (Table.grown_of_push hlen).trans (Table.grown_of_push hval)
  | repeatedComplex v =>
    obtain ⟨t₁, hheader, hrest⟩ := bind_eq_ok.mp h
    obtain ⟨⟨listLen, t₂⟩, helements, hpure⟩ := bind_eq_ok.mp hrest
    cases hpure
    exact (Table.grown_of_push hheader).trans (grown_of_fillElements helements)

theorem Field.grown_of_fill {i : ℕ} {f f' : Field types} (h : f.fill i t = .ok (f', t')) :
    t.Grown (f.value.entries i) t' := by
  obtain ⟨⟨v, t₁⟩, hfill, hpure⟩ := bind_eq_ok.mp h
  cases hpure
  exact FieldValue.grown_of_fill hfill

end Grown

theorem length_of_gather {object : Ref → Option Bytes} {w : List Iov} {out : Bytes}
    (h : gather object (w.map some) = .ok out) : out.length = (w.map Iov.len).sum := by
  induction w generalizing out with
  | nil =>
    cases h
    rfl
  | cons iov w ih =>
    rw [List.map_cons, gather] at h
    cases hobj : object iov.base with
    | none =>
      rw [hobj] at h
      cases h
    | some obj =>
      rw [hobj] at h
      obtain ⟨bytes, hload, h⟩ := bind_eq_ok.mp h
      obtain ⟨rest, hrest, h⟩ := bind_eq_ok.mp h
      cases h
      rw [List.length_append, length_of_load hload, ih hrest, List.map_cons, List.sum_cons]

def FieldValue.itemCount : FieldValue size complex repeated → ℕ
  | .singleSimple _ => 0
  | .repeatedSimple v => v.values.length
  | .singleComplex _ => 0
  | .repeatedComplex v => v.values.length

theorem FieldValue.length_entries_le_itemCount (i : ℕ) (v : FieldValue size complex repeated) :
    (v.entries i).length ≤ 2 + 2 * v.itemCount := by
  cases v with
  | singleSimple v => exact Nat.le_succ 1
  | repeatedSimple v =>
    rw [entries, List.length_cons, length_itemEntries, itemCount]
    omega
  | singleComplex v => exact Nat.le_refl 2
  | repeatedComplex v =>
    rw [entries, List.length_cons, length_elementEntries, itemCount]
    omega

namespace Person

variable {schema : Schema types}

def itemCount (p : Person schema) : ℕ :=
  (output p.bitmap (fun _ f => [f.value.itemCount]) 0 p.values).sum

theorem length_output_entries_le (bitmap : UInt32) (i : ℕ) (l : List (Field types)) :
    (output bitmap (fun i f => f.value.entries i) i l).length ≤
      2 * l.length + 2 * (output bitmap (fun _ f => [f.value.itemCount]) i l).sum := by
  induction l generalizing i with
  | nil => exact Nat.le_refl 0
  | cons f l ih =>
    have hf := f.value.length_entries_le_itemCount i
    have hrest := ih (i + 1)
    rw [output, output, List.length_append, List.sum_append, List.length_cons]
    cases present bitmap f.symbol.id with
    | false =>
      simp only [Bool.false_eq_true, if_false, List.length_nil, List.sum_nil]
      omega
    | true =>
      simp only [if_true, List.sum_cons, List.sum_nil]
      omega

/-- With 32 members and fewer than `2 ^ 30` items `getIOVecLen` does not wrap. -/
theorem length_iovEntries_lt (p : Person schema) (hlen : schema.members.length ≤ 32)
    (hitems : p.itemCount < 2 ^ 30) : p.iovEntries.length < 2 ^ 32 := by
  have hle := length_output_entries_le p.bitmap 0 p.values
  rw [p.length_values] at hle
  unfold itemCount at hitems
  rw [iovEntries, List.length_cons]
  omega

variable [DecidableEq τ]

theorem serializeAndWriteSG_eq_fillIov (bufferSize : ℕ) (p : Person schema) :
    p.serializeAndWriteSG bufferSize = p.fillIov >>= fun (values, t) =>
      if t.offset.toNat ≠ bufferSize then .error .assertion
      else (gather (deref p.bitmap values) t.iov.buf).map fun bytes => (values, bytes) := by
  unfold serializeAndWriteSG fillIov
  cases p.getIOVecLen with
  | error e => rfl
  | ok iovecLen =>
    simp only [bind, Except.bind]
    cases Table.push ⟨⟨List.replicate (1 + iovecLen).toNat none, 0⟩, 0⟩ .bitmap 4 with
    | error e => rfl
    | ok t =>
      simp only
      cases visitPresent p.bitmap Field.fill 0 p.values t with
      | error e => rfl
      | ok x =>
        simp only
        split_ifs with h
        · rfl
        · rfl

/-- The table at the end of the loop: the cursor is where the table ends, every entry
is written, and each method passes the table on, `serializeAndWriteSG` after its
assertion. A write that had left the table would have stopped the loop. -/
structure ExactlyFilled (p : Person schema) (iovecLen : UInt32) (values : List (Field types))
    (t : Table) : Prop where
  iovecLen_eq : p.getIOVecLen = .ok iovecLen
  table_eq : p.fillIov = .ok (values, t)
  length_iov : t.iov.buf.length = (1 + iovecLen).toNat
  iov_idx : t.iov.pos = (1 + iovecLen).toNat
  initialised : ∀ entry ∈ t.iov.buf, entry ≠ none
  zc_eq : p.serializeAndWriteZC =
    (gather (deref p.bitmap values) t.iov.buf).map fun bytes => (values, bytes)
  sg_eq : ∀ bufferSize, p.serializeAndWriteSG bufferSize =
    if t.offset.toNat ≠ bufferSize then .error .assertion
    else (gather (deref p.bitmap values) t.iov.buf).map fun bytes => (values, bytes)

/-- The loop over the fields fills what the loop over the ids has counted. -/
theorem exists_exactlyFilled (p : Person schema) (hlen : schema.members.length ≤ 32)
    (hbits : p.BitsNameMembers) (hitems : p.itemCount < 2 ^ 30) :
    ∃ iovecLen values t, p.ExactlyFilled iovecLen values t := by
  have hcount := p.length_iovEntries_lt hlen hitems
  obtain ⟨t, hfill, hat⟩ := p.fillIov_spec hlen hbits hcount
  have hlast : (1 + UInt32.ofNat
      (output p.bitmap (fun i f => f.value.entries i) 0 p.values).length).toNat =
        p.iovEntries.length := by
    rw [iovEntries, List.length_cons, Nat.add_comm] at hcount ⊢
    exact toNat_add_ofNat hcount
  refine ⟨_, _, t, p.getIOVecLen_eq hlen hbits, hfill, ?_, ?_, ?_, ?_, ?_⟩
  · rw [hat.buf_eq, List.length_map, hlast]
  · rw [hat.pos, List.length_map, hlast]
  · intro entry hentry
    rw [hat.buf_eq] at hentry
    obtain ⟨iov, -, rfl⟩ := List.mem_map.mp hentry
    exact Option.some_ne_none iov
  · rw [serializeAndWriteZC_eq_fillIov, hfill]
    rfl
  · intro bufferSize
    rw [serializeAndWriteSG_eq_fillIov, hfill]
    rfl

variable {p : Person schema} {bufferSize : ℕ}

theorem of_fillIov_eq_ok {values : List (Field types)} {t : Table}
    (h : p.fillIov = .ok (values, t)) :
    schema.members.length ≤ 32 ∧ p.iovEntries.length < 2 ^ 32 ∧
      t.offset.toNat = p.encodedSize % 2 ^ 32 := by
  obtain ⟨iovecLen, -, hrest⟩ := bind_eq_ok.mp h
  obtain ⟨t₁, hbitmap, hloop⟩ := bind_eq_ok.mp hrest
  obtain ⟨hids, hfields⟩ := visitPresent_through Table.Grown (fun i f => f.value.entries i)
    Table.Grown.refl Table.Grown.trans (fun f _ => f.grown_of_fill) hloop
  have hlen := p.length_members_le hids
  have hgrown := (Table.grown_of_push hbitmap).trans hfields
  have hsize : p.encodedSize = (p.iovEntries.map Iov.len).sum :=
    length_of_gather (p.gather_iovEntries hlen)
  refine ⟨hlen, ?_, ?_⟩
  · -- the table has its size from 32 bits, and the cursor has stayed in it
    have hpos : t.iov.pos = 0 + p.iovEntries.length := hgrown.moved.pos
    have hin := hgrown.inside (Nat.zero_le _)
    rw [hpos, hgrown.moved.length, List.length_replicate, Nat.zero_add] at hin
    exact hin.trans_lt (UInt32.toNat_lt _)
  · have hoffset : t.offset = 0 + .ofNat (p.iovEntries.map Iov.len).sum := hgrown.offset
    rw [hoffset, UInt32.zero_add, hsize, UInt32.toNat_ofNat']

/-- `Writev` is reached, and gathers what `sendmsg_ZC` does. -/
def ReachesWritev (bufferSize : ℕ) (p : Person schema) : Prop :=
  ∃ values bytes, p.serializeAndWriteSG bufferSize = .ok (values, bytes) ∧
    p.serializeAndWriteZC = .ok (values, bytes)

theorem of_reachesWritev (h : p.ReachesWritev bufferSize) :
    schema.members.length ≤ 32 ∧ p.iovEntries.length < 2 ^ 32 ∧
      p.encodedSize % 2 ^ 32 = bufferSize := by
  obtain ⟨values, bytes, hsg, -⟩ := h
  rw [serializeAndWriteSG_eq_fillIov] at hsg
  obtain ⟨⟨values', t⟩, hfill, hsend⟩ := bind_eq_ok.mp hsg
  obtain ⟨hlen, hcount, hoffset⟩ := of_fillIov_eq_ok hfill
  refine ⟨hlen, hcount, ?_⟩
  by_contra hne
  rw [← hoffset] at hne
  simp only [ne_eq, hne, not_false_eq_true, if_true] at hsend
  cases hsend

/-- The methods agree exactly on the messages whose size is `BUFFER_SIZE`. -/
theorem reachesWritev_iff (bufferSize : ℕ) (hbits : p.BitsNameMembers) :
    p.ReachesWritev bufferSize ↔
      schema.members.length ≤ 32 ∧ p.iovEntries.length < 2 ^ 32 ∧
        p.encodedSize % 2 ^ 32 = bufferSize := by
  constructor
  · exact of_reachesWritev
  · rintro ⟨hlen, hcount, rfl⟩
    have hzc := p.serializeAndWriteZC_of_length hlen hbits hcount
    refine ⟨_, _, ?_, hzc⟩
    obtain ⟨t, hfill, -⟩ := p.fillIov_spec hlen hbits hcount
    obtain ⟨-, -, hoffset⟩ := of_fillIov_eq_ok hfill
    rw [serializeAndWriteZC_eq_fillIov, hfill] at hzc
    rw [serializeAndWriteSG_eq_fillIov, hfill]
    simp only [bind, Except.bind, hoffset, ne_eq, not_true_eq_false, if_false]
    exact hzc

end Person

namespace Sample

theorem exists_exactlyFilled_person :
    ∃ iovecLen values t, (person 7).ExactlyFilled iovecLen values t :=
  (person 7).exists_exactlyFilled (by decide) (bitsNameMembers 7) (by decide)

theorem reachesWritev_iff_person : (person 7).ReachesWritev 46 ↔
    schema.members.length ≤ 32 ∧ (person 7).iovEntries.length < 2 ^ 32 ∧
      (person 7).encodedSize % 2 ^ 32 = 46 :=
  Person.reachesWritev_iff 46 (bitsNameMembers 7)

/-- A message of 46 bytes. -/
theorem not_reachesWritev :
    ¬∀ (τ : Type) (_ : DecidableEq τ) (types : TypeHelper τ) (schema : Schema types)
      (bufferSize : ℕ) (p : Person schema), p.BitsNameMembers → p.ReachesWritev bufferSize := by
  intro h
  have hsize := (Person.of_reachesWritev
    (h Kind inferInstance types schema 4096 (person 7) (bitsNameMembers 7))).2.2
  revert hsize
  decide

end Sample

end MuStore.User
