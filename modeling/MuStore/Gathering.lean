import MuStore.WireFormat

namespace MuStore.User

variable {τ : Type} {types : TypeHelper τ} {size : ℕ} {complex repeated : Bool}

def itemEntries (i size : ℕ) : ℕ → List Bytes → List Iov
  | _, [] => []
  | j, _ :: rest => ⟨.member i (.item j), size⟩ :: itemEntries i size (j + 1) rest

def elementEntries (i : ℕ) : ℕ → List SingleComplexFieldValue → List Iov
  | _, [] => []
  | j, scfv :: rest =>
    ⟨.member i (.itemLen j), 4⟩ :: ⟨.member i (.itemVal j), scfv.len.toNat⟩ ::
      elementEntries i (j + 1) rest

def FieldValue.entries (i : ℕ) : FieldValue size complex repeated → List Iov
  | .singleSimple _ => [⟨.member i .basePtr, size⟩]
  | .repeatedSimple v => ⟨.member i .listSize, 4⟩ :: itemEntries i size 0 v.values
  | .singleComplex v => [⟨.member i .len, 4⟩, ⟨.member i .val, v.len.toNat⟩]
  | .repeatedComplex v => ⟨.member i .listHeader, 8⟩ :: elementEntries i 0 v.values

theorem length_itemEntries (i size j : ℕ) (items : List Bytes) :
    (itemEntries i size j items).length = items.length := by
  induction items generalizing j with
  | nil => rfl
  | cons item items ih => rw [itemEntries, List.length_cons, ih, List.length_cons]

theorem length_elementEntries (i j : ℕ) (l : List SingleComplexFieldValue) :
    (elementEntries i j l).length = 2 * l.length := by
  induction l generalizing j with
  | nil => rfl
  | cons v l ih =>
    rw [elementEntries, List.length_cons, List.length_cons, ih, List.length_cons]
    omega

theorem FieldValue.iovecLen_eq (i : ℕ) (v : FieldValue size complex repeated) :
    v.iovecLen = .ofNat (v.entries i).length := by
  cases v with
  | singleSimple v => rfl
  | repeatedSimple v =>
    rw [entries, List.length_cons, length_itemEntries, Nat.add_comm]
    rfl
  | singleComplex v => rfl
  | repeatedComplex v =>
    rw [entries, List.length_cons, length_elementEntries, Nat.add_comm]
    rfl

theorem FieldValue.length_entries_le (hsize : complex = false → 0 < size ∧ size ≤ 8) (i : ℕ)
    (v : FieldValue size complex repeated) : (v.entries i).length ≤ v.wire.length := by
  cases v with
  | singleSimple v =>
    have hpos := hsize rfl
    rw [wire, List.length_take, v.length_data, Nat.min_eq_left hpos.2]
    exact hpos.1
  | repeatedSimple v =>
    have hle := Nat.le_mul_of_pos_right v.values.length (hsize rfl).1
    rw [entries, List.length_cons, length_itemEntries, wire, List.length_append, length_u32Bytes,
      length_flatten_items v.length_value]
    omega
  | singleComplex v =>
    rw [wire, v.length_wire]
    show 2 ≤ 4 + v.val.length
    omega
  | repeatedComplex v =>
    have hle : 2 * v.values.length ≤ (v.values.flatMap SingleComplexFieldValue.wire).length := by
      generalize v.values = l
      induction l with
      | nil => rfl
      | cons v l ih =>
        rw [List.flatMap_cons, List.length_append, v.length_wire, List.length_cons]
        omega
    rw [entries, List.length_cons, length_elementEntries, wire, List.length_append,
      List.length_append, length_u32Bytes, length_u32Bytes]
    omega

theorem length_output_le {α β : Type} {out : ℕ → Field types → List α}
    {out' : ℕ → Field types → List β} {l : List (Field types)} (bitmap : UInt32)
    (h : ∀ f ∈ l, ∀ i, (out i f).length ≤ (out' i f).length) (i : ℕ) :
    (output bitmap out i l).length ≤ (output bitmap out' i l).length := by
  induction l generalizing i with
  | nil => exact Nat.le_refl 0
  | cons f l ih =>
    have hf := h f (by simp) i
    have hrest := ih (fun f hf => h f (by simp [hf])) (i + 1)
    rw [output, output, List.length_append, List.length_append]
    cases present bitmap f.symbol.id with
    | false => exact Nat.add_le_add_left hrest 0
    | true => exact Nat.add_le_add hf hrest

section Fill

variable {t : Table} {w : List Iov} {room : ℕ}

/-- The entries `w` have been written, and there is room for some more. -/
def Table.At (t : Table) (w : List Iov) (room : ℕ) : Prop := t.iov.At (w.map some) room

theorem Table.at_start (n : ℕ) : Table.At ⟨⟨List.replicate n none, 0⟩, 0⟩ [] n := by
  have h := Cursor.at_start (List.replicate n (none : Option Iov))
  rwa [List.length_replicate] at h

theorem Table.push_spec (base : Ref) (len : ℕ) (h : t.At w (1 + room)) :
    ∃ t', t.push base len = .ok t' ∧ t'.At (w ++ [⟨base, len⟩]) room := by
  obtain ⟨iov, hwrite, hat⟩ := Cursor.At.write [some ⟨base, len⟩] h
  refine ⟨⟨iov, t.offset + .ofNat len⟩, ?_, ?_⟩
  · rw [push, hwrite]
    rfl
  · rwa [At, List.map_append]

theorem fillItems_spec (i size j : ℕ) {items : List Bytes} (h : t.At w (items.length + room)) :
    ∃ t', fillItems i size j items t = .ok t' ∧ t'.At (w ++ itemEntries i size j items) room := by
  induction items generalizing j t w with
  | nil =>
    rw [List.length_nil, Nat.zero_add] at h
    exact ⟨t, rfl, by rwa [itemEntries, List.append_nil]⟩
  | cons item items ih =>
    rw [List.length_cons, Nat.add_comm items.length, Nat.add_assoc] at h
    obtain ⟨t₁, hpush, hat₁⟩ := Table.push_spec (.member i (.item j)) size h
    obtain ⟨t₂, hrest, hat₂⟩ := ih (j + 1) hat₁
    refine ⟨t₂, ?_, ?_⟩
    · rw [fillItems, hpush]
      exact hrest
    · rwa [List.append_assoc] at hat₂

theorem fillElements_spec (i j : ℕ) {l : List SingleComplexFieldValue} (listLen : UInt32)
    (h : t.At w (2 * l.length + room)) :
    ∃ t', fillElements i j l listLen t =
        .ok (listLen + .ofNat (l.flatMap SingleComplexFieldValue.wire).length, t') ∧
      t'.At (w ++ elementEntries i j l) room := by
  induction l generalizing j t w listLen with
  | nil =>
    rw [List.length_nil, Nat.mul_zero, Nat.zero_add] at h
    refine ⟨t, ?_, by rwa [elementEntries, List.append_nil]⟩
    simp [fillElements, pure, Except.pure]
  | cons v l ih =>
    have hroom : 2 * (v :: l).length + room = 1 + (1 + (2 * l.length + room)) := by
      rw [List.length_cons]
      omega
    rw [hroom] at h
    obtain ⟨t₁, hlen, hat₁⟩ := Table.push_spec (.member i (.itemLen j)) 4 h
    obtain ⟨t₂, hval, hat₂⟩ := Table.push_spec (.member i (.itemVal j)) v.len.toNat hat₁
    obtain ⟨t₃, hrest, hat₃⟩ := ih (j + 1) (listLen + 4 + v.len) hat₂
    refine ⟨t₃, ?_, ?_⟩
    · simp only [fillElements, bind, Except.bind, hlen, hval, hrest]
      rw [add_len_wire]
    · rwa [List.append_assoc, List.append_assoc] at hat₃

theorem FieldValue.fill_spec (i : ℕ) {v : FieldValue size complex repeated}
    (h : t.At w ((v.entries i).length + room)) :
    ∃ t', v.fill i t = .ok (v.sent, t') ∧ t'.At (w ++ v.entries i) room := by
  cases v with
  | singleSimple v =>
    obtain ⟨t', hpush, hat⟩ := Table.push_spec (.member i .basePtr) size h
    refine ⟨t', ?_, hat⟩
    simp only [fill, bind, Except.bind, hpush]
    rfl
  | repeatedSimple v =>
    rw [entries, List.length_cons, length_itemEntries, Nat.add_comm v.values.length,
      Nat.add_assoc] at h
    obtain ⟨t₁, hcount, hat₁⟩ := Table.push_spec (.member i .listSize) 4 h
    obtain ⟨t₂, hitems, hat₂⟩ := fillItems_spec i size 0 hat₁
    refine ⟨t₂, ?_, by rwa [List.append_assoc] at hat₂⟩
    simp only [fill, bind, Except.bind, hcount, hitems]
    rfl
  | singleComplex v =>
    have h1 : t.At w (1 + (1 + room)) := by
      rwa [← Nat.add_assoc]
    obtain ⟨t₁, hlen, hat₁⟩ := Table.push_spec (.member i .len) 4 h1
    obtain ⟨t₂, hval, hat₂⟩ := Table.push_spec (.member i .val) v.len.toNat hat₁
    refine ⟨t₂, ?_, by rwa [List.append_assoc] at hat₂⟩
    simp only [fill, bind, Except.bind, hlen, hval]
    rfl
  | repeatedComplex v =>
    rw [entries, List.length_cons, length_elementEntries, Nat.add_comm (2 * _), Nat.add_assoc] at h
    obtain ⟨t₁, hheader, hat₁⟩ := Table.push_spec (.member i .listHeader) 8 h
    obtain ⟨t₂, helements, hat₂⟩ := fillElements_spec i 0 0 hat₁
    rw [UInt32.zero_add] at helements
    refine ⟨t₂, ?_, by rwa [List.append_assoc] at hat₂⟩
    simp only [fill, bind, Except.bind, hheader, helements]
    rfl

theorem Field.fill_spec (i : ℕ) {f : Field types}
    (h : t.At w ((f.value.entries i).length + room)) :
    ∃ t', f.fill i t = .ok (f.sent, t') ∧ t'.At (w ++ f.value.entries i) room := by
  obtain ⟨t', hfill, hat⟩ := f.value.fill_spec i h
  exact ⟨t', by rw [fill, hfill]; rfl, hat⟩

end Fill

section Gather

variable {object : Ref → Option Bytes}

variable {base : Ref} {len : ℕ} {obj out : Bytes} {rest : List (Option Iov)}

theorem gather_nil : gather object [] = .ok [] := rfl

theorem gather_cons (hobj : object base = some obj) (hlen : len ≤ obj.length)
    (hrest : gather object rest = .ok out) :
    gather object (some ⟨base, len⟩ :: rest) = .ok (obj.take len ++ out) := by
  rw [gather, hobj]
  simp only [load, if_pos hlen, hrest, bind, Except.bind, pure, Except.pure]

theorem gather_cons_all (hobj : object base = some obj) (hlen : obj.length = len)
    (hrest : gather object rest = .ok out) :
    gather object (some ⟨base, len⟩ :: rest) = .ok (obj ++ out) := by
  have hgather := gather_cons hobj hlen.ge hrest
  rwa [List.take_of_length_le hlen.le] at hgather

theorem gather_append {l l' : List (Option Iov)} {out' : Bytes}
    (h : gather object l = .ok out) (h' : gather object l' = .ok out') :
    gather object (l ++ l') = .ok (out ++ out') := by
  induction l generalizing out with
  | nil =>
    cases h
    exact h'
  | cons entry l ih =>
    cases entry with
    | none => cases h
    | some iov =>
      rw [gather] at h
      cases hobj : object iov.base with
      | none =>
        rw [hobj] at h
        cases h
      | some obj =>
        rw [hobj] at h
        obtain ⟨bytes, hload, h⟩ := bind_eq_ok.mp h
        obtain ⟨rest, hrest, h⟩ := bind_eq_ok.mp h
        cases h
        rw [List.cons_append, gather, hobj]
        simp only [hload, ih hrest, bind, Except.bind, pure, Except.pure, List.append_assoc]

theorem gather_itemEntries {i j : ℕ} {items : List Bytes}
    (hitems : ∀ item ∈ items, item.length = size)
    (hobj : ∀ k, object (.member i (.item (j + k))) = items[k]?) :
    gather object ((itemEntries i size j items).map some) = .ok items.flatten := by
  induction items generalizing j with
  | nil => rfl
  | cons item items ih =>
    rw [itemEntries, List.map_cons, List.flatten_cons]
    apply gather_cons_all (hobj 0) (hitems item (by simp))
    apply ih fun item hitem => hitems item (by simp [hitem])
    intro k
    rw [Nat.add_right_comm, Nat.add_assoc]
    exact hobj (k + 1)

theorem gather_elementEntries {i j : ℕ} {l : List SingleComplexFieldValue}
    (hlen : ∀ k, object (.member i (.itemLen (j + k))) = l[k]?.map fun v => u32Bytes v.len)
    (hval : ∀ k, object (.member i (.itemVal (j + k))) = l[k]?.map SingleComplexFieldValue.val) :
    gather object ((elementEntries i j l).map some) =
      .ok (l.flatMap SingleComplexFieldValue.wire) := by
  induction l generalizing j with
  | nil => rfl
  | cons v l ih =>
    rw [elementEntries, List.map_cons, List.map_cons, List.flatMap_cons,
      SingleComplexFieldValue.wire, List.append_assoc]
    apply gather_cons_all (hlen 0) (length_u32Bytes v.len)
    apply gather_cons_all (hval 0) v.len_eq.symm
    apply ih
    · intro k
      rw [Nat.add_right_comm, Nat.add_assoc]
      exact hlen (k + 1)
    · intro k
      rw [Nat.add_right_comm, Nat.add_assoc]
      exact hval (k + 1)

/-- The entries of a field stand for its wire format, its header being filled in. -/
theorem FieldValue.gather_entries {i : ℕ} {v : FieldValue size complex repeated}
    (hsize : complex = false → size ≤ 8)
    (hobj : ∀ part, object (.member i part) = v.sent.object part) :
    gather object ((v.entries i).map some) = .ok v.wire := by
  cases v with
  | singleSimple v =>
    have hle : size ≤ v.data.length := by
      rw [v.length_data]
      exact hsize rfl
    have hgather := gather_cons (hobj .basePtr) hle gather_nil
    rwa [List.append_nil] at hgather
  | repeatedSimple v =>
    apply gather_cons_all (hobj .listSize) (length_u32Bytes _)
    apply gather_itemEntries v.length_value
    intro k
    rw [Nat.zero_add]
    exact hobj (.item k)
  | singleComplex v =>
    apply gather_cons_all (hobj .len) (length_u32Bytes _)
    have hgather := gather_cons_all (hobj .val) v.len_eq.symm gather_nil
    rwa [List.append_nil] at hgather
  | repeatedComplex v =>
    apply gather_cons_all (hobj .listHeader) rfl
    apply gather_elementEntries
    · intro k
      rw [Nat.zero_add]
      exact hobj (.itemLen k)
    · intro k
      rw [Nat.zero_add]
      exact hobj (.itemVal k)

theorem gather_output {bitmap : UInt32} {l : List (Field types)} {i : ℕ}
    (hl : ∀ f ∈ l, f.Admitted)
    (hobj : ∀ k f, l[k]? = some f → present bitmap f.symbol.id →
      ∀ part, object (.member (i + k) part) = f.value.sent.object part) :
    gather object ((output bitmap (fun i f => f.value.entries i) i l).map some) =
      .ok (output bitmap (fun _ f => f.value.wire) i l) := by
  induction l generalizing i with
  | nil => rfl
  | cons f l ih =>
    rw [output, output, List.map_append]
    apply gather_append
    · cases hp : present bitmap f.symbol.id with
      | false => rfl
      | true => exact f.value.gather_entries (hl f (by simp)).typeSize_le (hobj 0 f rfl hp)
    · apply ih fun f hf => hl f (by simp [hf])
      intro k g hg hp part
      rw [Nat.add_right_comm, Nat.add_assoc]
      exact hobj (k + 1) g hg hp part

end Gather

namespace Person

variable {schema : Schema types}

theorem getIOVecLen_eq (p : Person schema) (hlen : schema.members.length ≤ 32)
    (hbits : p.BitsNameMembers) :
    p.getIOVecLen =
      .ok (.ofNat (output p.bitmap (fun i f => f.value.entries i) 0 p.values).length) :=
  p.sumPresent_spec hlen hbits fun i f _ => f.value.iovecLen_eq i

theorem deref_afterwards (p : Person schema) {k : ℕ} {f : Field types}
    (hf : p.values[k]? = some f) (hp : present p.bitmap f.symbol.id) (part : Part) :
    deref p.bitmap (afterwards p.bitmap p.values) (.member k part) = f.value.sent.object part := by
  rw [deref, afterwards, List.getElem?_map, hf, Option.map_some, if_pos hp]
  rfl

theorem length_entries_le (p : Person schema) (hlen : schema.members.length ≤ 32) :
    (output p.bitmap (fun i f => f.value.entries i) 0 p.values).length ≤
      (output p.bitmap (fun _ f => f.value.wire) 0 p.values).length := by
  apply length_output_le
  intro f hf i
  exact f.value.length_entries_le (types.typeSize_simple (p.admitted hlen hf).ne_message) i

theorem gather_entries (p : Person schema) (hlen : schema.members.length ≤ 32) :
    gather (deref p.bitmap (afterwards p.bitmap p.values))
        ((output p.bitmap (fun i f => f.value.entries i) 0 p.values).map some) =
      .ok (output p.bitmap (fun _ f => f.value.wire) 0 p.values) := by
  apply gather_output fun f hf => p.admitted hlen hf
  intro k f hf hp part
  rw [Nat.zero_add]
  exact p.deref_afterwards hf hp part

/-- The method up to the end of the loop, with the table that it has filled. -/
def fillIov [DecidableEq τ] (p : Person schema) :
    Except Fault (List (Field types) × Table) := do
  let iovecLen ← p.getIOVecLen
  let iovLen := 1 + iovecLen
  let t ← Table.push ⟨⟨List.replicate iovLen.toNat none, 0⟩, 0⟩ .bitmap 4
  visitPresent p.bitmap Field.fill 0 p.values t

theorem serializeAndWriteZC_eq_fillIov [DecidableEq τ] (p : Person schema) :
    p.serializeAndWriteZC = p.fillIov >>= fun (values, t) =>
      (gather (deref p.bitmap values) t.iov.buf).map fun bytes => (values, bytes) := by
  unfold serializeAndWriteZC fillIov
  cases p.getIOVecLen with
  | error e => rfl
  | ok iovecLen =>
    simp only [bind, Except.bind]
    cases Table.push ⟨⟨List.replicate (1 + iovecLen).toNat none, 0⟩, 0⟩ .bitmap 4 with
    | error e => rfl
    | ok t =>
      simp only
      cases visitPresent p.bitmap Field.fill 0 p.values t with
      | error e => rfl
      | ok x => rfl

def iovEntries (p : Person schema) : List Iov :=
  ⟨.bitmap, 4⟩ :: output p.bitmap (fun i f => f.value.entries i) 0 p.values

/-- If `getIOVecLen` does not wrap, the loop fills the table. -/
theorem fillIov_spec [DecidableEq τ] (p : Person schema) (hlen : schema.members.length ≤ 32)
    (hbits : p.BitsNameMembers) (hcount : p.iovEntries.length < 2 ^ 32) :
    ∃ t, p.fillIov = .ok (afterwards p.bitmap p.values, t) ∧ t.At p.iovEntries 0 := by
  have hiov := p.getIOVecLen_eq hlen hbits
  unfold iovEntries at hcount ⊢
  generalize hentries : output p.bitmap (fun i f => f.value.entries i) 0 p.values = entries at *
  rw [List.length_cons, Nat.add_comm] at hcount
  have hone : (1 + UInt32.ofNat entries.length).toNat = 1 + entries.length :=
    toNat_add_ofNat hcount
  obtain ⟨t₁, hbitmap, hat₁⟩ := Table.push_spec .bitmap 4 (Table.at_start (1 + entries.length))
  have hroom : t₁.At ([] ++ [⟨.bitmap, 4⟩])
      ((output p.bitmap (fun i f => f.value.entries i) 0 p.values).length + 0) := by
    rwa [hentries, Nat.add_zero]
  obtain ⟨t₂, hfields, hat₂⟩ := visitPresent_spec Table.At (fun i f => f.value.entries i)
    (fun f hf => p.admitted hlen hf) (fun f _ i _ _ _ hat => f.fill_spec i hat) hroom
  rw [hentries] at hat₂
  refine ⟨t₂, ?_, hat₂⟩
  simp only [fillIov, hiov, bind, Except.bind, hone, hbitmap, hfields]

theorem gather_iovEntries (p : Person schema) (hlen : schema.members.length ≤ 32) :
    gather (deref p.bitmap (afterwards p.bitmap p.values)) (p.iovEntries.map some) =
      .ok p.wire :=
  gather_cons_all rfl (length_u32Bytes p.bitmap) (p.gather_entries hlen)

theorem serializeAndWriteZC_of_length [DecidableEq τ] (p : Person schema)
    (hlen : schema.members.length ≤ 32) (hbits : p.BitsNameMembers)
    (hcount : p.iovEntries.length < 2 ^ 32) :
    p.serializeAndWriteZC = .ok (afterwards p.bitmap p.values, p.wire) := by
  obtain ⟨t, hfill, hat⟩ := p.fillIov_spec hlen hbits hcount
  have hgather := p.gather_iovEntries hlen
  rw [← hat.buf_eq] at hgather
  rw [serializeAndWriteZC_eq_fillIov, hfill]
  simp only [bind, Except.bind, hgather, Except.map]

/-- The zero-copy method has the kernel gather the message. -/
theorem serializeAndWriteZC_eq [DecidableEq τ] (p : Person schema)
    (hlen : schema.members.length ≤ 32) (hbits : p.BitsNameMembers)
    (hsize : p.encodedSize < 2 ^ 32) :
    p.serializeAndWriteZC = .ok (afterwards p.bitmap p.values, p.wire) := by
  apply p.serializeAndWriteZC_of_length hlen hbits
  have hle := p.length_entries_le hlen
  rw [encodedSize_eq] at hsize
  rw [iovEntries, List.length_cons]
  omega

/-- Both methods put out the same bytes, and leave the message the same. -/
theorem serializeAndWriteZC_eq_COPY [DecidableEq τ] (p : Person schema)
    (hlen : schema.members.length ≤ 32) (hbits : p.BitsNameMembers)
    (hsize : p.encodedSize < 2 ^ 32) (malloc : Malloc) :
    ∃ values bytes, p.serializeAndWriteZC = .ok (values, bytes) ∧
      p.serializeAndWriteCOPY malloc = .ok (values, bytes) :=
  ⟨_, _, p.serializeAndWriteZC_eq hlen hbits hsize,
    p.serializeAndWriteCOPY_eq hlen hbits hsize malloc⟩

end Person

end MuStore.User

namespace MuStore.User.Sample

theorem serializeAndWriteZC_eq_COPY_sample :
    ∃ values bytes, (person 255).serializeAndWriteZC = .ok (values, bytes) ∧
      (person 255).serializeAndWriteCOPY zeroed = .ok (values, bytes) :=
  Person.serializeAndWriteZC_eq_COPY (person 255) (by decide) (bitsNameMembers 255) (by decide)
    zeroed

end MuStore.User.Sample
