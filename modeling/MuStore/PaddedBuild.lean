import MuStore.ScatterGather
import MuStore.BufferSize
import MuStore.Decoding

namespace MuStore.User

variable {τ : Type} {types : TypeHelper τ} {size : ℕ} {complex repeated : Bool}

inductive SerializationMethod where
  | COPY
  | SG
  | ZC
  deriving DecidableEq, Repr

namespace TestUser

section Methods

variable [DecidableEq τ] {schema : Schema types}

/-- The field values afterwards, and the bytes passed to `Write`. -/
def serializeAndWriteCOPY (malloc : Malloc) (bufferSize : UInt64) (p : Person schema) :
    Except Fault (List (Field types) × Bytes) := do
  let bufLen ← p.getBufLen
  let bufSize := max (4 + bufLen).toUInt64 bufferSize
  let buf := malloc.block bufSize.toNat
  let c ← copyNext ⟨buf, 0⟩ (u32Bytes p.bitmap) 4
  let (values, c) ← visitPresent p.bitmap (fun _ f c => f.copy c) 0 p.values c
  pure (values, c.buf)

/-- The table with its last entry for `garbage_buf`: the entries before it, the number
of bytes that it asks for, and `offset` with them. -/
def addGarbage (bufferSize : UInt64) (t : Table) :
    Except Fault (List (Option Iov) × UInt64 × UInt32) :=
  if t.iov.buf = [] then throw .overflow
  else
    let len := bufferSize - t.offset.toUInt64
    pure (t.iov.buf.dropLast, len, t.offset + len.toUInt32)

def fillIov (bufferSize : UInt64) (p : Person schema) :
    Except Fault (List (Field types) × List (Option Iov) × UInt64 × UInt32) := do
  let iovecLen ← p.getIOVecLen
  let iovLen := 1 + iovecLen + 1
  let t ← Table.push ⟨⟨List.replicate iovLen.toNat none, 0⟩, 0⟩ .bitmap 4
  let (values, t) ← visitPresent p.bitmap Field.fill 0 p.values t
  let table ← addGarbage bufferSize t
  pure (values, table)

/-- What is gathered, `garbage_buf` being an array of zeros. -/
def gatherPadded (bufferSize : UInt64) (object : Ref → Option Bytes) (entries : List (Option Iov))
    (len : UInt64) : Except Fault Bytes := do
  let bytes ← gather object entries
  let garbage ← load (List.replicate bufferSize.toNat 0) len.toNat
  pure (bytes ++ garbage)

def serializeAndWriteSG (bufferSize : UInt64) (p : Person schema) :
    Except Fault (List (Field types) × Bytes) := do
  let (values, entries, len, offset) ← fillIov bufferSize p
  if offset.toUInt64 ≠ bufferSize then throw .assertion
  let bytes ← gatherPadded bufferSize (deref p.bitmap values) entries len
  pure (values, bytes)

def serializeAndWriteZC (bufferSize : UInt64) (p : Person schema) :
    Except Fault (List (Field types) × Bytes) := do
  let (values, entries, len, _) ← fillIov bufferSize p
  let bytes ← gatherPadded bufferSize (deref p.bitmap values) entries len
  pure (values, bytes)

def serializeAndWrite (malloc : Malloc) (bufferSize : UInt64) (p : Person schema) :
    SerializationMethod → Except Fault (List (Field types) × Bytes)
  | .COPY => serializeAndWriteCOPY malloc bufferSize p
  | .SG => serializeAndWriteSG bufferSize p
  | .ZC => serializeAndWriteZC bufferSize p

end Methods

end TestUser

section Kept

variable {c c' : Cursor UInt8}

theorem keeps_of_copyNext {obj : Bytes} {n : ℕ} (h : copyNext c obj n = .ok c') : c.Keeps c' := by
  obtain ⟨bytes, -, hrest⟩ := bind_eq_ok.mp h
  cases hw : c.write bytes with
  | none =>
    rw [hw] at hrest
    cases hrest
  | some c₁ =>
    rw [hw] at hrest
    cases hrest
    exact Cursor.keeps_of_write hw

theorem keeps_of_copyAt {obj : Bytes} {pos n : ℕ} (h : copyAt c pos obj n = .ok c')
    (hpos : pos + n ≤ c.pos) : c.Keeps c' := by
  obtain ⟨bytes, hload, hrest⟩ := bind_eq_ok.mp h
  cases hw : c.patch pos bytes with
  | none =>
    rw [hw] at hrest
    cases hrest
  | some c₁ =>
    rw [hw] at hrest
    cases hrest
    apply Cursor.keeps_of_patch hw
    rwa [length_of_load hload]

theorem keeps_of_copyItems {items : List Bytes} (h : copyItems size items c = .ok c') :
    c.Keeps c' := by
  induction items generalizing c with
  | nil =>
    cases h
    exact .refl _
  | cons item items ih =>
    obtain ⟨c₁, hitem, hrest⟩ := bind_eq_ok.mp h
    exact (keeps_of_copyNext hitem).trans (ih hrest)

theorem keeps_of_copyElements {l : List SingleComplexFieldValue} {listLen sum : UInt32}
    (h : copyElements l listLen c = .ok (sum, c')) : c.Keeps c' := by
  induction l generalizing c listLen with
  | nil =>
    cases h
    exact .refl _
  | cons v l ih =>
    obtain ⟨c₁, hlen, hrest⟩ := bind_eq_ok.mp h
    obtain ⟨c₂, hval, hrest⟩ := bind_eq_ok.mp hrest
    exact (keeps_of_copyNext hlen).trans ((keeps_of_copyNext hval).trans (ih hrest))

theorem FieldValue.keeps_of_copy {v v' : FieldValue size complex repeated}
    (h : v.copy c = .ok (v', c')) : c.Keeps c' := by
  cases v with
  | singleSimple v =>
    obtain ⟨c₁, hdata, hpure⟩ := bind_eq_ok.mp h
    cases hpure
    exact keeps_of_copyNext hdata
  | repeatedSimple v =>
    obtain ⟨c₁, hcount, hrest⟩ := bind_eq_ok.mp h
    obtain ⟨c₂, hitems, hpure⟩ := bind_eq_ok.mp hrest
    cases hpure
    exact (keeps_of_copyNext hcount).trans (keeps_of_copyItems hitems)
  | singleComplex v =>
    obtain ⟨c₁, hlen, hrest⟩ := bind_eq_ok.mp h
    obtain ⟨c₂, hval, hpure⟩ := bind_eq_ok.mp hrest
    cases hpure
    exact (keeps_of_copyNext hlen).trans (keeps_of_copyNext hval)
  | repeatedComplex v =>
    obtain ⟨c₁, hheader, hrest⟩ := bind_eq_ok.mp h
    obtain ⟨⟨listLen, c₂⟩, helements, hrest⟩ := bind_eq_ok.mp hrest
    obtain ⟨c₃, hpatch, hpure⟩ := bind_eq_ok.mp hrest
    cases hpure
    have hitems := keeps_of_copyElements helements
    -- the patch goes into the header, which is behind the cursor
    have hpos : c.pos + 4 + 4 ≤ c₂.pos := by
      have hmoved := (moved_of_copyNext hheader).pos
      have hle := hitems.pos_le
      omega
    exact ((keeps_of_copyNext hheader).trans hitems).trans (keeps_of_copyAt hpatch hpos)

theorem keeps_of_visitPresent [DecidableEq τ] {bitmap : UInt32} {l l' : List (Field types)}
    {i : ℕ} (h : visitPresent bitmap (fun _ f c => f.copy c) i l c = .ok (l', c')) :
    c.Keeps c' := by
  refine (visitPresent_through (fun c (_ : Bytes) c' => c.Keeps c') (fun _ f => f.value.wire)
    Cursor.Keeps.refl Cursor.Keeps.trans ?_ h).2
  intro f _ i c f' c' hcopy
  obtain ⟨⟨v, c₁⟩, hvalue, hpure⟩ := bind_eq_ok.mp hcopy
  cases hpure
  exact FieldValue.keeps_of_copy hvalue

end Kept

namespace TestUser

variable {schema : Schema types} {p : Person schema} {bufferSize : UInt64}

/-- `garbage_buf` holds what is missing of `BUFFER_SIZE` bytes, or the length has
wrapped. -/
theorem load_garbage {n : ℕ} (hn : n < 2 ^ 32) :
    load (List.replicate bufferSize.toNat 0) (bufferSize - (UInt32.ofNat n).toUInt64).toNat =
      if n ≤ bufferSize.toNat then .ok (List.replicate (bufferSize.toNat - n) 0)
      else .error .overread := by
  have hbuffer := bufferSize.toNat_lt
  have hword : (UInt32.ofNat n).toUInt64.toNat = n := by
    rw [UInt32.toNat_toUInt64, UInt32.toNat_ofNat_of_lt' hn]
  rw [load, List.length_replicate, UInt64.toNat_sub, hword]
  split_ifs with h h' h'
  · rw [List.take_replicate]
    have hlen : min ((2 ^ 64 - n + bufferSize.toNat) % 2 ^ 64) bufferSize.toNat =
        bufferSize.toNat - n := by
      omega
    rw [hlen]
    rfl
  · omega
  · omega
  · rfl

/-- Both lengths wrap together, so the assertion never fails. -/
theorem offset_eq {n : ℕ} (hn : n < 2 ^ 32) (hbuffer : bufferSize.toNat < 2 ^ 32) :
    (UInt32.ofNat n + (bufferSize - (UInt32.ofNat n).toUInt64).toUInt32).toUInt64 = bufferSize := by
  have hword : (UInt32.ofNat n).toUInt64.toNat = n := by
    rw [UInt32.toNat_toUInt64, UInt32.toNat_ofNat_of_lt' hn]
  rw [← UInt64.toNat_inj, UInt32.toNat_toUInt64, UInt32.toNat_add, UInt32.toNat_ofNat_of_lt' hn,
    UInt64.toNat_toUInt32, UInt64.toNat_sub, hword]
  omega

theorem gatherPadded_eq (hlen : schema.members.length ≤ 32) (hsize : p.encodedSize < 2 ^ 32) :
    gatherPadded bufferSize (deref p.bitmap (afterwards p.bitmap p.values))
        (p.iovEntries.map some) (bufferSize - (UInt32.ofNat p.encodedSize).toUInt64) =
      if p.encodedSize ≤ bufferSize.toNat then
        .ok (p.wire ++ List.replicate (bufferSize.toNat - p.encodedSize) 0)
      else .error .overread := by
  simp only [gatherPadded, p.gather_iovEntries hlen, load_garbage hsize, bind, Except.bind]
  split_ifs with h
  · rfl
  · rfl

theorem toNat_max (a b : UInt64) : (max a b).toNat = max a.toNat b.toNat := by
  rw [Nat.max_def]
  show (if a ≤ b then b else a).toNat = _
  split_ifs with h h' h'
  · rfl
  · exact absurd (UInt64.le_iff_toNat_le.mp h) h'
  · exact absurd (UInt64.le_iff_toNat_le.mpr h') h
  · rfl

section Methods

variable [DecidableEq τ]

/-- The message is followed by what the block held. -/
theorem serializeAndWriteCOPY_eq (hlen : schema.members.length ≤ 32) (hbits : p.BitsNameMembers)
    (hsize : p.encodedSize < 2 ^ 32) (malloc : Malloc) :
    serializeAndWriteCOPY malloc bufferSize p =
      .ok (afterwards p.bitmap p.values, p.wire ++
        (malloc.block (max p.encodedSize bufferSize.toNat)).drop p.encodedSize) := by
  have hencoded := p.encodedSize_eq
  have hbuf := p.getBufLen_eq hlen hbits
  generalize hout : output p.bitmap (fun _ f => f.value.wire) 0 p.values = out at hencoded hbuf
  have hmax : (max (4 + UInt32.ofNat out.length).toUInt64 bufferSize).toNat =
      max p.encodedSize bufferSize.toNat := by
    have hfour : (4 + UInt32.ofNat out.length).toNat = 4 + out.length :=
      toNat_add_ofNat (hencoded ▸ hsize)
    rw [toNat_max, UInt32.toNat_toUInt64, hfour, hencoded]
  obtain ⟨rest, hrest⟩ := Nat.exists_eq_add_of_le (Nat.le_max_left p.encodedSize bufferSize.toNat)
  have hlength := malloc.length_block (max p.encodedSize bufferSize.toNat)
  generalize hblock : malloc.block (max p.encodedSize bufferSize.toNat) = block at hlength ⊢
  have hstart := Cursor.at_start block
  rw [hlength, hrest, hencoded, Nat.add_assoc] at hstart
  obtain ⟨c₁, hbitmap, hat₁⟩ := copyNext_all (length_u32Bytes p.bitmap) hstart
  rw [← hout] at hat₁
  obtain ⟨c₂, hfields, hat₂⟩ := visitPresent_spec Cursor.At (fun _ f => f.value.wire)
    (fun f hf => p.admitted hlen hf)
    (fun f hf _ _ _ _ hat => f.copy_spec (p.admitted hlen hf).typeSize_le hat) hat₁
  rw [List.nil_append] at hat₂
  have hkeeps := (keeps_of_copyNext hbitmap).trans (keeps_of_visitPresent hfields)
  have hpos : c₂.pos = p.encodedSize := hat₂.pos
  have hbytes : c₂.buf = p.wire ++ block.drop p.encodedSize := by
    obtain ⟨tail, htail, -⟩ := hat₂.buf
    have hdrop := hkeeps.drop_eq
    rw [hpos, htail] at hdrop
    rw [htail, ← hdrop]
    exact congrArg (p.wire ++ ·) List.drop_left.symm
  simp only [serializeAndWriteCOPY, hbuf, bind, Except.bind, hmax, hblock, hbitmap, hfields, pure,
    Except.pure, hbytes]

theorem fillIov_eq (hlen : schema.members.length ≤ 32) (hbits : p.BitsNameMembers)
    (hsize : p.encodedSize < 2 ^ 32) :
    fillIov bufferSize p =
      let len := bufferSize - (UInt32.ofNat p.encodedSize).toUInt64
      .ok (afterwards p.bitmap p.values, p.iovEntries.map some, len,
        .ofNat p.encodedSize + len.toUInt32) := by
  have hiov := p.getIOVecLen_eq hlen hbits
  have hcount := p.length_entries_le hlen
  have hencoded := p.encodedSize_eq
  have hwritten : p.encodedSize = (p.iovEntries.map Iov.len).sum :=
    length_of_gather (p.gather_iovEntries hlen)
  generalize hentries : output p.bitmap (fun i f => f.value.entries i) 0 p.values = entries at *
  have htwo : (1 + UInt32.ofNat entries.length + 1).toNat = 1 + (entries.length + 1) := by
    have hlt : 1 + (entries.length + 1) < 2 ^ 32 := by omega
    have h := toNat_add_ofNat hlt
    rwa [UInt32.ofNat_add entries.length, ← UInt32.add_assoc] at h
  obtain ⟨t₁, hbitmap, hat₁⟩ :=
    Table.push_spec .bitmap 4 (Table.at_start (1 + (entries.length + 1)))
  rw [← hentries] at hat₁
  obtain ⟨t₂, hfields, hat₂⟩ := visitPresent_spec Table.At (fun i f => f.value.entries i)
    (fun f hf => p.admitted hlen hf) (fun f _ i _ _ _ hat => f.fill_spec i hat) hat₁
  have hgrown := (Table.grown_of_push hbitmap).trans
    (visitPresent_through Table.Grown (fun i f => f.value.entries i) Table.Grown.refl
      Table.Grown.trans (fun f _ => f.grown_of_fill) hfields).2
  have hoffset : t₂.offset = .ofNat p.encodedSize := by
    have h : t₂.offset = 0 + .ofNat (p.iovEntries.map Iov.len).sum := hgrown.offset
    rw [h, UInt32.zero_add, hwritten]
  obtain ⟨tail, htail, hone⟩ := hat₂.buf
  obtain ⟨last, rfl⟩ := List.length_eq_one_iff.mp hone
  have hgarbage : addGarbage bufferSize t₂ =
      let len := bufferSize - (UInt32.ofNat p.encodedSize).toUInt64
      .ok (p.iovEntries.map some, len, .ofNat p.encodedSize + len.toUInt32) := by
    rw [addGarbage, if_neg (by rw [htail]; simp), htail, List.dropLast_concat, hoffset]
    rfl
  simp only [fillIov, hiov, bind, Except.bind, htwo, hbitmap, hfields, hgarbage, pure, Except.pure]

theorem serializeAndWriteZC_eq (hlen : schema.members.length ≤ 32) (hbits : p.BitsNameMembers)
    (hsize : p.encodedSize < 2 ^ 32) :
    serializeAndWriteZC bufferSize p =
      if p.encodedSize ≤ bufferSize.toNat then
        .ok (afterwards p.bitmap p.values,
          p.wire ++ List.replicate (bufferSize.toNat - p.encodedSize) 0)
      else .error .overread := by
  simp only [serializeAndWriteZC, fillIov_eq hlen hbits hsize, bind, Except.bind,
    gatherPadded_eq hlen hsize]
  split_ifs with h
  · rfl
  · rfl

theorem serializeAndWriteSG_eq (hlen : schema.members.length ≤ 32) (hbits : p.BitsNameMembers)
    (hsize : p.encodedSize < 2 ^ 32) (hbuffer : bufferSize.toNat < 2 ^ 32) :
    serializeAndWriteSG bufferSize p = serializeAndWriteZC bufferSize p := by
  simp only [serializeAndWriteSG, serializeAndWriteZC, fillIov_eq hlen hbits hsize, bind,
    Except.bind, offset_eq hsize hbuffer, ne_eq, not_true_eq_false, if_false, pure, Except.pure]

def padding (malloc : Malloc) (bufferSize : UInt64) (p : Person schema) :
    SerializationMethod → Bytes
  | .COPY => (malloc.block (max p.encodedSize bufferSize.toNat)).drop p.encodedSize
  | _ => List.replicate (bufferSize.toNat - p.encodedSize) 0

/-- Each method puts out the message and its padding. The methods that gather cannot
send a message longer than `BUFFER_SIZE`, and the assertion does not notice. -/
theorem serializeAndWrite_eq (hlen : schema.members.length ≤ 32) (hbits : p.BitsNameMembers)
    (hsize : p.encodedSize < 2 ^ 32) (hbuffer : bufferSize.toNat < 2 ^ 32) (malloc : Malloc)
    (method : SerializationMethod) :
    serializeAndWrite malloc bufferSize p method =
      if method = .COPY ∨ p.encodedSize ≤ bufferSize.toNat then
        .ok (afterwards p.bitmap p.values, p.wire ++ padding malloc bufferSize p method)
      else .error .overread := by
  cases method with
  | COPY =>
    rw [if_pos (Or.inl rfl)]
    exact serializeAndWriteCOPY_eq hlen hbits hsize malloc
  | SG =>
    rw [serializeAndWrite, serializeAndWriteSG_eq hlen hbits hsize hbuffer,
      serializeAndWriteZC_eq hlen hbits hsize]
    simp only [reduceCtorEq, false_or, padding]
  | ZC =>
    rw [serializeAndWrite, serializeAndWriteZC_eq hlen hbits hsize]
    simp only [reduceCtorEq, false_or, padding]

end Methods

structure Sending (schema : Schema types) where
  message : Person schema
  method : SerializationMethod
  malloc : Malloc

namespace Sending

def content (s : Sending schema) : UInt32 × List (Option (List Bytes)) :=
  (s.message.bitmap, s.message.presentItems)

structure Fits (bufferSize : UInt64) (s : Sending schema) : Prop where
  bits : s.message.BitsNameMembers
  size : s.message.encodedSize ≤ bufferSize.toNat

def block (bufferSize : UInt64) (s : Sending schema) : Bytes :=
  s.message.wire ++ padding s.malloc bufferSize s.message s.method

theorem Fits.length_block {s : Sending schema} (hs : s.Fits bufferSize) :
    (s.block bufferSize).length = bufferSize.toNat := by
  have hsize := hs.size
  have hpadding : (padding s.malloc bufferSize s.message s.method).length =
      bufferSize.toNat - s.message.encodedSize := by
    cases s.method with
    | COPY => rw [padding, List.length_drop, s.malloc.length_block, Nat.max_eq_right hsize]
    | SG => exact List.length_replicate
    | ZC => exact List.length_replicate
  rw [block, List.length_append, hpadding]
  exact Nat.add_sub_of_le hsize

theorem selfDelimiting_block (hlen : schema.members.length ≤ 32)
    (hbuffer : bufferSize.toNat < 2 ^ 32) :
    SelfDelimiting (fun s s' : Sending schema => s.Fits bufferSize ∧ s'.Fits bufferSize)
      (block bufferSize) content := by
  apply SelfDelimiting.padded
  · apply ((Person.selfDelimiting hlen).comap message).mono
    rintro s s' ⟨hs, hs'⟩
    exact ⟨hs.size.trans_lt hbuffer, hs'.size.trans_lt hbuffer⟩
  · rintro s s' ⟨hs, hs'⟩
    exact hs.length_block.trans hs'.length_block.symm

def sendAll [DecidableEq τ] (bufferSize : UInt64) : List (Sending schema) → Except Fault Bytes
  | [] => pure []
  | s :: rest => do
    let (_, bytes) ← serializeAndWrite s.malloc bufferSize s.message s.method
    let stream ← sendAll bufferSize rest
    pure (bytes ++ stream)

theorem sendAll_eq [DecidableEq τ] (hlen : schema.members.length ≤ 32)
    (hbuffer : bufferSize.toNat < 2 ^ 32) {l : List (Sending schema)}
    (hl : ∀ s ∈ l, s.Fits bufferSize) :
    sendAll bufferSize l = .ok (l.flatMap (block bufferSize)) := by
  induction l with
  | nil => rfl
  | cons s l ih =>
    have hs := hl s (by simp)
    have hone := serializeAndWrite_eq hlen hs.bits (hs.size.trans_lt hbuffer) hbuffer s.malloc
      s.method
    rw [if_pos (Or.inr hs.size)] at hone
    rw [sendAll, hone, ih fun s hs => hl s (by simp [hs])]
    rfl

theorem block_ne_nil (bufferSize : UInt64) (s : Sending schema) : s.block bufferSize ≠ [] := by
  intro hnil
  have hsize := s.message.encodedSize_eq
  rw [Person.encodedSize, (List.append_eq_nil_iff.mp hnil).1, List.length_nil] at hsize
  omega

/-- What has come in of a stream of messages tells which they were, in order, whatever
the methods and whatever the blocks held. -/
theorem contents_of_stream [DecidableEq τ] (hlen : schema.members.length ≤ 32)
    (hbuffer : bufferSize.toNat < 2 ^ 32) (l l' : List (Sending schema))
    (hl : ∀ s ∈ l, s.Fits bufferSize) (hl' : ∀ s ∈ l', s.Fits bufferSize) :
    ∃ stream stream', sendAll bufferSize l = .ok stream ∧ sendAll bufferSize l' = .ok stream' ∧
      (stream <+: stream' → l.map content <+: l'.map content) := by
  refine ⟨_, _, sendAll_eq hlen hbuffer hl, sendAll_eq hlen hbuffer hl', ?_⟩
  apply (selfDelimiting_block hlen hbuffer).isPrefix_of_flatMap
  · intro s hs s' hs'
    exact ⟨hl s hs, hl' s' hs'⟩
  · intro s _
    exact block_ne_nil bufferSize s

end Sending

end TestUser

namespace Sample

theorem serializeAndWrite_eq_person :
    TestUser.serializeAndWrite zeroed 64 (person 7) .SG =
      if SerializationMethod.SG = .COPY ∨ (person 7).encodedSize ≤ (64 : UInt64).toNat then
        .ok (afterwards (person 7).bitmap (person 7).values,
          (person 7).wire ++ TestUser.padding zeroed 64 (person 7) .SG)
      else .error .overread :=
  TestUser.serializeAndWrite_eq (by decide) (bitsNameMembers 7) (by decide) (by decide) zeroed .SG

/-- The first of two messages has come in. -/
theorem contents_of_stream_person :
    let l : List (TestUser.Sending schema) := [⟨person 8, .ZC, zeroed⟩]
    let l' : List (TestUser.Sending schema) := [⟨person 7, .SG, zeroed⟩, ⟨person 8, .COPY, zeroed⟩]
    ∃ stream stream', TestUser.Sending.sendAll 64 l = .ok stream ∧
      TestUser.Sending.sendAll 64 l' = .ok stream' ∧ (stream <+: stream' →
        l.map TestUser.Sending.content <+: l'.map TestUser.Sending.content) :=
  TestUser.Sending.contents_of_stream (by decide) (by decide) _ _
    (List.forall_mem_singleton.mpr ⟨bitsNameMembers 8, by decide⟩)
    (List.forall_mem_cons.mpr ⟨⟨bitsNameMembers 7, by decide⟩,
      List.forall_mem_singleton.mpr ⟨bitsNameMembers 8, by decide⟩⟩)

end Sample

end MuStore.User
