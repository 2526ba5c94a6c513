import MuStore.Message
import MuStore.Library.Overwrite

namespace MuStore.User

/-- What ends a call: a failed `assert`, `NOT_IMPLEMENTED`, or an access outside an
object, to an object that is not there, or to memory that has not been written. -/
inductive Fault where
  | assertion
  | notImplemented
  | overread
  | overflow
  | outOfRange
  | uninitialised
  deriving DecidableEq, Repr

def u32Bytes (x : UInt32) : Bytes :=
  [x.toUInt8, (x >>> 8).toUInt8, (x >>> 16).toUInt8, (x >>> 24).toUInt8]

/-- `UserTypes` and `TypeHelper`. A simple type has a size, and its values have room
in `data_[8]`. -/
structure TypeHelper (τ : Type) where
  typeMessage : τ
  isComplexType : τ → Bool
  typeSize : τ → ℕ
  typeSize_simple : ∀ {t}, t ≠ typeMessage → isComplexType t = false →
    0 < typeSize t ∧ typeSize t ≤ 8

structure Symbol (τ : Type) where
  type : τ
  repeated : Bool
  id : ℕ
  deriving DecidableEq

variable {τ : Type} {types : TypeHelper τ}

/-- `symbol_->members_`: numbered from one, and no message among them. -/
structure Schema (types : TypeHelper τ) where
  members : List (Symbol τ)
  id_eq : ∀ {i sym}, members[i]? = some sym → sym.id = i + 1
  ne_message : ∀ sym ∈ members, sym.type ≠ types.typeMessage

structure SingleSimpleFieldValue where
  data : Bytes
  length_data : data.length = 8

/-- A list of pointers, given by what each leads to. -/
structure RepeatedSimpleFieldValue (size : ℕ) where
  values : List Bytes
  length_value : ∀ v ∈ values, v.length = size
  listSize : UInt32

structure SingleComplexFieldValue where
  val : Bytes
  len : UInt32
  len_eq : len.toNat = val.length

/-- `len` is the number of items. -/
structure RepeatedComplexFieldValue where
  values : List SingleComplexFieldValue
  len : UInt32
  len_eq : len.toNat = values.length
  listHeader : UInt32 × UInt32

/-- The classes by the two flags of a symbol, complex and repeated. `init` makes every
value of the class that its symbol calls for, so no `dynamic_cast` fails. -/
inductive FieldValue (size : ℕ) : Bool → Bool → Type where
  | singleSimple (v : SingleSimpleFieldValue) : FieldValue size false false
  | repeatedSimple (v : RepeatedSimpleFieldValue size) : FieldValue size false true
  | singleComplex (v : SingleComplexFieldValue) : FieldValue size true false
  | repeatedComplex (v : RepeatedComplexFieldValue) : FieldValue size true true

structure Field (types : TypeHelper τ) where
  symbol : Symbol τ
  value : FieldValue (types.typeSize symbol.type) (types.isComplexType symbol.type) symbol.repeated

/-- The uSer message of the MuSer build: `values_`, one for each member, and `bitmap_`. -/
structure Person (schema : Schema types) where
  values : List (Field types)
  symbols : values.map Field.symbol = schema.members
  bitmap : UInt32

def getMask (id : ℕ) : Except Fault UInt32 :=
  if 0 < id ∧ id < 33 then pure (1 <<< UInt32.ofNat (id - 1)) else throw .assertion

def isPresent (bitmap : UInt32) (id : ℕ) : Except Fault Bool := do
  let mask ← getMask id
  pure (bitmap &&& mask != 0)

/-- The loop over `values_`, with the position of each and what is done with a present
one. -/
def visitPresent [DecidableEq τ] {σ : Type} (bitmap : UInt32)
    (visit : ℕ → Field types → σ → Except Fault (Field types × σ)) :
    ℕ → List (Field types) → σ → Except Fault (List (Field types) × σ)
  | _, [], s => pure ([], s)
  | i, f :: rest, s => do
    let present ← isPresent bitmap f.symbol.id
    let (f, s) ←
      if !present then pure (f, s)
      else if f.symbol.type = types.typeMessage then throw .notImplemented
      else visit i f s
    let (rest, s) ← visitPresent bitmap visit (i + 1) rest s
    pure (f :: rest, s)

namespace FieldValue

variable {size : ℕ} {complex repeated : Bool}

def iovecLen : FieldValue size complex repeated → UInt32
  | .singleSimple _ => 1
  | .repeatedSimple v => .ofNat (1 + v.values.length)
  | .singleComplex _ => 2
  | .repeatedComplex v => .ofNat (1 + 2 * v.values.length)

def bufLen : FieldValue size complex repeated → UInt32
  | .singleSimple _ => .ofNat size
  | .repeatedSimple v => .ofNat (4 + v.values.length * size)
  | .singleComplex v => 4 + v.len
  | .repeatedComplex v => v.values.foldl (fun len scfv => len + (4 + scfv.len)) (4 + 4)

end FieldValue

namespace Person

variable {schema : Schema types}

/-- One round of the loop over the ids, in 32-bit arithmetic. -/
def sumStep (p : Person schema) (size : Field types → UInt32) (len : UInt32) (id : ℕ) :
    Except Fault UInt32 := do
  let present ← isPresent p.bitmap id
  if !present then pure len
  else match p.values[id - 1]? with
    | some f => pure (len + size f)
    | none => throw .outOfRange

def sumPresent (p : Person schema) (size : Field types → UInt32) : Except Fault UInt32 :=
  (List.range' 1 32).foldlM (p.sumStep size) 0

def getIOVecLen (p : Person schema) : Except Fault UInt32 := p.sumPresent fun f => f.value.iovecLen

def getBufLen (p : Person schema) : Except Fault UInt32 := p.sumPresent fun f => f.value.bufLen

end Person

def load (obj : Bytes) (n : ℕ) : Except Fault Bytes :=
  if n ≤ obj.length then pure (obj.take n) else throw .overread

def copyNext (c : Cursor UInt8) (obj : Bytes) (n : ℕ) : Except Fault (Cursor UInt8) := do
  let bytes ← load obj n
  match c.write bytes with
  | some c => pure c
  | none => throw .overflow

def copyAt (c : Cursor UInt8) (pos : ℕ) (obj : Bytes) (n : ℕ) : Except Fault (Cursor UInt8) := do
  let bytes ← load obj n
  match c.patch pos bytes with
  | some c => pure c
  | none => throw .overflow

def copyItems (size : ℕ) : List Bytes → Cursor UInt8 → Except Fault (Cursor UInt8)
  | [], c => pure c
  | item :: rest, c => do
    let c ← copyNext c item size
    copyItems size rest c

/-- The items of a complex list, with the sum in `list_header_[1]`. -/
def copyElements : List SingleComplexFieldValue → UInt32 → Cursor UInt8 →
    Except Fault (UInt32 × Cursor UInt8)
  | [], listLen, c => pure (listLen, c)
  | scfv :: rest, listLen, c => do
    let c ← copyNext c (u32Bytes scfv.len) 4
    let c ← copyNext c scfv.val scfv.len.toNat
    copyElements rest (listLen + 4 + scfv.len) c

def FieldValue.copy {size : ℕ} {complex repeated : Bool} :
    FieldValue size complex repeated → Cursor UInt8 →
      Except Fault (FieldValue size complex repeated × Cursor UInt8)
  | .singleSimple v, c => do
    let c ← copyNext c v.data size
    pure (.singleSimple v, c)
  | .repeatedSimple v, c => do
    let v := { v with listSize := .ofNat v.values.length }
    let c ← copyNext c (u32Bytes v.listSize) 4
    let c ← copyItems size v.values c
    pure (.repeatedSimple v, c)
  | .singleComplex v, c => do
    let c ← copyNext c (u32Bytes v.len) 4
    let c ← copyNext c v.val v.len.toNat
    pure (.singleComplex v, c)
  | .repeatedComplex v, c => do
    let listLenOffset := c.pos + 4
    -- the header is copied with a zero that is patched after the items
    let c ← copyNext c (u32Bytes v.len ++ u32Bytes 0) 8
    let (listLen, c) ← copyElements v.values 0 c
    let c ← copyAt c listLenOffset (u32Bytes listLen) 4
    pure (.repeatedComplex { v with listHeader := (v.len, listLen) }, c)

def Field.copy (f : Field types) (c : Cursor UInt8) :
    Except Fault (Field types × Cursor UInt8) := do
  let (value, c) ← f.value.copy c
  pure ({ f with value }, c)

/-- `malloc`: a block of the size asked for that holds anything. -/
structure Malloc where
  block : ℕ → Bytes
  length_block : ∀ n, (block n).length = n

/-- The field values afterwards, and the bytes passed to `Write`. -/
def Person.serializeAndWriteCOPY [DecidableEq τ] {schema : Schema types} (malloc : Malloc)
    (p : Person schema) : Except Fault (List (Field types) × Bytes) := do
  let bufLen ← p.getBufLen
  let buf := malloc.block (4 + bufLen).toNat
  let c ← copyNext ⟨buf, 0⟩ (u32Bytes p.bitmap) 4
  let (values, c) ← visitPresent p.bitmap (fun _ f c => f.copy c) 0 p.values c
  pure (values, c.buf)

inductive Part where
  | basePtr
  | listSize
  | item (j : ℕ)
  | len
  | val
  | listHeader
  | itemLen (j : ℕ)
  | itemVal (j : ℕ)
  deriving DecidableEq, Repr

inductive Ref where
  | bitmap
  | member (i : ℕ) (part : Part)
  deriving DecidableEq, Repr

structure Iov where
  base : Ref
  len : ℕ
  deriving DecidableEq, Repr

/-- `iov` and `iov_idx`, no entry being initialised before it is written, and `offset`. -/
structure Table where
  iov : Cursor (Option Iov)
  offset : UInt32

def Table.push (t : Table) (base : Ref) (len : ℕ) : Except Fault Table :=
  match t.iov.write [some ⟨base, len⟩] with
  | some iov => pure ⟨iov, t.offset + .ofNat len⟩
  | none => throw .overflow

def fillItems (i size : ℕ) : ℕ → List Bytes → Table → Except Fault Table
  | _, [], t => pure t
  | j, _ :: rest, t => do
    let t ← t.push (.member i (.item j)) size
    fillItems i size (j + 1) rest t

def fillElements (i : ℕ) : ℕ → List SingleComplexFieldValue → UInt32 → Table →
    Except Fault (UInt32 × Table)
  | _, [], listLen, t => pure (listLen, t)
  | j, scfv :: rest, listLen, t => do
    let t ← t.push (.member i (.itemLen j)) 4
    let t ← t.push (.member i (.itemVal j)) scfv.len.toNat
    fillElements i (j + 1) rest (listLen + 4 + scfv.len) t

def FieldValue.fill {size : ℕ} {complex repeated : Bool} (i : ℕ) :
    FieldValue size complex repeated → Table →
      Except Fault (FieldValue size complex repeated × Table)
  | .singleSimple v, t => do
    let t ← t.push (.member i .basePtr) size
    pure (.singleSimple v, t)
  | .repeatedSimple v, t => do
    let v := { v with listSize := .ofNat v.values.length }
    let t ← t.push (.member i .listSize) 4
    let t ← fillItems i size 0 v.values t
    pure (.repeatedSimple v, t)
  | .singleComplex v, t => do
    let t ← t.push (.member i .len) 4
    let t ← t.push (.member i .val) v.len.toNat
    pure (.singleComplex v, t)
  | .repeatedComplex v, t => do
    let t ← t.push (.member i .listHeader) 8
    -- the header gets its values after the entry that refers to it
    let (listLen, t) ← fillElements i 0 v.values 0 t
    pure (.repeatedComplex { v with listHeader := (v.len, listLen) }, t)

def Field.fill (i : ℕ) (f : Field types) (t : Table) : Except Fault (Field types × Table) := do
  let (value, t) ← f.value.fill i t
  pure ({ f with value }, t)

def FieldValue.object {size : ℕ} {complex repeated : Bool} :
    FieldValue size complex repeated → Part → Option Bytes
  | .singleSimple v, .basePtr => some v.data
  | .repeatedSimple v, .listSize => some (u32Bytes v.listSize)
  | .repeatedSimple v, .item j => v.values[j]?
  | .singleComplex v, .len => some (u32Bytes v.len)
  | .singleComplex v, .val => some v.val
  | .repeatedComplex v, .listHeader => some (u32Bytes v.listHeader.1 ++ u32Bytes v.listHeader.2)
  | .repeatedComplex v, .itemLen j => v.values[j]?.map fun scfv => u32Bytes scfv.len
  | .repeatedComplex v, .itemVal j => v.values[j]?.map SingleComplexFieldValue.val
  | _, _ => none

/-- What a reference leads to at the moment it is followed. -/
def deref (bitmap : UInt32) (values : List (Field types)) : Ref → Option Bytes
  | .bitmap => some (u32Bytes bitmap)
  | .member i part => values[i]?.bind fun f => f.value.object part

/-- What the kernel gathers from the table. -/
def gather (object : Ref → Option Bytes) : List (Option Iov) → Except Fault Bytes
  | [] => pure []
  | none :: _ => throw .uninitialised
  | some iov :: rest =>
    match object iov.base with
    | none => throw .outOfRange
    | some obj => do
      let bytes ← load obj iov.len
      let out ← gather object rest
      pure (bytes ++ out)

/-- The field values afterwards, and the bytes that `sendmsg_ZC` gathers. -/
def Person.serializeAndWriteZC [DecidableEq τ] {schema : Schema types} (p : Person schema) :
    Except Fault (List (Field types) × Bytes) := do
  let iovecLen ← p.getIOVecLen
  let iovLen := 1 + iovecLen
  let t ← Table.push ⟨⟨List.replicate iovLen.toNat none, 0⟩, 0⟩ .bitmap 4
  let (values, t) ← visitPresent p.bitmap Field.fill 0 p.values t
  let bytes ← gather (deref p.bitmap values) t.iov.buf
  pure (values, bytes)

/-- The field values afterwards, and the bytes that `Writev` gathers. Without
`TEST_USER` nothing pads the message to `BUFFER_SIZE` before the assertion. -/
def Person.serializeAndWriteSG [DecidableEq τ] {schema : Schema types} (bufferSize : ℕ)
    (p : Person schema) : Except Fault (List (Field types) × Bytes) := do
  let iovecLen ← p.getIOVecLen
  let iovLen := 1 + iovecLen
  let t ← Table.push ⟨⟨List.replicate iovLen.toNat none, 0⟩, 0⟩ .bitmap 4
  let (values, t) ← visitPresent p.bitmap Field.fill 0 p.values t
  if t.offset.toNat ≠ bufferSize then throw .assertion
  let bytes ← gather (deref p.bitmap values) t.iov.buf
  pure (values, bytes)

end MuStore.User
