import MuStore.Person
import MuStore.Library.Runs

namespace MuStore.User

variable {τ : Type} {types : TypeHelper τ} {size : ℕ} {complex repeated : Bool}

def SingleComplexFieldValue.wire (v : SingleComplexFieldValue) : Bytes := u32Bytes v.len ++ v.val

namespace FieldValue

def wire : FieldValue size complex repeated → Bytes
  | .singleSimple v => v.data.take size
  | .repeatedSimple v => u32Bytes (.ofNat v.values.length) ++ v.values.flatten
  | .singleComplex v => v.wire
  | .repeatedComplex v =>
    u32Bytes v.len ++ u32Bytes (.ofNat (v.values.flatMap SingleComplexFieldValue.wire).length) ++
      v.values.flatMap SingleComplexFieldValue.wire

def items : FieldValue size complex repeated → List Bytes
  | .singleSimple v => [v.data.take size]
  | .repeatedSimple v => v.values
  | .singleComplex v => [v.val]
  | .repeatedComplex v => v.values.map SingleComplexFieldValue.val

/-- Sending a field leaves its list header filled in. -/
def sent : FieldValue size complex repeated → FieldValue size complex repeated
  | .repeatedSimple v => .repeatedSimple { v with listSize := .ofNat v.values.length }
  | .repeatedComplex v =>
    .repeatedComplex { v with
      listHeader := (v.len, .ofNat (v.values.flatMap SingleComplexFieldValue.wire).length) }
  | v => v

end FieldValue

def Field.sent (f : Field types) : Field types := { f with value := f.value.sent }

def present (bitmap : UInt32) (id : ℕ) : Bool := bitmap &&& (1 <<< UInt32.ofNat (id - 1)) != 0

/-- What the present fields contribute, each with its position. -/
def output {α : Type} (bitmap : UInt32) (out : ℕ → Field types → List α) :
    ℕ → List (Field types) → List α
  | _, [] => []
  | i, f :: rest =>
    (if present bitmap f.symbol.id then out i f else []) ++ output bitmap out (i + 1) rest

def afterwards (bitmap : UInt32) (l : List (Field types)) : List (Field types) :=
  l.map fun f => if present bitmap f.symbol.id then f.sent else f

namespace Person

variable {schema : Schema types}

/-- The bitmap, then for each present member its value, its counted list, its sized
bytes, or its counted and sized list of sized bytes. -/
def wire (p : Person schema) : Bytes :=
  u32Bytes p.bitmap ++ output p.bitmap (fun _ f => f.value.wire) 0 p.values

def encodedSize (p : Person schema) : ℕ := p.wire.length

/-- The bits that are set name members only. -/
def BitsNameMembers (p : Person schema) : Prop :=
  ∀ id, isPresent p.bitmap id = .ok true → id ≤ schema.members.length

end Person

@[simp] theorem length_u32Bytes (x : UInt32) : (u32Bytes x).length = 4 := rfl

theorem toNat_add_ofNat {k n : ℕ} (h : k + n < 2 ^ 32) :
    (UInt32.ofNat k + UInt32.ofNat n).toNat = k + n := by
  rw [← UInt32.ofNat_add]
  exact UInt32.toNat_ofNat_of_lt' h

theorem u32Bytes_injective : Function.Injective u32Bytes := by
  intro x y h
  simp only [u32Bytes, List.cons.injEq, and_true, ← UInt8.toNat_inj, UInt32.toNat_toUInt8,
    UInt32.toNat_shiftRight] at h
  obtain ⟨h₀, h₁, h₂, h₃⟩ := h
  have hx := x.toNat_lt
  have hy := y.toNat_lt
  rw [← UInt32.toNat_inj]
  simp only [Nat.shiftRight_eq_div_pow] at h₁ h₂ h₃
  have h8 : UInt32.toNat 8 % 32 = 8 := rfl
  have h16 : UInt32.toNat 16 % 32 = 16 := rfl
  have h24 : UInt32.toNat 24 % 32 = 24 := rfl
  rw [h8] at h₁
  rw [h16] at h₂
  rw [h24] at h₃
  omega

theorem SingleComplexFieldValue.len_eq_ofNat (v : SingleComplexFieldValue) :
    v.len = .ofNat v.val.length := by
  rw [← v.len_eq, UInt32.ofNat_toNat]

@[simp] theorem SingleComplexFieldValue.length_wire (v : SingleComplexFieldValue) :
    v.wire.length = 4 + v.val.length := by
  rw [wire, List.length_append, length_u32Bytes]

theorem isPresent_of_lt {id : ℕ} (h : 0 < id ∧ id < 33) (bitmap : UInt32) :
    isPresent bitmap id = .ok (present bitmap id) := by
  rw [isPresent, getMask, if_pos h]
  rfl

theorem isPresent_eq_ok {bitmap : UInt32} {id : ℕ} {b : Bool} (h : isPresent bitmap id = .ok b) :
    (0 < id ∧ id < 33) ∧ b = present bitmap id := by
  by_cases hid : 0 < id ∧ id < 33
  · rw [isPresent_of_lt hid, Except.ok.injEq] at h
    exact ⟨hid, h.symm⟩
  · rw [isPresent, getMask, if_neg hid] at h
    cases h

theorem Person.bitsNameMembers_of_forall {schema : Schema types} {p : Person schema}
    (h : ∀ id ∈ List.range' 1 32, present p.bitmap id = true → id ≤ schema.members.length) :
    p.BitsNameMembers := by
  intro id hid
  obtain ⟨hbounds, hp⟩ := isPresent_eq_ok hid
  refine h id ?_ hp.symm
  rw [List.mem_range'_1]
  omega

/-- A field whose symbol is one of a schema of at most 32 members. -/
structure Field.Admitted (f : Field types) : Prop where
  id_bounds : 0 < f.symbol.id ∧ f.symbol.id < 33
  ne_message : f.symbol.type ≠ types.typeMessage

section Visit

variable [DecidableEq τ] {σ α : Type} {bitmap : UInt32}
  {visit : ℕ → Field types → σ → Except Fault (Field types × σ)} {f : Field types}
  {l : List (Field types)} {i : ℕ} {s s' s₁ s₂ : σ}

theorem visitPresent_cons_of_absent (hf : f.Admitted) (hp : present bitmap f.symbol.id = false)
    (hrest : visitPresent bitmap visit (i + 1) l s = .ok (afterwards bitmap l, s₁)) :
    visitPresent bitmap visit i (f :: l) s = .ok (afterwards bitmap (f :: l), s₁) := by
  simp only [visitPresent, isPresent_of_lt hf.id_bounds, hp, bind, Except.bind, pure, Except.pure,
    Bool.not_false, if_true, hrest]
  simp [afterwards, hp]

theorem visitPresent_cons_of_present (hf : f.Admitted) (hp : present bitmap f.symbol.id = true)
    (hone : visit i f s = .ok (f.sent, s₁))
    (hrest : visitPresent bitmap visit (i + 1) l s₁ = .ok (afterwards bitmap l, s₂)) :
    visitPresent bitmap visit i (f :: l) s = .ok (afterwards bitmap (f :: l), s₂) := by
  simp only [visitPresent, isPresent_of_lt hf.id_bounds, hp, bind, Except.bind, pure, Except.pure,
    Bool.not_true, Bool.false_eq_true, if_false, if_neg hf.ne_message, hone, hrest]
  simp [afterwards, hp]

/-- A visit that puts out `out i f` with room for it, and leaves the field sent, makes
a loop that puts out the present fields one after another. -/
theorem visitPresent_spec (At : σ → List α → ℕ → Prop) (out : ℕ → Field types → List α)
    (hl : ∀ f ∈ l, f.Admitted)
    (hvisit : ∀ f ∈ l, ∀ {i s w room}, At s w ((out i f).length + room) →
      ∃ s', visit i f s = .ok (f.sent, s') ∧ At s' (w ++ out i f) room)
    {w : List α} {room : ℕ} (h : At s w ((output bitmap out i l).length + room)) :
    ∃ s', visitPresent bitmap visit i l s = .ok (afterwards bitmap l, s') ∧
      At s' (w ++ output bitmap out i l) room := by
  induction l generalizing i s w with
  | nil =>
    refine ⟨s, rfl, ?_⟩
    simpa [output] using h
  | cons f l ih =>
    have hf := hl f (by simp)
    have hrest {i : ℕ} {s : σ} :=
      @ih i s (fun f hf => hl f (by simp [hf])) (fun f hf => hvisit f (by simp [hf]))
    cases hp : present bitmap f.symbol.id with
    | false =>
      have hout : output bitmap out i (f :: l) = output bitmap out (i + 1) l := by
        simp [output, hp]
      rw [hout] at h ⊢
      obtain ⟨s', hrun, hat⟩ := hrest h
      exact ⟨s', visitPresent_cons_of_absent hf hp hrun, hat⟩
    | true =>
      have hout : output bitmap out i (f :: l) = out i f ++ output bitmap out (i + 1) l := by
        simp [output, hp]
      rw [hout, List.length_append, Nat.add_assoc] at h
      obtain ⟨s₁, hone, hat₁⟩ := hvisit f (by simp) h
      obtain ⟨s₂, hrun, hat₂⟩ := hrest hat₁
      rw [List.append_assoc, ← hout] at hat₂
      exact ⟨s₂, visitPresent_cons_of_present hf hp hone hrun, hat₂⟩

theorem visitPresent_cons_eq_ok {l' : List (Field types)}
    (h : visitPresent bitmap visit i (f :: l) s = .ok (l', s₂)) :
    f.symbol.id < 33 ∧ ∃ s₁ l₁, visitPresent bitmap visit (i + 1) l s₁ = .ok (l₁, s₂) ∧
      if present bitmap f.symbol.id then ∃ f', visit i f s = .ok (f', s₁) else s₁ = s := by
  obtain ⟨b, hb, hrest⟩ := bind_eq_ok.mp h
  obtain ⟨hid, rfl⟩ := isPresent_eq_ok hb
  refine ⟨hid.2, ?_⟩
  cases hp : present bitmap f.symbol.id with
  | false =>
    rw [hp] at hrest
    obtain ⟨⟨f', s₁⟩, hpure, hrest⟩ := bind_eq_ok.mp
      (show (pure (f, s) : Except Fault (Field types × σ)) >>= _ = _ from hrest)
    cases hpure
    obtain ⟨⟨l₁, s₂⟩, hloop, hpure⟩ := bind_eq_ok.mp hrest
    cases hpure
    exact ⟨s, l₁, hloop, rfl⟩
  | true =>
    rw [hp] at hrest
    simp only [Bool.not_true, Bool.false_eq_true, if_false] at hrest
    split_ifs at hrest
    · cases hrest
    · obtain ⟨⟨f', s₁⟩, hvisit, hrest⟩ := bind_eq_ok.mp hrest
      obtain ⟨⟨l₁, s₂⟩, hloop, hpure⟩ := bind_eq_ok.mp hrest
      cases hpure
      exact ⟨s₁, l₁, hloop, f', hvisit⟩

/-- A loop that goes through has found every id below 33, and the visits of the present
fields together have brought the state where it is. -/
theorem visitPresent_through (Step : σ → List α → σ → Prop) (out : ℕ → Field types → List α)
    (hnil : ∀ s, Step s [] s)
    (happend : ∀ {s s₁ s₂ w w'}, Step s w s₁ → Step s₁ w' s₂ → Step s (w ++ w') s₂)
    (hvisit : ∀ f ∈ l, ∀ {i s f' s'}, visit i f s = .ok (f', s') → Step s (out i f) s')
    {l' : List (Field types)} (h : visitPresent bitmap visit i l s = .ok (l', s')) :
    (∀ f ∈ l, f.symbol.id < 33) ∧ Step s (output bitmap out i l) s' := by
  induction l generalizing i s l' with
  | nil =>
    cases h
    exact ⟨fun f hf => (List.not_mem_nil hf).elim, hnil _⟩
  | cons f l ih =>
    obtain ⟨hid, s₁, l₁, hloop, hone⟩ := visitPresent_cons_eq_ok h
    obtain ⟨hids, hrest⟩ := ih (fun f hf => hvisit f (by simp [hf])) hloop
    refine ⟨List.forall_mem_cons.mpr ⟨hid, hids⟩, ?_⟩
    rw [output]
    cases hp : present bitmap f.symbol.id with
    | false =>
      rw [hp] at hone
      have hs : s₁ = s := hone
      rw [hs] at hrest
      exact hrest
    | true =>
      rw [hp] at hone
      obtain ⟨f', hone⟩ := hone
      exact happend (hvisit f (by simp) hone) hrest

end Visit

namespace Person

variable {schema : Schema types}

theorem length_values (p : Person schema) : p.values.length = schema.members.length := by
  rw [← p.symbols, List.length_map]

theorem symbol_id_eq (p : Person schema) {i : ℕ} {f : Field types} (hf : p.values[i]? = some f) :
    f.symbol.id = i + 1 := by
  apply schema.id_eq
  rw [← p.symbols, List.getElem?_map, hf, Option.map_some]

theorem admitted (p : Person schema) (hlen : schema.members.length ≤ 32) {f : Field types}
    (hf : f ∈ p.values) : f.Admitted := by
  obtain ⟨i, hi, hget⟩ := List.getElem_of_mem hf
  have hid := p.symbol_id_eq (List.getElem?_eq_some_iff.mpr ⟨hi, hget⟩)
  rw [p.length_values] at hi
  refine ⟨by omega, schema.ne_message _ ?_⟩
  rw [← p.symbols]
  exact List.mem_map_of_mem hf

theorem length_members_le (p : Person schema) (hids : ∀ f ∈ p.values, f.symbol.id < 33) :
    schema.members.length ≤ 32 := by
  by_contra hlen
  have hlast : 32 < p.values.length := by
    rw [p.length_values]
    omega
  have hid := p.symbol_id_eq (List.getElem?_eq_getElem hlast)
  have hlt := hids _ (List.getElem_mem hlast)
  omega

theorem foldlM_sumStep_of_absent (p : Person schema) (size : Field types → UInt32) {ids : List ℕ}
    (hids : ∀ id ∈ ids, isPresent p.bitmap id = .ok false) (len : UInt32) :
    ids.foldlM (p.sumStep size) len = .ok len := by
  induction ids with
  | nil => rfl
  | cons id ids ih =>
    have hstep : p.sumStep size len id = .ok len := by
      rw [sumStep, hids id (by simp)]
      rfl
    rw [run_cons hstep, ih fun id h => hids id (by simp [h])]

theorem foldlM_sumStep_of_drop (p : Person schema) (hlen : schema.members.length ≤ 32)
    {α : Type} {size : Field types → UInt32} {out : ℕ → Field types → List α}
    (hsize : ∀ i f, f.Admitted → size f = .ofNat (out i f).length) {l : List (Field types)} {i : ℕ}
    (hl : p.values.drop i = l) (len : UInt32) :
    (List.range' (i + 1) l.length).foldlM (p.sumStep size) len =
      .ok (len + .ofNat (output p.bitmap out i l).length) := by
  induction l generalizing i len with
  | nil => simp [output]; rfl
  | cons f l ih =>
    have hget : p.values[i]? = some f := by
      rw [← List.head?_drop, hl]
      rfl
    have hid := p.symbol_id_eq hget
    have hf := p.admitted hlen (List.mem_of_getElem? hget)
    have hdrop : p.values.drop (i + 1) = l := by
      rw [← List.tail_drop, hl, List.tail_cons]
    have hstep : p.sumStep size len (i + 1) =
        .ok (len + if present p.bitmap f.symbol.id then size f else 0) := by
      rw [← hid, sumStep, isPresent_of_lt hf.id_bounds, hid, Nat.add_sub_cancel, hget]
      cases present p.bitmap (i + 1) <;> simp [bind, Except.bind, pure, Except.pure]
    rw [List.length_cons, List.range'_succ, run_cons hstep, ih hdrop, output, List.length_append,
      UInt32.ofNat_add, UInt32.add_assoc]
    cases present p.bitmap f.symbol.id
    · simp
    · simp [hsize i f hf]

/-- The loop over the ids counts what the loop over the fields puts out. -/
theorem sumPresent_spec (p : Person schema) (hlen : schema.members.length ≤ 32)
    (hbits : p.BitsNameMembers) {α : Type} {size : Field types → UInt32}
    {out : ℕ → Field types → List α}
    (hsize : ∀ i f, f.Admitted → size f = .ofNat (out i f).length) :
    p.sumPresent size = .ok (.ofNat (output p.bitmap out 0 p.values).length) := by
  have hsplit : List.range' 1 32 =
      List.range' 1 p.values.length ++
        List.range' (1 + p.values.length) (32 - p.values.length) := by
    rw [List.range'_append_1, p.length_values]
    congr 1
    omega
  have hmembers := p.foldlM_sumStep_of_drop hlen hsize (l := p.values) (i := 0) rfl 0
  rw [Nat.zero_add, UInt32.zero_add] at hmembers
  rw [sumPresent, hsplit, List.foldlM_append, hmembers]
  apply p.foldlM_sumStep_of_absent size
  intro id hid
  rw [List.mem_range'_1, p.length_values] at hid
  rw [isPresent_of_lt (by omega)]
  cases hp : present p.bitmap id with
  | false => rfl
  | true =>
    have hle := hbits id (by rw [isPresent_of_lt (by omega), hp])
    omega

end Person

section Copy

variable {c : Cursor UInt8} {w : Bytes} {room : ℕ}

theorem length_of_load {obj bytes : Bytes} {n : ℕ} (h : load obj n = .ok bytes) :
    bytes.length = n := by
  unfold load at h
  split_ifs at h with hn
  cases h
  rw [List.length_take, Nat.min_eq_left hn]

theorem copyNext_spec {obj : Bytes} {n : ℕ} (hn : n ≤ obj.length) (h : c.At w (n + room)) :
    ∃ c', copyNext c obj n = .ok c' ∧ c'.At (w ++ obj.take n) room := by
  have hlen : (obj.take n).length = n := by
    rw [List.length_take]
    omega
  obtain ⟨c', hwrite, hat⟩ := Cursor.At.write (obj.take n) (by rwa [hlen])
  refine ⟨c', ?_, hat⟩
  rw [copyNext, load, if_pos hn]
  simp only [bind, Except.bind, pure, Except.pure, hwrite]

theorem copyNext_all {obj : Bytes} {n : ℕ} (hn : obj.length = n) (h : c.At w (n + room)) :
    ∃ c', copyNext c obj n = .ok c' ∧ c'.At (w ++ obj) room := by
  obtain ⟨c', hcopy, hat⟩ := copyNext_spec (Nat.le_of_eq hn.symm) h
  rw [← hn, List.take_length] at hat
  exact ⟨c', hcopy, hat⟩

theorem copyItems_spec {items : List Bytes} (hitems : ∀ item ∈ items, item.length = size)
    (h : c.At w (items.flatten.length + room)) :
    ∃ c', copyItems size items c = .ok c' ∧ c'.At (w ++ items.flatten) room := by
  induction items generalizing c w with
  | nil => exact ⟨c, rfl, by simpa using h⟩
  | cons item items ih =>
    have hitem := hitems item (by simp)
    rw [List.flatten_cons, List.length_append, hitem, Nat.add_assoc] at h
    obtain ⟨c₁, hcopy, hat₁⟩ := copyNext_all hitem h
    obtain ⟨c₂, hrest, hat₂⟩ := ih (fun item hi => hitems item (by simp [hi])) hat₁
    refine ⟨c₂, ?_, ?_⟩
    · rw [copyItems, hcopy]
      exact hrest
    · rwa [List.flatten_cons, ← List.append_assoc]

theorem copyComplex_spec {v : SingleComplexFieldValue} (h : c.At w (v.wire.length + room)) :
    ∃ c₁ c₂, copyNext c (u32Bytes v.len) 4 = .ok c₁ ∧ copyNext c₁ v.val v.len.toNat = .ok c₂ ∧
      c₂.At (w ++ v.wire) room := by
  rw [v.length_wire, Nat.add_assoc, ← v.len_eq] at h
  obtain ⟨c₁, hlen, hat₁⟩ := copyNext_all (length_u32Bytes v.len) h
  obtain ⟨c₂, hval, hat₂⟩ := copyNext_all v.len_eq.symm hat₁
  exact ⟨c₁, c₂, hlen, hval, by rwa [SingleComplexFieldValue.wire, ← List.append_assoc]⟩

theorem add_len_wire (listLen : UInt32) (v : SingleComplexFieldValue)
    (l : List SingleComplexFieldValue) :
    listLen + 4 + v.len + .ofNat (l.flatMap SingleComplexFieldValue.wire).length =
      listLen + .ofNat ((v :: l).flatMap SingleComplexFieldValue.wire).length := by
  rw [List.flatMap_cons, List.length_append, v.length_wire, UInt32.ofNat_add, UInt32.ofNat_add,
    ← v.len_eq_ofNat, UInt32.add_assoc, UInt32.add_assoc, UInt32.add_assoc]
  rfl

theorem copyElements_spec {l : List SingleComplexFieldValue} (listLen : UInt32)
    (h : c.At w ((l.flatMap SingleComplexFieldValue.wire).length + room)) :
    ∃ c', copyElements l listLen c =
        .ok (listLen + .ofNat (l.flatMap SingleComplexFieldValue.wire).length, c') ∧
      c'.At (w ++ l.flatMap SingleComplexFieldValue.wire) room := by
  induction l generalizing c w listLen with
  | nil =>
    refine ⟨c, ?_, by simpa using h⟩
    simp [copyElements, pure, Except.pure]
  | cons v l ih =>
    rw [List.flatMap_cons, List.length_append, Nat.add_assoc] at h
    obtain ⟨c₁, c₂, hlen, hval, hat⟩ := copyComplex_spec h
    obtain ⟨c₃, hrest, hat'⟩ := ih (listLen + 4 + v.len) hat
    refine ⟨c₃, ?_, ?_⟩
    · simp only [copyElements, bind, Except.bind, hlen, hval, hrest]
      rw [add_len_wire]
    · rwa [List.flatMap_cons, ← List.append_assoc]

theorem copyList_spec {l : List SingleComplexFieldValue} {body : Bytes}
    (hbody : l.flatMap SingleComplexFieldValue.wire = body) (len : UInt32)
    (h : c.At w (8 + (body.length + room))) :
    ∃ c₁ c₂ c₃, copyNext c (u32Bytes len ++ u32Bytes 0) 8 = .ok c₁ ∧
      copyElements l 0 c₁ = .ok (.ofNat body.length, c₂) ∧
      copyAt c₂ (c.pos + 4) (u32Bytes (.ofNat body.length)) 4 = .ok c₃ ∧
      c₃.At (w ++ (u32Bytes len ++ (u32Bytes (.ofNat body.length) ++ body))) room := by
  have hlength : (u32Bytes len ++ u32Bytes 0).length = 8 := rfl
  have hpos : c.pos + 4 = (w ++ u32Bytes len).length := by
    rw [h.pos, List.length_append, length_u32Bytes]
  obtain ⟨c₁, hheader, hat₁⟩ := copyNext_all hlength h
  rw [← hbody] at hat₁
  obtain ⟨c₂, helements, hat₂⟩ := copyElements_spec 0 hat₁
  rw [hbody, UInt32.zero_add] at helements
  rw [hbody, ← List.append_assoc w] at hat₂
  obtain ⟨c₃, hpatch, hat₃⟩ := hat₂.patch (u32Bytes (.ofNat body.length)) rfl
  refine ⟨c₁, c₂, c₃, hheader, helements, ?_, ?_⟩
  · have hload : load (u32Bytes (.ofNat body.length)) 4 = .ok (u32Bytes (.ofNat body.length)) := rfl
    simp only [copyAt, hload, hpos, hpatch, bind, Except.bind, pure, Except.pure]
  · rwa [List.append_assoc, List.append_assoc] at hat₃

/-- One field is copied in its wire format and left sent. -/
theorem FieldValue.copy_spec {v : FieldValue size complex repeated}
    (hsize : complex = false → size ≤ 8) (h : c.At w (v.wire.length + room)) :
    ∃ c', v.copy c = .ok (v.sent, c') ∧ c'.At (w ++ v.wire) room := by
  cases v with
  | singleSimple v =>
    have hle : size ≤ v.data.length := by
      rw [v.length_data]
      exact hsize rfl
    have hlen : (v.data.take size).length = size := by
      rw [List.length_take]
      omega
    simp only [wire, hlen] at h ⊢
    obtain ⟨c', hcopy, hat⟩ := copyNext_spec hle h
    exact ⟨c', by rw [copy, hcopy]; rfl, hat⟩
  | repeatedSimple v =>
    simp only [wire, List.length_append, length_u32Bytes, Nat.add_assoc] at h ⊢
    obtain ⟨c₁, hcount, hat₁⟩ := copyNext_all (length_u32Bytes (.ofNat v.values.length)) h
    obtain ⟨c₂, hitems, hat₂⟩ := copyItems_spec v.length_value hat₁
    refine ⟨c₂, ?_, by rwa [← List.append_assoc]⟩
    simp only [copy, bind, Except.bind, hcount, hitems]
    rfl
  | singleComplex v =>
    obtain ⟨c₁, c₂, hlen, hval, hat⟩ := copyComplex_spec h
    refine ⟨c₂, ?_, hat⟩
    simp only [copy, bind, Except.bind, hlen, hval]
    rfl
  | repeatedComplex v =>
    have h8 : c.At w (8 + ((v.values.flatMap SingleComplexFieldValue.wire).length + room)) := by
      rwa [wire, List.append_assoc, List.length_append, List.length_append, length_u32Bytes,
        length_u32Bytes, ← Nat.add_assoc 4 4, Nat.add_assoc] at h
    obtain ⟨c₁, c₂, c₃, hheader, helements, hpatch, hat⟩ := copyList_spec rfl v.len h8
    refine ⟨c₃, ?_, by rwa [wire, List.append_assoc (u32Bytes v.len)]⟩
    simp only [copy, bind, Except.bind, hheader, helements, hpatch]
    rfl

theorem Field.copy_spec {f : Field types}
    (hsize : types.isComplexType f.symbol.type = false → types.typeSize f.symbol.type ≤ 8)
    (h : c.At w (f.value.wire.length + room)) :
    ∃ c', f.copy c = .ok (f.sent, c') ∧ c'.At (w ++ f.value.wire) room := by
  obtain ⟨c', hcopy, hat⟩ := f.value.copy_spec hsize h
  exact ⟨c', by rw [copy, hcopy]; rfl, hat⟩

end Copy

theorem length_flatten_items {items : List Bytes} (hitems : ∀ item ∈ items, item.length = size) :
    items.flatten.length = items.length * size := by
  rw [List.length_flatten, List.map_congr_left hitems, List.map_const', List.sum_replicate_nat]

theorem foldl_len_eq (l : List SingleComplexFieldValue) (len : UInt32) :
    l.foldl (fun len scfv => len + (4 + scfv.len)) len =
      len + .ofNat (l.flatMap SingleComplexFieldValue.wire).length := by
  induction l generalizing len with
  | nil => simp
  | cons v l ih => rw [List.foldl_cons, ih, ← add_len_wire, UInt32.add_assoc len 4 v.len]

theorem Field.Admitted.typeSize_le {f : Field types} (hf : f.Admitted) :
    types.isComplexType f.symbol.type = false → types.typeSize f.symbol.type ≤ 8 :=
  fun h => (types.typeSize_simple hf.ne_message h).2

theorem FieldValue.bufLen_eq (hsize : complex = false → size ≤ 8)
    (v : FieldValue size complex repeated) : v.bufLen = .ofNat v.wire.length := by
  cases v with
  | singleSimple v =>
    have hle := hsize rfl
    rw [wire, List.length_take, v.length_data, Nat.min_eq_left hle]
    rfl
  | repeatedSimple v =>
    rw [wire, List.length_append, length_u32Bytes, length_flatten_items v.length_value]
    rfl
  | singleComplex v =>
    rw [wire, v.length_wire, UInt32.ofNat_add, ← v.len_eq_ofNat]
    rfl
  | repeatedComplex v =>
    rw [wire, List.length_append, List.length_append, length_u32Bytes, length_u32Bytes,
      UInt32.ofNat_add, bufLen, foldl_len_eq]
    rfl

namespace Person

variable {schema : Schema types}

theorem encodedSize_eq (p : Person schema) :
    p.encodedSize = 4 + (output p.bitmap (fun _ f => f.value.wire) 0 p.values).length := by
  rw [encodedSize, wire, List.length_append, length_u32Bytes]

theorem getBufLen_eq (p : Person schema) (hlen : schema.members.length ≤ 32)
    (hbits : p.BitsNameMembers) :
    p.getBufLen = .ok (.ofNat (output p.bitmap (fun _ f => f.value.wire) 0 p.values).length) :=
  p.sumPresent_spec hlen hbits fun _ f hf => f.value.bufLen_eq hf.typeSize_le

/-- The copying method fills its buffer with the message. -/
theorem serializeAndWriteCOPY_eq [DecidableEq τ] (p : Person schema)
    (hlen : schema.members.length ≤ 32) (hbits : p.BitsNameMembers)
    (hsize : p.encodedSize < 2 ^ 32) (malloc : Malloc) :
    p.serializeAndWriteCOPY malloc = .ok (afterwards p.bitmap p.values, p.wire) := by
  rw [encodedSize_eq] at hsize
  have hbuf := p.getBufLen_eq hlen hbits
  generalize hout : output p.bitmap (fun _ f => f.value.wire) 0 p.values = out at hsize hbuf
  have hfour : (4 + UInt32.ofNat out.length).toNat = 4 + out.length := toNat_add_ofNat hsize
  have hstart := Cursor.at_start (malloc.block (4 + out.length))
  rw [malloc.length_block] at hstart
  obtain ⟨c₁, hbitmap, hat₁⟩ := copyNext_all (length_u32Bytes p.bitmap) hstart
  have hroom : c₁.At ([] ++ u32Bytes p.bitmap)
      ((output p.bitmap (fun _ f => f.value.wire) 0 p.values).length + 0) := by
    rwa [hout, Nat.add_zero]
  obtain ⟨c₂, hfields, hat₂⟩ := visitPresent_spec Cursor.At (fun _ f => f.value.wire)
    (fun f hf => p.admitted hlen hf)
    (fun f hf _ _ _ _ hat => f.copy_spec (p.admitted hlen hf).typeSize_le hat) hroom
  rw [List.nil_append] at hat₂
  simp only [serializeAndWriteCOPY, hbuf, bind, Except.bind, hfour, hbitmap, hfields, pure,
    Except.pure, hat₂.buf_eq, Person.wire]

end Person

end MuStore.User

namespace MuStore.User.Sample

inductive Kind where
  | int32
  | string
  | message
  deriving DecidableEq

def types : TypeHelper Kind where
  typeMessage := .message
  isComplexType t := t == .string
  typeSize t := if t = .int32 then 4 else 8
  typeSize_simple := by
    intro t _ _
    cases t <;> decide

def schema : Schema types where
  members := [⟨.string, false, 1⟩, ⟨.int32, true, 2⟩, ⟨.string, true, 3⟩, ⟨.int32, false, 4⟩]
  id_eq := by
    intro i sym h
    rcases i with _ | _ | _ | _ | i <;> simp at h <;> subst h <;> rfl
  ne_message := by decide

def ab : SingleComplexFieldValue := ⟨ascii "ab", 2, rfl⟩

def person (stale : UInt8) : Person schema where
  values := [⟨⟨.string, false, 1⟩, .singleComplex ab⟩,
    ⟨⟨.int32, true, 2⟩, .repeatedSimple ⟨[[1, 0, 0, 0], [2, 0, 0, 0]], by decide, stale.toUInt32⟩⟩,
    ⟨⟨.string, true, 3⟩, .repeatedComplex ⟨[ab, ab], 2, rfl, (stale.toUInt32, 0)⟩⟩,
    ⟨⟨.int32, false, 4⟩, .singleSimple ⟨[1, 2, 3, 4, stale, stale, stale, stale], rfl⟩⟩]
  symbols := rfl
  bitmap := 15

example : (person 7).wire =
    [15, 0, 0, 0] ++ [2, 0, 0, 0, 97, 98] ++ [2, 0, 0, 0, 1, 0, 0, 0, 2, 0, 0, 0] ++
      [2, 0, 0, 0, 12, 0, 0, 0, 2, 0, 0, 0, 97, 98, 2, 0, 0, 0, 97, 98] ++ [1, 2, 3, 4] := by
  decide

theorem bitsNameMembers (stale : UInt8) : (person stale).BitsNameMembers := by
  apply Person.bitsNameMembers_of_forall
  change ∀ id ∈ List.range' 1 32, present 15 id = true → id ≤ 4
  decide

def zeroed : Malloc := ⟨fun n => List.replicate n 0, by simp⟩

end MuStore.User.Sample
