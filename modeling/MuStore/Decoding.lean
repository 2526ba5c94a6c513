import MuStore.WireFormat
import MuStore.Library.SelfDelimiting

namespace MuStore.User

variable {τ : Type} {types : TypeHelper τ} {size : ℕ} {complex repeated : Bool}

theorem selfDelimiting_u32Bytes {α : Type} (R : α → α → Prop) (word : α → UInt32) :
    SelfDelimiting R (fun a => u32Bytes (word a)) word := by
  apply (SelfDelimiting.of_length fun _ _ _ => rfl).map
  intro a a' _ h
  exact u32Bytes_injective h

theorem SingleComplexFieldValue.selfDelimiting :
    SelfDelimiting (fun _ _ => True) SingleComplexFieldValue.wire SingleComplexFieldValue.val := by
  apply (selfDelimiting_u32Bytes _ SingleComplexFieldValue.len).append
  apply SelfDelimiting.of_length
  rintro v v' ⟨-, hlen⟩
  rw [← v.len_eq, ← v'.len_eq, hlen]

theorem RepeatedSimpleFieldValue.selfDelimiting :
    SelfDelimiting
      (fun v v' : RepeatedSimpleFieldValue size =>
        v.values.length < 2 ^ 32 ∧ v'.values.length < 2 ^ 32)
      (fun v => u32Bytes (.ofNat v.values.length) ++ v.values.flatten)
      RepeatedSimpleFieldValue.values := by
  apply (selfDelimiting_u32Bytes _
    fun v : RepeatedSimpleFieldValue size => .ofNat v.values.length).append
  have hitems : SelfDelimiting (List.Forall₂ fun a a' : Bytes => a.length = a'.length)
      (fun l => l.flatten) (fun l => l) := by
    have hitem : SelfDelimiting (fun a a' : Bytes => a.length = a'.length) id id :=
      SelfDelimiting.of_length fun _ _ h => h
    simpa only [List.flatMap_id, List.map_id] using hitem.flatMap
  apply (hitems.comap RepeatedSimpleFieldValue.values).mono
  rintro v v' ⟨⟨hlt, hlt'⟩, hcount⟩
  have hlength : v.values.length = v'.values.length := by
    have h := congrArg UInt32.toNat hcount
    rwa [UInt32.toNat_ofNat', UInt32.toNat_ofNat', Nat.mod_eq_of_lt hlt,
      Nat.mod_eq_of_lt hlt'] at h
  rw [List.forall₂_iff_get]
  refine ⟨hlength, ?_⟩
  intro i hi hi'
  rw [v.length_value _ (List.get_mem _ _), v'.length_value _ (List.get_mem _ _)]

theorem RepeatedComplexFieldValue.selfDelimiting :
    SelfDelimiting (fun _ _ => True)
      (fun v : RepeatedComplexFieldValue =>
        u32Bytes v.len ++
          u32Bytes (.ofNat (v.values.flatMap SingleComplexFieldValue.wire).length) ++
          v.values.flatMap SingleComplexFieldValue.wire)
      (fun v => v.values.map SingleComplexFieldValue.val) := by
  apply SelfDelimiting.append (c := RepeatedComplexFieldValue.len)
  · apply (SelfDelimiting.of_length fun _ _ _ => rfl).map
    intro v v' _ h
    exact u32Bytes_injective (List.append_inj_left h rfl)
  · have hitems := SingleComplexFieldValue.selfDelimiting.flatMap
    apply (hitems.comap RepeatedComplexFieldValue.values).mono
    rintro v v' ⟨-, hlen⟩
    rw [List.forall₂_iff_get, ← v.len_eq, ← v'.len_eq, hlen]
    simp

theorem FieldValue.selfDelimiting (hsize : complex = false → 0 < size ∧ size ≤ 8) :
    SelfDelimiting
      (fun v v' : FieldValue size complex repeated =>
        v.wire.length < 2 ^ 32 ∧ v'.wire.length < 2 ^ 32)
      FieldValue.wire FieldValue.items := by
  intro v v' r r' ⟨hlt, hlt'⟩ heq
  cases v with
  | singleSimple v =>
    cases v' with
    | singleSimple v' =>
    have hle : size ≤ 8 := (hsize rfl).2
    have hdata : (v.data.take size).length = (v'.data.take size).length := by
      rw [List.length_take, List.length_take, v.length_data, v'.length_data]
    obtain ⟨hc, hr⟩ := List.append_inj heq hdata
    exact ⟨congrArg (fun item => [item]) hc, hr⟩
  | repeatedSimple v =>
    cases v' with
    | repeatedSimple v' =>
    have hpos : 0 < size := (hsize rfl).1
    have hbound {v : RepeatedSimpleFieldValue size}
        (h : (FieldValue.repeatedSimple v).wire.length < 2 ^ 32) : v.values.length < 2 ^ 32 := by
      rw [wire, List.length_append, length_u32Bytes, length_flatten_items v.length_value] at h
      have hle := Nat.le_mul_of_pos_right v.values.length hpos
      omega
    exact RepeatedSimpleFieldValue.selfDelimiting v v' r r' ⟨hbound hlt, hbound hlt'⟩ heq
  | singleComplex v =>
    cases v' with
    | singleComplex v' =>
    obtain ⟨hc, hr⟩ := SingleComplexFieldValue.selfDelimiting v v' r r' trivial heq
    exact ⟨congrArg (fun item => [item]) hc, hr⟩
  | repeatedComplex v =>
    cases v' with
    | repeatedComplex v' =>
    exact RepeatedComplexFieldValue.selfDelimiting v v' r r' trivial heq

theorem Field.selfDelimiting :
    SelfDelimiting
      (fun f f' : Field types => f.symbol = f'.symbol ∧ f.Admitted ∧
        f.value.wire.length < 2 ^ 32 ∧ f'.value.wire.length < 2 ^ 32)
      (fun f => f.value.wire) (fun f => f.value.items) := by
  rintro ⟨symbol, value⟩ ⟨symbol', value'⟩ r r' ⟨hsymbol, hf, hlt⟩ heq
  dsimp only at hsymbol
  subst hsymbol
  exact FieldValue.selfDelimiting (types.typeSize_simple hf.ne_message) value value' r r' hlt heq

theorem output_eq_flatMap {α : Type} (bitmap : UInt32) (out : Field types → List α) (i : ℕ)
    (l : List (Field types)) :
    output bitmap (fun _ f => out f) i l =
      l.flatMap fun f => if present bitmap f.symbol.id then out f else [] := by
  induction l generalizing i with
  | nil => rfl
  | cons f l ih => rw [output, ih, List.flatMap_cons]

namespace Person

variable {schema : Schema types}

def presentItems (p : Person schema) : List (Option (List Bytes)) :=
  p.values.map fun f => if present p.bitmap f.symbol.id then some f.value.items else none

theorem length_wire_le (p : Person schema) {f : Field types} (hf : f ∈ p.values)
    (hp : present p.bitmap f.symbol.id) : f.value.wire.length ≤ p.encodedSize := by
  have hsub := List.sublist_flatten_of_mem (List.mem_map_of_mem (f := fun f : Field types =>
    if present p.bitmap f.symbol.id then f.value.wire else []) hf)
  rw [if_pos hp, ← List.flatMap_def] at hsub
  rw [encodedSize_eq, output_eq_flatMap]
  exact hsub.length_le.trans (Nat.le_add_left _ 4)

theorem forall₂_values (p q : Person schema) :
    List.Forall₂ (fun f g : Field types => f ∈ p.values ∧ g ∈ q.values ∧ f.symbol = g.symbol)
      p.values q.values := by
  rw [List.forall₂_iff_get]
  refine ⟨by rw [p.length_values, q.length_values], ?_⟩
  intro i hi hi'
  refine ⟨List.get_mem _ _, List.get_mem _ _, ?_⟩
  have hp := List.getElem_map Field.symbol (l := p.values) (i := i) (h := by simpa using hi)
  have hq := List.getElem_map Field.symbol (l := q.values) (i := i) (h := by simpa using hi')
  simp only [p.symbols] at hp
  simp only [q.symbols] at hq
  exact hp.symm.trans hq

/-- A message short enough is read back from a stream that starts with it. -/
theorem selfDelimiting (hlen : schema.members.length ≤ 32) :
    SelfDelimiting (fun p q : Person schema => p.encodedSize < 2 ^ 32 ∧ q.encodedSize < 2 ^ 32)
      wire fun p => (p.bitmap, p.presentItems) := by
  have hfields : SelfDelimiting
      (fun p q : Person schema =>
        (p.encodedSize < 2 ^ 32 ∧ q.encodedSize < 2 ^ 32) ∧ p.bitmap = q.bitmap)
      (fun p => output p.bitmap (fun _ f => f.value.wire) 0 p.values) presentItems := by
    rintro p q r r' ⟨⟨hp, hq⟩, hbitmap⟩ heq
    rw [presentItems, presentItems]
    simp only [output_eq_flatMap, ← hbitmap] at heq ⊢
    -- two fields of one member are both present or both absent
    apply (SelfDelimiting.ite (R := fun f g : Field types =>
      f ∈ p.values ∧ g ∈ q.values ∧ f.symbol = g.symbol) ?_ ?_).flatMap _ _ r r'
      (forall₂_values p q) heq
    · rintro f g ⟨-, -, hsymbol⟩
      rw [hsymbol]
    · apply Field.selfDelimiting.mono
      rintro f g ⟨⟨hf, hg, hsymbol⟩, hpresent⟩
      refine ⟨hsymbol, p.admitted hlen hf, (p.length_wire_le hf hpresent).trans_lt hp, ?_⟩
      rw [hsymbol, hbitmap] at hpresent
      exact (q.length_wire_le hg hpresent).trans_lt hq
  intro p q r r' hpq heq
  simp only [wire, List.append_assoc] at heq
  obtain ⟨hbitmap, hrest⟩ := selfDelimiting_u32Bytes (fun _ _ => True) bitmap p q _ _ trivial heq
  obtain ⟨hitems, hr⟩ := hfields p q r r' ⟨hpq, hbitmap⟩ hrest
  exact ⟨Prod.ext hbitmap hitems, hr⟩

end Person

/-- Messages of one schema that are written alike are alike: the same members are
present, with the same items. -/
theorem Person.serializeAndWriteCOPY_unique [DecidableEq τ] {schema : Schema types}
    (p q : Person schema) (hlen : schema.members.length ≤ 32) (hp : p.BitsNameMembers)
    (hq : q.BitsNameMembers) (hps : p.encodedSize < 2 ^ 32) (hqs : q.encodedSize < 2 ^ 32)
    (malloc malloc' : Malloc) :
    ∃ values values' bytes bytes', p.serializeAndWriteCOPY malloc = .ok (values, bytes) ∧
      q.serializeAndWriteCOPY malloc' = .ok (values', bytes') ∧
      (bytes = bytes' → p.bitmap = q.bitmap ∧
        ∀ (i : ℕ) (f g : Field types), p.values[i]? = some f → q.values[i]? = some g →
          isPresent p.bitmap f.symbol.id = .ok true → f.value.items = g.value.items) := by
  refine ⟨_, _, _, _, p.serializeAndWriteCOPY_eq hlen hp hps malloc,
    q.serializeAndWriteCOPY_eq hlen hq hqs malloc', ?_⟩
  intro hbytes
  have hcontent := (Person.selfDelimiting hlen).content_eq ⟨hps, hqs⟩ hbytes
  have hbitmap : p.bitmap = q.bitmap := congrArg Prod.fst hcontent
  have hitems : p.presentItems = q.presentItems := congrArg Prod.snd hcontent
  refine ⟨hbitmap, ?_⟩
  intro i f g hf hg hpresent
  have hfid := p.symbol_id_eq hf
  have hgid := q.symbol_id_eq hg
  have hi := congrArg (fun l => l[i]?) hitems
  simp only [Person.presentItems, List.getElem?_map, hf, hg, Option.map_some, ← hbitmap, hfid,
    hgid] at hi
  rw [isPresent_of_lt (p.admitted hlen (List.mem_of_getElem? hf)).id_bounds, hfid,
    Except.ok.injEq] at hpresent
  simpa [hpresent] using hi

end MuStore.User

namespace MuStore.User.Sample

theorem serializeAndWriteCOPY_unique_sample :
    ∃ values values' bytes bytes', (person 0).serializeAndWriteCOPY zeroed = .ok (values, bytes) ∧
      (person 1).serializeAndWriteCOPY zeroed = .ok (values', bytes') ∧
      (bytes = bytes' → (person 0).bitmap = (person 1).bitmap ∧
        ∀ (i : ℕ) (f g : Field types), (person 0).values[i]? = some f →
          (person 1).values[i]? = some g →
          isPresent (person 0).bitmap f.symbol.id = .ok true → f.value.items = g.value.items) :=
  Person.serializeAndWriteCOPY_unique (person 0) (person 1) (by decide) (bitsNameMembers 0)
    (bitsNameMembers 1) (by decide) (by decide) zeroed zeroed

end MuStore.User.Sample
