import MuStore.SchemaBuilds
import MuStore.Framing

namespace MuStore

open Protocol Server

namespace SchemaBuild

section Response

variable {h : Heap Bytes} {msg : Response}

theorem pointees_ne_none_iff {fields : UnorderedMap Bytes Addr} (hl : Live h fields) {f : Bytes} :
    KVStore.pointees h fields f ≠ none ↔ f ∈ fields := by
  rw [← AList.lookup_isSome, KVStore.pointees]
  cases hf : fields.lookup f with
  | none => simp
  | some a =>
    obtain ⟨v, hv⟩ := Finmap.mem_iff.mp (hl f a hf)
    simp [hv]

theorem size_ne_zero_of_mem {fields : UnorderedMap Bytes Addr} {f : Bytes} (hf : f ∈ fields) :
    fields.size ≠ 0 := by
  rw [ne_eq, UnorderedMap.size_eq_zero_iff]
  intro hnone
  exact AList.lookup_eq_none.mp (hnone f) hf

/-- The Protobuf and the FlatBuffers build send the same strings exactly when the
response has no field: with fields Protobuf drops the newline after the key. -/
theorem protobuf_eq_flatBuffers_iff (hl : Live h msg.fields)
    (hc : msg.fields.size = 0 ∨ ∀ f ∈ schemaNames, f ∈ msg.fields) :
    ∃ p m, Protobuf.serialize h msg = .ok p ∧ FlatBuffers.serialize h msg = .ok m ∧
      (p = m ↔ msg.fields.size = 0) := by
  rcases hc with hs | hc
  · exact ⟨_, _, serialize_of_size_eq_zero .protobuf hs, serialize_of_size_eq_zero .flatBuffers hs,
      iff_of_true rfl hs⟩
  · have hs : msg.fields.size ≠ 0 := size_ne_zero_of_mem (hc (ascii "field1") (by decide))
    have hpointees : ∀ f ∈ schemaNames, KVStore.pointees h msg.fields f ≠ none :=
      fun f hf => (pointees_ne_none_iff hl).mpr (hc f hf)
    refine ⟨_, _, serialize_of_covers .protobuf hl hs hpointees,
      serialize_of_covers .flatBuffers hl hs hpointees, iff_of_false ?_ hs⟩
    intro heq
    -- the values are the same, so the last strings would be
    have hlast := List.append_cancel_left heq
    simp [keySlot] at hlast

theorem protobuf_eq_flatBuffers_iff_ping :
    ∃ p m, Protobuf.serialize ∅ (invalidResponse 4) = .ok p ∧
      FlatBuffers.serialize ∅ (invalidResponse 4) = .ok m ∧
      (p = m ↔ (invalidResponse 4).fields.size = 0) :=
  protobuf_eq_flatBuffers_iff (live_empty ∅) (Or.inl rfl)

def tenFields : UnorderedMap Bytes Addr :=
  ⟨schemaNames.map fun f => ⟨f, 1⟩, show (List.keys _).Nodup by decide⟩

/-- The key of a response with the ten fields is sent with a newline or without one. -/
theorem not_protobuf_eq_flatBuffers :
    ¬∀ (h : Heap Bytes) (msg : Response) (p m : List Bytes), Live h msg.fields →
      (msg.fields.size = 0 ∨ ∀ f ∈ schemaNames, f ∈ msg.fields) →
      Protobuf.serialize h msg = .ok p → FlatBuffers.serialize h msg = .ok m → p = m := by
  intro hsame
  let h : Heap Bytes := (∅ : Heap Bytes).insert 1 (ascii "a")
  have hone : ∀ e ∈ tenFields.entries, e.2 = 1 := by decide
  have hl : Live h tenFields := by
    intro f a hf
    have ha : a = 1 := hone ⟨f, a⟩ (AList.mem_lookup_iff.mp hf)
    exact Finmap.mem_insert.mpr (Or.inl ha)
  have hkeys := hsame h ⟨.getAll, ascii "k", tenFields, [], 4⟩ _ _ hl (Or.inr (by decide)) rfl rfl
  revert hkeys
  decide

end Response

section Runs

variable {build : SchemaBuild} {s s' : Storage} {c : Received} {m : List Bytes}

theorem processCommand_eq_ok (h : build.processCommand s c = .ok (s', m)) :
    ∃ r, respond c.choices s (deserialize c.command) c.clientSocket = .ok (s', r) ∧
      build.serialize s'.heap r = .ok m := by
  unfold processCommand at h
  obtain ⟨⟨t, r⟩, hr, hrest⟩ := bind_eq_ok.mp h
  obtain ⟨message, hm, hpure⟩ := bind_eq_ok.mp hrest
  cases hpure
  cases hresp : respond c.choices s (deserialize c.command) c.clientSocket with
  | error e =>
    rw [hresp] at hr
    cases hr
  | ok x =>
    rw [hresp] at hr
    cases hr
    exact ⟨r, rfl, hm⟩

theorem owned_of_process {l : List Received} {messages : List (List Bytes)} (ho : s.Owned)
    (h : build.process s l = .ok (s', messages)) :
    s'.Owned ∧ s'.view.flat = flatAfterAll s.view.flat l := by
  induction l generalizing s messages with
  | nil =>
    cases h
    exact ⟨ho, rfl⟩
  | cons c l ih =>
    obtain ⟨⟨t, m⟩, hcmd, hrest⟩ := bind_eq_ok.mp h
    obtain ⟨⟨u, ms⟩, hl, hpure⟩ := bind_eq_ok.mp hrest
    cases hpure
    obtain ⟨r, hr, -⟩ := processCommand_eq_ok hcmd
    obtain ⟨ho', hflat, -⟩ := spec_of_respond ho hr
    obtain ⟨hou, hflatu⟩ := ih ho' hl
    refine ⟨hou, ?_⟩
    rw [hflatu, hflat]
    rfl

end Runs

theorem muSer_serialize_of_respond {s s' : Storage} (ho : s.Owned) {c : Received} {r : Response}
    (hr : respond c.choices s (deserialize c.command) c.clientSocket = .ok (s', r))
    (hc : ∀ f ∈ schemaNames, f ∈ r.fields) :
    MuSer.serialize s'.heap r = .ok
      (schemaNames.map (fun f => cStr ((s.view.flat (deserialize c.command).key f).getD [])) ++
        [r.key ++ [newline]]) := by
  obtain ⟨-, -, ha⟩ := spec_of_respond ho hr
  have hpointees : ∀ f ∈ schemaNames, KVStore.pointees s'.heap r.fields f ≠ none :=
    fun f hf => (pointees_ne_none_iff ha.live).mpr (hc f hf)
  have hstored : ∀ f ∈ schemaNames,
      KVStore.pointees s'.heap r.fields f = s.view.flat (deserialize c.command).key f := by
    intro f hf
    obtain ⟨v, hv⟩ := Option.ne_none_iff_exists'.mp (hpointees f hf)
    rw [hv]
    rw [ha.fields] at hv
    exact (requested_eq_some hv).symm
  have hs : r.fields.size ≠ 0 := size_ne_zero_of_mem (hc (ascii "field1") (by decide))
  refine (serialize_of_covers .muSer ha.live hs hpointees).trans ?_
  rw [message]
  congr 2
  apply List.map_congr_left
  intro f hf
  rw [hstored f hf]
  rfl

/-- `MuSer` hands over the stored values exactly when none of them has a NUL. -/
theorem muSer_serialize_eq_stored_iff {history : List Received} {s : Storage}
    {messages : List (List Bytes)}
    (hs : SchemaBuild.muSer.process Storage.empty history = .ok (s, messages)) {c : Received}
    {s' : Storage} {r : Response}
    (hr : respond c.choices s (deserialize c.command) c.clientSocket = .ok (s', r))
    (hc : ∀ f ∈ schemaNames, f ∈ r.fields) :
    ∃ strings, MuSer.serialize s'.heap r = .ok strings ∧
      (strings = schemaNames.map (fun f => (s.view.flat (deserialize c.command).key f).getD []) ++
          [r.key ++ [newline]] ↔
        ∀ f ∈ schemaNames, 0 ∉ (s.view.flat (deserialize c.command).key f).getD []) := by
  obtain ⟨ho, -⟩ := owned_of_process Storage.owned_empty hs
  refine ⟨_, muSer_serialize_of_respond ho hr hc, ?_⟩
  rw [List.append_left_inj, List.map_inj_left]
  apply forall₂_congr
  intro f hf
  rw [cStr_eq_self_iff]

theorem exists_process_setFields (build : SchemaBuild) {key : Bytes}
    {l : List (Σ _ : Bytes, Bytes)} (hl : l ≠ []) (hw : ∀ e ∈ l, Writable key e)
    (hnd : l.NodupKeys) :
    ∃ s messages, build.process Storage.empty [⟨Choices.plain, 4, quotedCommand key l⟩] =
        .ok (s, messages) ∧ s.Owned ∧ ∀ f, s.view.flat key f = l.dlookup f := by
  obtain ⟨e, he⟩ := List.exists_mem_of_ne_nil l hl
  have hmsg := deserialize_quotedCommand (hw e he).key_ne_nil (hw e he).key_spaceFree
    (fun e he => ⟨(hw e he).field_spaceFree, (hw e he).value_spaceFree⟩)
    fun e he => (hw e he).field_noSep
  have hcov : CoveredRun Storage.empty.view.flat [⟨Choices.plain, 4, quotedCommand key l⟩] := by
    rw [coveredRun_cons]
    refine ⟨Or.inl fun f => ?_, fun l₁ c l₂ h => by simp at h⟩
    rw [hmsg, requested]
  obtain ⟨s, messages, hrun⟩ := (build.process_spec Storage.owned_empty _).1 hcov
  obtain ⟨ho, hflat⟩ := owned_of_process Storage.owned_empty hrun
  refine ⟨s, messages, hrun, ho, ?_⟩
  intro f
  rw [hflat, flatAfterAll_empty]
  exact lastWrite_quotedCommand hl hw hnd f

theorem respond_getAll_of_covers {s : Storage} (ho : s.Owned) {c : Received} {key : Bytes}
    (hc : deserialize c.command = ⟨.getAll, key, ∅, []⟩)
    (hcov : ∀ f ∈ schemaNames, s.view.flat key f ≠ none) :
    ∃ r, respond c.choices s (deserialize c.command) c.clientSocket = .ok (s, r) ∧
      Live s.heap r.fields ∧ KVStore.pointees s.heap r.fields = s.view.flat key ∧ r.key = key ∧
      ∀ f ∈ schemaNames, f ∈ r.fields := by
  have ht : (deserialize c.command).type = .getAll := by rw [hc]
  have ha := answers_getAll ho c.clientSocket ht
  have hok : ¬Fails s.view.flat (deserialize c.command) := by
    rw [Fails, ht, hc]
    exact fun hnone => hcov (ascii "field1") (by decide) (hnone _)
  have hfields := ha.fields
  rw [requested, ht] at hfields
  simp only [hc] at hfields
  refine ⟨_, by simp only [respond, ht]; rfl, ha.live, ?_, ?_, ?_⟩
  · rw [hc]
    exact hfields
  · rw [(ha.success hok).2, hc]
  · intro f hf
    rw [← pointees_ne_none_iff ha.live, hc, hfields]
    exact hcov f hf

def tenValues (value : Bytes) : List (Σ _ : Bytes, Bytes) := schemaNames.map fun f => ⟨f, value⟩

def setTen (value : Bytes) : Received :=
  ⟨Choices.plain, 4, quotedCommand (ascii "k") (tenValues value)⟩

def getTen : Received := ⟨Choices.plain, 4, ascii "GETALL k"⟩

theorem deserialize_getTen : deserialize getTen.command = ⟨.getAll, ascii "k", ∅, []⟩ := by
  have hw : words isSpace getTen.command = [ascii "GETALL", ascii "k"] := by decide
  rw [deserialize_getAll hw]
  rfl

theorem keys_tenValues (value : Bytes) : (tenValues value).keys = schemaNames := by
  rw [tenValues, List.keys, List.map_map]
  exact List.map_id schemaNames

theorem nodupKeys_tenValues (value : Bytes) : (tenValues value).NodupKeys := by
  rw [List.NodupKeys, keys_tenValues]
  decide

theorem writable_tenValues {value : Bytes} (hv : SpaceFree value) :
    ∀ e ∈ tenValues value, Writable (ascii "k") e := by
  intro e he
  obtain ⟨f, hf, rfl⟩ := List.mem_map.mp he
  have hnames : ∀ f ∈ schemaNames, SpaceFree f ∧ kvSep ∉ f := by decide
  exact ⟨by decide, by decide, (hnames f hf).1, (hnames f hf).2, hv⟩

theorem dlookup_tenValues {value f : Bytes} (hf : f ∈ schemaNames) :
    (tenValues value).dlookup f = some value :=
  List.mem_dlookup (nodupKeys_tenValues value) (List.mem_map_of_mem hf)

theorem exists_tenValues (build : SchemaBuild) (value : Bytes) (hv : SpaceFree value) :
    ∃ s messages r, build.process Storage.empty [setTen value] = .ok (s, messages) ∧
      (∀ f ∈ schemaNames, s.view.flat (ascii "k") f = some value) ∧
      respond getTen.choices s (deserialize getTen.command) getTen.clientSocket = .ok (s, r) ∧
      ∀ f ∈ schemaNames, f ∈ r.fields := by
  have hne : tenValues value ≠ [] := List.cons_ne_nil _ _
  obtain ⟨s, messages, hrun, ho, hflat⟩ := exists_process_setFields build hne
    (writable_tenValues hv) (nodupKeys_tenValues value)
  have hten : ∀ f ∈ schemaNames, s.view.flat (ascii "k") f = some value := by
    intro f hf
    rw [hflat, dlookup_tenValues hf]
  obtain ⟨r, hr, -, -, -, hmem⟩ := respond_getAll_of_covers ho deserialize_getTen
    fun f hf => by simp [hten f hf]
  exact ⟨s, messages, r, hrun, hten, hr, hmem⟩

theorem muSer_serialize_eq_stored_iff_ten :
    ∃ s r, respond getTen.choices s (deserialize getTen.command) getTen.clientSocket = .ok (s, r) ∧
      ∃ strings, MuSer.serialize s.heap r = .ok strings ∧
        (strings = schemaNames.map (fun f =>
            (s.view.flat (deserialize getTen.command).key f).getD []) ++ [r.key ++ [newline]] ↔
          ∀ f ∈ schemaNames, 0 ∉ (s.view.flat (deserialize getTen.command).key f).getD []) := by
  obtain ⟨s, messages, r, hrun, -, hr, hmem⟩ :=
    exists_tenValues .muSer (ascii "a") (by decide)
  exact ⟨s, r, hr, muSer_serialize_eq_stored_iff hrun hr hmem⟩

/-- A value is cut at its first NUL. -/
theorem not_muSer_serialize_eq_stored :
    ¬∀ (history : List Received) (s s' : Storage) (messages : List (List Bytes)) (c : Received)
      (r : Response) (strings : List Bytes),
      SchemaBuild.muSer.process Storage.empty history = .ok (s, messages) →
      respond c.choices s (deserialize c.command) c.clientSocket = .ok (s', r) →
      (∀ f ∈ schemaNames, f ∈ r.fields) → MuSer.serialize s'.heap r = .ok strings →
      strings = schemaNames.map (fun f => (s.view.flat (deserialize c.command).key f).getD []) ++
        [r.key ++ [newline]] := by
  intro h
  obtain ⟨s, messages, r, hrun, hten, hr, hmem⟩ :=
    exists_tenValues .muSer [0x61, 0, 0x62] (by decide)
  obtain ⟨ho, -⟩ := owned_of_process Storage.owned_empty hrun
  have hcut := h _ s s messages getTen r _ hrun hr hmem (muSer_serialize_of_respond ho hr hmem)
  have hvalue := List.map_inj_left.mp (List.append_cancel_right hcut) (ascii "field1") (by decide)
  have hkey : (deserialize getTen.command).key = ascii "k" := by rw [deserialize_getTen]
  rw [hkey, hten _ (by decide)] at hvalue
  revert hvalue
  decide

section TwoStores

variable {build : SchemaBuild} {key : Bytes} {g g' : Bytes → Option Bytes}

theorem message_eq_message_iff : build.message g key = build.message g' key ↔
    ∀ f ∈ schemaNames, build.slot ((g f).getD []) = build.slot ((g' f).getD []) := by
  rw [message, message, List.append_left_inj, List.map_inj_left]

theorem keySlot_eq_error_iff (hk : SpaceFree key) :
    build.keySlot key = ascii "Error" ++ [newline] ↔ build ≠ .protobuf ∧ key = ascii "Error" := by
  cases build with
  | protobuf =>
    refine iff_of_false ?_ fun h => h.1 rfl
    rintro rfl
    revert hk
    decide
  | flatBuffers => simp [keySlot]
  | muSer => simp [keySlot]

theorem message_eq_emptyMessage_iff (hk : SpaceFree key) :
    build.message g key = emptyMessage (ascii "Error") ↔
      (∀ f ∈ schemaNames, build.slot ((g f).getD []) = []) ∧
        build ≠ .protobuf ∧ key = ascii "Error" := by
  rw [← keySlot_eq_error_iff hk, message, emptyMessage]
  constructor
  · intro h
    obtain ⟨hvalues, hlast⟩ := List.append_inj h (by simp)
    exact ⟨List.map_inj_left.mp hvalues, List.singleton_inj.mp hlast⟩
  · rintro ⟨hvalues, hlast⟩
    rw [List.map_inj_left.mpr hvalues, hlast]

theorem slot_eq_self {value : Bytes} (hv : build = .muSer → 0 ∉ value) :
    build.slot value = value := by
  cases build with
  | protobuf => rfl
  | flatBuffers => rfl
  | muSer => exact cStr_eq_self_iff.mpr (hv rfl)

/-- `GETALL` is sent as `Error` without values, or as the fields of its key. -/
theorem message_of_getAll {s s' : Storage} (ho : s.Owned) {c : Received} {m : List Bytes}
    (ht : (deserialize c.command).type = .getAll)
    (hm : build.processCommand s c = .ok (s', m)) :
    (∀ f, s.view.flat (deserialize c.command).key f = none) ∧ m = emptyMessage (ascii "Error") ∨
      (∀ f ∈ schemaNames, s.view.flat (deserialize c.command).key f ≠ none) ∧
        m = build.message (s.view.flat (deserialize c.command).key)
          (deserialize c.command).key := by
  obtain ⟨r, hr, hser⟩ := processCommand_eq_ok hm
  obtain ⟨-, -, ha⟩ := spec_of_respond ho hr
  have hfields := ha.fields
  rw [requested, ht] at hfields
  simp only at hfields
  have hfails : Fails s.view.flat (deserialize c.command) ↔
      ∀ f, s.view.flat (deserialize c.command).key f = none := by rw [Fails, ht]
  by_cases hs : r.fields.size = 0
  · have hnone : ∀ f, s.view.flat (deserialize c.command).key f = none := by
      rw [← hfields]
      exact (size_eq_zero_iff_pointees ha.live).mp hs
    rw [serialize_of_size_eq_zero build hs, Except.ok.injEq,
      (ha.error (hfails.mpr hnone)).2] at hser
    exact Or.inl ⟨hnone, hser.symm⟩
  · have hcov : ∀ f ∈ schemaNames, KVStore.pointees s'.heap r.fields f ≠ none := by
      by_contra hnot
      obtain ⟨f, -, hf⟩ := (build.serialize_spec ha.live).2 fun hcov =>
        hcov.elim (fun h => hs ((size_eq_zero_iff_pointees ha.live).mpr h)) hnot
      rw [hser] at hf
      cases hf
    have hok : ¬Fails s.view.flat (deserialize c.command) := by
      rw [hfails, ← hfields]
      exact fun hnone => hs ((size_eq_zero_iff_pointees ha.live).mpr hnone)
    rw [serialize_of_covers build ha.live hs hcov, Except.ok.injEq, (ha.success hok).2,
      hfields] at hser
    rw [hfields] at hcov
    exact Or.inr ⟨hcov, hser.symm⟩

/-- The key `Error` without a field in the one store, with ten empty values in the other. -/
def LooksAbsent (key : Bytes) (g g' : Bytes → Option Bytes) : Prop :=
  key = ascii "Error" ∧ (∀ f, g f = none) ∧ ∀ f ∈ schemaNames, g' f = some []

theorem not_looksAbsent_of_covers (hg : ∀ f ∈ schemaNames, g f ≠ none) :
    ¬LooksAbsent key g g' :=
  fun h => hg (ascii "field1") (by decide) (h.2.1 _)

/-- The fields of the schema are the same, or the one key is taken for the other's error. -/
def Alike (build : SchemaBuild) (key : Bytes) (g g' : Bytes → Option Bytes) : Prop :=
  (∀ f ∈ schemaNames, g f = g' f) ∨
    build ≠ .protobuf ∧ (LooksAbsent key g g' ∨ LooksAbsent key g' g)

theorem alike_comm : build.Alike key g g' ↔ build.Alike key g' g := by
  rw [Alike, Alike, or_comm (a := LooksAbsent key g g')]
  simp only [eq_comm]

theorem message_eq_message_iff_alike (hg : ∀ f ∈ schemaNames, g f ≠ none)
    (hg' : ∀ f ∈ schemaNames, g' f ≠ none)
    (hnul : build = .muSer → ∀ f ∈ schemaNames, 0 ∉ (g f).getD [])
    (hnul' : build = .muSer → ∀ f ∈ schemaNames, 0 ∉ (g' f).getD []) :
    build.message g key = build.message g' key ↔ build.Alike key g g' := by
  have hno : ¬LooksAbsent key g g' := not_looksAbsent_of_covers hg
  have hno' : ¬LooksAbsent key g' g := not_looksAbsent_of_covers hg'
  rw [Alike, or_iff_left fun h => h.2.elim hno hno', message_eq_message_iff]
  apply forall₂_congr
  intro f hf
  rw [slot_eq_self fun hb => hnul hb f hf, slot_eq_self fun hb => hnul' hb f hf]
  obtain ⟨v, hv⟩ := Option.ne_none_iff_exists'.mp (hg f hf)
  obtain ⟨w, hw⟩ := Option.ne_none_iff_exists'.mp (hg' f hf)
  rw [hv, hw, Option.getD_some, Option.getD_some, Option.some.injEq]

theorem message_eq_emptyMessage_iff_alike (hk : SpaceFree key) (hg : ∀ f ∈ schemaNames, g f ≠ none)
    (hg' : ∀ f, g' f = none) (hnul : build = .muSer → ∀ f ∈ schemaNames, 0 ∉ (g f).getD []) :
    build.message g key = emptyMessage (ascii "Error") ↔ build.Alike key g g' := by
  have hslot : (∀ f ∈ schemaNames, build.slot ((g f).getD []) = []) ↔
      ∀ f ∈ schemaNames, g f = some [] := by
    apply forall₂_congr
    intro f hf
    rw [slot_eq_self fun hb => hnul hb f hf]
    obtain ⟨v, hv⟩ := Option.ne_none_iff_exists'.mp (hg f hf)
    rw [hv, Option.getD_some, Option.some.injEq]
  have hdiffer : ¬∀ f ∈ schemaNames, g f = g' f := fun h =>
    hg (ascii "field1") (by decide) ((h _ (by decide)).trans (hg' _))
  have hno : ¬LooksAbsent key g g' := not_looksAbsent_of_covers hg
  rw [message_eq_emptyMessage_iff hk, hslot, Alike, or_iff_right hdiffer, or_iff_right hno,
    LooksAbsent]
  constructor
  · rintro ⟨hvalues, hb, hkey⟩
    exact ⟨hb, hkey, hg', hvalues⟩
  · rintro ⟨hb, hkey, -, hvalues⟩
    exact ⟨hvalues, hb, hkey⟩

/-- Two replies to `GETALL` of a key are the same messages exactly when the stores
agree in the fields of the schema, or the key is `Error` and one store has it with
ten empty values. -/
theorem getAll_messages_eq_iff {history₁ history₂ : List Received} {s₁ s₂ t₁ t₂ : Storage}
    {messages₁ messages₂ : List (List Bytes)}
    (hs₁ : build.process Storage.empty history₁ = .ok (s₁, messages₁))
    (hs₂ : build.process Storage.empty history₂ = .ok (s₂, messages₂))
    {c₁ c₂ : Received} {m₁ m₂ : List Bytes}
    (ht₁ : (deserialize c₁.command).type = .getAll) (hk₁ : (deserialize c₁.command).key = key)
    (ht₂ : (deserialize c₂.command).type = .getAll) (hk₂ : (deserialize c₂.command).key = key)
    (hm₁ : build.processCommand s₁ c₁ = .ok (t₁, m₁))
    (hm₂ : build.processCommand s₂ c₂ = .ok (t₂, m₂))
    (hnul₁ : build = .muSer → ∀ f ∈ schemaNames, 0 ∉ (s₁.view.flat key f).getD [])
    (hnul₂ : build = .muSer → ∀ f ∈ schemaNames, 0 ∉ (s₂.view.flat key f).getD []) :
    m₁ = m₂ ↔ build.Alike key (s₁.view.flat key) (s₂.view.flat key) := by
  have hk : SpaceFree key := hk₁ ▸ spaceFree_key c₁.command
  have h₁ := message_of_getAll (owned_of_process Storage.owned_empty hs₁).1 ht₁ hm₁
  have h₂ := message_of_getAll (owned_of_process Storage.owned_empty hs₂).1 ht₂ hm₂
  rw [hk₁] at h₁
  rw [hk₂] at h₂
  rcases h₁ with ⟨hnone₁, rfl⟩ | ⟨hcov₁, rfl⟩
  · rcases h₂ with ⟨hnone₂, rfl⟩ | ⟨hcov₂, rfl⟩
    · exact iff_of_true rfl (Or.inl fun f _ => (hnone₁ f).trans (hnone₂ f).symm)
    · rw [eq_comm, alike_comm]
      exact message_eq_emptyMessage_iff_alike hk hcov₂ hnone₁ hnul₂
  · rcases h₂ with ⟨hnone₂, rfl⟩ | ⟨hcov₂, rfl⟩
    · exact message_eq_emptyMessage_iff_alike hk hcov₁ hnone₂ hnul₁
    · exact message_eq_message_iff_alike hcov₁ hcov₂ hnul₁ hnul₂

end TwoStores

theorem exists_processCommand_getTen (build : SchemaBuild) {l : List (Σ _ : Bytes, Bytes)}
    (hw : ∀ e ∈ l, Writable (ascii "k") e) (hnd : l.NodupKeys)
    (hcov : ∀ f ∈ schemaNames, l.dlookup f ≠ none) :
    ∃ s messages, build.process Storage.empty
          [⟨Choices.plain, 4, quotedCommand (ascii "k") l⟩] = .ok (s, messages) ∧
      s.view.flat (ascii "k") = (fun f => l.dlookup f) ∧
      build.processCommand s getTen =
        .ok (s, build.message (fun f => l.dlookup f) (ascii "k")) := by
  have hl : l ≠ [] := by
    rintro rfl
    exact hcov (ascii "field1") (by decide) rfl
  obtain ⟨s, messages, hrun, ho, hflat⟩ := exists_process_setFields build hl hw hnd
  refine ⟨s, messages, hrun, funext hflat, ?_⟩
  have hstored : ∀ f ∈ schemaNames, s.view.flat (ascii "k") f ≠ none := by
    intro f hf
    rw [hflat]
    exact hcov f hf
  obtain ⟨r, hr, hlive, hpointees, hkey, hmem⟩ :=
    respond_getAll_of_covers ho deserialize_getTen hstored
  have hser := serialize_of_covers build hlive (size_ne_zero_of_mem (hmem (ascii "field1")
    (by decide))) fun f hf => (pointees_ne_none_iff hlive).mpr (hmem f hf)
  rw [hpointees, funext hflat, hkey] at hser
  simp only [processCommand, hr, Except.mapError, bind, Except.bind, hser]
  rfl

theorem getAll_messages_eq_iff_ten :
    ∃ s₁ s₂ m₁ m₂, SchemaBuild.muSer.processCommand s₁ getTen = .ok (s₁, m₁) ∧
      SchemaBuild.muSer.processCommand s₂ getTen = .ok (s₂, m₂) ∧
      (m₁ = m₂ ↔ SchemaBuild.muSer.Alike (ascii "k") (s₁.view.flat (ascii "k"))
        (s₂.view.flat (ascii "k"))) := by
  have hcov : ∀ value : Bytes, ∀ f ∈ schemaNames, (tenValues value).dlookup f ≠ none :=
    fun value f hf => by simp [dlookup_tenValues hf]
  have ha : SpaceFree (ascii "a") := by decide
  have hb : SpaceFree (ascii "b") := by decide
  obtain ⟨s₁, messages₁, hs₁, hflat₁, hm₁⟩ := exists_processCommand_getTen .muSer
    (writable_tenValues ha) (nodupKeys_tenValues _) (hcov _)
  obtain ⟨s₂, messages₂, hs₂, hflat₂, hm₂⟩ := exists_processCommand_getTen .muSer
    (writable_tenValues hb) (nodupKeys_tenValues _) (hcov _)
  have ht : (deserialize getTen.command).type = .getAll := by rw [deserialize_getTen]
  have hk : (deserialize getTen.command).key = ascii "k" := by rw [deserialize_getTen]
  refine ⟨s₁, s₂, _, _, hm₁, hm₂, getAll_messages_eq_iff hs₁ hs₂ ht hk ht hk hm₁ hm₂ ?_ ?_⟩
  · intro _ f hf
    rw [hflat₁]
    simp only [dlookup_tenValues hf]
    decide
  · intro _ f hf
    rw [hflat₂]
    simp only [dlookup_tenValues hf]
    decide

/-- A field beside the ten of the schema is dropped by every one of the builds. -/
theorem not_getAll_messages_ne :
    ¬∃ build : SchemaBuild, ∀ (history₁ history₂ : List Received) (s₁ s₂ t₁ t₂ : Storage)
      (messages₁ messages₂ : List (List Bytes)) (c₁ c₂ : Received) (m₁ m₂ : List Bytes)
      (key : Bytes), build.process Storage.empty history₁ = .ok (s₁, messages₁) →
      build.process Storage.empty history₂ = .ok (s₂, messages₂) →
      (deserialize c₁.command).type = .getAll → (deserialize c₁.command).key = key →
      (deserialize c₂.command).type = .getAll → (deserialize c₂.command).key = key →
      build.processCommand s₁ c₁ = .ok (t₁, m₁) → build.processCommand s₂ c₂ = .ok (t₂, m₂) →
      (∃ f, s₁.view.flat key f ≠ s₂.view.flat key f) → m₁ ≠ m₂ := by
  rintro ⟨build, h⟩
  let extra : Σ _ : Bytes, Bytes := ⟨ascii "email", ascii "a"⟩
  let l := tenValues (ascii "a")
  have hten : ∀ f ∈ schemaNames, l.dlookup f = some (ascii "a") := fun f hf => dlookup_tenValues hf
  have hlookup : ∀ f ∈ schemaNames, (extra :: l).dlookup f = l.dlookup f := by decide
  have hw : ∀ e ∈ l, Writable (ascii "k") e := writable_tenValues (by decide)
  obtain ⟨s₁, messages₁, hs₁, hflat₁, hm₁⟩ := exists_processCommand_getTen build hw
    (nodupKeys_tenValues _) fun f hf => by simp [hten f hf]
  obtain ⟨s₂, messages₂, hs₂, hflat₂, hm₂⟩ := exists_processCommand_getTen build
    (List.forall_mem_cons.mpr ⟨⟨by decide, by decide, by decide, by decide, by decide⟩, hw⟩)
    (show (extra :: l).NodupKeys from
      List.nodupKeys_cons.mpr ⟨by decide, nodupKeys_tenValues _⟩)
    fun f hf => by simp [hlookup f hf, hten f hf]
  have ht : (deserialize getTen.command).type = .getAll := by rw [deserialize_getTen]
  have hk : (deserialize getTen.command).key = ascii "k" := by rw [deserialize_getTen]
  refine h _ _ s₁ s₂ s₁ s₂ _ _ getTen getTen _ _ _ hs₁ hs₂ ht hk ht hk hm₁ hm₂ ?_ ?_
  · refine ⟨ascii "email", ?_⟩
    rw [hflat₁, hflat₂]
    decide
  · rw [message_eq_message_iff]
    intro f hf
    rw [hlookup f hf]

end SchemaBuild

end MuStore
