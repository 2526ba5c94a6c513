import MuStore.SchemaMessages
import MuStore.Keys
import MuStore.Library.SelfDelimiting
import MuStore.Library.Varint
import Mathlib.Algebra.GroupWithZero.Nat

namespace MuStore

open Protocol Server

/-- `WriteStringMaybeAliased` and `StringSize` of the library, for the field numbers
whose tag is one byte and for strings below 2 GB. -/
structure StringWire where
  writeString : ℕ → Bytes → Bytes
  stringSize : Bytes → ℕ
  length_le_stringSize : ∀ s, s.length ≤ stringSize s
  length_writeString : ∀ {num s}, 0 < num → num < 16 → s.length < 2 ^ 31 →
    (writeString num s).length = 1 + stringSize s
  selfDelimiting : SelfDelimiting
    (fun e e' : ℕ × Bytes => (0 < e.1 ∧ e.1 < 16 ∧ e.2.length < 2 ^ 31) ∧
      (0 < e'.1 ∧ e'.1 < 16 ∧ e'.2.length < 2 ^ 31))
    (fun e => writeString e.1 e.2) id

namespace Protobuf

/-- `_InternalSerialize`, the strings being the fields from a number on. -/
def internalSerialize (wire : StringWire) : ℕ → List Bytes → Bytes
  | _, [] => []
  | num, s :: rest =>
    (if s.isEmpty then [] else wire.writeString num s) ++ internalSerialize wire (num + 1) rest

def byteSizeLong (wire : StringWire) : List Bytes → ℕ
  | [] => 0
  | s :: rest => (if s.isEmpty then 0 else 1 + wire.stringSize s) + byteSizeLong wire rest

def LastSet : List Bytes → Prop
  | [] => False
  | [s] => s ≠ []
  | _ :: rest => LastSet rest

theorem lastSet_concat (l : List Bytes) {s : Bytes} (hs : s ≠ []) : LastSet (l ++ [s]) := by
  induction l with
  | nil => exact hs
  | cons x l ih =>
    cases l with
    | nil => exact ih
    | cons y l => exact ih

theorem lastSet_cons {s : Bytes} {rest : List Bytes} (h : LastSet (s :: rest)) :
    rest = [] ∧ s ≠ [] ∨ LastSet rest := by
  cases rest with
  | nil => exact Or.inl ⟨rfl, h⟩
  | cons x rest => exact Or.inr h

section Wire

variable {wire : StringWire}

theorem length_lt_of_byteSizeLong {m : List Bytes} (hsize : byteSizeLong wire m < 2 ^ 31) :
    ∀ s ∈ m, s.length < 2 ^ 31 := by
  induction m with
  | nil => exact fun s hs => absurd hs List.not_mem_nil
  | cons x m ih =>
    rw [byteSizeLong] at hsize
    refine List.forall_mem_cons.mpr ⟨?_, ih (by omega)⟩
    have hle := wire.length_le_stringSize x
    cases x with
    | nil => exact Nat.two_pow_pos 31
    | cons b x =>
      rw [List.isEmpty_cons, if_neg Bool.false_ne_true] at hsize
      omega

/-- `serialize` returns the number of bytes that it has written. -/
theorem length_internalSerialize {m : List Bytes} {num : ℕ} (hpos : 0 < num)
    (hnum : num + m.length ≤ 16) (hm : ∀ s ∈ m, s.length < 2 ^ 31) :
    (internalSerialize wire num m).length = byteSizeLong wire m := by
  induction m generalizing num with
  | nil => rfl
  | cons s m ih =>
    rw [List.length_cons] at hnum
    obtain ⟨hs, hm⟩ := List.forall_mem_cons.mp hm
    rw [internalSerialize, byteSizeLong, List.length_append, ih (by omega) (by omega) hm]
    split_ifs with hempty
    · rfl
    · rw [wire.length_writeString hpos (by omega) hs]

theorem exists_writeString (wire : StringWire) (num : ℕ) {m : List Bytes} (hlast : LastSet m) :
    ∃ j s out, num ≤ j ∧ j < num + m.length ∧ s ∈ m ∧
      internalSerialize wire num m = wire.writeString j s ++ out := by
  induction m generalizing num with
  | nil => exact hlast.elim
  | cons s m ih =>
    cases s with
    | cons b s =>
      exact ⟨num, b :: s, internalSerialize wire (num + 1) m, Nat.le_refl _, by simp, by simp, rfl⟩
    | nil =>
      have hrest : LastSet m := (lastSet_cons hlast).resolve_left fun h => h.2 rfl
      obtain ⟨j, t, out, hle, hlt, ht, heq⟩ := ih (num + 1) hrest
      refine ⟨j, t, out, by omega, ?_, List.mem_cons_of_mem _ ht, heq⟩
      rw [List.length_cons]
      omega

theorem not_writeString_eq {m : List Bytes} {num : ℕ} {s : Bytes} {r r' : Bytes} (hpos : 0 < num)
    (hnum : num + 1 + m.length ≤ 16) (hs : s.length < 2 ^ 31) (hm : ∀ s ∈ m, s.length < 2 ^ 31)
    (hlast : LastSet m) :
    wire.writeString num s ++ r ≠ internalSerialize wire (num + 1) m ++ r' := by
  intro heq
  obtain ⟨j, t, out, hle, hlt, ht, hout⟩ := exists_writeString wire (num + 1) hlast
  rw [hout, List.append_assoc] at heq
  obtain ⟨hsame, -⟩ := wire.selfDelimiting (num, s) (j, t) _ _
    ⟨⟨hpos, by omega, hs⟩, ⟨by omega, by omega, hm t ht⟩⟩ heq
  have hj : num = j := congrArg Prod.fst hsame
  omega

/-- Messages of as many fields are told from what follows them by their last field. -/
theorem eq_of_internalSerialize_append {m m' : List Bytes} {num : ℕ} {r r' : Bytes}
    (hpos : 0 < num) (hnum : num + m.length ≤ 16) (hlen : m.length = m'.length)
    (hm : ∀ s ∈ m, s.length < 2 ^ 31) (hm' : ∀ s ∈ m', s.length < 2 ^ 31)
    (hlast : LastSet m) (hlast' : LastSet m')
    (heq : internalSerialize wire num m ++ r = internalSerialize wire num m' ++ r') :
    m = m' ∧ r = r' := by
  induction m generalizing m' num with
  | nil => exact hlast.elim
  | cons s m ih =>
    cases m' with
    | nil => exact hlast'.elim
    | cons s' m' =>
      rw [List.length_cons, List.length_cons, Nat.add_right_cancel_iff] at hlen
      rw [List.length_cons] at hnum
      obtain ⟨hs, hms⟩ := List.forall_mem_cons.mp hm
      obtain ⟨hs', hms'⟩ := List.forall_mem_cons.mp hm'
      simp only [internalSerialize, List.append_assoc] at heq
      -- an empty string is not written, and then a later field comes first
      cases s with
      | nil =>
        have hlast := (lastSet_cons hlast).resolve_left fun h => h.2 rfl
        cases s' with
        | nil =>
          have hlast' := (lastSet_cons hlast').resolve_left fun h => h.2 rfl
          obtain ⟨rfl, hr⟩ := ih (by omega) (by omega) hlen hms hms' hlast hlast' heq
          exact ⟨rfl, hr⟩
        | cons b s' => exact absurd heq.symm (not_writeString_eq hpos (by omega) hs' hms hlast)
      | cons b s =>
        cases s' with
        | nil =>
          have hlast' := (lastSet_cons hlast').resolve_left fun h => h.2 rfl
          exact absurd heq (not_writeString_eq hpos (by omega) hs hms' hlast')
        | cons b' s' =>
          obtain ⟨hfield, hrest⟩ := wire.selfDelimiting (num, b :: s) (num, b' :: s') _ _
            ⟨⟨hpos, by omega, hs⟩, ⟨hpos, by omega, hs'⟩⟩ heq
          have hstring : b :: s = b' :: s' := congrArg Prod.snd hfield
          rw [hstring]
          rcases lastSet_cons hlast with ⟨rfl, -⟩ | hlast
          · obtain rfl := List.length_eq_zero_iff.mp hlen.symm
            exact ⟨rfl, hrest⟩
          · rcases lastSet_cons hlast' with ⟨rfl, -⟩ | hlast'
            · obtain rfl := List.length_eq_zero_iff.mp hlen
              exact hlast.elim
            · obtain ⟨rfl, hr⟩ := ih (by omega) (by omega) hlen hms hms' hlast hlast' hrest
              exact ⟨rfl, hr⟩

structure Complete (wire : StringWire) (m : List Bytes) : Prop where
  length_eq : m.length = 11
  lastSet : LastSet m
  size_lt : byteSizeLong wire m < 2 ^ 31

theorem selfDelimiting_internalSerialize (wire : StringWire) :
    SelfDelimiting (fun m m' => Complete wire m ∧ Complete wire m') (internalSerialize wire 1)
      id := by
  rintro m m' r r' ⟨hm, hm'⟩ heq
  have hnum : 1 + m.length ≤ 16 := by
    rw [hm.length_eq]
    decide
  exact eq_of_internalSerialize_append Nat.one_pos hnum (hm.length_eq.trans hm'.length_eq.symm)
    (length_lt_of_byteSizeLong hm.size_lt) (length_lt_of_byteSizeLong hm'.size_lt) hm.lastSet
    hm'.lastSet heq

theorem Complete.length_internalSerialize {m : List Bytes} (hm : Complete wire m) :
    (internalSerialize wire 1 m).length = byteSizeLong wire m := by
  apply Protobuf.length_internalSerialize Nat.one_pos
  · rw [hm.length_eq]
    decide
  · exact length_lt_of_byteSizeLong hm.size_lt

theorem Complete.internalSerialize_ne_nil {m : List Bytes} (hm : Complete wire m) :
    internalSerialize wire 1 m ≠ [] := by
  intro hnil
  obtain ⟨j, s, out, hle, hlt, hs, hout⟩ := exists_writeString wire 1 hm.lastSet
  rw [hm.length_eq] at hlt
  have hlen : (wire.writeString j s).length = 1 + wire.stringSize s :=
    wire.length_writeString (by omega) (by omega) (length_lt_of_byteSizeLong hm.size_lt s hs)
  rw [hnil] at hout
  rw [(List.append_eq_nil_iff.mp hout.symm).1, List.length_nil] at hlen
  omega

end Wire

theorem flatAfterAll_nil (l : List Received) (f : Bytes) :
    flatAfterAll (fun _ _ => none) l [] f = none := by
  by_contra hne
  rcases flatAfterAll_ne_none_iff.mp hne with ⟨d, -, -, hk, hf⟩ | hnone
  · rw [fields_of_key_eq_nil hk] at hf
    exact hf rfl
  · exact hnone rfl

/-- A response with fields has a key. -/
theorem key_ne_nil_of_respond {s s' : Storage} (ho : s.Owned)
    (hnil : ∀ f, s.view.flat [] f = none) {c : Received} {r : Response}
    (hr : respond c.choices s (deserialize c.command) c.clientSocket = .ok (s', r))
    (hs : r.fields.size ≠ 0) : r.key ≠ [] := by
  obtain ⟨-, -, ha⟩ := spec_of_respond ho hr
  by_cases hfails : Fails s.view.flat (deserialize c.command)
  · rw [(ha.error hfails).2]
    decide
  · rw [(ha.success hfails).2]
    intro hk
    apply hs
    rw [size_eq_zero_iff_pointees ha.live, ha.fields]
    intro f
    by_contra hne
    obtain ⟨v, hv⟩ := Option.ne_none_iff_exists'.mp hne
    have hstored := requested_eq_some hv
    rw [hk, hnil] at hstored
    cases hstored

theorem length_and_lastSet_of_processCommand {s s' : Storage} (ho : s.Owned)
    (hnil : ∀ f, s.view.flat [] f = none) {c : Received} {m : List Bytes}
    (h : SchemaBuild.protobuf.processCommand s c = .ok (s', m)) : m.length = 11 ∧ LastSet m := by
  obtain ⟨r, hr, hser⟩ := SchemaBuild.processCommand_eq_ok h
  obtain ⟨-, -, ha⟩ := spec_of_respond ho hr
  by_cases hs : r.fields.size = 0
  · rw [SchemaBuild.serialize_of_size_eq_zero _ hs, Except.ok.injEq] at hser
    subst hser
    exact ⟨rfl, lastSet_concat _ (List.append_ne_nil_of_right_ne_nil _ (List.cons_ne_nil _ _))⟩
  · have hcov : ∀ f ∈ schemaNames, KVStore.pointees s'.heap r.fields f ≠ none := by
      by_contra hnot
      obtain ⟨f, -, hf⟩ := (SchemaBuild.protobuf.serialize_spec ha.live).2 fun hcov =>
        hcov.elim (fun h => hs ((size_eq_zero_iff_pointees ha.live).mpr h)) hnot
      rw [hser] at hf
      cases hf
    rw [SchemaBuild.serialize_of_covers .protobuf ha.live hs hcov, Except.ok.injEq] at hser
    subst hser
    exact ⟨rfl, lastSet_concat _ (key_ne_nil_of_respond ho hnil hr hs)⟩

theorem length_and_lastSet_of_process {s s' : Storage} (ho : s.Owned) {l : List Received}
    (before : List Received) (hflat : s.view.flat = flatAfterAll (fun _ _ => none) before)
    {messages : List (List Bytes)}
    (h : SchemaBuild.protobuf.process s l = .ok (s', messages)) :
    ∀ m ∈ messages, m.length = 11 ∧ LastSet m := by
  induction l generalizing s before messages with
  | nil =>
    cases h
    exact fun m hm => absurd hm List.not_mem_nil
  | cons c l ih =>
    obtain ⟨⟨t, m⟩, hcmd, hrest⟩ := bind_eq_ok.mp h
    obtain ⟨⟨u, ms⟩, hl, hpure⟩ := bind_eq_ok.mp hrest
    cases hpure
    obtain ⟨r, hr, -⟩ := SchemaBuild.processCommand_eq_ok hcmd
    obtain ⟨ho', hflat', -⟩ := spec_of_respond ho hr
    have hnil : ∀ f, s.view.flat [] f = none := by
      intro f
      rw [hflat]
      exact flatAfterAll_nil before f
    refine List.forall_mem_cons.mpr ⟨length_and_lastSet_of_processCommand ho hnil hcmd, ?_⟩
    refine ih ho' (before ++ [c]) ?_ hl
    rw [hflat', hflat, flatAfterAll, flatAfterAll, List.foldl_append]
    rfl

def sentTo (clientSocket : ℤ) (l : List Received) (messages : List (List Bytes)) :
    List (List Bytes) :=
  ((l.zip messages).filter fun e => e.1.clientSocket = clientSocket).map Prod.snd

theorem mem_of_mem_sentTo {clientSocket : ℤ} {l : List Received} {messages : List (List Bytes)}
    {m : List Bytes} (h : m ∈ sentTo clientSocket l messages) : m ∈ messages := by
  obtain ⟨e, he, rfl⟩ := List.mem_map.mp h
  exact (List.of_mem_zip (List.mem_of_mem_filter he)).2

theorem complete_of_mem_sentTo {wire : StringWire} {clientSocket : ℤ} {l : List Received}
    {s : Storage} {messages : List (List Bytes)}
    (h : SchemaBuild.protobuf.process Storage.empty l = .ok (s, messages))
    (hsize : ∀ m ∈ messages, byteSizeLong wire m < 2 ^ 31) :
    ∀ m ∈ sentTo clientSocket l messages, Complete wire m := by
  intro m hm
  have hmem := mem_of_mem_sentTo hm
  obtain ⟨hlen, hlast⟩ := length_and_lastSet_of_process Storage.owned_empty [] rfl h m hmem
  exact ⟨hlen, hlast, hsize m hmem⟩

/-- What a client of the Protobuf build has read tells which messages it was sent, in
order, and how many bytes `serialize` has returned for them. -/
theorem messages_of_stream (wire : StringWire) (clientSocket : ℤ) {l l' : List Received}
    {s s' : Storage} {messages messages' : List (List Bytes)}
    (h : SchemaBuild.protobuf.process Storage.empty l = .ok (s, messages))
    (h' : SchemaBuild.protobuf.process Storage.empty l' = .ok (s', messages'))
    (hsize : ∀ m ∈ messages, byteSizeLong wire m < 2 ^ 31)
    (hsize' : ∀ m ∈ messages', byteSizeLong wire m < 2 ^ 31) :
    let sent := sentTo clientSocket l messages
    let sent' := sentTo clientSocket l' messages'
    let stream := sent.flatMap (internalSerialize wire 1)
    stream.length = (sent.map (byteSizeLong wire)).sum ∧
      (stream <+: sent'.flatMap (internalSerialize wire 1) → sent <+: sent') := by
  intro sent sent' stream
  have hsent : ∀ m ∈ sent, Complete wire m := complete_of_mem_sentTo h hsize
  have hsent' : ∀ m ∈ sent', Complete wire m := complete_of_mem_sentTo h' hsize'
  constructor
  · rw [List.length_flatMap, List.map_congr_left fun m hm => (hsent m hm).length_internalSerialize]
  · intro hstream
    have hmap := (selfDelimiting_internalSerialize wire).isPrefix_of_flatMap
      (fun m hm m' hm' => ⟨hsent m hm, hsent' m' hm'⟩)
      (fun m hm => (hsent m hm).internalSerialize_ne_nil) hstream
    rwa [List.map_id, List.map_id] at hmap

/-- A tag of the field number and the wire type 2, the length, and the string. -/
def stringWire : StringWire where
  writeString num s := varint (8 * num + 2) ++ (varint s.length ++ s)
  stringSize s := (varint s.length).length + s.length
  length_le_stringSize s := Nat.le_add_left _ _
  length_writeString := by
    intro num s _ hnum _
    rw [varint_of_lt (by omega), List.length_append, List.length_append, List.length_singleton]
  selfDelimiting := by
    rintro ⟨num, s⟩ ⟨num', s'⟩ r r' - heq
    simp only [List.append_assoc] at heq
    obtain ⟨htag, hrest⟩ := eq_of_varint_append heq
    obtain ⟨hlen, hrest⟩ := eq_of_varint_append hrest
    obtain ⟨rfl, hr⟩ := List.append_inj hrest hlen
    obtain rfl : num = num' := by omega
    exact ⟨rfl, hr⟩

theorem byteSizeLong_le {m : List Bytes} (hm : ∀ s ∈ m, s.length < 128) :
    byteSizeLong stringWire m ≤ 129 * m.length := by
  induction m with
  | nil => exact Nat.le_refl _
  | cons s m ih =>
    obtain ⟨hs, hm⟩ := List.forall_mem_cons.mp hm
    have hsize : stringWire.stringSize s = 1 + s.length := by
      change (varint s.length).length + s.length = _
      rw [varint_of_lt hs, List.length_singleton]
    have hrest := ih hm
    rw [byteSizeLong, List.length_cons, hsize]
    split_ifs
    · omega
    · omega

def stored : List Received :=
  [⟨Choices.plain, 4, ascii ("SET_FIELDS k field1=1 field2=2 field3=3 field4=4 field5=5 " ++
    "field6=6 field7=7 field8=8 field9=9 field0=0")⟩]

def storedAndRead : List Received := stored ++ [⟨Choices.plain, 4, ascii "GETALL k"⟩]

def storedMessages : List (List Bytes) := [SchemaBuild.emptyMessage (ascii "k")]

def storedAndReadMessages : List (List Bytes) :=
  storedMessages ++ [[ascii "1", ascii "2", ascii "3", ascii "4", ascii "5", ascii "6", ascii "7",
    ascii "8", ascii "9", ascii "0", ascii "k"]]

/-- All fields of the schema are stored, and then read. -/
theorem messages_of_stream_stored :
    let sent := sentTo 4 stored storedMessages
    let sent' := sentTo 4 storedAndRead storedAndReadMessages
    let stream := sent.flatMap (internalSerialize stringWire 1)
    stream.length = (sent.map (byteSizeLong stringWire)).sum ∧
      (stream <+: sent'.flatMap (internalSerialize stringWire 1) → sent <+: sent') := by
  have hshort : ∀ m ∈ storedAndReadMessages, m.length = 11 ∧ ∀ s ∈ m, s.length < 128 := by decide
  have hsize : ∀ m ∈ storedAndReadMessages, byteSizeLong stringWire m < 2 ^ 31 := by
    intro m hm
    obtain ⟨hlen, hs⟩ := hshort m hm
    have hle := byteSizeLong_le hs
    omega
  exact messages_of_stream stringWire 4
    (show SchemaBuild.protobuf.process Storage.empty stored = .ok (_, storedMessages) from rfl)
    (show SchemaBuild.protobuf.process Storage.empty storedAndRead =
      .ok (_, storedAndReadMessages) from rfl)
    (fun m hm => hsize m (List.mem_append_left _ hm)) hsize

end Protobuf

end MuStore
