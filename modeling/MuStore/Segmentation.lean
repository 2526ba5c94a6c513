import MuStore.Observability
import MuStore.Connection

namespace MuStore

open Protocol Server

structure Spellable (e : Σ _ : Bytes, Bytes) : Prop where
  name : SpaceFree e.1
  kvSep_notMem : kvSep ∉ e.1
  value : SpaceFree e.2

/-- What `deserialize` can return. The fields are those of pairs that were inserted one
after another, and without a key there is nothing behind it. -/
inductive WellFormed : Request → Prop
  | setFields {key : Bytes} {l : List (Σ _ : Bytes, Bytes)} (hkey : SpaceFree key)
      (hnil : key = [] → l = []) (hl : ∀ e ∈ l, Spellable e) :
      WellFormed ⟨.setFields, key, l.foldl (fun m e => m.insert e.1 e.2) ∅, l.keys⟩
  | getAll {key : Bytes} (hkey : SpaceFree key) : WellFormed ⟨.getAll, key, ∅, []⟩
  | getFields {key : Bytes} {names : List Bytes} (hkey : SpaceFree key)
      (hnil : key = [] → names = []) (hnames : ∀ f ∈ names, f ≠ [] ∧ SpaceFree f) :
      WellFormed ⟨.getFields, key, ∅, names⟩
  | invalid : WellFormed ⟨.invalid, [], ∅, []⟩

theorem wellFormed_deserialize (data : Bytes) : WellFormed (deserialize data) := by
  have hwords : ∀ {command : Bytes} {args : List Bytes}, words isSpace data = command :: args →
      ∀ w ∈ args, w ≠ [] ∧ SpaceFree w := by
    intro command args hw w hm
    have hword : w ∈ words isSpace data := by
      rw [hw]
      exact List.mem_cons_of_mem _ hm
    exact ⟨ne_nil_of_mem_words hword, spaceFree_of_mem_words hword⟩
  have htail : ∀ {args : List Bytes}, (∀ w ∈ args, w ≠ [] ∧ SpaceFree w) → args.headD [] = [] →
      args.tail = [] := by
    intro args hargs hk
    cases args with
    | nil => rfl
    | cons key args => exact absurd hk (hargs key (by simp)).1
  rcases deserialize_cases data with ⟨args, hw⟩ | ⟨args, hw⟩ | ⟨args, hw⟩ | hd
  · have hargs := hwords hw
    rw [deserialize_setFields hw]
    refine .setFields (spaceFree_headD fun w hm => (hargs w hm).2) ?_ ?_
    · intro hk
      rw [htail hargs hk]
      rfl
    · intro e he
      obtain ⟨hsep, token, htoken, hname, hvalue⟩ := mem_pairs he
      have hfree := (hargs token (List.mem_of_mem_tail htoken)).2
      exact ⟨fun b hb => hfree b (hname hb), hsep, fun b hb => hfree b (hvalue hb)⟩
  · rw [deserialize_getAll hw]
    exact .getAll (spaceFree_headD fun w hm => (hwords hw w hm).2)
  · have hargs := hwords hw
    rw [deserialize_getFields hw]
    refine .getFields (spaceFree_headD fun w hm => (hargs w hm).2) (htail hargs) ?_
    intro f hf
    exact hargs f (List.mem_of_mem_tail hf)
  · rw [hd]
    exact .invalid

/-- The requests that a client can make are the well-formed ones. -/
theorem exists_deserialize_eq_iff (msg : Request) :
    (∃ data, deserialize data = msg) ↔ WellFormed msg := by
  constructor
  · rintro ⟨data, rfl⟩
    exact wellFormed_deserialize data
  · intro h
    cases h with
    | @setFields key l hkey hnil hl =>
      by_cases hk : key = []
      · subst hk
        rw [hnil rfl]
        have hw : words isSpace (ascii "SET_FIELDS") = [ascii "SET_FIELDS"] := by decide
        exact ⟨ascii "SET_FIELDS", deserialize_setFields hw⟩
      · exact ⟨quotedCommand key l, deserialize_quotedCommand hk hkey
          (fun e he => ⟨(hl e he).name, (hl e he).value⟩) fun e he => (hl e he).kvSep_notMem⟩
    | @getAll key hkey =>
      by_cases hk : key = []
      · subst hk
        have hw : words isSpace (ascii "GETALL") = [ascii "GETALL"] := by decide
        exact ⟨ascii "GETALL", deserialize_getAll hw⟩
      · exact ⟨getAllCommand key, deserialize_getAllCommand hk hkey⟩
    | @getFields key names hkey hnil hnames =>
      by_cases hk : key = []
      · subst hk
        rw [hnil rfl]
        have hw : words isSpace (ascii "GET_FIELDS") = [ascii "GET_FIELDS"] := by decide
        exact ⟨ascii "GET_FIELDS", deserialize_getFields hw⟩
      · exact ⟨getFieldsCommand key names, deserialize_getFieldsCommand ⟨hk, hkey⟩ hnames⟩
    | invalid => exact ⟨[], rfl⟩

namespace Connection

/-- The stream falls into the commands and a rest. -/
structure Parts (stream : Bytes) (commands : List Bytes) (rest : Bytes) : Prop where
  flatten_append : commands.flatten ++ rest = stream
  command_length : ∀ c ∈ commands, ¬bufferSize ∣ c.length
  rest_length : bufferSize ∣ rest.length

theorem dvd_length_flatten {full : List Bytes} (hfull : ∀ b ∈ full, b.length = bufferSize) :
    bufferSize ∣ full.flatten.length := by
  rw [List.length_flatten, List.map_congr_left hfull, List.map_const', List.sum_replicate_nat]
  exact Nat.dvd_mul_left _ _

theorem exists_full {s : Bytes} (h : bufferSize ∣ s.length) :
    ∃ full : List Bytes, full.flatten = s ∧ ∀ b ∈ full, b.length = bufferSize := by
  obtain ⟨n, hn⟩ := h
  induction n generalizing s with
  | zero => exact ⟨[], (List.length_eq_zero_iff.mp hn).symm, by simp⟩
  | succ n ih =>
    rw [Nat.mul_succ] at hn
    have hdrop : (s.drop bufferSize).length = bufferSize * n := by
      rw [List.length_drop]
      omega
    have htake : (s.take bufferSize).length = bufferSize := by
      rw [List.length_take]
      omega
    obtain ⟨full, hflat, hfull⟩ := ih hdrop
    refine ⟨s.take bufferSize :: full, ?_, List.forall_mem_cons.mpr ⟨htake, hfull⟩⟩
    rw [List.flatten_cons, hflat, List.take_append_drop]

theorem exists_full_and_last {s : Bytes} (h : ¬bufferSize ∣ s.length) :
    ∃ (full : List Bytes) (last : Bytes), full.flatten ++ last = s ∧
      (∀ b ∈ full, b.length = bufferSize) ∧ last ≠ [] ∧ last.length < bufferSize := by
  have hmod : s.length % bufferSize ≠ 0 := fun hz => h (Nat.dvd_of_mod_eq_zero hz)
  have hlt : s.length % bufferSize < bufferSize := Nat.mod_lt _ (by decide)
  have hdiv := Nat.div_add_mod s.length bufferSize
  let n := bufferSize * (s.length / bufferSize)
  have htake : (s.take n).length = n := by
    rw [List.length_take]
    omega
  have hlast : (s.drop n).length = s.length % bufferSize := by
    rw [List.length_drop]
    omega
  obtain ⟨full, hflat, hfull⟩ := exists_full (s := s.take n) (by rw [htake]; exact ⟨_, rfl⟩)
  refine ⟨full, s.drop n, by rw [hflat, List.take_append_drop], hfull, ?_, by rwa [hlast]⟩
  intro hnil
  rw [hnil, List.length_nil] at hlast
  exact hmod hlast.symm

theorem Batched.parts {reads commands : List Bytes} {rest : Bytes}
    (h : Batched reads commands rest) : Parts reads.flatten commands rest := by
  refine ⟨h.flatten_append, ?_, ?_⟩
  · induction h with
    | rest => simp
    | @call full _ _ last _ hfull hne hlast _ ih =>
      refine List.forall_mem_cons.mpr ⟨?_, ih⟩
      intro hdvd
      rw [List.length_append, Nat.dvd_add_right (dvd_length_flatten hfull)] at hdvd
      have hle := Nat.le_of_dvd (List.length_pos_iff.mpr hne) hdvd
      omega
  · induction h with
    | rest hfull => exact dvd_length_flatten hfull
    | call _ _ _ _ ih => exact ih

theorem calls_of_batched {reads commands : List Bytes} {rest : Bytes}
    (h : Batched reads commands rest) : calls reads = commands := by
  induction h with
  | rest hfull => exact calls_full hfull
  | call hfull hne hlast _ ih => rw [calls_batch hfull hne hlast, ih]

/-- Each way in which a stream can fall into commands comes of some cut. -/
theorem exists_batched {stream rest : Bytes} {commands : List Bytes}
    (h : Parts stream commands rest) :
    ∃ reads, Cut stream reads ∧ Batched reads commands rest := by
  induction commands generalizing stream with
  | nil =>
    obtain ⟨full, hflat, hfull⟩ := exists_full h.rest_length
    have hstream := h.flatten_append
    subst hflat
    refine ⟨full, ⟨hstream, fun b hb => ne_nil_of_full (hfull b hb), ?_⟩, .rest hfull⟩
    intro b hb
    exact (hfull b hb).le
  | cons c commands ih =>
    obtain ⟨hc, hcommands⟩ := List.forall_mem_cons.mp h.command_length
    obtain ⟨full, last, rfl, hfull, hne, hlast⟩ := exists_full_and_last hc
    obtain ⟨reads, hcut, hbatched⟩ := ih ⟨rfl, hcommands, h.rest_length⟩
    refine ⟨full ++ last :: reads, ⟨?_, ?_, ?_⟩, .call hfull hne hlast hbatched⟩
    · rw [← h.flatten_append, List.flatten_append, List.flatten_cons, hcut.flatten,
        List.flatten_cons, List.append_assoc, List.append_assoc]
    · refine List.forall_mem_append.mpr ⟨fun b hb => ne_nil_of_full (hfull b hb), ?_⟩
      exact List.forall_mem_cons.mpr ⟨hne, hcut.ne_nil⟩
    · refine List.forall_mem_append.mpr ⟨fun b hb => (hfull b hb).le, ?_⟩
      exact List.forall_mem_cons.mpr ⟨hlast.le, hcut.length_le⟩

theorem exists_cut_iff {stream : Bytes} {commands : List Bytes} :
    (∃ reads, Cut stream reads ∧ calls reads = commands) ↔
      ∃ rest, Parts stream commands rest := by
  constructor
  · rintro ⟨reads, hcut, rfl⟩
    have h := (batched_reads hcut.ne_nil hcut.length_le).parts
    rw [hcut.flatten] at h
    exact ⟨_, h⟩
  · rintro ⟨rest, h⟩
    obtain ⟨reads, hcut, hbatched⟩ := exists_batched h
    exact ⟨reads, hcut, calls_of_batched hbatched⟩

theorem map_bytes_map_mk (clientSocket : ℤ) (replies : List Bytes) :
    (replies.map (Sent.mk clientSocket)).map Sent.bytes = replies := by
  rw [List.map_map]
  exact List.map_id replies

/-- The replies that a client can get from a new server for a stream, over all cuts and
all choices of the implementation. -/
theorem replies_of_stream_iff (build : Build) (clientSocket : ℤ) (stream : Bytes)
    (replies : List Bytes) :
    (∃ reads l s, Cut stream reads ∧
        l.map Received.arrival = (calls reads).map (fun command => (clientSocket, command)) ∧
        Server.empty.process build l = .ok (s, replies.map (Sent.mk clientSocket))) ↔
      ∃ commands rest, Parts stream commands rest ∧
        AllowsAll build (fun _ _ => none) (commands.map deserialize) replies := by
  constructor
  · rintro ⟨reads, l, s, hcut, harrivals, hrun⟩
    obtain ⟨rest, hparts⟩ := exists_cut_iff.mp ⟨reads, hcut, rfl⟩
    refine ⟨calls reads, rest, hparts, ?_⟩
    have hall := (allowsAll_of_process owned_storage_empty hrun).2
    have hcommands := congrArg (List.map fun a : ℤ × Bytes => deserialize a.2) harrivals
    rw [List.map_map, List.map_map] at hcommands
    rwa [show (l.map fun c => deserialize c.command) = (calls reads).map deserialize from hcommands,
      map_bytes_map_mk] at hall
  · rintro ⟨commands, rest, hparts, hall⟩
    obtain ⟨reads, hcut, rfl⟩ := exists_cut_iff.mpr ⟨rest, hparts⟩
    have hlength : replies.length = (calls reads).length := by
      rw [hall.length_eq, List.length_map]
    have hsockets : (replies.map (Sent.mk clientSocket)).map Sent.clientSocket =
        ((calls reads).map fun command => (clientSocket, command)).map Prod.fst := by
      rw [List.map_map, List.map_map]
      change replies.map (fun _ => clientSocket) = (calls reads).map (fun _ => clientSocket)
      rw [List.map_const', List.map_const', hlength]
    have hreplies : AllowsAll build Server.empty.storage.view.flat
        (((calls reads).map fun command => (clientSocket, command)).map fun a => deserialize a.2)
        ((replies.map (Sent.mk clientSocket)).map Sent.bytes) := by
      rw [List.map_map, map_bytes_map_mk]
      exact hall
    obtain ⟨l, s, hl, hrun⟩ := exists_process owned_storage_empty hsockets hreplies
    exact ⟨reads, l, s, hcut, hl, hrun⟩

end Connection

end MuStore
