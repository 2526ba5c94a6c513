import MuStore.History

namespace MuStore

open Protocol Server

/-- The state after some history, from the empty store. -/
def Reachable (s : Server) : Prop :=
  ∃ history replies, Server.empty.process .twoCopy history = .ok (s, replies)

theorem Reachable.lastWrite_eq {s : Server} (hs : Reachable s) :
    s.storage.Owned ∧ ∃ history, ∀ key, s.storage.view.flat key = lastWrite history key := by
  obtain ⟨history, replies, hrun⟩ := hs
  obtain ⟨s', replies', hrun', ho, hlast⟩ := process_lastWrite .twoCopy history
  rw [hrun'] at hrun
  obtain ⟨rfl, -⟩ := Prod.ext_iff.mp (Except.ok.inj hrun)
  exact ⟨ho, _, hlast⟩

theorem reachable_history (history : List Received) :
    ∃ s, Reachable s ∧ s.storage.Owned ∧
      ∀ key, s.storage.view.flat key = lastWrite (history.map Received.command) key := by
  obtain ⟨s, replies, hrun, ho, hlast⟩ := process_lastWrite .twoCopy history
  exact ⟨s, ⟨history, replies, hrun⟩, ho, hlast⟩

def getFieldsReply (values : List Bytes) (key : Bytes) : Bytes :=
  decimal values.length ++ [space] ++ values.flatten ++ key ++ [newline]

def AnswersGetFields (s : Server) (c : Received) (key : Bytes) (names : List Bytes) : Prop :=
  ∃ s', s.processCommand .twoCopy c = .ok (s', ⟨c.clientSocket,
    getFieldsReply (names.map fun f => (s.storage.view.flat key f).getD []) key⟩)

theorem processCommand_getFields {s : Server} (ho : s.storage.Owned) (c : Received)
    {key : Bytes} {names : List Bytes}
    (hc : words isSpace c.command = ascii "GET_FIELDS" :: key :: names) (hne : names ≠ [])
    (hnd : names.Nodup) (hp : ∀ f ∈ names, s.storage.view.flat key f ≠ none) :
    ∃ s', s.processCommand .twoCopy c =
      .ok (s', ⟨c.clientSocket, getFieldsReply [] key⟩) := by
  have hmsg : deserialize c.command = ⟨.getFields, key, ∅, names⟩ := by
    rw [deserialize_getFields hc]
    rfl
  obtain ⟨s', r, hcmd, -, -, ha⟩ := processCommand_spec .twoCopy ho c
  have hok : ¬Fails s.storage.view.flat (deserialize c.command) := by
    rw [hmsg, Fails, not_not]
    exact ⟨hne, hnd, hp⟩
  obtain ⟨ht, hk⟩ := ha.success hok
  refine ⟨s', ?_⟩
  rw [hcmd, ht, hk, hmsg]
  rfl

theorem decimal_append_space_inj {m n : ℕ} {u v : Bytes}
    (h : decimal m ++ space :: u = decimal n ++ space :: v) : m = n := by
  have hm := not_mem_decimal_of_isSpace (b := space) (by decide) m
  have hn := not_mem_decimal_of_isSpace (b := space) (by decide) n
  have hsplit := congrArg (fun l => (l.splitOn space).head?) h
  simp only [List.splitOn_append_cons_self_of_not_mem hm,
    List.splitOn_append_cons_self_of_not_mem hn, List.head?_cons, Option.some.injEq] at hsplit
  exact decimal_injective hsplit

/-- No request for fields that are all there gets their values back. -/
theorem getFields_never_answered {s : Server} (hs : Reachable s) (c : Received)
    {key : Bytes} {names : List Bytes}
    (hc : words isSpace c.command = ascii "GET_FIELDS" :: key :: names) (hne : names ≠ [])
    (hnd : names.Nodup) (hp : ∀ f ∈ names, s.storage.view.flat key f ≠ none) :
    ¬AnswersGetFields s c key names := by
  rintro ⟨s', hcmd⟩
  obtain ⟨ho, -⟩ := hs.lastWrite_eq
  obtain ⟨s'', hcmd'⟩ := processCommand_getFields ho c hc hne hnd hp
  rw [hcmd'] at hcmd
  have hbytes := congrArg Sent.bytes (Prod.ext_iff.mp (Except.ok.inj hcmd)).2
  simp only [getFieldsReply, List.append_assoc, List.singleton_append, List.length_map] at hbytes
  have hlen := decimal_append_space_inj hbytes
  exact hne (List.length_eq_zero_iff.mp hlen.symm)

theorem getFields_never_answered_user123 :
    ∃ s, Reachable s ∧ ¬AnswersGetFields s
      ⟨Choices.plain, 4, ascii "GET_FIELDS user123 email name"⟩ (ascii "user123")
      [ascii "email", ascii "name"] := by
  obtain ⟨s, hs, -, hlast⟩ := reachable_history
    [⟨Choices.plain, 4, ascii "SET_FIELDS user123 name=\"John\" email=\"john@example.com\""⟩]
  refine ⟨s, hs, getFields_never_answered hs _ (by decide) (by decide) (by decide) ?_⟩
  rw [hlast]
  decide

/-- The reply to a request for one field that is there does not return it. -/
theorem not_answersGetFields :
    ¬∀ s c key names, Reachable s →
      words isSpace c.command = ascii "GET_FIELDS" :: key :: names → names ≠ [] → names.Nodup →
      (∀ f ∈ names, s.storage.view.flat key f ≠ none) → AnswersGetFields s c key names := by
  intro h
  obtain ⟨s, hs, ho, hlast⟩ := reachable_history
    [⟨Choices.plain, 4, ascii "SET_FIELDS user123 name=\"John\""⟩]
  let c : Received := ⟨Choices.plain, 4, ascii "GET_FIELDS user123 name"⟩
  have hc : words isSpace c.command = ascii "GET_FIELDS" :: ascii "user123" :: [ascii "name"] := by
    decide
  have hp : ∀ f ∈ [ascii "name"], s.storage.view.flat (ascii "user123") f ≠ none := by
    rw [hlast]
    decide
  obtain ⟨s₁, hgot⟩ := processCommand_getFields ho c hc (by decide) (by decide) hp
  obtain ⟨s₂, hwant⟩ := h s c _ _ hs hc (by decide) (by decide) hp
  rw [hgot, hlast] at hwant
  have hbytes : ascii "0 user123\n" = ascii "1 Johnuser123\n" :=
    congrArg Sent.bytes (Prod.ext_iff.mp (Except.ok.inj hwant)).2
  revert hbytes
  decide

/-- A stored field was a pair of some command. -/
structure Writable (key : Bytes) (e : Σ _ : Bytes, Bytes) : Prop where
  key_ne_nil : key ≠ []
  key_spaceFree : SpaceFree key
  field_spaceFree : SpaceFree e.1
  field_noSep : kvSep ∉ e.1
  value_spaceFree : SpaceFree e.2

theorem writable_of_mem_writesTo {key command : Bytes} {e : Σ _ : Bytes, Bytes}
    (he : e ∈ writesTo key command) : Writable key e := by
  unfold writesTo at he
  split at he
  · rename_i name k tokens hw
    split_ifs at he with hk
    · rw [← pairs_eq] at he
      obtain ⟨hsep, token, htoken, hsub, hsub'⟩ := mem_pairs he
      have hkey : key ∈ words isSpace command := by simp [hw, hk.2]
      have hword : token ∈ words isSpace command := by simp [hw, htoken]
      have hfree := spaceFree_of_mem_words hword
      exact ⟨ne_nil_of_mem_words hkey, spaceFree_of_mem_words hkey,
        fun b hb => hfree b (hsub hb), hsep, fun b hb => hfree b (hsub' hb)⟩
    · cases he
  · cases he

theorem writable_of_lastWrite {history : List Bytes} {key f v : Bytes}
    (h : lastWrite history key f = some v) : Writable key ⟨f, v⟩ := by
  have hmem := List.mem_reverse.mp (List.of_mem_dlookup h)
  obtain ⟨command, -, he⟩ := List.mem_flatMap.mp hmem
  exact writable_of_mem_writesTo he

theorem lastWrite_quotedCommand {key : Bytes} {l : List (Σ _ : Bytes, Bytes)} (hl : l ≠ [])
    (hw : ∀ e ∈ l, Writable key e) (hnd : l.NodupKeys) (f : Bytes) :
    lastWrite [quotedCommand key l] key f = l.dlookup f := by
  obtain ⟨e, he⟩ := List.exists_mem_of_ne_nil l hl
  have hwords := words_quotedCommand (hw e he).key_ne_nil (hw e he).key_spaceFree
    fun e he => ⟨(hw e he).field_spaceFree, (hw e he).value_spaceFree⟩
  have hpairs := pairs_map_quotedPair fun e he => (hw e he).field_noSep
  rw [pairs_eq] at hpairs
  rw [lastWrite, List.flatMap_singleton, writesTo, hwords]
  simp only [and_self, if_true, hpairs]
  exact (List.perm_dlookup f hnd (List.reverse_perm l).symm).symm

/-- Every list of writable fields is what some reachable server replies with to
`GETALL`, visiting them in that order. -/
theorem exists_getAll_reply {key : Bytes} {l : List (Σ _ : Bytes, Bytes)} (hl : l ≠ [])
    (hw : ∀ e ∈ l, Writable key e) (hnd : l.NodupKeys) (c : Received) {args : List Bytes}
    (hc : words isSpace c.command = ascii "GETALL" :: key :: args) :
    ∃ s s' choices, Reachable s ∧ (∀ f, s.storage.view.flat key f = l.dlookup f) ∧
      s.processCommand .twoCopy { c with choices := choices } =
        .ok (s', ⟨c.clientSocket, getAllReply l key⟩) := by
  obtain ⟨s, hs, ho, hlast⟩ := reachable_history [⟨Choices.plain, 0, quotedCommand key l⟩]
  have hflat : ∀ f, s.storage.view.flat key f = l.dlookup f := by
    intro f
    rw [hlast]
    exact lastWrite_quotedCommand hl hw hnd f
  have hen : Enumerates l (KVStore.pointees s.storage.heap (s.storage.kv.getFields key)) := by
    refine ⟨hnd, ?_⟩
    intro f
    rw [← hflat, KVStore.pointees_getFields]
    rfl
  obtain ⟨o, hderef⟩ := IterOrder.exists_deref_eq (live_getFields ho key) hen
  let choices : Choices := { c.choices with pointers := o }
  obtain ⟨iovecs, hcmd⟩ := processCommand_getAll ho { c with choices := choices } hc
  rw [List.headD_cons] at hcmd
  refine ⟨s, ⟨s.storage, iovecs⟩, choices, hs, hflat, ?_⟩
  rw [hcmd, hderef]

theorem Writable.lengthen {key v : Bytes} {e : Σ _ : Bytes, Bytes} (he : Writable key e)
    (hv : SpaceFree v) : Writable key ⟨0x61 :: e.1, v⟩ := by
  obtain ⟨hne, hks, hfs, hsep, -⟩ := he
  exact ⟨hne, hks, List.forall_mem_cons.mpr ⟨by decide, hfs⟩,
    List.not_mem_cons_of_ne_of_not_mem (by decide) hsep, hv⟩

theorem nodupKeys_lengthen {l l' : List (Σ _ : Bytes, Bytes)}
    (hkeys : l'.keys = l.keys.map fun f => 0x61 :: f) (hl : l.NodupKeys) : l'.NodupKeys := by
  rw [List.NodupKeys, hkeys]
  exact List.Nodup.map List.cons_injective hl

def renamed (l : List (Σ _ : Bytes, Bytes)) : List (Σ _ : Bytes, Bytes) :=
  l.map (Sigma.map (fun f => 0x61 :: f) fun _ => id)

theorem keys_renamed (l : List (Σ _ : Bytes, Bytes)) :
    (renamed l).keys = l.keys.map fun f => 0x61 :: f := by
  simp [renamed, List.keys, Sigma.map]

theorem nodupKeys_renamed {l : List (Σ _ : Bytes, Bytes)} (hl : l.NodupKeys) :
    (renamed l).NodupKeys := nodupKeys_lengthen (keys_renamed l) hl

theorem getAllReply_renamed (l : List (Σ _ : Bytes, Bytes)) (key : Bytes) :
    getAllReply (renamed l) key = getAllReply l key := by
  cases l with
  | nil => rfl
  | cons e l => simp [getAllReply, renamed, Sigma.map, Function.comp_def]

theorem writable_renamed {key : Bytes} {l : List (Σ _ : Bytes, Bytes)}
    (hw : ∀ e ∈ l, Writable key e) : ∀ e ∈ renamed l, Writable key e := by
  intro e he
  obtain ⟨e, hm, rfl⟩ := List.mem_map.mp he
  exact (hw e hm).lengthen (hw e hm).value_spaceFree

theorem exists_dlookup_renamed_ne {l : List (Σ _ : Bytes, Bytes)} (hl : l ≠ [])
    (hnd : l.NodupKeys) : ¬∀ f, (renamed l).dlookup f = l.dlookup f := by
  intro h
  have he : Enumerates l fun f => l.dlookup f := ⟨hnd, fun _ => rfl⟩
  have he' : Enumerates (renamed l) fun f => l.dlookup f := ⟨nodupKeys_renamed hnd, h⟩
  have hkeys : (renamed l).keys.Perm l.keys := (he'.perm he).map Sigma.fst
  -- the same names in another order have the same total length
  have hsum := (hkeys.map List.length).sum_eq
  rw [keys_renamed, List.map_map] at hsum
  simp only [Function.comp_def, List.length_cons, List.sum_map_add, List.map_const',
    List.sum_replicate_nat] at hsum
  have hpos : 0 < l.keys.length := by
    rw [List.keys, List.length_map]
    exact List.length_pos_iff.mpr hl
  omega

/-- A reply to `GETALL` tells the fields of the key: every reachable server that
gives it has these. -/
def DeterminesFields (reply key : Bytes) (fields : Bytes → Option Bytes) : Prop :=
  ∀ s s' c args clientSocket, Reachable s →
    words isSpace c.command = ascii "GETALL" :: key :: args →
    (∃ f, s.storage.view.flat key f ≠ none) →
    s.processCommand .twoCopy c = .ok (s', ⟨clientSocket, reply⟩) →
    s.storage.view.flat key = fields

/-- No reply that carries a field tells the fields. -/
theorem getAll_never_determinesFields {s s' : Server} (hs : Reachable s) (c : Received)
    {key : Bytes} {args : List Bytes} {reply : Sent}
    (hc : words isSpace c.command = ascii "GETALL" :: key :: args)
    (hf : ∃ f, s.storage.view.flat key f ≠ none)
    (hcmd : s.processCommand .twoCopy c = .ok (s', reply)) :
    ¬DeterminesFields reply.bytes key (s.storage.view.flat key) := by
  intro hdet
  obtain ⟨ho, history, hlast⟩ := hs.lastWrite_eq
  obtain ⟨iovecs, hcmd'⟩ := processCommand_getAll ho c hc
  rw [hcmd', List.headD_cons] at hcmd
  have hreply := congrArg Sent.bytes (Prod.ext_iff.mp (Except.ok.inj hcmd)).2
  have hen := enumerates_getAll ho c.choices.pointers key
  generalize c.choices.pointers.deref s.storage.heap (s.storage.kv.getFields key) = l at hreply hen
  have hl : l ≠ [] := by
    obtain ⟨f, hf⟩ := hf
    exact fun hnil => hf (hen.eq_nil_iff.mp hnil f)
  have hw : ∀ e ∈ l, Writable key e := by
    rintro ⟨f, v⟩ he
    rw [hen.mem_iff, hlast] at he
    exact writable_of_lastWrite he
  -- the renamed fields are stored by one command and give the same reply
  have hl' : renamed l ≠ [] := by simpa [renamed] using hl
  obtain ⟨t, t', choices, ht, hflat, hcmd''⟩ :=
    exists_getAll_reply hl' (writable_renamed hw) (nodupKeys_renamed hen.nodupKeys) c hc
  have hreply' : getAllReply l key = reply.bytes := hreply
  rw [getAllReply_renamed, hreply'] at hcmd''
  have hsome : ∃ f, t.storage.view.flat key f ≠ none := by
    obtain ⟨e, he⟩ := List.exists_mem_of_ne_nil _ hl'
    refine ⟨e.1, ?_⟩
    rw [hflat, (List.mem_dlookup_iff (nodupKeys_renamed hen.nodupKeys)).mpr he]
    exact Option.some_ne_none _
  have hsame := hdet t t' { c with choices := choices } args _ ht hc hsome hcmd''
  apply exists_dlookup_renamed_ne hl hen.nodupKeys
  intro f
  rw [← hflat, hsame, hen.lookup]

theorem getAll_never_determinesFields_user123 :
    ∃ s s' reply, Reachable s ∧
      s.processCommand .twoCopy ⟨Choices.plain, 4, ascii "GETALL user123"⟩ = .ok (s', reply) ∧
      ¬DeterminesFields reply.bytes (ascii "user123") (s.storage.view.flat (ascii "user123")) := by
  obtain ⟨s, hs, ho, hlast⟩ := reachable_history
    [⟨Choices.plain, 4, ascii "SET_FIELDS user123 name=\"John\" age=\"30\""⟩]
  let c : Received := ⟨Choices.plain, 4, ascii "GETALL user123"⟩
  have hc : words isSpace c.command = ascii "GETALL" :: ascii "user123" :: [] := by decide
  have hf : ∃ f, s.storage.view.flat (ascii "user123") f ≠ none := by
    refine ⟨ascii "name", ?_⟩
    rw [hlast]
    decide
  obtain ⟨iovecs, hcmd⟩ := processCommand_getAll ho c hc
  exact ⟨s, _, _, hs, hcmd, getAll_never_determinesFields hs c hc hf hcmd⟩

/-- Nothing decodes the replies: one field with the value `1` is answered alike
under the names `a` and `b`. -/
theorem not_exists_decode :
    ¬∃ decode : Bytes → Bytes → Bytes → Option Bytes, ∀ s s' c key args reply, Reachable s →
      words isSpace c.command = ascii "GETALL" :: key :: args →
      (∃ f, s.storage.view.flat key f ≠ none) →
      s.processCommand .twoCopy c = .ok (s', reply) →
      decode reply.bytes key = s.storage.view.flat key := by
  rintro ⟨decode, hdecode⟩
  let c : Received := ⟨Choices.plain, 4, ascii "GETALL k"⟩
  have hc : words isSpace c.command = ascii "GETALL" :: ascii "k" :: [] := by decide
  have hone : ∀ name, SpaceFree name → kvSep ∉ name → ∀ f,
      decode (ascii "1 1k\n") (ascii "k") f =
        [(⟨name, ascii "1"⟩ : Σ _ : Bytes, Bytes)].dlookup f := by
    intro name hfree hsep f
    have hw : ∀ e ∈ [(⟨name, ascii "1"⟩ : Σ _ : Bytes, Bytes)], Writable (ascii "k") e := by
      rw [List.forall_mem_singleton]
      have hone : SpaceFree (ascii "1") := by decide
      exact ⟨by decide, by decide, hfree, hsep, hone⟩
    have hreply : getAllReply [⟨name, ascii "1"⟩] (ascii "k") = ascii "1 1k\n" := by
      have hcount : decimal 1 = ascii "1" := by decide
      rw [getAllReply, if_neg (List.cons_ne_nil _ _), List.length_singleton, hcount]
      rfl
    obtain ⟨s, s', choices, hs, hflat, hcmd⟩ :=
      exists_getAll_reply (List.cons_ne_nil _ _) hw (List.nodupKeys_singleton _) c hc
    have hsome : ∃ f, s.storage.view.flat (ascii "k") f ≠ none := by
      refine ⟨name, ?_⟩
      rw [hflat, List.dlookup_cons_eq]
      exact Option.some_ne_none _
    have h := hdecode s s' { c with choices := choices } _ _ _ hs hc hsome hcmd
    rw [← hflat, ← hreply]
    exact congrFun h f
  have ha := hone (ascii "a") (by decide) (by decide) (ascii "a")
  have hb := hone (ascii "b") (by decide) (by decide) (ascii "a")
  rw [hb] at ha
  revert ha
  decide

end MuStore
