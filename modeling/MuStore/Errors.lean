import MuStore.Replies

namespace MuStore

open Protocol Server

def Errs (s : Server) (c : Received) : Prop :=
  ∃ st r, respond c.choices s.storage (deserialize c.command) c.clientSocket = .ok (st, r) ∧
    r.type = .response

/-- The stored fields that a read finds, in the order of a loop over its result. -/
def found (o : IterOrder Bytes Addr) (s : Storage) (msg : Request) : List (Σ _ : Bytes, Bytes) :=
  match msg.type with
  | .getAll => o.deref s.heap (s.kv.getFields msg.key)
  | .getFields => o.deref s.heap (s.kv.getSelectedFields msg.key msg.fieldNames)
  | _ => []

def Missing (s : Storage) (msg : Request) : Prop :=
  s.view msg.key = none ∨ ∃ f ∈ msg.fieldNames, s.view.flat msg.key f = none

section Found

variable {s : Storage} {msg : Request}

theorem deref_eq_nil {h : Heap Bytes} {fields : UnorderedMap Bytes Addr}
    (o : IterOrder Bytes Addr) (hl : Live h fields)
    (hf : KVStore.pointees h fields = fun _ => none) : o.deref h fields = [] := by
  have hen := o.enumerates_deref hl
  rw [hf] at hen
  exact hen.eq_nil_iff.mpr fun _ => rfl

theorem respond_found (ch : Choices) (ho : s.Owned) (msg : Request) (clientSocket : ℤ) :
    ∃ st r, respond ch s msg clientSocket = .ok (st, r) ∧
      Answers s.view.flat msg clientSocket st.heap r ∧
      ch.pointers.deref st.heap r.fields = found ch.pointers s msg := by
  obtain ⟨st, r, hr, -, -, ha⟩ := respond_spec ch ho msg clientSocket
  refine ⟨st, r, hr, ha, ?_⟩
  have hfields := ha.fields
  unfold found
  unfold requested at hfields
  cases ht : msg.type with
  | invalid =>
    simp only [ht] at hfields
    exact deref_eq_nil _ ha.live hfields
  | setFields =>
    simp only [ht] at hfields
    exact deref_eq_nil _ ha.live hfields
  | getAll =>
    simp only [respond, ht] at hr
    obtain ⟨rfl, rfl⟩ := Prod.ext_iff.mp (Except.ok.inj hr)
    rw [fields_getAllResponse]
  | getFields =>
    simp only [respond, ht] at hr
    obtain ⟨rfl, rfl⟩ := Prod.ext_iff.mp (Except.ok.inj hr)
    rw [fields_getFieldsResponse]

theorem enumerates_found (ho : s.Owned) (o : IterOrder Bytes Addr) (msg : Request) :
    Enumerates (found o s msg) (requested s.view.flat msg) := by
  let ch : Choices := { Choices.plain with pointers := o }
  obtain ⟨st, r, -, ha, hf⟩ := respond_found ch ho msg 0
  rw [← hf, ← ha.fields]
  exact o.enumerates_deref ha.live

theorem type_eq_response_iff {g : FlatMap} {clientSocket : ℤ} {h : Heap Bytes} {r : Response}
    (ha : Answers g msg clientSocket h r) : r.type = .response ↔ Fails g msg := by
  constructor
  · intro ht
    by_contra hf
    rw [(ha.success hf).1] at ht
    cases hm : msg.type with
    | invalid =>
      apply hf
      rw [Fails, hm]
      trivial
    | setFields => simp [hm, RequestType.toResponseType] at ht
    | getAll => simp [hm, RequestType.toResponseType] at ht
    | getFields => simp [hm, RequestType.toResponseType] at ht
  · intro hf
    exact (ha.error hf).1

end Found

section Replies

variable {s s' : Server} {c : Received} {sent : Sent}

theorem errs_iff (ho : s.storage.Owned) (c : Received) :
    Errs s c ↔ Fails s.storage.view.flat (deserialize c.command) := by
  obtain ⟨st, r, hr, ha, -⟩ := respond_found c.choices ho (deserialize c.command) c.clientSocket
  rw [← type_eq_response_iff ha]
  constructor
  · rintro ⟨st', r', hr', ht⟩
    rw [hr, Except.ok.injEq, Prod.mk.injEq] at hr'
    rw [hr'.2]
    exact ht
  · intro ht
    exact ⟨st, r, hr, ht⟩

def reply (l : List (Σ _ : Bytes, Bytes)) (key : Bytes) : Bytes :=
  decimal l.length ++ space :: ((l.map Sigma.snd).flatten ++ key ++ [newline])

theorem encode_twoCopy (t : ResponseType) (l : List (Σ _ : Bytes, Bytes)) (key : Bytes) :
    encode .twoCopy t l key = reply (carried t l) key := by
  simp [encode, reply]

theorem reply_inj {l l' : List (Σ _ : Bytes, Bytes)} {key key' : Bytes} :
    reply l key = reply l' key' ↔ l.length = l'.length ∧
      (l.map Sigma.snd).flatten ++ key = (l'.map Sigma.snd).flatten ++ key' := by
  constructor
  · intro h
    have hlen := decimal_append_space_inj h
    refine ⟨hlen, ?_⟩
    rw [reply, reply, hlen] at h
    exact List.append_cancel_right (List.cons.inj (List.append_cancel_left h)).2
  · rintro ⟨hlen, hbody⟩
    rw [reply, reply, hlen, hbody]

theorem bytes_of_processCommand (ho : s.storage.Owned)
    (hcmd : s.processCommand .twoCopy c = .ok (s', sent)) :
    ∃ r, Answers s.storage.view.flat (deserialize c.command) c.clientSocket s'.storage.heap r ∧
      sent.bytes =
        reply (carried r.type (found c.choices.pointers s.storage (deserialize c.command)))
          r.key := by
  obtain ⟨st, r, hr, ha, hf⟩ := respond_found c.choices ho (deserialize c.command) c.clientSocket
  obtain ⟨iovecs, hcmd'⟩ :=
    processCommand_of_respond .twoCopy hr ha.live ha.fieldNames ha.clientSocket
  rw [hcmd, Except.ok.injEq, Prod.mk.injEq] at hcmd'
  obtain ⟨rfl, rfl⟩ := hcmd'
  exact ⟨r, ha, by rw [encode_twoCopy, hf]⟩

theorem bytes_of_errs (ho : s.storage.Owned) (he : Errs s c)
    (hcmd : s.processCommand .twoCopy c = .ok (s', sent)) :
    sent.bytes = reply (found c.choices.pointers s.storage (deserialize c.command))
      (ascii "Error") := by
  obtain ⟨r, ha, hb⟩ := bytes_of_processCommand ho hcmd
  obtain ⟨ht, hk⟩ := ha.error ((errs_iff ho c).mp he)
  rw [hb, ht, hk, carried, if_neg (by decide)]

/-- Two error replies are the same exactly when what the two commands found has the
same number of fields and the same bytes, and one gives nothing away exactly when
no field that it asks for is stored. -/
theorem error_replies_eq_iff {s₁ s₂ : Server} (hs₁ : Reachable s₁) (hs₂ : Reachable s₂)
    {c₁ c₂ : Received} (he₁ : Errs s₁ c₁) (he₂ : Errs s₂ c₂) :
    ∃ t₁ r₁ t₂ r₂, s₁.processCommand .twoCopy c₁ = .ok (t₁, r₁) ∧
      s₂.processCommand .twoCopy c₂ = .ok (t₂, r₂) ∧
      (r₁.bytes = r₂.bytes ↔
        (found c₁.choices.pointers s₁.storage (deserialize c₁.command)).length =
            (found c₂.choices.pointers s₂.storage (deserialize c₂.command)).length ∧
          ((found c₁.choices.pointers s₁.storage (deserialize c₁.command)).map Sigma.snd).flatten =
            ((found c₂.choices.pointers s₂.storage (deserialize c₂.command)).map
              Sigma.snd).flatten) ∧
      (r₁.bytes = ascii "0 Error\n" ↔
        ∀ f, requested s₁.storage.view.flat (deserialize c₁.command) f = none) := by
  have ho₁ := hs₁.lastWrite_eq.1
  have ho₂ := hs₂.lastWrite_eq.1
  obtain ⟨t₁, q₁, hcmd₁, -⟩ := processCommand_spec .twoCopy ho₁ c₁
  obtain ⟨t₂, q₂, hcmd₂, -⟩ := processCommand_spec .twoCopy ho₂ c₂
  refine ⟨t₁, _, t₂, _, hcmd₁, hcmd₂, ?_, ?_⟩
  · rw [bytes_of_errs ho₁ he₁ hcmd₁, bytes_of_errs ho₂ he₂ hcmd₂, reply_inj,
      List.append_left_inj]
  · have hnil : reply [] (ascii "Error") = ascii "0 Error\n" := by decide
    rw [bytes_of_errs ho₁ he₁ hcmd₁, ← hnil, reply_inj, List.append_left_inj,
      ← (enumerates_found ho₁ c₁.choices.pointers _).eq_nil_iff]
    constructor
    · rintro ⟨hlen, -⟩
      exact List.length_eq_zero_iff.mp hlen
    · intro h
      rw [h]
      exact ⟨rfl, rfl⟩

def john : List Received := [⟨Choices.plain, 4, ascii "SET_FIELDS user123 name=\"John\""⟩]

def nameAndEmail : Received := ⟨Choices.plain, 4, ascii "GET_FIELDS user123 name email"⟩

def ping : Received := ⟨Choices.plain, 5, ascii "PING"⟩

theorem errs_john : ∃ s, Reachable s ∧ Errs s nameAndEmail ∧ Errs s ping :=
  ⟨_, ⟨john, _, rfl⟩, ⟨_, _, rfl, rfl⟩, _, _, rfl, rfl⟩

theorem error_replies_eq_iff_john :
    ∃ (s : Server) (t₁ : Server) (r₁ : Sent) (t₂ : Server) (r₂ : Sent),
      s.processCommand .twoCopy nameAndEmail = .ok (t₁, r₁) ∧
      s.processCommand .twoCopy ping = .ok (t₂, r₂) ∧
      (r₁.bytes = r₂.bytes ↔
        (found IterOrder.stored s.storage (deserialize nameAndEmail.command)).length =
            (found IterOrder.stored s.storage (deserialize ping.command)).length ∧
          ((found IterOrder.stored s.storage (deserialize nameAndEmail.command)).map
              Sigma.snd).flatten =
            ((found IterOrder.stored s.storage (deserialize ping.command)).map
              Sigma.snd).flatten) ∧
      (r₁.bytes = ascii "0 Error\n" ↔
        ∀ f, requested s.storage.view.flat (deserialize nameAndEmail.command) f = none) := by
  obtain ⟨s, hs, he₁, he₂⟩ := errs_john
  exact ⟨s, error_replies_eq_iff hs hs he₁ he₂⟩

/-- A request for one field that is there and one that is not is told the first. -/
theorem not_error_replies_eq :
    ¬∀ s₁ s₂ c₁ c₂ t₁ t₂ r₁ r₂, Reachable s₁ → Reachable s₂ → Errs s₁ c₁ → Errs s₂ c₂ →
      s₁.processCommand .twoCopy c₁ = .ok (t₁, r₁) →
      s₂.processCommand .twoCopy c₂ = .ok (t₂, r₂) → r₁.bytes = r₂.bytes := by
  intro h
  have hsame : ascii "1 JohnError\n" = ascii "0 Error\n" :=
    h _ _ nameAndEmail ping _ _ _ _ ⟨john, _, rfl⟩ ⟨john, _, rfl⟩ ⟨_, _, rfl, rfl⟩ ⟨_, _, rfl, rfl⟩
      rfl rfl
  revert hsame
  decide

end Replies

section GetFields

theorem missing_iff {s : Storage} {msg : Request} (hne : msg.fieldNames ≠ []) :
    Missing s msg ↔ ∃ f ∈ msg.fieldNames, s.view.flat msg.key f = none := by
  constructor
  · rintro (hk | hf)
    · obtain ⟨f, hf⟩ := List.exists_mem_of_ne_nil _ hne
      exact ⟨f, hf, by rw [NestedMap.flat, hk]; rfl⟩
    · exact hf
  · exact Or.inr

/-- `GET_FIELDS` fails for missing data alone exactly when the request repeats no
name or some data is missing: the size of a map is compared to the length of a list. -/
theorem getFields_errs_iff {build : Build} {history : List Received} {s : Server}
    {replies : List Sent} (hs : Server.empty.process build history = .ok (s, replies))
    (c : Received) (ht : (deserialize c.command).type = .getFields)
    (hne : (deserialize c.command).fieldNames ≠ []) :
    (Errs s c ↔ Missing s.storage (deserialize c.command)) ↔
      (deserialize c.command).fieldNames.Nodup ∨ Missing s.storage (deserialize c.command) := by
  obtain ⟨ho, -⟩ := spec_of_process hs
  have hfails : Errs s c ↔ ¬((deserialize c.command).fieldNames.Nodup ∧
      ¬Missing s.storage (deserialize c.command)) := by
    rw [errs_iff ho, missing_iff hne, Fails, ht]
    simp only [ne_eq, hne, not_false_eq_true, true_and, not_exists, not_and]
  rw [hfails]
  by_cases hm : Missing s.storage (deserialize c.command)
  · simp [hm]
  · simp [hm]

theorem getFields_errs_iff_john :
    ∃ s replies, Server.empty.process .twoCopy john = .ok (s, replies) ∧
      ((Errs s nameAndEmail ↔ Missing s.storage (deserialize nameAndEmail.command)) ↔
        (deserialize nameAndEmail.command).fieldNames.Nodup ∨
          Missing s.storage (deserialize nameAndEmail.command)) := by
  obtain ⟨s, replies, hrun, -⟩ := process_lastWrite .twoCopy john
  exact ⟨s, replies, hrun, getFields_errs_iff hrun nameAndEmail (by decide) (by decide)⟩

/-- A field that is there is not returned when it is asked for twice. -/
theorem not_getFields_errs_iff :
    ¬∀ s c, Reachable s → (deserialize c.command).type = .getFields →
      (deserialize c.command).fieldNames ≠ [] →
      (Errs s c ↔ Missing s.storage (deserialize c.command)) := by
  intro h
  obtain ⟨s, hs, -, hlast⟩ := reachable_history john
  let c : Received := ⟨Choices.plain, 4, ascii "GET_FIELDS user123 name name"⟩
  have hne : (deserialize c.command).fieldNames ≠ [] := by decide
  have hthere : ¬Missing s.storage (deserialize c.command) := by
    rw [missing_iff hne]
    have hkey : (deserialize c.command).key = ascii "user123" := by decide
    have hnames : (deserialize c.command).fieldNames = [ascii "name", ascii "name"] := by decide
    rw [hkey, hnames, hlast]
    decide
  have ht : (deserialize c.command).type = .getFields := by decide
  have hiff := h s c hs ht hne
  refine hthere (hiff.mp ?_)
  rw [errs_iff hs.lastWrite_eq.1, Fails, ht]
  rintro ⟨-, hnd, -⟩
  revert hnd
  decide

end GetFields

/-- The reply to a request that succeeds ends in the word of an error, or is all of it. -/
def ErrorLike (o : IterOrder Bytes Addr) (s : Storage) (msg : Request) : Prop :=
  match msg.type with
  | .getAll => ascii "Error" <:+ ((found o s msg).map Sigma.snd).flatten ++ msg.key
  | _ => msg.key = ascii "Error"

theorem flatten_of_perm_cons {α : Type} {l ws : List (List α)} {w : List α}
    (hl : l.Perm (w :: ws)) (hws : ∀ v ∈ ws, v = []) : l.flatten = w := by
  have hnil : ws.filter (fun v => !v.isEmpty) = [] := by
    rw [List.filter_eq_nil_iff]
    intro v hv
    simp [hws v hv]
  have hperm := hl.filter fun v => !v.isEmpty
  rw [← List.flatten_filter_not_isEmpty]
  by_cases hw : w = []
  · rw [List.filter_cons_of_neg (by simp [hw]), hnil] at hperm
    rw [List.perm_nil.mp hperm, hw, List.flatten_nil]
  · rw [List.filter_cons_of_pos (by simpa using hw), hnil] at hperm
    rw [List.perm_singleton.mp hperm, List.flatten_singleton]

def getFieldsCommand (key : Bytes) (names : List Bytes) : Bytes :=
  ascii "GET_FIELDS" ++ (key :: names).flatMap fun w => space :: w

theorem deserialize_getFieldsCommand {key : Bytes} {names : List Bytes}
    (hk : key ≠ [] ∧ SpaceFree key) (hn : ∀ f ∈ names, f ≠ [] ∧ SpaceFree f) :
    deserialize (getFieldsCommand key names) = ⟨.getFields, key, ∅, names⟩ := by
  have hname : SpaceFree (ascii "GET_FIELDS") := by decide
  have hw : words isSpace (getFieldsCommand key names) = ascii "GET_FIELDS" :: key :: names :=
    words_flatMap_cons (by decide) (key :: names) ⟨by decide, hname⟩
      (List.forall_mem_cons.mpr ⟨hk, hn⟩)
  rw [deserialize_getFields hw]
  rfl

/-- Every list of writable fields is what some error finds: they are stored and
then asked for twice. -/
theorem exists_errs_found {key : Bytes} {l : List (Σ _ : Bytes, Bytes)} (hl : l ≠ [])
    (hw : ∀ e ∈ l, Writable key e) (hnd : l.NodupKeys) (hne : ∀ e ∈ l, e.1 ≠ []) :
    ∃ s c, Reachable s ∧ Errs s c ∧
      (found c.choices.pointers s.storage (deserialize c.command)).Perm l := by
  obtain ⟨s, hs, ho, hlast⟩ := reachable_history [⟨Choices.plain, 0, quotedCommand key l⟩]
  have hflat : s.storage.view.flat key = fun f => l.dlookup f := by
    funext f
    rw [hlast]
    exact lastWrite_quotedCommand hl hw hnd f
  obtain ⟨e, he⟩ := List.exists_mem_of_ne_nil l hl
  have hmem : ∀ f ∈ l.keys ++ l.keys, ∃ v, (⟨f, v⟩ : Σ _ : Bytes, Bytes) ∈ l := by
    intro f hf
    obtain ⟨e, he, rfl⟩ := List.mem_map.mp ((List.mem_append.mp hf).elim id id)
    exact ⟨e.2, he⟩
  let c : Received := ⟨Choices.plain, 0, getFieldsCommand key (l.keys ++ l.keys)⟩
  have hmsg : deserialize c.command = ⟨.getFields, key, ∅, l.keys ++ l.keys⟩ := by
    refine deserialize_getFieldsCommand ⟨(hw e he).key_ne_nil, (hw e he).key_spaceFree⟩ ?_
    intro f hf
    obtain ⟨v, hv⟩ := hmem f hf
    exact ⟨hne _ hv, (hw _ hv).field_spaceFree⟩
  refine ⟨s, c, hs, ?_, ?_⟩
  · rw [errs_iff ho, hmsg, Fails]
    rintro ⟨-, htwice, -⟩
    have hk : e.1 ∈ l.keys := List.mem_map_of_mem he
    exact (List.nodup_append.mp htwice).2.2 _ hk _ hk rfl
  · have hen := enumerates_found ho c.choices.pointers (deserialize c.command)
    have hreq : requested s.storage.view.flat (deserialize c.command) = fun f => l.dlookup f := by
      funext f
      simp only [hmsg, requested, hflat, NestedMap.select]
      split_ifs with hf
      · rfl
      · rw [eq_comm, List.dlookup_eq_none]
        intro hk
        exact hf (List.mem_append_left _ hk)
    rw [hreq] at hen
    exact hen.perm ⟨hnd, fun _ => rfl⟩

def merged (w : Bytes) : List (Σ _ : Bytes, Bytes) → List (Σ _ : Bytes, Bytes)
  | [] => []
  | e :: l => ⟨0x61 :: e.1, w⟩ :: l.map fun e => ⟨0x61 :: e.1, []⟩

section Merged

variable {key w : Bytes} {l : List (Σ _ : Bytes, Bytes)}

theorem keys_merged (w : Bytes) (l : List (Σ _ : Bytes, Bytes)) :
    (merged w l).keys = l.keys.map fun f => 0x61 :: f := by
  cases l with
  | nil => rfl
  | cons e l => simp [merged, List.keys, Function.comp_def]

theorem length_merged (w : Bytes) (l : List (Σ _ : Bytes, Bytes)) :
    (merged w l).length = l.length := by
  have h := congrArg List.length (keys_merged w l)
  simpa only [List.keys, List.length_map] using h

theorem nodupKeys_merged (hl : l.NodupKeys) : (merged w l).NodupKeys :=
  nodupKeys_lengthen (keys_merged w l) hl

theorem ne_nil_of_mem_merged {e : Σ _ : Bytes, Bytes} (he : e ∈ merged w l) : e.1 ≠ [] := by
  have hk : e.1 ∈ (merged w l).keys := List.mem_map_of_mem he
  rw [keys_merged] at hk
  obtain ⟨f, -, hf⟩ := List.mem_map.mp hk
  rw [← hf]
  exact List.cons_ne_nil _ _

theorem writable_merged (hfree : SpaceFree w) (hw : ∀ e ∈ l, Writable key e) :
    ∀ e ∈ merged w l, Writable key e := by
  cases l with
  | nil => exact fun e he => by cases he
  | cons e l =>
    rw [merged, List.forall_mem_cons]
    refine ⟨(hw e (by simp)).lengthen hfree, ?_⟩
    intro e' he'
    obtain ⟨e', hm, rfl⟩ := List.mem_map.mp he'
    exact (hw e' (by simp [hm])).lengthen (by simp [SpaceFree])

theorem flatten_of_perm_merged {l' : List (Σ _ : Bytes, Bytes)} (hl : l ≠ [])
    (hp : l'.Perm (merged w l)) : (l'.map Sigma.snd).flatten = w := by
  obtain ⟨e, l, rfl⟩ := List.exists_cons_of_ne_nil hl
  have hmap := hp.map Sigma.snd
  rw [merged, List.map_cons, List.map_map] at hmap
  apply flatten_of_perm_cons hmap
  intro v hv
  obtain ⟨e, -, rfl⟩ := List.mem_map.mp hv
  rfl

theorem exists_error_reply (hl : l ≠ []) (hw : ∀ e ∈ l, Writable key e) (hnd : l.NodupKeys)
    (hfree : SpaceFree w) :
    ∃ s c t r, Reachable s ∧ Errs s c ∧ s.processCommand .twoCopy c = .ok (t, r) ∧
      r.bytes = decimal l.length ++ space :: (w ++ ascii "Error" ++ [newline]) := by
  have hl' : merged w l ≠ [] := by
    rw [← List.length_pos_iff, length_merged, List.length_pos_iff]
    exact hl
  obtain ⟨s, c, hs, he, hp⟩ := exists_errs_found hl' (writable_merged hfree hw)
    (nodupKeys_merged hnd) fun e he => ne_nil_of_mem_merged he
  have ho := hs.lastWrite_eq.1
  obtain ⟨t, q, hcmd, -⟩ := processCommand_spec .twoCopy ho c
  refine ⟨s, c, t, _, hs, he, hcmd, ?_⟩
  rw [bytes_of_errs ho he hcmd, reply, hp.length_eq, length_merged, flatten_of_perm_merged hl hp]

theorem exists_plain_error : ∃ s c t r, Reachable s ∧ Errs s c ∧
    s.processCommand .twoCopy c = .ok (t, r) ∧ r.bytes = reply [] (ascii "Error") := by
  obtain ⟨s, hs, ho, -⟩ := reachable_history []
  have ht : (deserialize []).type = .invalid := by decide
  let c : Received := ⟨Choices.plain, 0, []⟩
  have he : Errs s c := by
    rw [errs_iff ho, Fails, ht]
    trivial
  obtain ⟨t, q, hcmd, -⟩ := processCommand_spec .twoCopy ho c
  refine ⟨s, c, t, _, hs, he, hcmd, ?_⟩
  rw [bytes_of_errs ho he hcmd, found, ht]

theorem exists_error_iff (hnd : l.NodupKeys) (hw : ∀ e ∈ l, Writable key e) :
    (∃ s c t r, Reachable s ∧ Errs s c ∧ s.processCommand .twoCopy c = .ok (t, r) ∧
        r.bytes = reply l key) ↔
      (l = [] ∧ key = ascii "Error" ∨
        l ≠ [] ∧ ascii "Error" <:+ (l.map Sigma.snd).flatten ++ key) := by
  constructor
  · rintro ⟨s, c, t, r, hs, he, hcmd, hr⟩
    rw [bytes_of_errs hs.lastWrite_eq.1 he hcmd, reply_inj] at hr
    obtain ⟨hlen, hbody⟩ := hr
    by_cases hl : l = []
    · rw [hl, List.length_nil, List.length_eq_zero_iff] at hlen
      rw [hl, hlen] at hbody
      exact Or.inl ⟨hl, hbody.symm⟩
    · exact Or.inr ⟨hl, _, hbody⟩
  · rintro (⟨rfl, rfl⟩ | ⟨hl, w, hbody⟩)
    · exact exists_plain_error
    · obtain ⟨e, he⟩ := List.exists_mem_of_ne_nil l hl
      -- what stands before the word is put together from values and the key
      have hfree : SpaceFree w := by
        intro b hb
        have hmem : b ∈ (l.map Sigma.snd).flatten ++ key := by
          rw [← hbody]
          exact List.mem_append_left _ hb
        rcases List.mem_append.mp hmem with hmem | hmem
        · obtain ⟨v, hv, hbv⟩ := List.mem_flatten.mp hmem
          obtain ⟨e', he', rfl⟩ := List.mem_map.mp hv
          exact (hw e' he').value_spaceFree b hbv
        · exact (hw e he).key_spaceFree b hmem
      obtain ⟨s, c, t, r, hs, herr, hcmd, hr⟩ := exists_error_reply hl hw hnd hfree
      exact ⟨s, c, t, r, hs, herr, hcmd, by rw [hr, hbody, reply]⟩

end Merged

theorem carried_found_of_ne_getAll (o : IterOrder Bytes Addr) (s : Storage) {msg : Request}
    (ht : msg.type ≠ .getAll) : carried msg.type.toResponseType (found o s msg) = [] := by
  unfold carried found
  cases hm : msg.type with
  | getAll => exact absurd hm ht
  | getFields => rfl
  | setFields => rfl
  | invalid => rfl

theorem errorLike_of_getAll {o : IterOrder Bytes Addr} {s : Storage} {msg : Request}
    (ht : msg.type = .getAll) :
    ErrorLike o s msg ↔
      ascii "Error" <:+ ((found o s msg).map Sigma.snd).flatten ++ msg.key := by
  rw [ErrorLike, ht]

theorem errorLike_of_ne {o : IterOrder Bytes Addr} {s : Storage} {msg : Request}
    (ht : msg.type ≠ .getAll) : ErrorLike o s msg ↔ msg.key = ascii "Error" := by
  unfold ErrorLike
  cases hm : msg.type with
  | getAll => exact absurd hm ht
  | getFields => exact Iff.rfl
  | setFields => exact Iff.rfl
  | invalid => exact Iff.rfl

/-- The reply to a success is an error reply exactly when the success reads as one. -/
theorem exists_error_iff_errorLike {s : Storage} {history : List Bytes} {msg : Request}
    (ho : s.Owned) (hlast : ∀ key, s.view.flat key = lastWrite history key)
    (hok : ¬Fails s.view.flat msg) (o : IterOrder Bytes Addr) :
    (∃ s' c' t' r', Reachable s' ∧ Errs s' c' ∧ s'.processCommand .twoCopy c' = .ok (t', r') ∧
        r'.bytes = reply (carried msg.type.toResponseType (found o s msg)) msg.key) ↔
      ErrorLike o s msg := by
  by_cases ht : msg.type = .getAll
  · have hen := enumerates_found ho o msg
    have hreq : requested s.view.flat msg = s.view.flat msg.key := by rw [requested, ht]
    rw [hreq] at hen
    have hne : found o s msg ≠ [] := by
      intro hnil
      apply hok
      rw [Fails, ht]
      exact hen.eq_nil_iff.mp hnil
    have hw : ∀ e ∈ found o s msg, Writable msg.key e := by
      rintro ⟨f, v⟩ he
      rw [hen.mem_iff, hlast] at he
      exact writable_of_lastWrite he
    rw [carried, if_neg (by rw [ht]; decide), exists_error_iff hen.nodupKeys hw,
      errorLike_of_getAll ht]
    simp only [hne, false_and, false_or, ne_eq, not_false_eq_true, true_and]
  · rw [carried_found_of_ne_getAll o s ht,
      exists_error_iff List.nodupKeys_nil (fun e he => by cases he), errorLike_of_ne ht]
    simp only [true_and, ne_eq, not_true_eq_false, false_and, or_false]

/-- A success differs from every error reply exactly when it does not read as one. -/
theorem success_ne_error_iff {s : Server} (hs : Reachable s) {c : Received} (hok : ¬Errs s c) :
    ∃ t r, s.processCommand .twoCopy c = .ok (t, r) ∧
      ((∀ s' c' t' r', Reachable s' → Errs s' c' →
          s'.processCommand .twoCopy c' = .ok (t', r') → r'.bytes ≠ r.bytes) ↔
        ¬ErrorLike c.choices.pointers s.storage (deserialize c.command)) := by
  obtain ⟨ho, history, hlast⟩ := hs.lastWrite_eq
  rw [errs_iff ho] at hok
  obtain ⟨t, q, hcmd, -⟩ := processCommand_spec .twoCopy ho c
  refine ⟨t, _, hcmd, ?_⟩
  obtain ⟨r, ha, hbytes⟩ := bytes_of_processCommand ho hcmd
  rw [hbytes, (ha.success hok).1, (ha.success hok).2,
    ← exists_error_iff_errorLike ho hlast hok c.choices.pointers]
  simp only [not_exists, not_and, ne_eq]

theorem success_ne_error_iff_john :
    ∃ s, Reachable s ∧ ∃ t r, s.processCommand .twoCopy ⟨Choices.plain, 4, ascii "GETALL user123"⟩ =
        .ok (t, r) ∧
      ((∀ s' c' t' r', Reachable s' → Errs s' c' →
          s'.processCommand .twoCopy c' = .ok (t', r') → r'.bytes ≠ r.bytes) ↔
        ¬ErrorLike IterOrder.stored s.storage (deserialize (ascii "GETALL user123"))) := by
  obtain ⟨s, hs, -, hlast⟩ := reachable_history john
  have hok : ¬Errs s ⟨Choices.plain, 4, ascii "GETALL user123"⟩ := by
    rw [errs_iff hs.lastWrite_eq.1]
    intro hf
    have hnone : s.storage.view.flat (ascii "user123") (ascii "name") = none := hf (ascii "name")
    rw [hlast] at hnone
    revert hnone
    decide
  exact ⟨s, hs, success_ne_error_iff hs hok⟩

/-- Fields set on a key of the name "Error" are acknowledged like an invalid command. -/
theorem not_success_ne_error :
    ¬∀ s c t r s' c' t' r', Reachable s → ¬Errs s c → s.processCommand .twoCopy c = .ok (t, r) →
      Reachable s' → Errs s' c' → s'.processCommand .twoCopy c' = .ok (t', r') →
      r'.bytes ≠ r.bytes := by
  intro h
  let c : Received := ⟨Choices.plain, 4, ascii "SET_FIELDS Error name=\"John\""⟩
  have hok : ¬Errs Server.empty c := by
    rw [errs_iff owned_storage_empty]
    have ht : (deserialize c.command).type = .setFields := by decide
    rw [Fails, ht]
    exact not_false
  exact h Server.empty c _ _ Server.empty ping _ _ ⟨[], _, rfl⟩ hok rfl ⟨[], _, rfl⟩
    ⟨_, _, rfl, rfl⟩ rfl (by decide)

end MuStore
