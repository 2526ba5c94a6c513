import MuStore.Errors
import MuStore.Specification

namespace MuStore

open Protocol Server

def CanSend (build : Build) (history commands replies : List Bytes) : Prop :=
  ∃ (l l' : List Received) (s s' : Server) (sent sent' : List Sent),
    l.map Received.command = history ∧ l'.map Received.command = commands ∧
      Server.empty.process build l = .ok (s, sent) ∧ s.process build l' = .ok (s', sent') ∧
      sent'.map Sent.bytes = replies

/-- No commands have other replies after the one history than after the other. -/
def Indistinguishable (build : Build) (history history' : List Bytes) : Prop :=
  ∀ commands replies, CanSend build history commands replies ↔
    CanSend build history' commands replies

section CanSend

variable {build : Build} {history commands replies : List Bytes}

theorem canSend_iff : CanSend build history commands replies ↔
    AllowsAll build (lastWrite history) (commands.map deserialize) replies := by
  constructor
  · rintro ⟨l, l', s, s', sent, sent', rfl, rfl, hrun, hrun', rfl⟩
    obtain ⟨ho, hflat⟩ := spec_of_process hrun
    obtain ⟨-, hall⟩ := allowsAll_of_process ho hrun'
    rw [hflat] at hall
    rw [← flatAfterAll_empty, List.map_map]
    exact hall
  · intro hall
    obtain ⟨s, sent, hrun, ho, hlast⟩ :=
      process_lastWrite build (history.map fun command => ⟨Choices.plain, 0, command⟩)
    have hcommands : (history.map fun command => (⟨Choices.plain, 0, command⟩ : Received)).map
        Received.command = history := by
      rw [List.map_map]
      exact List.map_id history
    rw [hcommands] at hlast
    have hflat : s.storage.view.flat = lastWrite history := funext hlast
    have hlen := hall.length_eq
    rw [List.length_map] at hlen
    let arrivals : List (ℤ × Bytes) := commands.map fun command => (0, command)
    let sent' : List Sent := replies.map fun bytes => ⟨0, bytes⟩
    have hsockets : sent'.map Sent.clientSocket = arrivals.map Prod.fst := by
      simp [sent', arrivals, Function.comp_def, hlen]
    have hbytes : sent'.map Sent.bytes = replies := by simp [sent', Function.comp_def]
    have hmsgs : (arrivals.map fun a => deserialize a.2) = commands.map deserialize := by
      simp [arrivals, Function.comp_def]
    rw [← hflat, ← hmsgs, ← hbytes] at hall
    obtain ⟨l', s', harr, hrun'⟩ := exists_process ho hsockets hall
    refine ⟨_, l', s, s', sent, sent', hcommands, ?_, hrun, hrun', hbytes⟩
    have h := congrArg (List.map Prod.snd) harr
    simpa [arrivals, Function.comp_def, Received.arrival] using h

theorem exists_canSend (build : Build) (history commands : List Bytes) :
    ∃ replies, CanSend build history commands replies := by
  obtain ⟨s, sent, hrun, ho, -⟩ :=
    process_lastWrite build (history.map fun command => ⟨Choices.plain, 0, command⟩)
  obtain ⟨s', sent', hrun', -⟩ :=
    process_spec build ho (commands.map fun command => ⟨Choices.plain, 0, command⟩)
  exact ⟨_, _, _, s, s', sent, sent', by simp [Function.comp_def], by simp [Function.comp_def],
    hrun, hrun', rfl⟩

theorem indistinguishable_of_lastWrite {history' : List Bytes}
    (h : ∀ key, lastWrite history key = lastWrite history' key) :
    Indistinguishable build history history' := by
  intro commands replies
  have heq : lastWrite history = lastWrite history' := funext h
  rw [canSend_iff, canSend_iff, heq]

end CanSend

theorem getAllReply_eq (l : List (Σ _ : Bytes, Bytes)) (key : Bytes) :
    getAllReply l key = if l = [] then reply [] (ascii "Error") else reply l key := by
  unfold getAllReply reply
  split_ifs
  · rfl
  · simp

theorem allows_getAll {g : FlatMap} {key bytes : Bytes}
    (h : Allows .twoCopy g ⟨.getAll, key, ∅, []⟩ bytes) :
    ∃ l, Enumerates l (g key) ∧ bytes = getAllReply l key := by
  obtain ⟨l, hen, hcases⟩ := h
  have hen : Enumerates l (g key) := hen
  refine ⟨l, hen, ?_⟩
  rw [getAllReply_eq]
  rcases hcases with ⟨hf, rfl⟩ | ⟨hf, rfl⟩
  · have hnil : l = [] := hen.eq_nil_iff.mpr hf
    rw [if_pos hnil, encode_twoCopy, hnil]
    rfl
  · have hne : l ≠ [] := fun h => hf (hen.eq_nil_iff.mp h)
    rw [if_neg hne, encode_twoCopy]
    rfl

def emptied (names : List Bytes) : List (Σ _ : Bytes, Bytes) := names.map fun name => ⟨name, []⟩

@[simp] theorem keys_emptied (names : List Bytes) : (emptied names).keys = names := by
  simp [emptied, List.keys, Function.comp_def]

theorem nodupKeys_emptied {names : List Bytes} (hnd : names.Nodup) : (emptied names).NodupKeys := by
  rwa [List.NodupKeys, keys_emptied]

theorem dlookup_emptied {names : List Bytes} (hnd : names.Nodup) (x : Bytes) :
    (emptied names).dlookup x = if x ∈ names then some [] else none := by
  split_ifs with hx
  · exact List.mem_dlookup (nodupKeys_emptied hnd) (List.mem_map.mpr ⟨x, hx, rfl⟩)
  · rwa [List.dlookup_eq_none, keys_emptied]

def probed (f : Bytes) (v : Option Bytes) (names : List Bytes) : List (Σ _ : Bytes, Bytes) :=
  v.toList.map (fun v => ⟨f, v⟩) ++ emptied names

theorem enumerates_probed {g : Bytes → Option Bytes} {f : Bytes} {names : List Bytes}
    (hnd : names.Nodup) (hf : f ∉ names) (hempty : ∀ x ∈ names, g x = some [])
    (hnone : ∀ x, x ∉ names → x ≠ f → g x = none) : Enumerates (probed f (g f) names) g where
  nodupKeys := by
    cases g f with
    | none => exact nodupKeys_emptied hnd
    | some v =>
      rw [probed, Option.toList_some, List.map_singleton, List.singleton_append,
        List.nodupKeys_cons, keys_emptied]
      exact ⟨hf, nodupKeys_emptied hnd⟩
  lookup := by
    intro x
    rw [probed, List.dlookup_append, dlookup_emptied hnd]
    by_cases hx : x = f
    · subst hx
      cases hg : g x with
      | none => simp [hf]
      | some v => simp
    · have hhead : ((g f).toList.map fun v => (⟨f, v⟩ : Σ _ : Bytes, Bytes)).dlookup x = none := by
        rw [List.dlookup_eq_none]
        cases g f <;> simp [List.keys, hx]
      rw [hhead, Option.none_or]
      split_ifs with hmem
      · exact (hempty x hmem).symm
      · exact (hnone x hmem hx).symm

theorem length_and_flatten_of_probed {f : Bytes} {v : Option Bytes} {names : List Bytes}
    {l : List (Σ _ : Bytes, Bytes)} (hl : l.Perm (probed f v names)) :
    l.length = v.toList.length + names.length ∧ (l.map Sigma.snd).flatten = v.getD [] := by
  have hvalues := hl.map Sigma.snd
  refine ⟨by rw [hl.length_eq]; simp [probed, emptied], ?_⟩
  cases v with
  | none =>
    rw [Option.getD_none, List.flatten_eq_nil_iff]
    intro w hw
    obtain ⟨e, he, rfl⟩ := List.mem_map.mp (hvalues.mem_iff.mp hw)
    obtain ⟨name, -, rfl⟩ := List.mem_map.mp he
    rfl
  | some v =>
    refine flatten_of_perm_cons hvalues ?_
    simp [emptied]

theorem eq_of_getAllReply {f key : Bytes} {v v' : Option Bytes} {names : List Bytes}
    {l l' : List (Σ _ : Bytes, Bytes)} (hl : l.Perm (probed f v names))
    (hl' : l'.Perm (probed f v' names)) (h : getAllReply l key = getAllReply l' key) : v = v' := by
  obtain ⟨hlen, hflat⟩ := length_and_flatten_of_probed hl
  obtain ⟨hlen', hflat'⟩ := length_and_flatten_of_probed hl'
  have hsame : l.length = l'.length := by
    rw [getAllReply_eq, getAllReply_eq] at h
    split_ifs at h with hnil hnil' hnil'
    · rw [hnil, hnil']
    · rw [hnil]
      exact (reply_inj.mp h).1
    · rw [hnil']
      exact (reply_inj.mp h).1
    · exact (reply_inj.mp h).1
  have hvalue : v.getD [] = v'.getD [] := by
    by_cases hnil : l = []
    · have hnil' : l' = [] := by
        rw [hnil, List.length_nil] at hsame
        exact List.length_eq_zero_iff.mp hsame.symm
      rw [← hflat, ← hflat', hnil, hnil']
    · have hnil' : l' ≠ [] := by
        intro h'
        rw [h', List.length_nil] at hsame
        exact hnil (List.length_eq_zero_iff.mp hsame)
      rw [getAllReply_eq, getAllReply_eq, if_neg hnil, if_neg hnil'] at h
      rw [← hflat, ← hflat']
      exact List.append_cancel_right (reply_inj.mp h).2
  -- the lengths say that both are there or none is
  cases v with
  | none =>
    cases v' with
    | none => rfl
    | some w =>
      rw [hlen, hlen'] at hsame
      simp at hsame
  | some w =>
    cases v' with
    | none =>
      rw [hlen, hlen'] at hsame
      simp at hsame
    | some w' => exact congrArg some hvalue

def getAllCommand (key : Bytes) : Bytes := ascii "GETALL" ++ [key].flatMap fun w => space :: w

theorem deserialize_getAllCommand {key : Bytes} (hne : key ≠ []) (hk : SpaceFree key) :
    deserialize (getAllCommand key) = ⟨.getAll, key, ∅, []⟩ := by
  have hname : SpaceFree (ascii "GETALL") := by decide
  have hw : words isSpace (getAllCommand key) = [ascii "GETALL", key] :=
    words_flatMap_cons (by decide) [key] ⟨by decide, hname⟩
      (List.forall_mem_singleton.mpr ⟨hne, hk⟩)
  rw [deserialize_getAll hw]
  rfl

/-- Set the other fields to empty values, and ask for all. -/
def probe (key : Bytes) (names : List Bytes) : List Bytes :=
  [quotedCommand key (emptied names), getAllCommand key]

def otherNames (histories : List Bytes) (key f : Bytes) : List Bytes :=
  ((histories.flatMap (writesTo key)).keys.filter fun name => name ≠ f).dedup

section Probe

variable {histories history replies : List Bytes} {key f : Bytes}

theorem mem_otherNames {name : Bytes} : name ∈ otherNames histories key f ↔
    name ∈ (histories.flatMap (writesTo key)).keys ∧ name ≠ f := by
  rw [otherNames, List.mem_dedup, List.mem_filter, decide_eq_true_eq]

theorem writable_otherNames {name : Bytes} (hn : name ∈ otherNames histories key f) :
    Writable key ⟨name, []⟩ := by
  obtain ⟨e, he, rfl⟩ := List.mem_map.mp (mem_otherNames.mp hn).1
  obtain ⟨command, -, he⟩ := List.mem_flatMap.mp he
  have hw := writable_of_mem_writesTo he
  exact ⟨hw.key_ne_nil, hw.key_spaceFree, hw.field_spaceFree, hw.field_noSep,
    fun b hb => by cases hb⟩

theorem lastWrite_eq_none {x : Bytes} (hx : x ∉ (history.flatMap (writesTo key)).keys) :
    lastWrite history key x = none := by
  rw [lastWrite, List.dlookup_eq_none, List.keys, List.map_reverse, List.mem_reverse]
  exact hx

/-- The reply to the last command of the probe has the field's value and no other. -/
theorem replies_of_probe (hsub : history ⊆ histories) (hne : key ≠ []) (hk : SpaceFree key)
    (h : CanSend .twoCopy history (probe key (otherNames histories key f)) replies) :
    ∃ bytes l, replies = [bytes, getAllReply l key] ∧
      l.Perm (probed f (lastWrite history key f) (otherNames histories key f)) := by
  have hnd : (otherNames histories key f).Nodup := List.nodup_dedup _
  have hwrite : ∀ e ∈ emptied (otherNames histories key f), Writable key e := by
    intro e he
    obtain ⟨name, hn, rfl⟩ := List.mem_map.mp he
    exact writable_otherNames hn
  have hround : RoundTrips key (emptied (otherNames histories key f)) :=
    roundTrips_of_spaceFree hne hk (nodupKeys_emptied hnd)
      (fun e he => ⟨(hwrite e he).field_spaceFree, (hwrite e he).value_spaceFree⟩)
      fun e he => (hwrite e he).field_noSep
  rw [canSend_iff] at h
  cases replies with
  | nil => cases h
  | cons bytes replies =>
    cases replies with
    | nil => cases h.2
    | cons bytes' replies =>
      cases replies with
      | cons bytes'' replies => cases h.2.2
      | nil =>
        have hget := h.2.1
        rw [deserialize_getAllCommand hne hk] at hget
        obtain ⟨l, hen, rfl⟩ := allows_getAll hget
        refine ⟨bytes, l, rfl, ?_⟩
        rw [flatAfter_of_setFields hround.type_eq, hround.key_eq, Function.update_self] at hen
        simp only [hround.lookup_eq, dlookup_emptied hnd] at hen
        -- the key has the fields that were emptied and, if it was there, the one in question
        have hf : f ∉ otherNames histories key f := fun hf => (mem_otherNames.mp hf).2 rfl
        have hprobed := enumerates_probed (g := fun x =>
            (if x ∈ otherNames histories key f then some [] else none).or (lastWrite history key x))
          hnd hf (fun x hx => by simp [hx]) (by
            intro x hx hne
            rw [if_neg hx, Option.none_or]
            apply lastWrite_eq_none
            intro hmem
            refine hx (mem_otherNames.mpr ⟨?_, hne⟩)
            obtain ⟨e, he, rfl⟩ := List.mem_map.mp hmem
            obtain ⟨command, hc, he⟩ := List.mem_flatMap.mp he
            exact List.mem_map.mpr ⟨e, List.mem_flatMap.mpr ⟨command, hsub hc, he⟩, rfl⟩)
        simp only [if_neg hf, Option.none_or] at hprobed
        exact hen.perm hprobed

end Probe

/-- Clients of the two-copy build can tell two histories apart exactly when these leave
different fields or values under some key. -/
theorem indistinguishable_iff_lastWrite (history history' : List Bytes) :
    Indistinguishable .twoCopy history history' ↔
      ∀ key, lastWrite history key = lastWrite history' key := by
  refine ⟨?_, indistinguishable_of_lastWrite⟩
  intro h key
  funext f
  by_contra hne
  have hwrite : ∃ v, Writable key ⟨f, v⟩ := by
    cases hv : lastWrite history key f with
    | some v => exact ⟨v, writable_of_lastWrite hv⟩
    | none =>
      cases hv' : lastWrite history' key f with
      | some v => exact ⟨v, writable_of_lastWrite hv'⟩
      | none => exact absurd (hv.trans hv'.symm) hne
  obtain ⟨v, hw⟩ := hwrite
  obtain ⟨replies, hsend⟩ :=
    exists_canSend .twoCopy history (probe key (otherNames (history ++ history') key f))
  obtain ⟨bytes, l, hreplies, hl⟩ := replies_of_probe (List.subset_append_left _ _)
    hw.key_ne_nil hw.key_spaceFree hsend
  obtain ⟨bytes', l', hreplies', hl'⟩ := replies_of_probe (List.subset_append_right _ _)
    hw.key_ne_nil hw.key_spaceFree ((h _ _).mp hsend)
  rw [hreplies] at hreplies'
  have hsame : getAllReply l key = getAllReply l' key :=
    (List.cons.inj (List.cons.inj hreplies').2).1
  exact hne (eq_of_getAllReply hl hl' hsame)

end MuStore
