import MuStore.Serializer
import MuStore.Library.Runs

namespace MuStore

namespace IOVecSerializer

/-- A response that can be serialized on its own, and the order of the loop over
its fields. -/
structure Job (h : Heap Bytes) where
  order : IterOrder Bytes Addr
  msg : Response
  bytes : Bytes
  alone : (serialize order h [] msg).2 = .ok bytes

structure Call (h : Heap Bytes) where
  job : Job h
  rest : List (Except SerializeError Iovec)

/-- The table of the one serializer in the process, which all threads use, and the calls
that are under way. `sent` lists what the calls of `sendmsg` gathered; no step reads it. -/
structure Calls (h : Heap Bytes) where
  iovecs : List Iovec
  call : ℤ → Option (Call h)
  sent : List (Job h × Bytes)

structure Move (h : Heap Bytes) where
  clientSocket : ℤ
  job : Job h

namespace Calls

variable {h : Heap Bytes}

def empty : Calls h := ⟨[], fun _ => none, []⟩

def step (w : Calls h) (m : Move h) : Except SerializeError (Calls h) :=
  match w.call m.clientSocket with
  | none =>
    -- `iovecs.clear()`
    pure { w with
      iovecs := []
      call := Function.update w.call m.clientSocket
        (some ⟨m.job, addIovecs m.job.order h m.job.msg⟩) }
  | some ⟨_, .error e :: _⟩ => .error e
  | some ⟨job, .ok iov :: rest⟩ =>
    pure { w with
      iovecs := w.iovecs ++ [iov]
      call := Function.update w.call m.clientSocket (some ⟨job, rest⟩) }
  | some ⟨job, []⟩ => do
    -- `sendmsg`
    let bytes ← gather h w.iovecs
    pure { w with
      call := Function.update w.call m.clientSocket none
      sent := w.sent ++ [(job, bytes)] }

/-- Every `sendmsg` gathered what its response is sent as on its own. -/
def Own (w : Calls h) : Prop := ∀ e ∈ w.sent, e.2 = e.1.bytes

/-- If the step is a `clear`, no other call is between its `clear` and its `sendmsg`. -/
def Disjoint (w : Calls h) (m : Move h) : Prop :=
  w.call m.clientSocket = none → ∀ c, w.call c = none

theorem exists_addIovecs (job : Job h) :
    ∃ t : List Iovec, addIovecs job.order h job.msg = t.map .ok :=
  ⟨_, (addIovecs_of_serialize (Prod.ext rfl job.alone)).1⟩

theorem gather_of_addIovecs (job : Job h) {t : List Iovec}
    (ht : addIovecs job.order h job.msg = t.map .ok) : gather h t = .ok job.bytes := by
  have ha := job.alone
  rwa [serialize_of_addIovecs ht] at ha

/-- The invariant of runs without overlap: no second call is under way, and the
table holds what the call has pushed so far. -/
structure Exclusive (w : Calls h) : Prop where
  alone : ∀ {c k}, w.call c = some k → ∀ d, d ≠ c → w.call d = none
  pushed : ∀ {c k}, w.call c = some k →
    addIovecs k.job.order h k.job.msg = w.iovecs.map .ok ++ k.rest
  own : w.Own

theorem exclusive_empty : (empty : Calls h).Exclusive where
  alone h := by cases h
  pushed h := by cases h
  own e he := by cases he

variable {w w' : Calls h} {m : Move h}

theorem exclusive_of_update {c : ℤ} {k : Option (Call h)} (hc : ∀ d, d ≠ c → w.call d = none)
    (hw' : w'.call = Function.update w.call c k)
    (hk : ∀ k', k = some k' →
      addIovecs k'.job.order h k'.job.msg = w'.iovecs.map .ok ++ k'.rest)
    (hown : w'.Own) : w'.Exclusive := by
  have hnone : ∀ d, d ≠ c → w'.call d = none := by
    intro d hd
    rw [hw', Function.update_of_ne hd]
    exact hc d hd
  have hself : ∀ {d k'}, w'.call d = some k' → d = c := by
    intro d k' hd
    by_contra hne
    rw [hnone d hne] at hd
    cases hd
  refine ⟨?_, ?_, hown⟩
  · intro d k' hd d' hd'
    exact hnone d' (hself hd ▸ hd')
  · intro d k' hd
    apply hk
    rwa [hself hd, hw', Function.update_self] at hd

theorem exists_step (hw : w.Exclusive) (hd : Disjoint w m) :
    ∃ w', w.step m = .ok w' ∧ w'.Exclusive := by
  unfold step
  cases hcall : w.call m.clientSocket with
  | none => exact ⟨_, rfl, exclusive_of_update (fun d _ => hd hcall d) rfl
      (fun k' hk => by cases hk; rfl) hw.own⟩
  | some k =>
    obtain ⟨job, rest⟩ := k
    have hpushed := hw.pushed hcall
    obtain ⟨t, ht⟩ := exists_addIovecs job
    cases rest with
    | nil =>
      rw [List.append_nil] at hpushed
      have hg := gather_of_addIovecs job hpushed
      refine ⟨_, by simp only [hg]; rfl, exclusive_of_update (hw.alone hcall) rfl
        (fun k' hk => by cases hk) ?_⟩
      intro e he
      rcases List.mem_append.mp he with he | he
      · exact hw.own e he
      · rw [List.mem_singleton.mp he]
    | cons x rest =>
      cases x with
      | error e =>
        -- a job that can be serialized on its own pushes no error
        have hmem : Except.error e ∈ t.map (Except.ok (ε := SerializeError)) := by
          rw [← ht, hpushed]
          simp
        simp at hmem
      | ok iov =>
        refine ⟨_, rfl, exclusive_of_update (hw.alone hcall) rfl ?_ hw.own⟩
        intro k' hk
        cases hk
        rw [hpushed, List.map_append, List.append_assoc]
        rfl

/-- In a run in which no call starts while another is between its `clear` and its
`sendmsg`, every `sendmsg` gathers what its response is sent as on its own. -/
theorem own_of_disjoint {l l' : List (Move h)} (hd : Throughout step Disjoint empty l)
    (hp : l' <+: l) : ∃ w, l'.foldlM step (empty : Calls h) = .ok w ∧ w.Own := by
  obtain ⟨w, hrun, hw⟩ := (hd.of_isPrefix hp).exists_run (fun _ _ hw hd => exists_step hw hd)
    exclusive_empty
  exact ⟨w, hrun, hw.own⟩

def twoValues : Heap Bytes := ((∅ : Heap Bytes).insert 1 (ascii "John")).insert 2 (ascii "Jane")

def johnJob : Job twoValues where
  order := IterOrder.stored
  msg := ⟨.getAll, ascii "k1", (∅ : UnorderedMap Bytes Addr).insert (ascii "name") 1, [], 4⟩
  bytes := ascii "Johnk1\n"
  alone := rfl

def janeJob : Job twoValues where
  order := IterOrder.stored
  msg := ⟨.getAll, ascii "k2", (∅ : UnorderedMap Bytes Addr).insert (ascii "name") 2, [], 5⟩
  bytes := ascii "Janek2\n"
  alone := rfl

theorem disjoint_of_call {k : Call h} (hk : w.call m.clientSocket = some k) : Disjoint w m := by
  intro hnone
  rw [hk] at hnone
  cases hnone

/-- Client 5 starts when client 4 is done. -/
theorem own_of_disjoint_john_jane :
    ∃ w, [⟨4, johnJob⟩, ⟨4, johnJob⟩, ⟨4, johnJob⟩, ⟨4, johnJob⟩, ⟨4, johnJob⟩, ⟨5, janeJob⟩,
      ⟨5, janeJob⟩].foldlM step (empty : Calls twoValues) = .ok w ∧ w.Own := by
  refine own_of_disjoint ?_ List.prefix_rfl
  refine .cons (fun _ _ => rfl) rfl ?_
  refine .cons (disjoint_of_call rfl) rfl (.cons (disjoint_of_call rfl) rfl ?_)
  refine .cons (disjoint_of_call rfl) rfl (.cons (disjoint_of_call rfl) rfl ?_)
  refine .cons ?_ rfl (.cons (disjoint_of_call rfl) rfl trivial)
  intro _ c
  by_cases hc : c = 4
  · rw [hc]
    rfl
  · simp only [Function.update_of_ne hc]
    rfl

/-- Two calls overlap and the reply to client 4 carries the value for client 5. -/
theorem not_own :
    ¬∀ (h : Heap Bytes) (l : List (Move h)) (w : Calls h),
      l.foldlM step (empty : Calls h) = .ok w → w.Own := by
  intro h
  have hown := h twoValues [⟨4, johnJob⟩, ⟨5, janeJob⟩, ⟨5, janeJob⟩, ⟨4, johnJob⟩, ⟨4, johnJob⟩,
    ⟨4, johnJob⟩, ⟨4, johnJob⟩] _ rfl
  have hsent : ascii "JaneJohnk1\n" = ascii "Johnk1\n" := hown _ (List.mem_singleton_self _)
  revert hsent
  decide

end Calls

end IOVecSerializer

end MuStore
