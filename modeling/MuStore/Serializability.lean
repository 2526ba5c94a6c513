import MuStore.Clients
import MuStore.Library.Interleaving

namespace MuStore

open Protocol Server

open Classical in
noncomputable def answer (g : FlatMap) (msg : Request) : Outcome :=
  ⟨decide (Fails g msg), requested g msg⟩

noncomputable def replay (g : FlatMap) : List Request → FlatMap × List Outcome
  | [] => (g, [])
  | msg :: l =>
    let (g', outcomes) := replay (flatAfter g msg) l
    (g', answer g msg :: outcomes)

theorem replay_concat (g : FlatMap) (l : List Request) (msg : Request) :
    replay g (l ++ [msg]) =
      (flatAfter (replay g l).1 msg, (replay g l).2 ++ [answer (replay g l).1 msg]) := by
  induction l generalizing g with
  | nil => rfl
  | cons m l ih => simp only [List.cons_append, replay, ih]

theorem Server.Answers.outcome_eq {g : FlatMap} {msg : Request} {c : ℤ} {h : Heap Bytes}
    {r : Response} (ha : Answers g msg c h r) : r.outcome h = answer g msg := by
  rw [Response.outcome, answer, ha.fields]
  congr 1
  by_cases hf : Fails g msg
  · simp [hf, (ha.error hf).1]
  · rw [(ha.success hf).1]
    cases ht : msg.type with
    | invalid => exact absurd (by simp [Fails, ht]) hf
    | setFields => simp [hf, RequestType.toResponseType]
    | getAll => simp [hf, RequestType.toResponseType]
    | getFields => simp [hf, RequestType.toResponseType]

/-- `respond` on one request after another, with the outcome of each. -/
def serially (s : Storage) :
    List (Choices × ℤ × Request) → Except MemFault (Storage × List Outcome)
  | [] => pure (s, [])
  | (ch, clientSocket, msg) :: rest => do
    let (s, r) ← respond ch s msg clientSocket
    let (s', outcomes) ← serially s rest
    pure (s', r.outcome s.heap :: outcomes)

theorem serially_spec {s : Storage} (ho : s.Owned) (l : List (Choices × ℤ × Request)) :
    ∃ s', serially s l = .ok (s', (replay s.view.flat (l.map fun e => e.2.2)).2) ∧
      s'.view.flat = (replay s.view.flat (l.map fun e => e.2.2)).1 := by
  induction l generalizing s with
  | nil => exact ⟨s, rfl, rfl⟩
  | cons e l ih =>
    obtain ⟨ch, clientSocket, msg⟩ := e
    obtain ⟨s₁, r, hresp, ho₁, hflat₁, ha⟩ := respond_spec ch ho msg clientSocket
    obtain ⟨s₂, hrest, hflat₂⟩ := ih ho₁
    rw [hflat₁] at hrest hflat₂
    refine ⟨s₂, ?_, hflat₂⟩
    rw [serially, hresp]
    change (do
      let (s', outcomes) ← serially s₁ l
      pure (s', r.outcome s₁.heap :: outcomes)) = _
    rw [hrest, ha.outcome_eq]
    rfl

def Phase.awaiting : Phase → List Request
  | .inserted msg => [msg]
  | _ => []

def Phase.busy : Phase → ℕ
  | .idle => 0
  | .inserted _ => 2
  | .responding _ _ _ => 1

/-- The requests that a thread makes of the commands at hand in its turns, `busy` of
them being taken by the request before. -/
def requestsFrom : ℕ → List Bytes → List Request
  | _, [] => []
  | busy + 1, _ :: commands => requestsFrom busy commands
  | 0, command :: commands =>
    let msg := deserialize command
    -- `setFields` and the serialization are turns of the same request
    msg :: requestsFrom (if msg.type = .setFields then 2 else 1) commands

namespace Threads

/-- The requests of a client in the log, and the one that is still to be logged. -/
def requests (w : Threads) (c : ℤ) : List Request :=
  restrict c (w.log.map fun e => (e.clientSocket, e.msg)) ++ (w.phase c).awaiting

/-- The log replays to the contents of the store and the outcomes it records. -/
structure Linearized (w : Threads) : Prop where
  consistent : w.Consistent
  replay_log : replay (fun _ _ => none) (w.log.map Commit.msg) =
    (w.storage.view.flat, w.log.map Commit.outcome)

/-- Only a last section is seen: it extends the log as it changes the contents. -/
theorem Turned.linearized {w w' : Threads} {t : Turn} (h : Turned w t w') (hw : w.Linearized) :
    w'.Linearized := by
  refine ⟨h.consistent hw.consistent, ?_⟩
  cases h with
  | @begin msg ht =>
    -- a new key shows in no field, and nothing is logged yet
    obtain ⟨-, hflat, -⟩ := Storage.insert_spec hw.consistent.owned msg.key
    change _ = ((w.storage.insert msg.key).view.flat, _)
    rw [hflat]
    exact hw.replay_log
  | @commit msg storage r hsec =>
    simp only [Threads.commit, List.map_append, List.map_cons, List.map_nil]
    rw [replay_concat, hw.replay_log, hsec.flat, hsec.answers.outcome_eq]
  | send _ => exact hw.replay_log

theorem linearized_empty : Threads.empty.Linearized := ⟨consistent_empty, rfl⟩

theorem exists_run_linearized (l : List Turn) :
    ∃ w, l.foldlM turn Threads.empty = .ok w ∧ w.Linearized := by
  refine exists_run (fun w t hw => ?_) l linearized_empty
  obtain ⟨w', hturn, hturned⟩ := turned_of_consistent hw.consistent t
  exact ⟨w', hturn, hturned.linearized hw⟩

section Requests

variable {w w' : Threads} {t : Turn} {c : ℤ}

theorem Taken.phase_of_ne (h : Taken w t w') (hc : t.clientSocket ≠ c) :
    w'.phase c = w.phase c := by
  cases h with
  | begin _ _ => exact Function.update_of_ne (Ne.symm hc) ..
  | answer _ _ => exact Function.update_of_ne (Ne.symm hc) ..
  | finish _ _ => exact Function.update_of_ne (Ne.symm hc) ..
  | send _ => exact Function.update_of_ne (Ne.symm hc) ..

theorem Taken.requests_of_ne (h : Taken w t w') (hc : t.clientSocket ≠ c) :
    w'.requests c = w.requests c := by
  rw [requests, requests, h.phase_of_ne hc]
  cases h with
  | begin _ _ => rfl
  | answer _ _ =>
    rw [commit, List.map_append, List.map_cons, List.map_nil, restrict_concat_of_ne hc]
  | finish _ _ =>
    rw [commit, List.map_append, List.map_cons, List.map_nil, restrict_concat_of_ne hc]
  | send _ => rfl

theorem Taken.requests_self (h : Taken w t w') (commands : List Bytes) :
    w'.requests t.clientSocket ++ requestsFrom (w'.phase t.clientSocket).busy commands =
      w.requests t.clientSocket ++
        requestsFrom (w.phase t.clientSocket).busy (t.command :: commands) := by
  cases h with
  | begin hidle ht =>
    simp only [requests, Threads.begin, Function.update_self, hidle, Phase.awaiting, Phase.busy,
      requestsFrom, if_pos ht, List.append_nil, List.append_assoc, List.singleton_append]
  | answer hidle hsec =>
    -- `SET_FIELDS` has its last section after its first one
    have ht : (deserialize t.command).type ≠ .setFields := by
      intro ht
      have hinserted := hsec.inserted ht
      rw [hidle] at hinserted
      cases hinserted
    simp only [requests, commit, Function.update_self, hidle, Phase.awaiting, Phase.busy,
      requestsFrom, if_neg ht, List.map_append, List.map_cons, List.map_nil,
      restrict_concat_self, List.append_nil, List.append_assoc, List.singleton_append]
  | finish hph _ =>
    simp only [requests, commit, Function.update_self, hph, Phase.awaiting, Phase.busy,
      requestsFrom, List.map_append, List.map_cons, List.map_nil, restrict_concat_self,
      List.append_nil]
  | send hph =>
    simp only [requests, Threads.send, Function.update_self, hph, Phase.awaiting, Phase.busy,
      requestsFrom]

theorem requests_of_run (hw : w.Consistent) {l : List Turn} (hrun : l.foldlM turn w = .ok w')
    (c : ℤ) :
    w'.requests c = w.requests c ++ requestsFrom (w.phase c).busy
      (restrict c (l.map fun t => (t.clientSocket, t.command))) := by
  induction l generalizing w with
  | nil =>
    cases hrun
    rw [List.map_nil, restrict_nil, requestsFrom, List.append_nil]
  | cons t l ih =>
    obtain ⟨w₁, hturn, htaken⟩ := taken_of_consistent hw t
    rw [run_cons hturn] at hrun
    have hrest := ih (htaken.turned.consistent hw) hrun
    -- only a turn of its own thread changes what a client has asked for
    by_cases hc : t.clientSocket = c
    · subst hc
      rw [List.map_cons, restrict_cons_self, ← htaken.requests_self]
      exact hrest
    · rw [List.map_cons, restrict_cons_of_ne hc, ← htaken.requests_of_ne hc,
        ← htaken.phase_of_ne hc]
      exact hrest

end Requests

/-- Any interleaving of the sections is serializable: no section fails, `setFields`
finds its key, and the requests, executed one at a time in the order of their last
sections, have the same outcomes and leave the same fields under every key. They are
on each socket the requests of its commands. -/
theorem sections_serializable (l : List Turn) (choices : ℕ → Choices) :
    ∃ w, l.foldlM turn Threads.empty = .ok w ∧
      (∀ c msg ch, w.phase c = .inserted msg →
        ∃ s, w.storage.setFields ch msg.key msg.fields = .ok (s, true)) ∧
      (∀ c, w.requests c =
        requestsFrom 0 (restrict c (l.map fun t => (t.clientSocket, t.command)))) ∧
      ∃ s, serially Storage.empty
          (w.log.mapIdx fun i e => (choices i, e.clientSocket, e.msg)) =
            .ok (s, w.log.map Commit.outcome) ∧
        s.view.flat = w.storage.view.flat := by
  obtain ⟨w, hrun, hw⟩ := exists_run_linearized l
  refine ⟨w, hrun, ?_, ?_, ?_⟩
  · intro c msg ch hph
    obtain ⟨s, hset, -⟩ := section_setFields ch hw.consistent hph
    exact ⟨s, hset⟩
  · exact requests_of_run consistent_empty hrun
  · obtain ⟨s, hser, hflat⟩ := serially_spec Storage.owned_empty
      (w.log.mapIdx fun i e => (choices i, e.clientSocket, e.msg))
    have hmsgs : (w.log.mapIdx fun i e => (choices i, e.clientSocket, e.msg)).map (fun e => e.2.2) =
        w.log.map Commit.msg := by
      apply List.ext_getElem?
      intro i
      simp [Function.comp_def]
    have hlog : replay Storage.empty.view.flat (w.log.map Commit.msg) =
        (w.storage.view.flat, w.log.map Commit.outcome) := hw.replay_log
    rw [hmsgs, hlog] at hser hflat
    exact ⟨s, hser, hflat⟩

end Threads

end MuStore
