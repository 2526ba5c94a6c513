import MuStore.Clients

namespace MuStore

open Protocol Server

namespace Threads

/-- Every pointer of a pending response is live and leads to the value that its
field had when the locked section returned. -/
def Intact (w : Threads) : Prop :=
  ∀ c msg r seen, w.phase c = .responding msg r seen → ∀ f a, r.fields.lookup f = some a →
    ∃ v, seen f = some v ∧ w.storage.heap.lookup a = some v

/-- If the turn is a `setFields`, it overwrites no field that a pending response to
a request for the same key holds. -/
def Spares (w : Threads) (t : Turn) : Prop :=
  ∀ msg, w.phase t.clientSocket = .inserted msg →
    ∀ c msg' r seen, w.phase c = .responding msg' r seen → msg'.key = msg.key →
      ∀ f, msg.fields.lookup f ≠ none → r.fields.lookup f = none

structure Held (s : Storage) (msg : Request) (r : Response) (seen : Bytes → Option Bytes) :
    Prop where
  cell : ∀ {f a}, r.fields.lookup f = some a → s.kv.cell (msg.key, f) = some a
  seen : KVStore.pointees s.heap r.fields = seen
  fieldNames : r.fieldNames = []

section Held

variable {s s' : Storage} {msg msg' : Request} {r : Response} {seen : Bytes → Option Bytes}

theorem lookup_eq_flat {key f : Bytes} {a : Addr} (h : s.kv.cell (key, f) = some a) :
    s.heap.lookup a = s.view.flat key f := by
  rw [Storage.view, KVStore.flat_view, contents, h, Option.bind_some]

theorem Held.live (hh : Held s msg r seen) (ho : s.Owned) : Live s.heap r.fields :=
  fun _ _ hf => ho.live (hh.cell hf)

theorem flatAfter_of_spared {g : FlatMap} {k f : Bytes}
    (h : msg.type = .setFields → k = msg.key → msg.fields.lookup f = none) :
    flatAfter g msg k f = g k f := by
  by_cases ht : msg.type = .setFields
  · rw [flatAfter_of_setFields ht]
    by_cases hk : k = msg.key
    · rw [hk, Function.update_self, h ht hk, Option.none_or]
    · rw [Function.update_of_ne hk]
  · rw [flatAfter_of_ne ht]

/-- A section of another thread that spares the fields leaves the pointers and what
they lead to. -/
theorem Held.of_section {w : Threads} {c : ℤ} {r' : Response} (hh : Held w.storage msg r seen)
    (hsec : Section w c msg' s' r')
    (hspare : msg'.type = .setFields → msg.key = msg'.key →
      ∀ f, msg'.fields.lookup f ≠ none → r.fields.lookup f = none) : Held s' msg r seen := by
  have hfree : ∀ {f a}, r.fields.lookup f = some a → msg'.type = .setFields →
      msg.key = msg'.key → msg'.fields.lookup f = none := by
    intro f a hf ht hk
    by_contra hne
    rw [hspare ht hk f hne] at hf
    cases hf
  have hcell : ∀ {f a}, r.fields.lookup f = some a → s'.kv.cell (msg.key, f) = some a := by
    intro f a hf
    rw [hsec.frame (hfree hf)]
    exact hh.cell hf
  refine ⟨hcell, ?_, hh.fieldNames⟩
  rw [← hh.seen]
  funext f
  unfold KVStore.pointees
  cases hf : r.fields.lookup f with
  | none => rfl
  | some a =>
    -- the pointer is its cell's before and after, and the cell's value is not written
    rw [Option.bind_some, Option.bind_some, lookup_eq_flat (hcell hf), hsec.flat,
      flatAfter_of_spared (hfree hf), lookup_eq_flat (hh.cell hf)]

theorem Held.of_insert (hh : Held s msg r seen) (key : Bytes) : Held (s.insert key) msg r seen where
  cell hf := by
    rw [Storage.cell_insert]
    exact hh.cell hf
  seen := hh.seen
  fieldNames := hh.fieldNames

end Held

/-- The invariant of sparing runs: every pending response is held, and nothing that
was serialized had a dead pointer. -/
structure Sound (w : Threads) : Prop where
  consistent : w.Consistent
  held : ∀ {c msg r seen}, w.phase c = .responding msg r seen → Held w.storage msg r seen
  sent : ∀ e ∈ w.sent, ∃ bytes, e.2 = .ok bytes

theorem Sound.intact {w : Threads} (hw : w.Sound) : w.Intact := by
  intro c msg r seen hph f a hf
  have hh := hw.held hph
  obtain ⟨v, hv⟩ := Finmap.mem_iff.mp (hh.live hw.consistent.owned f a hf)
  refine ⟨v, ?_, hv⟩
  rw [← hh.seen, KVStore.pointees, hf, Option.bind_some, hv]

theorem Sound.serialize {w : Threads} (hw : w.Sound) {c : ℤ} {msg : Request} {r : Response}
    {seen : Bytes → Option Bytes} (hph : w.phase c = .responding msg r seen)
    (o : IterOrder Bytes Addr) :
    TwoCopySerializer.serialize o w.storage.heap r =
      .ok (encode .twoCopy r.type (o.deref w.storage.heap r.fields) r.key) :=
  serializeAndSend_spec .twoCopy o [] ((hw.held hph).live hw.consistent.owned)
    (hw.held hph).fieldNames

theorem Turned.sound {w w' : Threads} {t : Turn} (h : Turned w t w') (hw : w.Sound)
    (hspare : Spares w t) : w'.Sound := by
  refine ⟨h.consistent hw.consistent, ?_, ?_⟩
  · cases h with
    | begin ht =>
      intro c msg' r seen hph
      rcases phase_update hph with ⟨-, hp⟩ | hph
      · cases hp
      · exact (hw.held hph).of_insert _
    | @commit msg storage r hsec =>
      intro c msg' r' seen hph
      rcases phase_update hph with ⟨-, hp⟩ | hph
      · cases hp
        exact ⟨hsec.held, rfl, hsec.answers.fieldNames⟩
      · refine (hw.held hph).of_section hsec ?_
        intro ht hk
        exact hspare msg (hsec.inserted ht) c msg' r' seen hph hk
    | send _ =>
      intro c msg' r seen hph
      rcases phase_update hph with ⟨-, hp⟩ | hph
      · cases hp
      · exact hw.held hph
  · cases h with
    | begin _ => exact hw.sent
    | commit _ => exact hw.sent
    | send hph =>
      intro e he
      rcases List.mem_append.mp he with he | he
      · exact hw.sent e he
      · rw [List.mem_singleton] at he
        subst he
        exact ⟨_, hw.serialize hph t.choices.pointers⟩

theorem sound_empty : Threads.empty.Sound where
  consistent := consistent_empty
  held h := by cases h
  sent e he := by cases he

/-- In a run in which every `setFields` spares the fields that pending responses
hold, every pending response is intact in every state reached, and no serialization
meets a dead pointer. -/
theorem intact_of_spares {l l' : List Turn} (h : Throughout turn Spares Threads.empty l)
    (hp : l' <+: l) :
    ∃ w, l'.foldlM turn Threads.empty = .ok w ∧ w.Intact ∧
      ∀ e ∈ w.sent, ∃ bytes, e.2 = .ok bytes := by
  have hstep : ∀ w t, Sound w → Spares w t → ∃ w', w.turn t = .ok w' ∧ Sound w' := by
    intro w t hw hspare
    obtain ⟨w', hturn, hturned⟩ := turned_of_consistent hw.consistent t
    exact ⟨w', hturn, hturned.sound hw hspare⟩
  obtain ⟨w, hrun, hw⟩ := (h.of_isPrefix hp).exists_run hstep sound_empty
  exact ⟨w, hrun, hw.intact, hw.sent⟩

theorem spares_of_phase_ne {w : Threads} {t : Turn}
    (h : ∀ msg, w.phase t.clientSocket ≠ .inserted msg) : Spares w t :=
  fun msg hph => absurd hph (h msg)

/-- Client 5 reads a key while client 4 adds another field to it. -/
theorem intact_of_spares_user123 :
    ∃ w, [⟨Choices.plain, 4, ascii "SET_FIELDS user123 name=\"John\""⟩, ⟨Choices.plain, 4, []⟩,
        ⟨Choices.plain, 5, ascii "GETALL user123"⟩,
        ⟨Choices.plain, 6, ascii "SET_FIELDS user123 age=\"30\""⟩, ⟨Choices.plain, 6, []⟩,
        ⟨Choices.plain, 5, []⟩].foldlM turn Threads.empty = .ok w ∧
      w.Intact ∧ ∀ e ∈ w.sent, ∃ bytes, e.2 = .ok bytes := by
  refine intact_of_spares ?_ List.prefix_rfl
  refine .cons (spares_of_phase_ne fun _ h => by cases h) rfl (.cons ?_ rfl ?_)
  · intro msg _ c msg' r seen hr
    rcases phase_update hr with ⟨-, hp⟩ | hr
    · cases hp
    · cases hr
  refine .cons (spares_of_phase_ne fun _ h => by cases h) rfl ?_
  refine .cons (spares_of_phase_ne fun _ h => by cases h) rfl (.cons ?_ rfl ?_)
  · intro msg hph c msg' r seen hr _ f hf
    cases hph
    have hage : f = ascii "age" := by
      by_contra hne
      exact hf (AList.lookup_insert_ne hne)
    subst hage
    -- the pending responses are those of clients 5 and 4
    rcases phase_update hr with ⟨-, hp⟩ | hr
    · cases hp
    rcases phase_update hr with ⟨-, hp⟩ | hr
    · cases hp
      rfl
    rcases phase_update hr with ⟨-, hp⟩ | hr
    · cases hp
      rfl
    rcases phase_update hr with ⟨-, hp⟩ | hr
    · cases hp
    · cases hr
  exact .cons (spares_of_phase_ne fun _ h => by cases h) rfl trivial

def elsewhere : Choices := ⟨Allocator.reuse 7 (by decide), IterOrder.stored, IterOrder.stored⟩

/-- Client 4 overwrites a field while client 5 holds its pointer, which is then dead. -/
theorem not_intact :
    ¬∀ (l : List Turn) (w : Threads), l.foldlM turn Threads.empty = .ok w → w.Intact := by
  intro h
  have hw := h [⟨Choices.plain, 4, ascii "SET_FIELDS k a=1"⟩, ⟨Choices.plain, 4, []⟩,
    ⟨Choices.plain, 5, ascii "GETALL k"⟩, ⟨Choices.plain, 6, ascii "SET_FIELDS k a=2"⟩,
    ⟨elsewhere, 6, []⟩] _ rfl
  obtain ⟨v, -, hv⟩ := hw 5 _ _ _ rfl (ascii "a") 1 rfl
  cases hv

-- the same run, and client 5 serializes: the string is gone
example : ([⟨Choices.plain, 4, ascii "SET_FIELDS k a=1"⟩, ⟨Choices.plain, 4, []⟩,
    ⟨Choices.plain, 5, ascii "GETALL k"⟩, ⟨Choices.plain, 6, ascii "SET_FIELDS k a=2"⟩,
    ⟨elsewhere, 6, []⟩, ⟨Choices.plain, 5, []⟩].foldlM turn Threads.empty).toOption.map sent =
      some [(5, .error (.memory (.deadRead 1)))] := rfl

-- `new` reuses the freed address: client 5 is sent a value it never read
example : ([⟨Choices.plain, 4, ascii "SET_FIELDS k a=1"⟩, ⟨Choices.plain, 4, []⟩,
    ⟨Choices.plain, 5, ascii "GETALL k"⟩, ⟨Choices.plain, 6, ascii "SET_FIELDS k a=2"⟩,
    ⟨Choices.plain, 6, []⟩, ⟨Choices.plain, 5, []⟩].foldlM turn Threads.empty).toOption.map sent =
      some [(5, .ok (ascii "1 2k\n"))] := by decide

end Threads

end MuStore
