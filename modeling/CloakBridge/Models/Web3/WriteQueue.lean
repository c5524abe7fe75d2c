import CloakBridge.Core.Bytes
import CloakBridge.Core.Run

/-!
# The write queue of a web socket session

A stream allows one outstanding `async_write`. A session keeps the buffers to send in
`m_queue`, whose front is the one being written. Each step below is what is done under
`x_queue`, or one change of what `is_connected` reads. A handler may run for any
outstanding write and always takes the front out.
-/

namespace CloakBridge.Web3

structure Writer where
  /-- `m_queue` -/
  queue : List ByteString
  /-- the writes whose handler has not run -/
  inFlight : List ByteString
  isDrop : Bool
  /-- the stream is open -/
  isOpen : Bool
  /-- what `on_write` was called with -/
  accepted : List ByteString
  /-- what was handed to the stream -/
  started : List ByteString
  deriving DecidableEq, Repr

namespace Writer

/-- A session at its start. -/
def initial : Writer := ⟨[], [], false, true, [], []⟩

/-- `is_connected` -/
def isConnected (s : Writer) : Bool := !s.isDrop && s.isOpen

/-- `async_write`, whose exception drops the session. -/
def asyncWrite (throws : Bool) (s : Writer) : Option Writer :=
  if s.isConnected then
    -- `front` of an empty queue is undefined
    s.queue.head?.map fun b =>
      if throws then { s with isDrop := true }
      else { s with inFlight := s.inFlight ++ [b], started := s.started ++ [b] }
  else some s

inductive Event where
  /-- `on_write` -/
  | onWrite (buffer : ByteString) (throws : Bool)
  /-- the handler of a write, and `on_write_packet` if there was no error -/
  | onWritten (i : Nat) (error throws : Bool)
  /-- `m_isDrop = true` -/
  | drop
  /-- the stream is closed by either side -/
  | close
  deriving DecidableEq, Repr

/-- `on_write_packet` -/
def onWritePacket (throws : Bool) (s : Writer) : Option Writer :=
  match s.queue with
  | [] => none
  | _ :: queue =>
    let s := { s with queue := queue }
    if queue.isEmpty then some s else s.asyncWrite throws

/-- What an event does; undefined where the code is. -/
def apply (s : Writer) : Event → Option Writer
  | .onWrite b throws =>
    let s' := { s with queue := s.queue ++ [b], accepted := s.accepted ++ [b] }
    if s.queue.isEmpty then s'.asyncWrite throws else some s'
  | .onWritten i error throws =>
    let s' := { s with inFlight := s.inFlight.eraseIdx i }
    if error then some { s' with isDrop := true } else s'.onWritePacket throws
  | .drop => some { s with isDrop := true }
  | .close => some { s with isOpen := false }

/-- A handler runs for an outstanding write. -/
def Occurs (s : Writer) : Event → Prop
  | .onWritten i _ _ => i < s.inFlight.length
  | _ => True

/-- The buffers in `written` were taken out of the queue. The write of its front is outstanding, or
has failed, or was not started; in the last two cases nothing is written any more. -/
structure Orderly (written : List ByteString) (s : Writer) : Prop where
  accepted : s.accepted = written ++ s.queue
  front : s.started = written ∧ s.inFlight = [] ∨ ∃ b, s.queue.head? = some b ∧
    s.started = written ++ [b] ∧ (s.inFlight = [b] ∨ s.inFlight = [])
  busy : s.isConnected → s.queue ≠ [] → s.inFlight ≠ []

variable {s : Writer} {written : List ByteString}

private theorem exists_asyncWrite (throws : Bool) (hqueue : s.queue ≠ [])
    (haccepted : s.accepted = written ++ s.queue) (hfront : s.started = written ∧ s.inFlight = []) :
    ∃ s', s.asyncWrite throws = some s' ∧ Orderly written s' := by
  obtain ⟨b, queue, hcons⟩ := List.exists_cons_of_ne_nil hqueue
  have hhead : s.queue.head? = some b := by rw [hcons, List.head?_cons]
  unfold asyncWrite
  by_cases hconnected : s.isConnected
  · rw [if_pos hconnected, hhead]
    cases throws with
    | true => exact ⟨_, rfl, haccepted, Or.inl hfront, by simp [isConnected]⟩
    | false =>
      exact ⟨_, rfl, haccepted, Or.inr ⟨b, hhead, by simp [hfront], by simp [hfront]⟩, by simp⟩
  · rw [if_neg hconnected]
    exact ⟨s, rfl, haccepted, Or.inl hfront, fun h => absurd h hconnected⟩

/-- Every event is defined and keeps the order. -/
theorem exists_apply (h : Orderly written s) {e : Event} (he : s.Occurs e) :
    ∃ s' written', s.apply e = some s' ∧ Orderly written' s' := by
  cases e with
  | onWrite b throws =>
    by_cases hempty : s.queue = []
    · have hfront : s.started = written ∧ s.inFlight = [] := by
        rcases h.front with hfront | ⟨b', hhead, -⟩
        · exact hfront
        · simp [hempty] at hhead
      obtain ⟨s', hs', horderly⟩ := exists_asyncWrite throws
        (s := { s with queue := s.queue ++ [b], accepted := s.accepted ++ [b] }) (by simp)
        (by simp [h.accepted]) hfront
      exact ⟨s', written, by simpa [apply, hempty] using hs', horderly⟩
    · have hhead : (s.queue ++ [b]).head? = s.queue.head? := List.head?_append_of_ne_nil _ hempty
      refine ⟨_, written, if_neg (mt List.isEmpty_iff.mp hempty), by simp [h.accepted], ?_,
        fun hc _ => h.busy hc hempty⟩
      simpa only [hhead] using h.front
  | onWritten i error throws =>
    rcases h.front with hnone | ⟨b, hhead, hstarted, hone | hnone⟩
    · simp [Occurs, hnone] at he
    · obtain rfl : i = 0 := by simpa [Occurs, hone] using he
      obtain ⟨queue, hqueue⟩ := List.head?_eq_some_iff.mp hhead
      cases error with
      | true =>
        exact ⟨_, written, rfl, h.accepted, Or.inr ⟨b, hhead, hstarted, by simp [hone]⟩,
          by simp [isConnected]⟩
      | false =>
        have hnext : s.accepted = (written ++ [b]) ++ queue := by simp [h.accepted, hqueue]
        by_cases hlast : queue = []
        · exact ⟨{ s with queue := [], inFlight := [] }, written ++ [b],
            by simp [apply, onWritePacket, hqueue, hlast, hone], by simpa [hlast] using hnext,
            Or.inl ⟨hstarted, rfl⟩, by simp⟩
        · obtain ⟨s', hs', horderly⟩ := exists_asyncWrite throws
            (s := { s with queue := queue, inFlight := [] }) hlast hnext ⟨hstarted, rfl⟩
          exact ⟨s', written ++ [b], by simpa [apply, onWritePacket, hqueue, hlast, hone] using hs',
            horderly⟩
    · simp [Occurs, hnone] at he
  | drop | close => exact ⟨_, written, rfl, h.accepted, h.front, by simp [isConnected]⟩

/-- In every run of a session what was handed to the stream is a beginning of what `on_write` was
called with, in that order. At most one write is outstanding, that of the front of the queue; there
is one as long as the session is connected and something is left to write. Nothing undefined is
done. -/
theorem ordered_of_reaches {s : Writer} (hreach : Reaches apply Occurs initial s) :
    s.started <+: s.accepted ∧ (s.inFlight = [] ∨ ∃ b, s.queue.head? = some b ∧ s.inFlight = [b]) ∧
      (s.isConnected → s.queue ≠ [] → s.inFlight ≠ []) ∧ ∀ e, s.Occurs e → (s.apply e).isSome := by
  obtain ⟨written, h⟩ : ∃ written, Orderly written s := by
    refine hreach.invariant (I := fun s => ∃ written, Orderly written s)
      ⟨[], rfl, Or.inl ⟨rfl, rfl⟩, fun _ h => absurd rfl h⟩ fun s e s' ⟨written, h⟩ he hs' => ?_
    obtain ⟨s'', written', hs'', h'⟩ := exists_apply h he
    obtain rfl := Option.some.inj (hs'.symm.trans hs'')
    exact ⟨written', h'⟩
  have hdefined (e : Event) (he : s.Occurs e) : (s.apply e).isSome := by
    obtain ⟨s', -, hs', -⟩ := exists_apply h he
    rw [hs', Option.isSome_some]
  rcases h.front with ⟨hstarted, hnone⟩ | ⟨b, hhead, hstarted, hinFlight⟩
  · exact ⟨⟨s.queue, by rw [hstarted, h.accepted]⟩, Or.inl hnone, h.busy, hdefined⟩
  · obtain ⟨queue, hqueue⟩ := List.head?_eq_some_iff.mp hhead
    refine ⟨⟨queue, by simp [hstarted, h.accepted, hqueue]⟩, ?_, h.busy, hdefined⟩
    exact hinFlight.symm.imp_right fun hone => ⟨b, hhead, hone⟩

instance (s : Writer) (e : Event) : Decidable (s.Occurs e) := by
  cases e <;> unfold Occurs <;> infer_instance

/-- Two buffers are accepted and the first is written. -/
theorem ordered_of_two_writes :
    ∃ s, Reaches apply Occurs initial s ∧ s.accepted = [[1], [2]] ∧ s.inFlight = [[2]] ∧
      s.started <+: s.accepted := by
  have hreach : Reaches apply Occurs initial _ := reaches_of_performAll .refl (show performAll _ _ _
      [.onWrite [1] false, .onWrite [2] false, .onWritten 0 false false] = some _ from rfl)
  exact ⟨_, hreach, rfl, rfl, (ordered_of_reaches hreach).1⟩

end Writer

end CloakBridge.Web3
