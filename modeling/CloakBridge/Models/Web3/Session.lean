import CloakBridge.Core.Run
import Mathlib.Data.List.AList

/-!
# Callbacks of a web socket session

A session keeps a callback for each request it has sent, under the request's 16-bit id.
Three events race for it: the response, a timer, and the end of the session. Each step
below is one access to the shared state: what is done under one lock, or one read or write
of `m_isDrop`. `drop` reads the map under one lock and empties it under another.
-/

namespace CloakBridge.Web3

open List

/-- A request with its callback. Ids are used again, numbers are not. -/
structure Request where
  number : Nat
  id : BitVec 16
  deriving DecidableEq, Repr

/-- A `deadline_timer`. Once it has expired, its handler runs without an error even if it is
cancelled. -/
inductive Timer where
  | waiting
  | expired
  | cancelled
  deriving DecidableEq, Repr

/-- What a callback is called with. -/
inductive Outcome where
  /-- a response, with the request that it answers -/
  | response (answered : Option Request)
  /-- "the session has been disconnected" -/
  | disconnected
  deriving DecidableEq, Repr

/-- What was handed to the thread pool. -/
inductive Task where
  | call (request : Request) (outcome : Outcome)
  /-- the call of a callback that is null, with "waiting for message response timed out" -/
  | callMissing
  deriving DecidableEq, Repr

namespace Task

/-- The request whose callback is called. -/
def request? : Task → Option Request
  | call r _ => some r
  | callMissing => none

/-- The task hands a response to the request. -/
def responds (r : Request) : Task → Bool
  | call r' (.response _) => r' = r
  | _ => false

end Task

/-- How far a thread is in `drop`. -/
inductive Dropping where
  /-- `m_isDrop` was read and was not set -/
  | entered
  /-- `m_isDrop` is set -/
  | marked
  /-- the callbacks were handed over, and the map is still to be emptied -/
  | handedOver
  deriving DecidableEq, Repr

/-- The callbacks by id, `m_callBacks`. -/
abbrev CallBacks := AList fun _ : BitVec 16 => Request

structure Session where
  isDrop : Bool
  callBacks : CallBacks
  /-- requests whose callback is made but not yet in the map -/
  sending : List Request
  /-- requests whose callback was put in the map -/
  registered : List Request
  timers : Request → Option Timer
  tasks : List Task
  dropping : List Dropping
  /-- the counters behind request numbers and `next_id` -/
  lastNumber : Nat
  lastId : BitVec 16

inductive Action where
  /-- `buildRequest` and `async_send_message` up to `add_resp_callback`. A message that is too
  large, or a stream that is not open, is not accepted. -/
  | send (accepted timed : Bool)
  /-- `add_resp_callback` -/
  | register (r : Request)
  /-- `on_read_packet`, for a response with this id that answers some request -/
  | receive (answered : Option Request) (id : BitVec 16)
  /-- `callback->timer->cancel()` in the task of a response -/
  | cancelTimer (r : Request)
  /-- the time is up -/
  | expire (r : Request)
  /-- `on_response_timeout` without an error -/
  | timeout (r : Request)
  /-- the check in `drop` -/
  | dropEnter
  /-- `m_isDrop = true` -/
  | dropMark (i : Nat)
  /-- the loop over the callbacks -/
  | dropHandOver (i : Nat)
  /-- `m_callBacks.clear()` -/
  | dropClear (i : Nat)
  deriving DecidableEq, Repr

namespace Session

/-- A session at its start. -/
def initial : Session where
  isDrop := false
  callBacks := ∅
  sending := []
  registered := []
  timers _ := none
  tasks := []
  dropping := []
  lastNumber := 0
  lastId := 0

/-- `cancel` of a timer. -/
def cancelled : Option Timer → Option Timer
  | some .waiting => some .cancelled
  | t => t

def step (s : Session) : Action → Option Session
  | .send accepted timed =>
    let r : Request := ⟨s.lastNumber + 1, s.lastId + 1⟩
    let s := { s with lastNumber := r.number, lastId := r.id }
    if accepted ∧ s.isDrop = false then
      some { s with sending := r :: s.sending
                    timers := Function.update s.timers r (if timed then some .waiting else none) }
    else some s
  | .register r =>
    if r ∈ s.sending then
      some { s with sending := s.sending.erase r
                    registered := r :: s.registered
                    callBacks := s.callBacks.insert r.id r }
    else none
  | .receive answered id =>
    match s.callBacks.lookup id with
    | some r => some { s with callBacks := s.callBacks.erase id
                              tasks := s.tasks ++ [.call r (.response answered)] }
    | none => some s
  | .cancelTimer r =>
    if s.tasks.any (·.responds r) then
      some { s with timers := Function.update s.timers r (cancelled (s.timers r)) }
    else none
  | .expire r =>
    if s.timers r = some .waiting then
      some { s with timers := Function.update s.timers r (some .expired) }
    else none
  | .timeout r =>
    if s.timers r = some .expired then
      let s := { s with timers := Function.update s.timers r none }
      match s.callBacks.lookup r.id with
      | some _ => some { s with callBacks := s.callBacks.erase r.id }
      | none => some { s with tasks := s.tasks ++ [.callMissing] }
    else none
  | .dropEnter =>
    if s.isDrop then some s else some { s with dropping := s.dropping ++ [.entered] }
  | .dropMark i =>
    if s.dropping[i]? = some .entered then
      some { s with isDrop := true, dropping := s.dropping.set i .marked }
    else none
  | .dropHandOver i =>
    if s.dropping[i]? = some .marked then
      some { s with
        timers := fun r => if s.callBacks.lookup r.id = some r then cancelled (s.timers r)
                           else s.timers r
        tasks := s.tasks ++ s.callBacks.entries.map fun e => .call e.2 .disconnected
        dropping := s.dropping.set i .handedOver }
    else none
  | .dropClear i =>
    if s.dropping[i]? = some .handedOver then
      some { s with callBacks := ∅, dropping := s.dropping.eraseIdx i }
    else none

/-- The requests whose callbacks were handed to the thread pool. -/
def called (s : Session) : List Request := s.tasks.filterMap Task.request?

/-- The request's callback is in the map. -/
def Held (s : Session) (r : Request) : Prop := s.callBacks.lookup r.id = some r

/-- The callbacks in the map were handed over, and the map is still to be emptied. -/
def Clearing (s : Session) : Prop := .handedOver ∈ s.dropping

instance (s : Session) : Decidable s.Clearing := List.instDecidableMemOfLawfulBEq _ _

/-- Every callback that was put in the map is there or was handed over; it is handed over once
at most, with no other request's response; and no missing callback is used. -/
structure ExactlyOnce (s : Session) : Prop where
  once : ∀ r, s.called.count r ≤ 1
  handedOver : ∀ r ∈ s.registered, ¬s.Held r → s.called.count r = 1
  own : ∀ r answered, .call r (.response answered) ∈ s.tasks → answered = some r
  present : .callMissing ∉ s.tasks

/-- The server answers a request that was sent to it at most once, under its id: the request of the
response was put in the map, and its callback was not called before. -/
def Answers (s : Session) (answered : Option Request) (id : BitVec 16) : Prop :=
  ∃ q ∈ answered, q.id = id ∧ q ∈ s.registered ∧ q ∉ s.called

instance (s : Session) (answered : Option Request) (id : BitVec 16) :
    Decidable (s.Answers answered id) :=
  inferInstanceAs (Decidable (∃ q ∈ answered, q.id = id ∧ q ∈ s.registered ∧ q ∉ s.called))

/-- No timer's handler runs; a request's id is not in use; a response that finds a callback is one
of the server's answers; and while the map is still to be emptied, nothing is put in or taken
out. -/
def Orderly (s : Session) : Action → Prop
  | .register r => s.callBacks.lookup r.id = none ∧ ¬s.Clearing
  | .receive answered id => s.callBacks.lookup id ≠ none → s.Answers answered id ∧ ¬s.Clearing
  | .timeout _ => False
  | .dropHandOver _ => s.Clearing → s.callBacks.entries = []
  | _ => True

instance decidableOrderly (s : Session) : (a : Action) → Decidable (s.Orderly a)
  | .register r => inferInstanceAs (Decidable (s.callBacks.lookup r.id = none ∧ ¬s.Clearing))
  | .receive answered id =>
    inferInstanceAs (Decidable (s.callBacks.lookup id ≠ none → s.Answers answered id ∧ ¬s.Clearing))
  | .timeout _ => inferInstanceAs (Decidable False)
  | .dropHandOver _ => inferInstanceAs (Decidable (s.Clearing → s.callBacks.entries = []))
  | .send _ _ | .cancelTimer _ | .expire _ | .dropEnter | .dropMark _ | .dropClear _ =>
    isTrue trivial

/-- What an orderly run keeps. -/
structure Invariant (s : Session) : Prop where
  entry : ∀ id r, s.callBacks.lookup id = some r → r ∈ s.registered ∧ r.id = id
  fresh : ∀ r ∈ s.sending, r ∉ s.registered
  numbered : ∀ r, r ∈ s.sending ∨ r ∈ s.registered → r.number ≤ s.lastNumber
  nodup : s.sending.Nodup
  unregistered : ∀ r, r ∉ s.registered → s.called.count r = 0
  waiting : ∀ r, s.Held r → ¬s.Clearing → s.called.count r = 0
  handedOver : ∀ r ∈ s.registered, (s.Held r → s.Clearing) → s.called.count r = 1
  own : ∀ r answered, .call r (.response answered) ∈ s.tasks → answered = some r
  present : .callMissing ∉ s.tasks

variable {dropping : List Dropping} {i : Nat} {m : CallBacks} {r r' : Request}
  {answered : Option Request} {id : BitVec 16}

private theorem Invariant.exactlyOnce {s : Session} (h : s.Invariant) : s.ExactlyOnce := by
  constructor
  · intro r
    by_cases hr : r ∈ s.registered
    · by_cases hclear : s.Held r → s.Clearing
      · rw [h.handedOver r hr hclear]
      · rw [Classical.not_imp] at hclear
        rw [h.waiting r hclear.1 hclear.2]
        exact Nat.zero_le 1
    · rw [h.unregistered r hr]
      exact Nat.zero_le 1
  · intro r hr hheld
    exact h.handedOver r hr fun hin => absurd hin hheld
  · exact h.own
  · exact h.present

private theorem invariant_initial : initial.Invariant := by
  constructor <;> simp [initial, called, Held]

variable {s s' : Session}

/-- The steps in `drop` that leave the callbacks alone. -/
theorem Invariant.of_dropping (h : s.Invariant) {isDrop : Bool}
    (hclearing : .handedOver ∈ dropping ↔ s.Clearing) :
    ({ s with isDrop := isDrop, dropping := dropping } : Session).Invariant := by
  refine { h with waiting := ?_, handedOver := ?_ }
  · intro r hheld hnot
    exact h.waiting r hheld fun hin => hnot (hclearing.mpr hin)
  · intro r hr hleft
    exact h.handedOver r hr fun hheld => hclearing.mp (hleft hheld)

private theorem handedOver_mem_set (h : dropping[i]? = some .entered) :
    .handedOver ∈ dropping.set i .marked ↔ .handedOver ∈ dropping := by
  simp only [mem_iff_getElem?]
  apply exists_congr
  intro j
  by_cases hij : i = j
  · subst hij
    rw [List.getElem?_set_self (List.getElem?_eq_some_iff.mp h).1, h]
    simp
  · rw [List.getElem?_set_ne hij]

private theorem called_append (s : Session) (tasks : List Task) (r : Request) :
    ({ s with tasks := s.tasks ++ tasks } : Session).called.count r =
      s.called.count r + (tasks.filterMap Task.request?).count r := by
  rw [called, called, filterMap_append, count_append]

private theorem invariant_send (h : s.Invariant) {accepted timed : Bool}
    (hstep : s.step (.send accepted timed) = some s') : s'.Invariant := by
  have hnumbered : ∀ r, r ∈ s.sending ∨ r ∈ s.registered → r.number ≤ s.lastNumber + 1 :=
    fun r hr => Nat.le_trans (h.numbered r hr) (Nat.le_succ _)
  have hnew : ∀ id, ¬((⟨s.lastNumber + 1, id⟩ : Request) ∈ s.sending ∨
      (⟨s.lastNumber + 1, id⟩ : Request) ∈ s.registered) := by
    intro id hid
    exact absurd (h.numbered _ hid) (by simp)
  simp only [step] at hstep
  split at hstep
  next =>
    obtain rfl := Option.some.inj hstep
    refine { h with fresh := ?_, numbered := ?_, nodup := ?_ }
    · intro r hr
      rcases mem_cons.mp hr with rfl | hr
      · exact fun hin => hnew _ (.inr hin)
      · exact h.fresh r hr
    · rintro r (hr | hr)
      · rcases mem_cons.mp hr with rfl | hr
        · exact Nat.le_refl _
        · exact hnumbered r (.inl hr)
      · exact hnumbered r (.inr hr)
    · exact nodup_cons.mpr ⟨fun hin => hnew _ (.inl hin), h.nodup⟩
  next =>
    obtain rfl := Option.some.inj hstep
    exact { h with numbered := hnumbered }

private theorem lookup_insert_eq_some (hfree : m.lookup r.id = none) :
    (m.insert r.id r).lookup r'.id = some r' ↔ r' = r ∨ m.lookup r'.id = some r' := by
  by_cases hid : r'.id = r.id
  · rw [hid, AList.lookup_insert, hfree, Option.some.injEq]
    simp [eq_comm]
  · rw [AList.lookup_insert_ne hid]
    constructor
    · exact .inr
    · rintro (rfl | h)
      · exact absurd rfl hid
      · exact h

private theorem lookup_erase_eq_some (hr : m.lookup r.id = some r) :
    (m.erase r.id).lookup r'.id = some r' ↔ r' ≠ r ∧ m.lookup r'.id = some r' := by
  by_cases hid : r'.id = r.id
  · rw [hid, AList.lookup_erase, hr, Option.some.injEq]
    constructor
    · intro h
      cases h
    · rintro ⟨hne, rfl⟩
      exact absurd rfl hne
  · rw [AList.lookup_erase_ne hid]
    constructor
    · intro h
      refine ⟨?_, h⟩
      rintro rfl
      exact hid rfl
    · exact And.right

private theorem invariant_register (h : s.Invariant) (hok : s.Orderly (.register r))
    (hstep : s.step (.register r) = some s') : s'.Invariant := by
  obtain ⟨hfree, hclearing⟩ := hok
  simp only [step] at hstep
  split at hstep
  next hr =>
    obtain rfl := Option.some.inj hstep
    have hnew := h.fresh r hr
    constructor
    · intro id r' hlookup
      by_cases hid : id = r.id
      · subst hid
        rw [AList.lookup_insert, Option.some.injEq] at hlookup
        subst hlookup
        exact ⟨mem_cons_self, rfl⟩
      · rw [AList.lookup_insert_ne hid] at hlookup
        obtain ⟨hmem, hrid⟩ := h.entry id r' hlookup
        exact ⟨mem_cons_of_mem _ hmem, hrid⟩
    · intro r' hr'
      obtain ⟨hne, hr'⟩ := (h.nodup.mem_erase_iff).mp hr'
      rw [mem_cons, not_or]
      exact ⟨hne, h.fresh r' hr'⟩
    · rintro r' (hr' | hr')
      · exact h.numbered r' (.inl (mem_of_mem_erase hr'))
      · rcases mem_cons.mp hr' with rfl | hr'
        · exact h.numbered r' (.inl hr)
        · exact h.numbered r' (.inr hr')
    · exact h.nodup.erase r
    · intro r' hr'
      rw [mem_cons, not_or] at hr'
      exact h.unregistered r' hr'.2
    · intro r' hheld _
      rcases (lookup_insert_eq_some hfree).mp hheld with rfl | hheld
      · exact h.unregistered r' hnew
      · exact h.waiting r' hheld hclearing
    · intro r' hr' hleft
      have hnot : ¬(r' = r ∨ s.Held r') := by
        intro hheld
        exact hclearing (hleft ((lookup_insert_eq_some hfree).mpr hheld))
      rw [not_or] at hnot
      rcases mem_cons.mp hr' with rfl | hr'
      · exact absurd rfl hnot.1
      · exact h.handedOver r' hr' fun hheld => absurd hheld hnot.2
    · exact h.own
    · exact h.present
  next => cases hstep

/-- An answer is to the request that is found under its id: every other one was called before. -/
theorem Invariant.answered_eq (h : s.Invariant) (hanswers : s.Answers answered id)
    (hlookup : s.callBacks.lookup id = some r) : answered = some r := by
  obtain ⟨q, hq, rfl, hregistered, hcalled⟩ := hanswers
  have hheld : s.Held q := by
    by_contra hnot
    have hcount := h.handedOver q hregistered fun hheld => absurd hheld hnot
    rw [count_eq_zero.mpr hcalled] at hcount
    cases hcount
  rw [← hlookup, hheld]
  exact hq

private theorem invariant_receive (h : s.Invariant) (hok : s.Orderly (.receive answered id))
    (hstep : s.step (.receive answered id) = some s') : s'.Invariant := by
  simp only [step] at hstep
  split at hstep
  next r hlookup =>
    obtain rfl := Option.some.inj hstep
    obtain ⟨hanswers, hclearing⟩ := hok (by simp [hlookup])
    obtain rfl := h.answered_eq hanswers hlookup
    obtain ⟨hr, rfl⟩ := h.entry id r hlookup
    have hcount : ∀ r', ({ s with
        callBacks := s.callBacks.erase r.id
        tasks := s.tasks ++ [.call r (.response (some r))] } : Session).called.count r' =
          s.called.count r' + [r].count r' := called_append s _
    have hother : ∀ r', r' ≠ r → [r].count r' = 0 := by
      intro r' hne
      exact count_eq_zero.mpr fun hmem => hne (mem_singleton.mp hmem)
    constructor
    · intro id' r' hlookup'
      by_cases hid : id' = r.id
      · rw [hid, AList.lookup_erase] at hlookup'
        cases hlookup'
      · rw [AList.lookup_erase_ne hid] at hlookup'
        exact h.entry id' r' hlookup'
    · exact h.fresh
    · exact h.numbered
    · exact h.nodup
    · intro r' hr'
      have hne : r' ≠ r := by
        rintro rfl
        exact hr' hr
      rw [hcount, h.unregistered r' hr', hother r' hne]
    · intro r' hheld _
      obtain ⟨hne, hheld⟩ := (lookup_erase_eq_some hlookup).mp hheld
      rw [hcount, h.waiting r' hheld hclearing, hother r' hne]
    · intro r' hr' hleft
      rw [hcount]
      by_cases hne : r' = r
      · subst hne
        rw [h.waiting r' hlookup hclearing, count_singleton_self]
      · rw [hother r' hne, Nat.add_zero]
        apply h.handedOver r' hr'
        intro hheld
        exact hleft ((lookup_erase_eq_some hlookup).mpr ⟨hne, hheld⟩)
    · intro r' a hmem
      rcases mem_append.mp hmem with hmem | hmem
      · exact h.own r' a hmem
      · cases mem_singleton.mp hmem
        rfl
    · intro hmem
      rcases mem_append.mp hmem with hmem | hmem
      · exact h.present hmem
      · cases mem_singleton.mp hmem
  next =>
    obtain rfl := Option.some.inj hstep
    exact h

/-- The requests in the map, in the order of the loop. -/
def heldRequests (s : Session) : List Request := s.callBacks.entries.map Sigma.snd

private theorem Invariant.mem_heldRequests (h : s.Invariant) : r ∈ s.heldRequests ↔ s.Held r := by
  rw [heldRequests, mem_map, Held]
  constructor
  · rintro ⟨⟨id, r'⟩, hmem, rfl⟩
    have hlookup : s.callBacks.lookup id = some r' := AList.mem_lookup_iff.mpr hmem
    obtain ⟨-, rfl⟩ := h.entry id r' hlookup
    exact hlookup
  · intro hlookup
    exact ⟨⟨r.id, r⟩, AList.mem_lookup_iff.mp hlookup, rfl⟩

private theorem Invariant.nodup_heldRequests (h : s.Invariant) : s.heldRequests.Nodup := by
  apply List.Nodup.map_on
  · rintro ⟨id, r⟩ hmem ⟨id', r'⟩ hmem' rfl
    obtain ⟨-, rfl⟩ := h.entry id r (AList.mem_lookup_iff.mpr hmem)
    obtain ⟨-, rfl⟩ := h.entry id' r (AList.mem_lookup_iff.mpr hmem')
    rfl
  · exact s.callBacks.nodupKeys.nodup

private theorem invariant_dropHandOver (h : s.Invariant) (hok : s.Orderly (.dropHandOver i))
    (hstep : s.step (.dropHandOver i) = some s') : s'.Invariant := by
  simp only [step] at hstep
  split at hstep
  next hmarked =>
    have hlt : i < s.dropping.length := (List.getElem?_eq_some_iff.mp hmarked).1
    have hcount : ∀ r, s'.called.count r = s.called.count r + s.heldRequests.count r := by
      intro r
      have hcalls : (s.callBacks.entries.map fun e => Task.call e.2 .disconnected).filterMap
          Task.request? = s.heldRequests := by
        rw [filterMap_map, heldRequests, ← filterMap_eq_map]
        rfl
      rw [← hcalls, ← called_append]
      obtain rfl := Option.some.inj hstep
      rfl
    obtain rfl := Option.some.inj hstep
    refine { h with unregistered := ?_, waiting := ?_, handedOver := ?_, own := ?_, present := ?_ }
    · intro r hr
      have hnot : r ∉ s.heldRequests := by
        intro hmem
        exact hr (h.entry r.id r (h.mem_heldRequests.mp hmem)).1
      rw [hcount, h.unregistered r hr, count_eq_zero.mpr hnot]
    · intro r _ hclearing
      exact absurd (mem_set hlt _) hclearing
    · intro r hr _
      rw [hcount]
      by_cases hheld : s.Held r
      · have hmem := h.mem_heldRequests.mpr hheld
        have hclearing : ¬s.Clearing := by
          intro hclearing
          rw [heldRequests, hok hclearing] at hmem
          cases hmem
        rw [h.waiting r hheld hclearing, count_eq_one_of_mem h.nodup_heldRequests hmem]
      · have hnot : r ∉ s.heldRequests := fun hmem => hheld (h.mem_heldRequests.mp hmem)
        rw [h.handedOver r hr fun hin => absurd hin hheld, count_eq_zero.mpr hnot]
    · intro r answered hmem
      rcases mem_append.mp hmem with hmem | hmem
      · exact h.own r answered hmem
      · obtain ⟨e, -, he⟩ := mem_map.mp hmem
        cases he
    · intro hmem
      rcases mem_append.mp hmem with hmem | hmem
      · exact h.present hmem
      · obtain ⟨e, -, he⟩ := mem_map.mp hmem
        cases he
  next => cases hstep

private theorem invariant_dropClear (h : s.Invariant) (hstep : s.step (.dropClear i) = some s') :
    s'.Invariant := by
  simp only [step] at hstep
  split at hstep
  next hhanded =>
    obtain rfl := Option.some.inj hstep
    have hclearing : s.Clearing := mem_of_getElem? hhanded
    have hempty : ∀ r : Request, (∅ : CallBacks).lookup r.id ≠ some r := by simp
    refine { h with entry := ?_, waiting := ?_, handedOver := ?_ }
    · simp
    · intro r hheld
      exact absurd hheld (hempty r)
    · intro r hr _
      exact h.handedOver r hr fun _ => hclearing
  next => cases hstep

/-- Every orderly step keeps the invariant. -/
theorem Invariant.step {a : Action} (h : s.Invariant) (hok : s.Orderly a)
    (hstep : s.step a = some s') : s'.Invariant := by
  cases a with
  | send accepted timed => exact invariant_send h hstep
  | register r => exact invariant_register h hok hstep
  | receive answered id => exact invariant_receive h hok hstep
  | cancelTimer _ | expire _ =>
    simp only [Session.step] at hstep
    split at hstep
    next =>
      obtain rfl := Option.some.inj hstep
      exact { h with }
    next => cases hstep
  | timeout r => exact hok.elim
  | dropEnter =>
    simp only [Session.step] at hstep
    split at hstep
    next =>
      obtain rfl := Option.some.inj hstep
      exact h
    next =>
      obtain rfl := Option.some.inj hstep
      apply h.of_dropping
      simp [Clearing]
  | dropMark i =>
    simp only [Session.step] at hstep
    split at hstep
    next hentered =>
      obtain rfl := Option.some.inj hstep
      exact h.of_dropping (handedOver_mem_set hentered)
    next => cases hstep
  | dropHandOver i => exact invariant_dropHandOver h hok hstep
  | dropClear i => exact invariant_dropClear h hstep

/-- In every run whose steps are orderly each callback is handed over once. -/
theorem exactlyOnce_of_reaches {s : Session} (h : Reaches step Orderly initial s) : s.ExactlyOnce :=
  (h.invariant invariant_initial fun _ _ _ hs hok hstep => hs.step hok hstep).exactlyOnce

/-- Of three requests the second one is answered, and then the session ends. -/
theorem exactlyOnce_dropped :
    ∃ s, Reaches step Orderly initial s ∧ s.tasks = [.call ⟨2, 2⟩ (.response (some ⟨2, 2⟩)),
        .call ⟨3, 3⟩ .disconnected, .call ⟨1, 1⟩ .disconnected] ∧ s.callBacks = ∅ ∧
      s.ExactlyOnce := by
  obtain ⟨s, hs, htasks, hempty⟩ : ∃ s, performAll step Orderly initial
      [.send true true, .register ⟨1, 1⟩, .send true true, .send true false, .register ⟨2, 2⟩,
        .register ⟨3, 3⟩, .receive (some ⟨2, 2⟩) 2, .dropEnter, .cancelTimer ⟨2, 2⟩, .dropEnter,
        .dropMark 0, .dropHandOver 0, .dropClear 0, .dropMark 0, .dropHandOver 0, .dropClear 0] =
          some s ∧ s.tasks = [.call ⟨2, 2⟩ (.response (some ⟨2, 2⟩)),
            .call ⟨3, 3⟩ .disconnected, .call ⟨1, 1⟩ .disconnected] ∧ s.callBacks = ∅ :=
    ⟨_, rfl, rfl, rfl⟩
  have hreach := reaches_of_performAll .refl hs
  exact ⟨s, hreach, htasks, hempty, exactlyOnce_of_reaches hreach⟩

/-- The handler of a timer takes the callback out of the map and drops it. -/
theorem not_exactlyOnce_of_timeout : ¬∀ s, Reachable step initial s → s.ExactlyOnce := by
  intro h
  obtain ⟨s, hs, hregistered, hheld, htasks⟩ : ∃ s, performAll step (fun _ _ => True) initial [.send
      true true, .register ⟨1, 1⟩, .expire ⟨1, 1⟩, .timeout ⟨1, 1⟩] = some s ∧ s.registered = [⟨1,
      1⟩] ∧ s.callBacks.lookup 1 = none ∧ s.tasks = [] := ⟨_, rfl, rfl, rfl, rfl⟩
  have hcalled := (h s (reaches_of_performAll .refl hs)).handedOver ⟨1, 1⟩
    (by simp [hregistered]) (fun hin => Option.some_ne_none _ (hin.symm.trans hheld))
  rw [called, htasks] at hcalled
  cases hcalled

end Session

end CloakBridge.Web3
