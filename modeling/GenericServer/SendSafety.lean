import GenericServer.EventRegistration
import GenericServer.TransitionRuns

/-!
# Sending while a connection comes and goes

`init`, `sendMsg`, `shutdown`, `handleWrite` and `handleClose` of `src/net/TCPConnection.cpp` with
the queue of the connection's loop. The functor of `init` is cut where the connected callback
returns, and a `sendMsg` by another thread before its `modifyEvent` and before the push in there.
A run ends at latest with the last reference to the connection.
-/
namespace GenericServer.SendSafety

open EventRegistration TransitionRuns

/-- The functor of `init`, and the closures of `modifyEvent` and `removeEvent`. -/
inductive Closure
  | init
  | modifyEvent
  | removeEvent
  deriving DecidableEq, Repr

/-- `connecting` holds while the loop thread is in the connected callback, `connected` once the
functor of `init` has been carried out. Of the calls of `sendMsg` by other threads, `sending` are
before `modifyEvent`, and `asserted` behind the assertion in there. `failed` tells that this has met
an event that is not polled: `assert(event->isPolling() == true)`. -/
structure TCPConnection where
  mEvent : Event
  mPending : List Closure
  initiated : Bool
  initReturned : Bool
  connecting : Bool
  connected : Bool
  sending : ℕ
  asserted : ℕ
  failed : Bool
  deriving DecidableEq, Repr

def start : TCPConnection where
  mEvent := .new
  mPending := []
  initiated := false
  initReturned := false
  connecting := false
  connected := false
  sending := 0
  asserted := 0
  failed := false

/-- `own` calls are made by the thread of the connection's loop, which does nothing else before
they return. `connected` is the return of the connected callback, with the registration that
follows it. `modifyEvent` is the assertion for a `sendMsg` by another thread, and `addPending` what
comes behind it; `handleWrite` is one that gets through its own `modifyEvent`. -/
inductive Label
  | init (own : Bool)
  | connected
  | doPending (c : Closure)
  | sendMsg (own : Bool)
  | modifyEvent
  | addPending
  | handleWrite
  | handleClose
  | shutdown (own : Bool)
  deriving DecidableEq, Repr

namespace TCPConnection

def addPending (s : TCPConnection) (c : Closure) : TCPConnection :=
  { s with mPending := s.mPending ++ [c] }

def setEvent (s : TCPConnection) (e : Event) : TCPConnection := { s with mEvent := e }

def init (s : TCPConnection) (own : Bool) : TCPConnection :=
  if own then { s with initiated := true, connecting := true }
  else { s.addPending .init with initiated := true, initReturned := true }

def addEvent (s : TCPConnection) : TCPConnection :=
  { s.setEvent (s.mEvent.execute .addEvent) with
    connecting := false
    connected := true
    initReturned := true }

def doPending (s : TCPConnection) : Closure → TCPConnection
  | .init => { s with mPending := s.mPending.tail, connecting := true }
  | .modifyEvent =>
    { s.setEvent (s.mEvent.execute .modifyEvent) with mPending := s.mPending.tail }
  | .removeEvent =>
    { s.setEvent (s.mEvent.execute .removeEvent) with mPending := s.mPending.tail }

/-- On the loop thread `modifyEvent` takes effect at once. -/
def sendMsg (s : TCPConnection) (own : Bool) : TCPConnection :=
  if own then
    if s.mEvent.asserts .modifyEvent then s.setEvent (s.mEvent.execute .modifyEvent)
    else { s with failed := true }
  else { s with sending := s.sending + 1 }

def modifyEvent (s : TCPConnection) : TCPConnection :=
  if s.mEvent.asserts .modifyEvent then
    { s with sending := s.sending - 1, asserted := s.asserted + 1 }
  else { s with failed := true }

/-- `shutdown` with its `::close`, which does not wait for a queued removal. -/
def shutdown (s : TCPConnection) (own : Bool) : TCPConnection :=
  if own then s.setEvent (s.mEvent.execute .removeEvent).close
  else (s.addPending .removeEvent).setEvent s.mEvent.close

/-- The loop thread is not in the connected callback, and the event has been registered. -/
def dispatches (s : TCPConnection) : Bool := s.connected && !s.connecting

/-- What can happen next. User code of the loop thread runs in the connected callback and in later
ones, and other threads send once `init` has returned. -/
def allows (s : TCPConnection) : Label → Bool
  | .init _ => !s.initiated
  | .connected => s.connecting && s.mEvent.asserts .addEvent
  | .doPending c => s.mPending.head? = some c && !s.connecting
  | .sendMsg own => if own then s.connecting || s.connected else s.initReturned
  | .modifyEvent => 0 < s.sending
  | .addPending => 0 < s.asserted
  | .handleWrite => s.dispatches && s.mEvent.asserts .modifyEvent
  | .handleClose => s.dispatches
  | .shutdown _ => true

def next (s : TCPConnection) : Label → TCPConnection
  | .init own => s.init own
  | .connected => s.addEvent
  | .doPending c => s.doPending c
  | .sendMsg own => s.sendMsg own
  | .modifyEvent => s.modifyEvent
  | .addPending => { s.addPending .modifyEvent with asserted := s.asserted - 1 }
  | .handleWrite => s.setEvent (s.mEvent.execute .modifyEvent)
  | .handleClose => s.setEvent s.mEvent.handleClose
  | .shutdown own => s.shutdown own

end TCPConnection

/-- A failed assertion ends the process. -/
def step (s : TCPConnection) (l : Label) : Option TCPConnection :=
  if s.failed = false ∧ s.allows l then some (s.next l) else none

/-- Whether a connection is open behind a label: from the return of the connected callback to the
first `handleClose`, `shutdown` by the loop thread, or closure of a `shutdown` by another one. -/
def Label.opened (before : Bool) : Label → Bool
  | .connected => true
  | .handleClose => false
  | .shutdown own => before && !own
  | .doPending c => before && c ≠ .removeEvent
  | .init _ | .sendMsg _ | .modifyEvent | .addPending | .handleWrite => before

def Label.asserts : Label → Bool
  | .sendMsg own => own
  | .modifyEvent => true
  | .init _ | .connected | .doPending _ | .addPending | .handleWrite | .handleClose
  | .shutdown _ => false

/-- Every `sendMsg` of a schedule gets to its assertion while the connection is open. -/
def SendsFit (before : Bool) : List Label → Prop
  | [] => True
  | l :: ls => (l.asserts → before = true) ∧ SendsFit (l.opened before) ls

instance decidableSendsFit (before : Bool) : (ls : List Label) → Decidable (SendsFit before ls)
  | [] => isTrue trivial
  | l :: ls =>
    have := decidableSendsFit (l.opened before) ls
    inferInstanceAs (Decidable ((l.asserts → before = true) ∧ SendsFit (l.opened before) ls))

/-! ## The polling flag along a run -/

variable {s s' : TCPConnection} {l : Label}

theorem mPolling_removeEvent (e : Event) : (e.execute .removeEvent).mPolling = false :=
  e.handleClose_mPolling

theorem next_mPolling (s : TCPConnection) (l : Label) :
    (s.next l).mEvent.mPolling = l.opened s.mEvent.mPolling := by
  cases l with
  | init own =>
    cases own with
    | true => rfl
    | false => rfl
  | connected => rfl
  | doPending c =>
    cases c with
    | init => exact (Bool.and_true _).symm
    | modifyEvent => exact (Bool.and_true _).symm
    | removeEvent => exact (mPolling_removeEvent _).trans (Bool.and_false _).symm
  | sendMsg own =>
    simp only [TCPConnection.next, TCPConnection.sendMsg]
    split_ifs
    · rfl
    · rfl
    · rfl
  | modifyEvent =>
    simp only [TCPConnection.next, TCPConnection.modifyEvent]
    split_ifs
    · rfl
    · rfl
  | addPending => rfl
  | handleWrite => rfl
  | handleClose => exact s.mEvent.handleClose_mPolling
  | shutdown own =>
    cases own with
    | true => exact (mPolling_removeEvent _).trans (Bool.and_false _).symm
    | false => exact (Bool.and_true _).symm

/-- Nothing but an assertion fails, and it does where the event is not polled. -/
theorem next_failed (hs : s.failed = false) (l : Label) :
    (s.next l).failed = false ↔ (l.asserts = true → s.mEvent.mPolling = true) := by
  have hassert : ∀ {t : TCPConnection}, t.failed = false →
      ((if s.mEvent.mPolling = true then t else { s with failed := true }).failed = false ↔
        s.mEvent.mPolling = true) := by
    intro t ht
    split_ifs with hpolling
    · exact iff_of_true ht hpolling
    · exact iff_of_false (fun h => by cases h) hpolling
  have hnone : ∀ {b : Bool}, (s.next l).failed = s.failed → b = false →
      ((s.next l).failed = false ↔ (b = true → s.mEvent.mPolling = true)) := by
    intro b hsame hb
    refine iff_of_true (hsame.trans hs) fun htrue => ?_
    rw [hb] at htrue
    cases htrue
  cases l with
  | sendMsg own =>
    cases own with
    | true =>
      have hsend : (s.next (.sendMsg true)).failed = false ↔ s.mEvent.mPolling = true :=
        hassert (t := s.setEvent (s.mEvent.execute .modifyEvent)) hs
      exact hsend.trans (imp_iff_right rfl).symm
    | false => exact hnone rfl rfl
  | modifyEvent =>
    have hsend : (s.next .modifyEvent).failed = false ↔ s.mEvent.mPolling = true :=
      hassert (t := { s with sending := s.sending - 1, asserted := s.asserted + 1 }) hs
    exact hsend.trans (imp_iff_right rfl).symm
  | init own | shutdown own => cases own <;> exact hnone rfl rfl
  | doPending c => cases c <;> exact hnone rfl rfl
  | connected | addPending | handleWrite | handleClose => exact hnone rfl rfl

theorem step_eq_some :
    step s l = some s' ↔ (s.failed = false ∧ s.allows l = true) ∧ s.next l = s' := by
  unfold step
  split_ifs with hok
  · rw [Option.some_inj, and_iff_right hok]
  · exact iff_of_false nofun fun h => hok h.1

theorem run_failed {ls : List Label} (hs : s.failed = true) (hr : run step s ls = some s') :
    s' = s ∧ ls = [] := by
  cases ls with
  | nil =>
    cases hr
    exact ⟨rfl, rfl⟩
  | cons l ls =>
    obtain ⟨t, ht, -⟩ := run_cons_eq_some.mp hr
    rw [(step_eq_some.mp ht).1.1] at hs
    cases hs

theorem failed_iff {ls : List Label} (hs : s.failed = false) (hr : run step s ls = some s') :
    s'.failed = false ↔ SendsFit s.mEvent.mPolling ls := by
  induction ls generalizing s with
  | nil =>
    cases hr
    exact iff_of_true hs trivial
  | cons l ls ih =>
    obtain ⟨t, ht, hr⟩ := run_cons_eq_some.mp hr
    obtain ⟨-, rfl⟩ := step_eq_some.mp ht
    have hone := next_failed hs l
    rw [SendsFit, ← next_mPolling, ← hone]
    cases hfailed : (s.next l).failed with
    | false => exact (ih hfailed hr).trans (and_iff_right rfl).symm
    | true =>
      -- the process has ended with this assertion
      obtain ⟨rfl, -⟩ := run_failed hfailed hr
      rw [hfailed]
      exact iff_of_false Bool.noConfusion fun h => Bool.noConfusion h.1

/-- No `sendMsg` fails its assertion exactly when each of them gets there between the return of the
connected callback and the first removal. -/
theorem send_safe_iff {ls : List Label} (hr : run step start ls = some s) :
    s.failed = false ↔ SendsFit false ls :=
  failed_iff rfl hr

/-- A connection of another loop is used from both sides and closed by its peer. One `sendMsg` is
called before the registration and gets to its assertion behind it. -/
theorem send_safe_until_close :
    let ls : List Label := [.init false, .sendMsg false, .doPending .init, .connected, .sendMsg true,
      .modifyEvent, .handleWrite, .handleClose, .addPending, .doPending .modifyEvent]
    ∃ s, run step start ls = some s ∧ SendsFit false ls ∧ s.failed = false := by
  intro ls
  obtain ⟨s, hs⟩ : ∃ s, run step start ls = some s := ⟨_, rfl⟩
  have hfit : SendsFit false ls := by decide
  exact ⟨s, hs, hfit, (send_safe_iff hs).mpr hfit⟩

/-- A greeting that the connected callback sends. -/
theorem send_fails_in_connected_callback :
    ∃ s, run step start [.init true, .sendMsg true] = some s ∧ s.failed = true :=
  ⟨_, rfl, rfl⟩

/-- Another thread calls `sendMsg` on an open connection, and the peer closes it before the
assertion. -/
theorem send_overtaken_by_close :
    ∃ s, run step start [.init false, .doPending .init, .connected, .sendMsg false, .handleClose,
      .modifyEvent] = some s ∧ s.failed = true :=
  ⟨_, rfl, rfl⟩

end GenericServer.SendSafety
