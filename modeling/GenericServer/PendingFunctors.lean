import GenericServer.TransitionRuns
import Mathlib.Data.Int.Notation
import Mathlib.Logic.Function.Basic

/-!
# The pending functors of an event loop

`EventLoop::loop`, `doPending`, `runInLoop`, `addPending`, `wakeup` and `handleWakeup`
(`src/reactor/EventLoop.cpp`), with any number of other threads that post. `addEvent`,
`modifyEvent`, `removeEvent` and `addTimer` post as `runInLoop` does and are not listed again.
What handlers and functors do, and how long they take, is left to the schedule.
-/
namespace GenericServer.PendingFunctors

/-- How a functor has been handed over: into `m_pending`; by the loop thread into `m_pending`
while it walks along `m_pending`; to `runInLoop` on the loop thread. -/
inductive Way
  | pending
  | during
  | direct
  deriving DecidableEq, Repr

/-- The call number `id` of `runInLoop` or `addPending`, made by thread `tid`. -/
structure Functor where
  id : ℕ
  tid : ℤ
  way : Way
  deriving DecidableEq, Repr

/-- Another thread in `runInLoop` or `addPending`: before the lock, inside `emplace_back` with
`m_pendingMutex` held, before the write to the eventfd. `wake` is set in `runInLoop`. -/
inductive Poster
  | idle
  | locking (f : Functor) (wake : Bool)
  | pushing (f : Functor) (wake : Bool)
  | waking
  deriving DecidableEq, Repr

/-- The loop thread: outside of `loop()`; before the test of `m_quit`; in `poll`; in the
range-for over `m_activeEvents`, which still holds `m_wakeup` or not; in `doPending` before the
lock, in the range-for over `m_pending` with the functors before `next` started, and behind
`clear()`. -/
inductive Pc
  | outside
  | testing
  | polling
  | handling (wakeup : Bool)
  | locking
  | walking (next stop : ℕ)
  | cleared
  deriving DecidableEq, Repr

/-- `nesting` counts the handlers and functors that the loop thread is inside of; `wakeup` is
the counter of the eventfd and `owner` the thread that holds `m_pendingMutex`. `posted` are the
calls so far and `executed` the functors started so far. -/
structure EventLoop where
  threadId : ℤ
  pc : Pc
  nesting : ℕ
  quit : Bool
  wakeup : ℕ
  owner : Option ℤ
  pending : List Functor
  capacity : ℕ
  poster : ℤ → Poster
  posted : List Functor
  executed : List Functor

def start (threadId : ℤ) : EventLoop where
  threadId := threadId
  pc := .outside
  nesting := 1
  quit := false
  wakeup := 0
  owner := none
  pending := []
  capacity := 0
  poster := fun _ => .idle
  posted := []
  executed := []

/-- Threads post, and those that are not the loop thread lock, push and wake; user code on
the loop thread returns; the others are the steps of `loop()`. `room` is what the vector
reserves beyond its need when it grows; `wakeup` says that `epoll_wait` reports `m_wakeup`, and
`others` that it has something else to report or is interrupted. -/
inductive Label
  | runInLoop (t : ℤ)
  | addPending (t : ℤ) (room : ℕ)
  | lock (t : ℤ)
  | push (t : ℤ) (room : ℕ)
  | wake (t : ℤ)
  | ret
  | quit
  | loop
  | test
  | poll (wakeup others : Bool)
  | handleEvent
  | handleWakeup
  | handled
  | lockPending
  | next
  | clear
  | unlock
  deriving DecidableEq, Repr

def call (s : EventLoop) (t : ℤ) (way : Way) : Functor := ⟨s.posted.length, t, way⟩

def setPoster (s : EventLoop) (t : ℤ) (p : Poster) : EventLoop :=
  { s with poster := Function.update s.poster t p }

def emplaceBack (s : EventLoop) (f : Functor) (room : ℕ) : EventLoop :=
  { s with
    pending := s.pending ++ [f]
    capacity := if s.pending.length < s.capacity then s.capacity
      else s.pending.length + 1 + room }

/-- A thread that is not the loop thread enters `addPending`. -/
def post (s : EventLoop) (t : ℤ) (wake : Bool) : Option EventLoop :=
  match s.poster t with
  | .idle => some { setPoster s t (.locking (call s t .pending) wake) with
      posted := s.posted ++ [call s t .pending] }
  | _ => none

/-- `addPending` on the loop thread, which does not look at the mutex. Undefined behaviour is
`none`: another thread is inside `emplace_back`, or the range-for of `doPending` is left with
iterators into a vector that has moved. -/
def addPendingInLoop (s : EventLoop) (room : ℕ) : Option EventLoop :=
  match s.owner with
  | none => some (emplaceBack { s with posted := s.posted ++ [call s s.threadId .pending] }
      (call s s.threadId .pending) room)
  | some t =>
    if t = s.threadId ∧ s.pending.length < s.capacity then
      some (emplaceBack { s with posted := s.posted ++ [call s s.threadId .during] }
        (call s s.threadId .during) room)
    else none

def step (s : EventLoop) : Label → Option EventLoop
  | .runInLoop t =>
    if t = s.threadId then
      if 0 < s.nesting then
        some { s with posted := s.posted ++ [call s t .direct]
                      executed := s.executed ++ [call s t .direct]
                      nesting := s.nesting + 1 }
      else none
    else post s t true
  | .addPending t room =>
    if t = s.threadId then
      if 0 < s.nesting then addPendingInLoop s room else none
    else post s t false
  | .lock t => match s.poster t, s.owner with
    | .locking f wake, none => some { setPoster s t (.pushing f wake) with owner := some t }
    | _, _ => none
  | .push t room => match s.poster t with
    | .pushing f wake => some { emplaceBack (setPoster s t (if wake then .waking else .idle)) f room with
        owner := none }
    | _ => none
  | .wake t => match s.poster t with
    | .waking => some { setPoster s t .idle with wakeup := s.wakeup + 1 }
    | _ => none
  | .ret =>
    if 1 < s.nesting ∨ s.nesting = 1 ∧ s.pc ≠ .outside then some { s with nesting := s.nesting - 1 }
    else none
  | .quit => some { s with quit := true }
  | .loop => if s.pc = .outside ∧ s.nesting = 1 then some { s with pc := .testing, nesting := 0 } else none
  | .test => match s.pc with
    -- behind `loop()` the thread goes on with the code that has called it
    | .testing => some (if s.quit then { s with pc := .outside, nesting := 1 } else { s with pc := .polling })
    | _ => none
  | .poll wakeup others =>
    if s.pc = .polling ∧ (wakeup ∨ others) ∧ (wakeup → 0 < s.wakeup) then
      some { s with pc := .handling wakeup }
    else none
  | .handleEvent => match s.pc with
    | .handling _ => if s.nesting = 0 then some { s with nesting := 1 } else none
    | _ => none
  | .handleWakeup =>
    if s.pc = .handling true ∧ s.nesting = 0 then some { s with pc := .handling false, wakeup := 0 }
    else none
  | .handled =>
    if s.pc = .handling false ∧ s.nesting = 0 then some { s with pc := .locking } else none
  | .lockPending =>
    if s.pc = .locking ∧ s.owner = none then
      some { s with pc := .walking 0 s.pending.length, owner := some s.threadId }
    else none
  | .next => match s.pc with
    | .walking next stop =>
      if next < stop ∧ s.nesting = 0 then
        s.pending[next]?.map fun f =>
          { s with pc := .walking (next + 1) stop, executed := s.executed ++ [f], nesting := 1 }
      else none
    | _ => none
  | .clear => match s.pc with
    | .walking next stop =>
      if next = stop ∧ s.nesting = 0 then some { s with pc := .cleared, pending := [] } else none
    | _ => none
  | .unlock => if s.pc = .cleared then some { s with pc := .testing, owner := none } else none

/-- What is still to be executed by the running or the next `doPending`. -/
def waiting (s : EventLoop) : List Functor :=
  match s.pc with
  | .walking next _ => s.pending.drop next
  | _ => s.pending

/-- The functor that a thread is about to push. -/
def Poster.inFlight : Poster → List Functor
  | .idle => []
  | .locking f _ => [f]
  | .pushing f _ => [f]
  | .waking => []

/-- The functors of one thread that have been handed over in one way, in order. -/
def handed (t : ℤ) (way : Way) (l : List Functor) : List Functor :=
  l.filter fun f => f.tid = t ∧ f.way = way

/-- No functor is executed twice, and of each thread the functors handed over into `m_pending` are
executed in order, the rest of them waits or is about to be pushed. The walk of `doPending` goes
on whenever a functor has returned, and nothing waits any more at its end. Functors handed to
`runInLoop` on the loop thread are executed at once. Functors that the loop thread pushes during
the walk are left out. -/
structure ExactlyOnce (s : EventLoop) : Prop where
  once : s.executed.Nodup
  known : ∀ f ∈ s.executed, f ∈ s.posted
  others : ∀ f ∈ s.posted, f.tid ≠ s.threadId → f.way = .pending
  ordered : ∀ t, handed t .pending s.posted = handed t .pending s.executed ++
    handed t .pending (waiting s) ++ handed t .pending (s.poster t).inFlight
  direct : ∀ t, handed t .direct s.posted = handed t .direct s.executed
  goesOn : ∀ next stop, s.pc = .walking next stop → s.nesting = 0 →
    (step s .next).isSome ∨ (step s .clear).isSome
  drained : s.pc = .cleared → waiting s = []

end GenericServer.PendingFunctors
