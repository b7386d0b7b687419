import GenericServer.TransitionRuns
import Mathlib.Logic.Function.Basic

/-!
# Dispatch of one batch of events

`EventLoop::loop` of `src/reactor/EventLoop.cpp` with `Event::handleEvent` and the handlers
of a connection, on the loop thread. Every test of `m_revents` is a step of its own, and
user code (message, close and timer callbacks, pending functors) is any sequence of calls.
Event objects outlive the batch, and assertions are compiled out.
-/
namespace GenericServer.EventDispatch

open TransitionRuns

def EPOLLIN : BitVec 32 := 0x001
def EPOLLPRI : BitVec 32 := 0x002
def EPOLLOUT : BitVec 32 := 0x004
def EPOLLERR : BitVec 32 := 0x008
def EPOLLHUP : BitVec 32 := 0x010
def EPOLLRDHUP : BitVec 32 := 0x2000

inductive Callback
  | read
  | write
  | close
  | error
  deriving DecidableEq, Repr

/-- `class Event`: what `handleEvent` and the loop read of it. `isSet` says which of the
callbacks are not null, `connection` that they are the handlers of a `TCPConnection`. -/
structure Event where
  mRevents : BitVec 32
  mPolling : Bool
  isSet : Callback → Bool
  connection : Bool

inductive Stage
  | hup
  | err
  | rdhup
  | input
  | output
  deriving DecidableEq, Repr

namespace Stage

def callback : Stage → Callback
  | hup => .close
  | err => .error
  | rdhup => .close
  | input => .read
  | output => .write

def test (revents : BitVec 32) : Stage → Bool
  | hup => revents &&& EPOLLHUP != 0 && !(revents &&& EPOLLIN != 0)
  | err => revents &&& EPOLLERR != 0
  | rdhup => revents &&& EPOLLRDHUP != 0
  | input => revents &&& (EPOLLIN ||| EPOLLPRI) != 0
  | output => revents &&& EPOLLOUT != 0

def after : Stage → List Stage
  | hup => [err, rdhup, input, output]
  | err => [rdhup, input, output]
  | rdhup => [input, output]
  | input => [output]
  | output => []

end Stage

/-- The test succeeds and its callback is set. -/
def Event.invokes (ev : Event) (st : Stage) : Bool := st.test ev.mRevents && ev.isSet st.callback

/-- A callback has just been entered, runs user code, or is about to return. -/
inductive Work
  | entered
  | user
  | leaving
  deriving DecidableEq, Repr

/-- Where the loop thread stands; `rest` is the part of `m_activeEvents` still to come. -/
inductive Phase
  | polling
  | batch (rest : List ℕ)
  | handling (e : ℕ) (rest : List ℕ) (st : Stage)
  | callback (e : ℕ) (rest : List ℕ) (st : Stage) (work : Work)
  | pending
  deriving DecidableEq, Repr

/-- What the property speaks of; the newest note comes first in a history. -/
inductive Note
  | polled
  | registered (e : ℕ)
  | removed (e : ℕ)
  | invoked (e : ℕ) (k : Callback)
  deriving DecidableEq, Repr

structure Loop where
  event : ℕ → Event
  inPoller : ℕ → Bool
  phase : Phase
  history : List Note

namespace Loop

def setRevents (s : Loop) (e : ℕ) (r : BitVec 32) : Loop :=
  { s with event := Function.update s.event e { s.event e with mRevents := r } }

def setPolling (s : Loop) (e : ℕ) (b : Bool) : Loop :=
  { s with event := Function.update s.event e { s.event e with mPolling := b },
           inPoller := Function.update s.inPoller e b }

def note (s : Loop) (n : Note) : Loop := { s with history := n :: s.history }

def addEvent (s : Loop) (e : ℕ) : Loop := (s.setPolling e true).note (.registered e)

def removeEvent (s : Loop) (e : ℕ) : Loop :=
  (if (s.event e).mPolling then s.setPolling e false else s).note (.removed e)

/-- `TCPConnection::handleClose` up to its close callback. -/
def handleClose (s : Loop) (e : ℕ) : Loop := (s.setRevents e 0).removeEvent e

/-- `EPollPoller::poll`: one received mask for each reported event. -/
def receive (s : Loop) : List (ℕ × BitVec 32) → Loop
  | [] => s
  | (e, r) :: active => (s.setRevents e r).receive active

/-- On to the next test, or `m_revents = 0` and back to the batch. -/
def advance (s : Loop) (e : ℕ) (rest : List ℕ) (st : Stage) : Loop :=
  match st.after with
  | st' :: _ => { s with phase := .handling e rest st' }
  | [] => { s.setRevents e 0 with phase := .batch rest }

end Loop

/-- What user code does on the loop thread. -/
inductive Action
  | startPollEvent (e : ℕ)
  | stopPollEvent (e : ℕ)
  | shutdown (e : ℕ)
  deriving DecidableEq, Repr

/-- `TCPConnection::shutdown` is `stopPollEvent`, a close callback, whose calls are steps of
their own, and the close of the descriptor. -/
def act (s : Loop) : Action → Loop
  | .startPollEvent e => s.addEvent e
  | .stopPollEvent e => s.removeEvent e
  | .shutdown e => s.removeEvent e

/-- The kernel's and the user's choices: what is reported, whether `recv` finds the
connection closed, what user code calls. -/
inductive Label
  | poll (active : List (ℕ × BitVec 32))
  | next
  | test
  | handler (peerClosed : Bool)
  | act (a : Action)
  | ret
  | loop
  deriving DecidableEq, Repr

/-- `TCPConnection::handleRead` up to its user code: `recv` returned 0 or the connection was
reset, or there is a message to hand over. -/
def handleRead (s : Loop) (e : ℕ) (peerClosed : Bool) : Loop :=
  if peerClosed then s.handleClose e else s

/-- The body of a callback up to its user code, which `handleWrite` does not have;
`handleError` is `handleClose`. -/
def handler (s : Loop) (e : ℕ) (peerClosed : Bool) : Callback → Loop × Work
  | .read => (if (s.event e).connection then handleRead s e peerClosed else s, .user)
  | .write => (s, if (s.event e).connection then .leaving else .user)
  | .close => (if (s.event e).connection then s.handleClose e else s, .user)
  | .error => (if (s.event e).connection then s.handleClose e else s, .user)

def step (s : Loop) : Label → Option Loop
  | .poll active =>
    if s.phase = .polling ∧ ∀ p ∈ active, s.inPoller p.1 then
      some ({ s.receive active with phase := .batch (active.map Prod.fst) }.note .polled)
    else none
  | .next => match s.phase with
    | .batch (e :: rest) => some { s with phase := .handling e rest .hup }
    | .batch [] => some { s with phase := .pending }
    | _ => none
  | .test => match s.phase with
    | .handling e rest st =>
      if (s.event e).invokes st then
        some ({ s with phase := .callback e rest st .entered }.note (.invoked e st.callback))
      else some (s.advance e rest st)
    | _ => none
  | .handler peerClosed => match s.phase with
    | .callback e rest st .entered =>
      let (t, work) := handler s e peerClosed st.callback
      some { t with phase := .callback e rest st work }
    | _ => none
  | .act a => match s.phase with
    | .callback _ _ _ .user => some (act s a)
    | .pending => some (act s a)
    | _ => none
  | .ret => match s.phase with
    | .callback _ _ _ .entered => none
    | .callback e rest st _ => some (s.advance e rest st)
    | _ => none
  | .loop => if s.phase = .pending then some { s with phase := .polling } else none

def start (event : ℕ → Event) (inPoller : ℕ → Bool) : Loop := ⟨event, inPoller, .polling, []⟩

/-- No callback of an event is invoked after its removal, within the batch and unless the
event has been registered again. -/
def NoDispatchAfterRemoval (history : List Note) : Prop :=
  ∀ later between earlier e k, history = later ++ .invoked e k :: (between ++ .removed e :: earlier) →
    .polled ∈ between ∨ .registered e ∈ between

/-- The tests that the loop still makes in this batch. -/
def agenda : Phase → List (ℕ × Stage)
  | .polling => []
  | .batch rest => rest.flatMap fun e => (Stage.hup :: Stage.hup.after).map (e, ·)
  | .handling e rest st => (st :: st.after).map (e, ·) ++
      rest.flatMap fun e => (Stage.hup :: Stage.hup.after).map (e, ·)
  | .callback e rest st _ => st.after.map (e, ·) ++
      rest.flatMap fun e => (Stage.hup :: Stage.hup.after).map (e, ·)
  | .pending => []

/-- As things stand, some test still to come in this batch invokes a callback of `e`. -/
def Outstanding (s : Loop) (e : ℕ) : Prop :=
  ∃ st, (e, st) ∈ agenda s.phase ∧ (s.event e).invokes st = true

/-- User code removes only events that are not due for dispatch in the current batch. -/
def RemovalFits (s : Loop) : Label → Prop
  | .act (.stopPollEvent e) => ¬ Outstanding s e
  | .act (.shutdown e) => ¬ Outstanding s e
  | _ => True

/-- `e` has been removed in this batch and not been registered since. -/
def RemovedSince (history : List Note) (e : ℕ) : Prop :=
  ∃ between earlier, history = between ++ .removed e :: earlier ∧
    .polled ∉ between ∧ .registered e ∉ between

theorem RemovedSince.cons {n : Note} {h : List Note} {e : ℕ} (hr : RemovedSince (n :: h) e) :
    n = .removed e ∨ (n ≠ .polled ∧ n ≠ .registered e ∧ RemovedSince h e) := by
  obtain ⟨between, earlier, heq, hpoll, hreg⟩ := hr
  cases between with
  | nil =>
    cases heq
    exact .inl rfl
  | cons x between =>
    cases heq
    simp only [List.mem_cons, not_or] at hpoll hreg
    exact .inr ⟨Ne.symm hpoll.1, Ne.symm hreg.1, between, earlier, rfl, hpoll.2, hreg.2⟩

theorem NoDispatchAfterRemoval.cons {n : Note} {h : List Note} (hh : NoDispatchAfterRemoval h)
    (hn : ∀ e k, n = .invoked e k → ¬ RemovedSince h e) : NoDispatchAfterRemoval (n :: h) := by
  intro later between earlier e k heq
  cases later with
  | nil =>
    cases heq
    by_contra hmissed
    rw [not_or] at hmissed
    exact hn e k rfl ⟨between, earlier, rfl, hmissed.1, hmissed.2⟩
  | cons x later =>
    cases heq
    exact hh later between earlier e k rfl

theorem test_zero (st : Stage) : st.test 0 = false := by
  cases st <;> rfl

theorem Event.invokes_of_revents_zero {ev : Event} (h : ev.mRevents = 0) (st : Stage) :
    ev.invokes st = false := by
  rw [Event.invokes, h, test_zero]
  rfl

/-- The relation between two states that makes dispatch no more likely: the tests still to
come are among those of before, and an event is dispatched by them only as before. -/
structure Quieter (s s' : Loop) : Prop where
  agenda : ∀ p ∈ agenda s'.phase, p ∈ agenda s.phase
  invokes : ∀ e st, (s'.event e).invokes st = true → (s.event e).invokes st = true

theorem Quieter.trans {s t u : Loop} (h : Quieter s t) (h' : Quieter t u) : Quieter s u :=
  ⟨fun p hp => h.agenda p (h'.agenda p hp), fun e st hi => h.invokes e st (h'.invokes e st hi)⟩

theorem Quieter.outstanding {s s' : Loop} (h : Quieter s s') {e : ℕ} (ho : Outstanding s' e) :
    Outstanding s e := by
  obtain ⟨st, hmem, hinv⟩ := ho
  exact ⟨st, h.agenda _ hmem, h.invokes e st hinv⟩

theorem quieter_note (s : Loop) (n : Note) : Quieter s (s.note n) :=
  ⟨fun _ hp => hp, fun _ _ hi => hi⟩

theorem quieter_setPolling (s : Loop) (e : ℕ) (b : Bool) : Quieter s (s.setPolling e b) := by
  refine ⟨fun p hp => hp, fun d st hi => ?_⟩
  by_cases hd : d = e
  · subst hd
    simpa [Loop.setPolling, Event.invokes] using hi
  · simpa [Loop.setPolling, hd] using hi

theorem quieter_clear (s : Loop) (e : ℕ) : Quieter s (s.setRevents e 0) := by
  refine ⟨fun p hp => hp, fun d st hi => ?_⟩
  by_cases hd : d = e
  · subst hd
    rw [Event.invokes_of_revents_zero (by simp [Loop.setRevents])] at hi
    cases hi
  · simpa [Loop.setRevents, hd] using hi

theorem quieter_removeEvent (s : Loop) (e : ℕ) : Quieter s (s.removeEvent e) := by
  rw [Loop.removeEvent]
  split_ifs
  · exact (quieter_setPolling s e false).trans (quieter_note _ _)
  · exact quieter_note s _

theorem quieter_phase {s : Loop} {ph : Phase} (h : ∀ p ∈ agenda ph, p ∈ agenda s.phase) :
    Quieter s { s with phase := ph } := ⟨h, fun _ _ hi => hi⟩

theorem quieter_advance {s : Loop} {e : ℕ} {rest : List ℕ} {st : Stage}
    (h : ∀ p ∈ agenda (.callback e rest st .leaving), p ∈ agenda s.phase) :
    Quieter s (s.advance e rest st) := by
  cases st with
  | output => exact (quieter_clear s e).trans (quieter_phase h)
  | hup => exact quieter_phase h
  | err => exact quieter_phase h
  | rdhup => exact quieter_phase h
  | input => exact quieter_phase h

theorem advance_history (s : Loop) (e : ℕ) (rest : List ℕ) (st : Stage) :
    (s.advance e rest st).history = s.history := by
  cases st <;> rfl

/-- The history is clean, and no removed event is due for dispatch. -/
structure Clean (s : Loop) : Prop where
  history : NoDispatchAfterRemoval s.history
  settled : ∀ e, RemovedSince s.history e → ¬ Outstanding s e

theorem clean_start (event : ℕ → Event) (inPoller : ℕ → Bool) : Clean (start event inPoller) where
  history := by
    intro later between earlier e k heq
    cases later <;> cases heq
  settled := by
    rintro e ⟨between, earlier, heq, -⟩
    cases between <;> cases heq

theorem Clean.quieter {s s' : Loop} (h : Clean s) (hq : Quieter s s')
    (hh : s'.history = s.history) : Clean s' where
  history := hh ▸ h.history
  settled e he ho := h.settled e (hh ▸ he) (hq.outstanding ho)

theorem Clean.note {s s' : Loop} {n : Note} (h : Clean s) (hq : Quieter s s')
    (hh : s'.history = n :: s.history) (hn : ∀ e k, n ≠ .invoked e k)
    (hremoved : ∀ e, n = .removed e → ¬ Outstanding s' e) : Clean s' where
  history := hh ▸ h.history.cons fun e k he => absurd he (hn e k)
  settled e he ho := by
    rw [hh] at he
    rcases he.cons with hrem | ⟨-, -, hold⟩
    · exact hremoved e hrem ho
    · exact h.settled e hold (hq.outstanding ho)

theorem Clean.removeEvent {s : Loop} (h : Clean s) {e : ℕ} (hout : ¬ Outstanding s e) :
    Clean (s.removeEvent e) := by
  apply h.note (n := .removed e) (quieter_removeEvent s e)
  · rw [Loop.removeEvent]
    split_ifs <;> rfl
  · exact fun d k hd => by cases hd
  · intro d hd ho
    cases hd
    exact hout ((quieter_removeEvent s e).outstanding ho)

/-- `handleClose` clears `m_revents` first, so its removal needs no condition. -/
theorem Clean.handleClose {s : Loop} (h : Clean s) (e : ℕ) : Clean (s.handleClose e) := by
  apply (h.quieter (quieter_clear s e) rfl).removeEvent
  rintro ⟨st, -, hinv⟩
  rw [Event.invokes_of_revents_zero (by simp [Loop.setRevents])] at hinv
  cases hinv

theorem Clean.act {s : Loop} (h : Clean s) (a : Action) (hfit : RemovalFits s (.act a)) :
    Clean (EventDispatch.act s a) := by
  cases a with
  | startPollEvent e =>
    apply h.note ((quieter_setPolling s e true).trans (quieter_note _ _)) rfl
    · exact fun d k hd => by cases hd
    · exact fun d hd => by cases hd
  | stopPollEvent e => exact h.removeEvent hfit
  | shutdown e => exact h.removeEvent hfit

theorem handleClose_phase (s : Loop) (e : ℕ) : (s.handleClose e).phase = s.phase := by
  simp only [Loop.handleClose, Loop.removeEvent]
  split_ifs <;> rfl

theorem Clean.handler {s : Loop} (h : Clean s) (e : ℕ) (peerClosed : Bool) (k : Callback) :
    Clean (EventDispatch.handler s e peerClosed k).1 ∧
      (EventDispatch.handler s e peerClosed k).1.phase = s.phase := by
  have hclose : ∀ b : Bool, Clean (if b then s.handleClose e else s) ∧
      (if b then s.handleClose e else s).phase = s.phase := by
    intro b
    cases b with
    | true => exact ⟨h.handleClose e, handleClose_phase s e⟩
    | false => exact ⟨h, rfl⟩
  cases k with
  | read =>
    simp only [EventDispatch.handler, handleRead]
    split_ifs with hconn hclosed
    · exact hclose true
    · exact hclose false
    · exact hclose false
  | write => exact ⟨h, rfl⟩
  | close => exact hclose _
  | error => exact hclose _

theorem Clean.test {s s' : Loop} (h : Clean s) (hs : step s .test = some s') : Clean s' := by
  simp only [step] at hs
  split at hs
  · rename_i e rest st hphase
    have hhead : (e, st) ∈ agenda s.phase := by simp [hphase, agenda]
    have htail : ∀ w, ∀ p ∈ agenda (.callback e rest st w), p ∈ agenda s.phase := by
      intro w p hp
      rw [hphase]
      exact List.mem_cons_of_mem _ hp
    split_ifs at hs with hinv
    · cases hs
      refine ⟨h.history.cons fun d k hd hrem => ?_, fun d hrem ho => ?_⟩
      · cases hd
        exact h.settled e hrem ⟨st, hhead, hinv⟩
      · rcases hrem.cons with hd | ⟨-, -, hold⟩
        · cases hd
        · exact h.settled d hold ((quieter_phase (htail _)).outstanding ho)
    · cases hs
      exact h.quieter (quieter_advance (htail .leaving)) (advance_history s e rest st)
  · cases hs

theorem Clean.step {s s' : Loop} {l : Label} (h : Clean s) (hfit : RemovalFits s l)
    (hs : EventDispatch.step s l = some s') : Clean s' := by
  cases l with
  | poll active =>
    simp only [EventDispatch.step] at hs
    split_ifs at hs with hpoll
    cases hs
    have hkeep : ∀ (active : List (ℕ × BitVec 32)) (t : Loop),
        (t.receive active).history = t.history := by
      intro active
      induction active with
      | nil => exact fun t => rfl
      | cons p active ih => exact fun t => ih _
    refine ⟨?_, fun e hrem => ?_⟩
    · apply NoDispatchAfterRemoval.cons
      · exact (hkeep active s).symm ▸ h.history
      · exact fun e k hd => by cases hd
    · rcases hrem.cons with hd | ⟨hd, -⟩
      · cases hd
      · exact absurd rfl hd
  | next =>
    simp only [EventDispatch.step] at hs
    split at hs
    · rename_i e rest hphase
      cases hs
      refine h.quieter (quieter_phase ?_) rfl
      rw [hphase]
      exact fun p hp => by simpa [agenda] using hp
    · rename_i hphase
      cases hs
      exact h.quieter (quieter_phase (by simp [agenda])) rfl
    · cases hs
  | test => exact h.test hs
  | handler peerClosed =>
    simp only [EventDispatch.step] at hs
    split at hs
    · rename_i e rest st hphase
      cases hs
      obtain ⟨hclean, hkeep⟩ := h.handler e peerClosed st.callback
      refine hclean.quieter (quieter_phase ?_) rfl
      rw [hkeep, hphase]
      exact fun p hp => hp
    · cases hs
  | act a =>
    simp only [EventDispatch.step] at hs
    split at hs
    · cases hs
      exact h.act a hfit
    · cases hs
      exact h.act a hfit
    · cases hs
  | ret =>
    simp only [EventDispatch.step] at hs
    split at hs
    · cases hs
    · rename_i e rest st work _ hphase
      cases hs
      apply h.quieter (quieter_advance _) (advance_history s e rest st)
      rw [hphase]
      exact fun p hp => hp
    · cases hs
  | loop =>
    simp only [EventDispatch.step] at hs
    split_ifs at hs
    cases hs
    exact h.quieter (quieter_phase (by simp [agenda])) rfl

/-- In every run in which user code removes only events that are not due, no callback of a
removed event is invoked. -/
theorem no_dispatch_after_removal {event : ℕ → Event} {inPoller : ℕ → Bool} {ls : List Label}
    {s : Loop} (hg : Guarded step RemovalFits (start event inPoller) ls)
    (hr : run step (start event inPoller) ls = some s) : NoDispatchAfterRemoval s.history :=
  (hg.invariant (fun _ _ _ h hfit hs => Clean.step h hfit hs) (clean_start event inPoller) hr).history

/-- A registered connection, event 0, and the system timer, event 1. -/
def idleLoop : Loop :=
  start (fun e => if e = 0 then ⟨0, true, fun _ => true, true⟩ else
    ⟨0, false, fun k => k = .read, false⟩) (fun e => e ≤ 1)

/-- A timer tick shuts down a connection that is not in the batch. -/
theorem no_dispatch_after_removal_idle :
    NoDispatchAfterRemoval [.removed 0, .invoked 1 .read, .polled] := by
  have hquiet : ∀ s : Loop, s.phase = .callback 1 [] .input .user → ¬ Outstanding s 0 := by
    rintro s hphase ⟨st, hmem, -⟩
    rw [hphase] at hmem
    simp [agenda, Stage.after] at hmem
  exact @no_dispatch_after_removal _ _
    [.poll [(1, EPOLLIN)], .next, .test, .test, .test, .test, .handler false, .act (.shutdown 0)] _
    (guarded_cons trivial rfl <| guarded_cons trivial rfl <| guarded_cons trivial rfl <|
      guarded_cons trivial rfl <| guarded_cons trivial rfl <| guarded_cons trivial rfl <|
      guarded_cons trivial rfl <| guarded_cons (hquiet _ rfl) rfl trivial)
    (show run step idleLoop _ = some _ from rfl)

/-- A connection that is readable and writable is shut down by its message callback, and one
that is readable by a timer tick earlier in the batch: both are dispatched afterwards. -/
theorem shutdown_then_dispatched :
    (∃ s, run step idleLoop [.poll [(0, EPOLLIN ||| EPOLLOUT)], .next, .test, .test, .test, .test,
        .handler false, .act (.shutdown 0), .ret, .test] = some s ∧
      s.history = [.invoked 0 .write, .removed 0, .invoked 0 .read, .polled] ∧
      ¬ NoDispatchAfterRemoval s.history) ∧
    ∃ s, run step idleLoop [.poll [(1, EPOLLIN), (0, EPOLLIN)], .next, .test, .test, .test, .test,
        .handler false, .act (.shutdown 0), .ret, .test, .next, .test, .test, .test, .test] = some s ∧
      s.history = [.invoked 0 .read, .removed 0, .invoked 1 .read, .polled] ∧
      ¬ NoDispatchAfterRemoval s.history := by
  refine ⟨⟨_, rfl, rfl, fun hclean => ?_⟩, _, rfl, rfl, fun hclean => ?_⟩
  · have hmissed := hclean [] [] _ 0 .write rfl
    simp at hmissed
  · have hmissed := hclean [] [] _ 0 .read rfl
    simp at hmissed

end GenericServer.EventDispatch
