import Mathlib.Data.List.Basic
import Mathlib.Tactic.SplitIfs

/-!
# An event and its place in the poller

The bodies of `EventLoop::addEvent`, `modifyEvent` and `removeEvent` (`src/reactor/EventLoop.cpp`)
with `EPollPoller::updateEvent`. The loop thread executes such a body at once, and as a queued
closure where another thread has made the call.
-/
namespace GenericServer.EventRegistration

inductive CtlOp
  | add
  | mod
  | del
  deriving DecidableEq, Repr

/-- A call of `epoll_ctl`, with what it has met: whether the event was in the epoll set, and
whether its descriptor was valid. -/
structure Ctl where
  op : CtlOp
  registered : Bool
  valid : Bool
  deriving DecidableEq, Repr

/-- `Event` with its membership in the epoll set; `valid` tells that `m_fd` is an open
descriptor. -/
structure Event where
  mPolling : Bool
  valid : Bool
  registered : Bool
  ctls : List Ctl
  deriving DecidableEq, Repr

inductive Operation
  | addEvent
  | modifyEvent
  | removeEvent
  deriving DecidableEq, Repr

namespace Event

def new : Event where
  mPolling := false
  valid := true
  registered := false
  ctls := []

def updateEvent (e : Event) (op : CtlOp) : Event :=
  { e with
    registered := match op with
      | .add => true
      | .mod => e.registered
      | .del => false
    ctls := e.ctls ++ [⟨op, e.registered, e.valid⟩] }

def setPolling (e : Event) (b : Bool) : Event := { e with mPolling := b }

/-- The assertion on entry, tested by the calling thread. -/
def asserts (e : Event) : Operation → Bool
  | .addEvent => !e.mPolling
  | .modifyEvent => e.mPolling
  | .removeEvent => true

def execute (e : Event) : Operation → Event
  | .addEvent => (e.updateEvent .add).setPolling true
  | .modifyEvent => e.updateEvent .mod
  | .removeEvent => if e.mPolling then (e.updateEvent .del).setPolling false else e

def close (e : Event) : Event := { e with valid := false }

/-- The part of `TCPConnection::handleClose` that concerns the event. -/
def handleClose (e : Event) : Event := (e.execute .removeEvent).close

/-- The flag tells whether the event is in the epoll set; ADD has met unregistered events only,
MOD and DEL registered ones with a valid descriptor. -/
structure Mirrors (e : Event) : Prop where
  polling : e.mPolling = true ↔ e.registered = true
  add : ∀ c ∈ e.ctls, c.op = .add → c.registered = false
  live : ∀ c ∈ e.ctls, c.op ≠ .add → c.registered = true ∧ c.valid = true

theorem mirrors_new : Mirrors new where
  polling := by simp [new]
  add _ hc := absurd hc List.not_mem_nil
  live _ hc := absurd hc List.not_mem_nil

end Event

/-- The bodies may be executed in this order on an event that is polled or not, with a valid
descriptor or not. -/
def Plays (polling valid : Bool) : List Operation → Prop
  | [] => True
  | .addEvent :: ops => polling = false ∧ Plays true valid ops
  | .modifyEvent :: ops => (polling = true ∧ valid = true) ∧ Plays polling valid ops
  | .removeEvent :: ops => (polling = true → valid = true) ∧ Plays false valid ops

instance decidablePlays (polling valid : Bool) : (ops : List Operation) →
    Decidable (Plays polling valid ops)
  | [] => isTrue trivial
  | .addEvent :: ops =>
    have := decidablePlays true valid ops
    inferInstanceAs (Decidable (polling = false ∧ Plays true valid ops))
  | .modifyEvent :: ops =>
    have := decidablePlays polling valid ops
    inferInstanceAs (Decidable ((polling = true ∧ valid = true) ∧ Plays polling valid ops))
  | .removeEvent :: ops =>
    have := decidablePlays false valid ops
    inferInstanceAs (Decidable ((polling = true → valid = true) ∧ Plays false valid ops))

namespace Event

variable {e : Event} {op : Operation} {ops : List Operation}

theorem mirrors_ctl {p r : Bool} {c : Ctl} (hpolling : p = r) :
    Mirrors ⟨p, e.valid, r, e.ctls ++ [c]⟩ ↔
      ((∀ d ∈ e.ctls, d.op = .add → d.registered = false) ∧
        ∀ d ∈ e.ctls, d.op ≠ .add → d.registered = true ∧ d.valid = true) ∧
      (c.op = .add → c.registered = false) ∧
        (c.op ≠ .add → c.registered = true ∧ c.valid = true) := by
  have hc : c ∈ e.ctls ++ [c] := List.mem_append_right _ (List.mem_singleton_self c)
  constructor
  · intro h
    exact ⟨⟨fun d hd => h.add d (List.mem_append_left _ hd),
      fun d hd => h.live d (List.mem_append_left _ hd)⟩, h.add c hc, h.live c hc⟩
  · rintro ⟨⟨hadd, hlive⟩, hcadd, hclive⟩
    refine ⟨by rw [hpolling], fun d hd => ?_, fun d hd => ?_⟩
    · rcases List.mem_append.mp hd with hd | hd
      · exact hadd d hd
      · cases List.mem_singleton.mp hd
        exact hcadd
    · rcases List.mem_append.mp hd with hd | hd
      · exact hlive d hd
      · cases List.mem_singleton.mp hd
        exact hclive

theorem mirrors_iff (hpolling : e.mPolling = e.registered) : e.Mirrors ↔
    (∀ d ∈ e.ctls, d.op = .add → d.registered = false) ∧
      ∀ d ∈ e.ctls, d.op ≠ .add → d.registered = true ∧ d.valid = true :=
  ⟨fun h => ⟨h.add, h.live⟩, fun h => ⟨by rw [hpolling], h.1, h.2⟩⟩

theorem polling_execute (hpolling : e.mPolling = e.registered) (op : Operation) :
    (e.execute op).mPolling = (e.execute op).registered := by
  cases op with
  | addEvent => rfl
  | modifyEvent => exact hpolling
  | removeEvent =>
    unfold execute
    split_ifs
    · rfl
    · exact hpolling

theorem polling_close (hpolling : e.mPolling = e.registered) :
    e.close.mPolling = e.close.registered := hpolling

theorem polling_handleClose (hpolling : e.mPolling = e.registered) :
    e.handleClose.mPolling = e.handleClose.registered :=
  polling_close (polling_execute hpolling .removeEvent)

theorem mirrors_close : e.close.Mirrors ↔ e.Mirrors :=
  ⟨fun h => ⟨h.polling, h.add, h.live⟩, fun h => ⟨h.polling, h.add, h.live⟩⟩

/-- Executed bodies leave a mirrored event exactly when they are ones that may be executed. -/
theorem mirrors_foldl (hpolling : e.mPolling = e.registered) :
    (ops.foldl execute e).Mirrors ↔ e.Mirrors ∧ Plays e.mPolling e.valid ops := by
  induction ops generalizing e with
  | nil => exact (and_iff_left trivial).symm
  | cons op ops ih =>
    rw [List.foldl_cons, ih (polling_execute hpolling op), mirrors_iff hpolling]
    cases op with
    | addEvent =>
      simp only [execute, updateEvent, setPolling, Plays]
      rw [mirrors_ctl rfl, hpolling]
      simp [and_assoc]
    | modifyEvent =>
      simp only [execute, updateEvent, Plays]
      rw [mirrors_ctl hpolling, hpolling]
      simp [and_assoc]
    | removeEvent =>
      cases hflag : e.mPolling with
      | true =>
        simp only [execute, hflag, if_true, updateEvent, setPolling, Plays]
        rw [mirrors_ctl rfl, ← hpolling, hflag]
        simp [and_assoc]
      | false =>
        simp only [execute, hflag, Bool.false_eq_true, if_false, Plays]
        rw [mirrors_iff hpolling]
        simp

@[simp] theorem handleClose_valid : e.handleClose.valid = false := rfl

@[simp] theorem handleClose_mPolling : e.handleClose.mPolling = false := by
  unfold handleClose execute
  split_ifs with hflag
  · rfl
  · exact eq_false_of_ne_true hflag

theorem mirrors_handleClose (hpolling : e.mPolling = e.registered) :
    e.handleClose.Mirrors ↔ e.Mirrors ∧ (e.mPolling = true → e.valid = true) := by
  have hremoved : ([Operation.removeEvent].foldl execute e).Mirrors ↔ _ := mirrors_foldl hpolling
  rw [handleClose, mirrors_close]
  simpa only [List.foldl_cons, List.foldl_nil, Plays, and_true] using hremoved

end Event

end GenericServer.EventRegistration
