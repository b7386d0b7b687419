import GenericServer.TransitionRuns
import Mathlib.Data.Finset.Basic
import Mathlib.Data.Int.Notation

/-!
# The connector

`Connector` of `src/net/Connector.h` and `Connector.cpp`, on the thread of its loop. Descriptors
are named in the order in which `createSocketFd` returns them, since the numbers are reused, and
connect requests in the order of the calls of `startConnect`.
-/
namespace GenericServer.ConnectAttempts

open TransitionRuns

/-! ## Error numbers and addresses -/

def EPERM : ℤ := 1
def EINTR : ℤ := 4
def EBADF : ℤ := 9
def EAGAIN : ℤ := 11
def EACCES : ℤ := 13
def EFAULT : ℤ := 14
def ENOTSOCK : ℤ := 88
def EAFNOSUPPORT : ℤ := 97
def EADDRINUSE : ℤ := 98
def EADDRNOTAVAIL : ℤ := 99
def ENETUNREACH : ℤ := 101
def EISCONN : ℤ := 106
def ECONNREFUSED : ℤ := 111
def EALREADY : ℤ := 114
def EINPROGRESS : ℤ := 115

inductive Outcome
  | check
  | retry
  | fail
  deriving DecidableEq, Repr

/-- The `switch` of `connect`. -/
def outcome (err : ℤ) : Outcome :=
  if err = 0 then .check
  else if err ∈ [EINTR, EISCONN, EALREADY, EINPROGRESS] then .check
  else if err ∈ [EAGAIN, EADDRINUSE, EADDRNOTAVAIL, ENETUNREACH, ECONNREFUSED] then .retry
  else if err ∈ [EPERM, EACCES, EAFNOSUPPORT, EBADF, EFAULT, ENOTSOCK] then .fail
  else .retry

def AF_INET : ℕ := 2
def AF_INET6 : ℕ := 10

/-- The fields of `sockaddr_in6`, and `sin_addr` of the `sockaddr_in` at the same place. -/
structure SockAddr where
  family : ℕ
  port : ℕ
  addr4 : ℕ
  addr6 : ℕ
  deriving DecidableEq, Repr

def isSelfConnect (laddr paddr : SockAddr) : Bool :=
  if laddr.family = AF_INET then laddr.port = paddr.port ∧ laddr.addr4 = paddr.addr4
  else if laddr.family = AF_INET6 then laddr.port = paddr.port ∧ laddr.addr6 = paddr.addr6
  else false

/-! ## The program -/

/-- `Event`, with the request that its attempt belongs to. -/
structure Event where
  fd : ℕ
  request : ℕ
  polling : Bool
  deriving DecidableEq, Repr

/-- `retryTimes` is the static counter of `retry`, `registered` the epoll set, and `dispatching`
the descriptor whose event is in `handleWrite`, from the callback on. `pending` and `timers` are
the requests whose `connect` waits in the loop or for a retry timer. `closed` and `handed` are
the descriptors closed and handed to the success callback, `succeeded` and `failed` the requests
whose callback has been invoked. Once an `Event` has been used after its destruction the
behaviour is `undefined`. -/
structure Connector where
  mSuccessCallback : Bool
  mFailedCallback : Bool
  mEvent : Option Event
  retryTimes : ℕ
  registered : Finset ℕ
  dispatching : Option ℕ
  pending : List ℕ
  timers : List ℕ
  requests : ℕ
  sockets : ℕ
  closed : List ℕ
  handed : List ℕ
  succeeded : List ℕ
  failed : List ℕ
  undefined : Bool
  deriving DecidableEq

/-- A connector in a process in which `retry` has been called `retryTimes` times. -/
def start (success failure : Bool) (retryTimes : ℕ) : Connector where
  mSuccessCallback := success
  mFailedCallback := failure
  mEvent := none
  retryTimes := retryTimes
  registered := ∅
  dispatching := none
  pending := []
  timers := []
  requests := 0
  sockets := 0
  closed := []
  handed := []
  succeeded := []
  failed := []
  undefined := false

namespace Connector

def close (s : Connector) (fd : ℕ) : Connector := { s with closed := s.closed ++ [fd] }

/-- `if (m_failedCallback) m_failedCallback()`. -/
def fail (s : Connector) (req : ℕ) : Connector :=
  if s.mFailedCallback then { s with failed := s.failed ++ [req] } else s

/-- `if (m_successCallback) m_successCallback(fd)`. -/
def succeed (s : Connector) (fd req : ℕ) : Connector :=
  if s.mSuccessCallback then
    { s with handed := s.handed ++ [fd], succeeded := s.succeeded ++ [req] }
  else s

/-- The new event takes the place of the one before, which is destroyed. -/
def check (s : Connector) (fd req : ℕ) : Connector :=
  { s with mEvent := some ⟨fd, req, true⟩, registered := insert fd s.registered }

def retry (s : Connector) (fd req : ℕ) : Connector :=
  let s := { s.close fd with retryTimes := s.retryTimes + 1 }
  if s.retryTimes < 3 then { s with timers := s.timers ++ [req] } else s.fail req

/-- `connect` where `::connect` returns with `err`. -/
def connect (s : Connector) (req : ℕ) (err : ℤ) : Connector :=
  let fd := s.sockets
  let s := { s with sockets := s.sockets + 1 }
  match outcome err with
  | .check => s.check fd req
  | .retry => s.retry fd req
  | .fail => s.fail req

/-- `m_loop->runInLoop(connect)`; `own` is the result of `::connect` where the loop thread itself
makes the call, so that `connect` is run at once. -/
def startConnect (s : Connector) (own : Option ℤ) : Connector :=
  let req := s.requests
  let s := { s with requests := s.requests + 1 }
  match own with
  | some err => s.connect req err
  | none => { s with pending := s.pending ++ [req] }

def removeEvent (s : Connector) (ev : Event) : Connector :=
  if ev.polling then
    { s with registered := s.registered.erase ev.fd, mEvent := some { ev with polling := false } }
  else s

/-- `handleWrite` up to and including its callback, where `SO_ERROR` is `err`. -/
def handleWrite (s : Connector) (ev : Event) (err : ℤ) (laddr paddr : SockAddr) : Connector :=
  let s := { s.removeEvent ev with dispatching := some ev.fd }
  if err = 0 then s.succeed ev.fd ev.request
  else if isSelfConnect laddr paddr then s.retry ev.fd ev.request
  else (s.close ev.fd).fail ev.request

/-- The poller dispatches a write event of `fd`; its `Event` may have been destroyed. -/
def writeEvent (s : Connector) (fd : ℕ) (err : ℤ) (laddr paddr : SockAddr) : Connector :=
  match s.mEvent with
  | some ev => if ev.fd = fd then s.handleWrite ev err laddr paddr else { s with undefined := true }
  | none => { s with undefined := true }

/-- `handleWrite` returns to `Event::handleEvent`, which clears `m_revents`. -/
def returned (s : Connector) (fd : ℕ) : Connector :=
  match s.mEvent with
  | some ev => if ev.fd = fd then { s with dispatching := none } else { s with undefined := true }
  | none => { s with undefined := true }

end Connector

/-- `startConnect` may be called in a callback. `connect` is run by `doPending`, and `elsewhere` is
a `retry` of another connector. -/
inductive Label
  | startConnect (own : Option ℤ)
  | connect (req : ℕ) (err : ℤ)
  | retryTimer (req : ℕ) (err : ℤ)
  | writeEvent (fd : ℕ) (err : ℤ) (laddr paddr : SockAddr)
  | returned
  | elsewhere
  deriving DecidableEq, Repr

def next (s : Connector) : Label → Option Connector
  | .startConnect own => some (s.startConnect own)
  | .connect req err =>
    if req ∈ s.pending ∧ s.dispatching = none then
      some ({ s with pending := s.pending.erase req }.connect req err)
    else none
  | .retryTimer req err =>
    if req ∈ s.timers ∧ s.dispatching = none then
      some ({ s with timers := s.timers.erase req }.connect req err)
    else none
  | .writeEvent fd err laddr paddr =>
    if fd ∈ s.registered ∧ s.dispatching = none then some (s.writeEvent fd err laddr paddr)
    else none
  | .returned => s.dispatching.map s.returned
  | .elsewhere => some { s with retryTimes := s.retryTimes + 1 }

def step (s : Connector) (l : Label) : Option Connector := if s.undefined then none else next s l

/-- How often a descriptor has been closed or handed over. -/
def Connector.settles (s : Connector) (fd : ℕ) : ℕ := s.closed.count fd + s.handed.count fd

structure Idle (s : Connector) : Prop where
  pending : s.pending = []
  timers : s.timers = []
  event : ∀ ev ∈ s.mEvent, ev.polling = false
  dispatching : s.dispatching = none

/-- Every descriptor has been closed once or handed over once, never both. -/
structure Settled (s : Connector) : Prop where
  defined : s.undefined = false
  once : ∀ fd < s.sockets, s.settles fd = 1

/-- The result of `::connect` is none of those that end the attempt at once, and `check` neither
replaces the event of an attempt in progress nor that of a running `handleWrite`. -/
def ConnectFits (s : Connector) (err : ℤ) : Prop :=
  match outcome err with
  | .check => (∀ ev ∈ s.mEvent, ev.polling = false) ∧ s.dispatching = none
  | .retry => True
  | .fail => False

/-- And a connection that is established finds a success callback. -/
def Fits (s : Connector) : Label → Prop
  | .startConnect own => ∀ err ∈ own, ConnectFits s err
  | .connect _ err => ConnectFits s err
  | .retryTimer _ err => ConnectFits s err
  | .writeEvent _ err _ _ => err = 0 → s.mSuccessCallback = true
  | .returned => True
  | .elsewhere => True

instance decidableConnectFits (s : Connector) (err : ℤ) : Decidable (ConnectFits s err) :=
  match h : outcome err with
  | .check => decidable_of_iff ((∀ ev ∈ s.mEvent, ev.polling = false) ∧ s.dispatching = none)
      (by rw [ConnectFits, h])
  | .retry => isTrue (by rw [ConnectFits, h]; trivial)
  | .fail => isFalse (by rw [ConnectFits, h]; exact id)

instance decidableFits (s : Connector) : (l : Label) → Decidable (Fits s l)
  | .startConnect own => inferInstanceAs (Decidable (∀ err ∈ own, ConnectFits s err))
  | .connect _ err => inferInstanceAs (Decidable (ConnectFits s err))
  | .retryTimer _ err => inferInstanceAs (Decidable (ConnectFits s err))
  | .writeEvent _ err _ _ => inferInstanceAs (Decidable (err = 0 → s.mSuccessCallback = true))
  | .returned => isTrue trivial
  | .elsewhere => isTrue trivial

/-! ## Descriptors -/

variable {s s' : Connector} {l : Label} {ls : List Label} {req : ℕ} {err : ℤ}

/-- The connector still expects a write event of the descriptor. -/
def Waiting (s : Connector) (fd : ℕ) : Prop := ∃ ev ∈ s.mEvent, ev.fd = fd ∧ ev.polling = true

structure Consistent (s : Connector) : Prop where
  fresh : ∀ fd, s.sockets ≤ fd → s.settles fd = 0
  once : ∀ fd, s.settles fd ≤ 1
  registered : ∀ fd ∈ s.registered, fd < s.sockets ∧ s.settles fd = 0
  event : ∀ ev ∈ s.mEvent, ev.fd < s.sockets ∧ (ev.polling = true ↔ ev.fd ∈ s.registered)
  dispatching : ∀ fd ∈ s.dispatching, fd < s.sockets

/-- `Settled`, for a connector with an attempt in progress. -/
structure Accounted (s : Connector) : Prop where
  defined : s.undefined = false
  once : ∀ fd < s.sockets, Waiting s fd ∨ s.settles fd = 1
  dispatching : ∀ fd ∈ s.dispatching, ∃ ev ∈ s.mEvent, ev.fd = fd

theorem Waiting.fd_lt (h : Consistent s) {fd : ℕ} (hw : Waiting s fd) : fd < s.sockets := by
  obtain ⟨ev, hev, rfl, -⟩ := hw
  exact (h.event ev hev).1

theorem Waiting.settles_eq (h : Consistent s) {fd : ℕ} (hw : Waiting s fd) : s.settles fd = 0 := by
  obtain ⟨ev, hev, rfl, hpoll⟩ := hw
  exact (h.registered ev.fd ((h.event ev hev).2.mp hpoll)).2

theorem accounted_iff_settled (hidle : Idle s) : Accounted s ↔ Settled s := by
  constructor
  · intro h
    refine ⟨h.defined, fun fd hfd => (h.once fd hfd).resolve_left ?_⟩
    rintro ⟨ev, hev, -, hpoll⟩
    simp [hidle.event ev hev] at hpoll
  · intro h
    refine ⟨h.defined, fun fd hfd => .inr (h.once fd hfd), fun fd hfd => ?_⟩
    rw [hidle.dispatching] at hfd
    cases hfd

theorem settles_close (s : Connector) (fd x : ℕ) :
    (s.close fd).settles x = s.settles x + if fd = x then 1 else 0 := by
  simp only [Connector.settles, Connector.close, List.count_append, List.count_singleton, beq_iff_eq]
  omega

theorem fail_frame (s : Connector) (req : ℕ) : ∃ fs, s.fail req = { s with failed := fs } := by
  unfold Connector.fail
  split
  · exact ⟨_, rfl⟩
  · exact ⟨s.failed, rfl⟩

theorem retry_frame (s : Connector) (fd req : ℕ) : ∃ n ts fs, s.retry fd req =
    { s.close fd with retryTimes := n, timers := ts, failed := fs } := by
  unfold Connector.retry
  dsimp only
  split
  · exact ⟨_, _, _, rfl⟩
  · obtain ⟨fs, hfs⟩ := fail_frame { s.close fd with retryTimes := s.retryTimes + 1 } req
    exact ⟨_, _, fs, hfs⟩

theorem retry_retryTimes (s : Connector) (fd req : ℕ) :
    (s.retry fd req).retryTimes = s.retryTimes + 1 := by
  unfold Connector.retry
  dsimp only
  split
  · rfl
  · obtain ⟨fs, hfs⟩ := fail_frame { s.close fd with retryTimes := s.retryTimes + 1 } req
    rw [hfs]

/-! ### One attempt begins -/

theorem connect_consistent (h : Consistent s) (req : ℕ) (err : ℤ) :
    Consistent (s.connect req err) := by
  unfold Connector.connect
  have hlt : ∀ fd ∈ s.dispatching, fd < s.sockets + 1 := fun fd hfd =>
    Nat.lt_succ_of_lt (h.dispatching fd hfd)
  have hold : ∀ ev ∈ s.mEvent, ev.fd < s.sockets + 1 ∧ (ev.polling = true ↔ ev.fd ∈ s.registered) :=
    fun ev hev => ⟨Nat.lt_succ_of_lt (h.event ev hev).1, (h.event ev hev).2⟩
  have hnew := h.fresh s.sockets (Nat.le_refl _)
  cases outcome err with
  | check =>
    refine ⟨fun fd hfd => h.fresh fd (Nat.le_of_succ_le hfd), h.once, fun fd hfd => ?_,
      fun ev hev => ?_, hlt⟩
    · rcases Finset.mem_insert.mp hfd with rfl | hfd
      · exact ⟨Nat.lt_succ_self _, hnew⟩
      · exact ⟨Nat.lt_succ_of_lt (h.registered fd hfd).1, (h.registered fd hfd).2⟩
    · cases hev
      exact ⟨Nat.lt_succ_self _, iff_of_true rfl (Finset.mem_insert_self _ _)⟩
  | retry =>
    obtain ⟨n, ts, fs, hs'⟩ := retry_frame { s with sockets := s.sockets + 1 } s.sockets req
    dsimp only
    rw [hs']
    have hsettles := settles_close s s.sockets
    refine ⟨fun fd hfd => ?_, fun fd => ?_, fun fd hfd => ?_, hold, hlt⟩
    · have hne : s.sockets ≠ fd := by
        dsimp only [Connector.close] at hfd
        omega
      exact (hsettles fd).trans (by rw [if_neg hne, h.fresh fd (by dsimp [Connector.close] at hfd; omega)])
    · refine (hsettles fd).trans_le ?_
      have := h.once fd
      split_ifs with hfd
      · subst hfd
        omega
      · omega
    · obtain ⟨hlt, hzero⟩ := h.registered fd hfd
      exact ⟨Nat.lt_succ_of_lt hlt, (hsettles fd).trans (by rw [if_neg hlt.ne', hzero])⟩
  | fail =>
    obtain ⟨fs, hs'⟩ := fail_frame { s with sockets := s.sockets + 1 } req
    dsimp only
    rw [hs']
    exact ⟨fun fd hfd => h.fresh fd (Nat.le_of_succ_le hfd), h.once,
      fun fd hfd => ⟨Nat.lt_succ_of_lt (h.registered fd hfd).1, (h.registered fd hfd).2⟩, hold, hlt⟩

theorem check_accounted_iff (h : Consistent s) (req : ℕ) :
    Accounted (Connector.check { s with sockets := s.sockets + 1 } s.sockets req) ↔
      Accounted s ∧ (∀ ev ∈ s.mEvent, ev.polling = false) ∧ s.dispatching = none := by
  constructor
  · intro h'
    have hsettled : ∀ fd < s.sockets, s.settles fd = 1 := by
      intro fd hfd
      refine (h'.once fd (Nat.lt_succ_of_lt hfd)).resolve_left ?_
      rintro ⟨ev, hev, rfl, -⟩
      cases hev
      exact absurd hfd (Nat.lt_irrefl _)
    have hdispatching : s.dispatching = none := by
      refine Option.eq_none_iff_forall_ne_some.mpr fun fd hfd => ?_
      obtain ⟨ev, hev, rfl⟩ := h'.dispatching fd hfd
      cases hev
      exact absurd (h.dispatching _ hfd) (Nat.lt_irrefl _)
    refine ⟨⟨h'.defined, fun fd hfd => .inr (hsettled fd hfd), fun fd hfd => ?_⟩,
      fun ev hev => ?_, hdispatching⟩
    · rw [hdispatching] at hfd
      cases hfd
    · by_contra hpoll
      have hzero := Waiting.settles_eq h ⟨ev, hev, rfl, (Bool.not_eq_false _).mp hpoll⟩
      have hone := hsettled ev.fd (h.event ev hev).1
      omega
  · rintro ⟨hs, hevent, hdispatching⟩
    refine ⟨hs.defined, fun fd hfd => ?_, fun fd hfd => ?_⟩
    · rcases Nat.lt_succ_iff_lt_or_eq.mp hfd with hfd | rfl
      · refine .inr ((hs.once fd hfd).resolve_left ?_)
        rintro ⟨ev, hev, -, hpoll⟩
        simp [hevent ev hev] at hpoll
      · exact .inl ⟨_, rfl, rfl, rfl⟩
    · have : s.dispatching = some fd := hfd
      rw [hdispatching] at this
      cases this

theorem retry_accounted_iff (h : Consistent s) (req : ℕ) :
    Accounted (Connector.retry { s with sockets := s.sockets + 1 } s.sockets req) ↔
      Accounted s := by
  have hnew := h.fresh s.sockets (Nat.le_refl _)
  obtain ⟨n, ts, fs, hs'⟩ := retry_frame { s with sockets := s.sockets + 1 } s.sockets req
  rw [hs']
  have hsettles := settles_close s s.sockets
  constructor
  · intro h'
    refine ⟨h'.defined, fun fd hfd => ?_, h'.dispatching⟩
    refine (h'.once fd (Nat.lt_succ_of_lt hfd)).imp id fun hone => ?_
    have := hsettles fd
    rw [if_neg hfd.ne'] at this
    exact this.symm.trans hone
  · intro hs
    refine ⟨hs.defined, fun fd hfd => ?_, hs.dispatching⟩
    have := hsettles fd
    rcases Nat.lt_succ_iff_lt_or_eq.mp hfd with hfd | rfl
    · rw [if_neg hfd.ne'] at this
      exact (hs.once fd hfd).imp id this.trans
    · rw [if_pos rfl, hnew] at this
      exact .inr this

theorem fail_not_accounted (h : Consistent s) (req : ℕ) :
    ¬ Accounted (Connector.fail { s with sockets := s.sockets + 1 } req) := by
  have hnew := h.fresh s.sockets (Nat.le_refl _)
  obtain ⟨fs, hs'⟩ := fail_frame { s with sockets := s.sockets + 1 } req
  rw [hs']
  intro h'
  rcases h'.once s.sockets (Nat.lt_succ_self _) with hw | hone
  · exact absurd (Waiting.fd_lt h hw) (Nat.lt_irrefl _)
  · exact absurd (hnew.symm.trans hone) (by decide)

theorem connect_accounted_iff (h : Consistent s) (req : ℕ) (err : ℤ) :
    Accounted (s.connect req err) ↔ Accounted s ∧ ConnectFits s err := by
  unfold Connector.connect ConnectFits
  cases outcome err with
  | check => exact check_accounted_iff h req
  | retry => exact (retry_accounted_iff h req).trans (and_iff_left trivial).symm
  | fail => exact iff_of_false (fail_not_accounted h req) fun hfits => hfits.2

/-! ### One attempt ends -/

/-- What `handleWrite` leaves behind: nothing is expected of the descriptor any more, and it is
settled unless the connection is established and there is no success callback. -/
theorem handleWrite_frame (s : Connector) {ev : Event} (hpoll : ev.polling = true) (err : ℤ)
    (laddr paddr : SockAddr) : ∃ n ts cs hs ss fs,
    s.handleWrite ev err laddr paddr =
      { s with
        registered := s.registered.erase ev.fd, mEvent := some { ev with polling := false },
        dispatching := some ev.fd, retryTimes := n, timers := ts, closed := cs, handed := hs,
        succeeded := ss, failed := fs } ∧
    ∀ x, cs.count x + hs.count x =
      s.settles x + if ev.fd = x ∧ (err = 0 → s.mSuccessCallback = true) then 1 else 0 := by
  unfold Connector.handleWrite Connector.removeEvent
  rw [if_pos hpoll]
  dsimp only
  split_ifs with herr hself
  · unfold Connector.succeed
    dsimp only
    split_ifs with hcallback
    · refine ⟨_, _, _, _, _, _, rfl, fun x => ?_⟩
      simp only [Connector.settles, List.count_append, List.count_singleton, beq_iff_eq, hcallback,
        implies_true, and_true]
      omega
    · refine ⟨s.retryTimes, s.timers, s.closed, s.handed, s.succeeded, s.failed, rfl, fun x => ?_⟩
      rw [if_neg fun h => hcallback (h.2 herr)]
      rfl
  · obtain ⟨n, ts, fs, hs'⟩ := retry_frame { s with
        registered := s.registered.erase ev.fd, mEvent := some { ev with polling := false },
        dispatching := some ev.fd } ev.fd ev.request
    refine ⟨n, ts, _, s.handed, s.succeeded, fs, hs', fun x => ?_⟩
    simp only [herr, false_implies, and_true]
    exact settles_close s ev.fd x
  · obtain ⟨fs, hs'⟩ := fail_frame (Connector.close { s with
        registered := s.registered.erase ev.fd, mEvent := some { ev with polling := false },
        dispatching := some ev.fd } ev.fd) ev.request
    refine ⟨s.retryTimes, s.timers, _, s.handed, s.succeeded, fs, hs', fun x => ?_⟩
    simp only [herr, false_implies, and_true]
    exact settles_close s ev.fd x

theorem handleWrite_consistent (h : Consistent s) {ev : Event} (hev : s.mEvent = some ev)
    (hpoll : ev.polling = true) (err : ℤ) (laddr paddr : SockAddr) :
    Consistent (s.handleWrite ev err laddr paddr) := by
  obtain ⟨n, ts, cs, hs, ss, fs, hs', hsettles⟩ := handleWrite_frame s hpoll err laddr paddr
  obtain ⟨hlt, hreg⟩ := h.event ev hev
  have hzero := (h.registered ev.fd (hreg.mp hpoll)).2
  rw [hs']
  refine ⟨fun fd hfd => ?_, fun fd => ?_, fun fd hfd => ?_, fun e he => ?_, fun fd hfd => ?_⟩
  · have hne : ev.fd ≠ fd := (Nat.lt_of_lt_of_le hlt hfd).ne
    exact (hsettles fd).trans (by rw [if_neg fun h => hne h.1, h.fresh fd hfd])
  · refine (hsettles fd).trans_le ?_
    have := h.once fd
    split_ifs with hfd
    · rw [← hfd.1, hzero]
    · exact this
  · obtain ⟨hne, hfd⟩ := Finset.mem_erase.mp hfd
    obtain ⟨hlt, hzero⟩ := h.registered fd hfd
    exact ⟨hlt, (hsettles fd).trans (by rw [if_neg fun h => hne h.1.symm, hzero])⟩
  · cases he
    exact ⟨hlt, iff_of_false (by simp) (by simp)⟩
  · cases hfd
    exact hlt

theorem handleWrite_accounted_iff (h : Consistent s) {ev : Event} (hev : s.mEvent = some ev)
    (hpoll : ev.polling = true) (hdispatching : s.dispatching = none) (err : ℤ)
    (laddr paddr : SockAddr) :
    Accounted (s.handleWrite ev err laddr paddr) ↔
      Accounted s ∧ (err = 0 → s.mSuccessCallback = true) := by
  obtain ⟨n, ts, cs, hs, ss, fs, hs', hsettles⟩ := handleWrite_frame s hpoll err laddr paddr
  obtain ⟨hlt, hreg⟩ := h.event ev hev
  have hzero := (h.registered ev.fd (hreg.mp hpoll)).2
  rw [hs']
  constructor
  · intro h'
    have hone : ∀ fd < s.sockets, cs.count fd + hs.count fd = 1 := by
      intro fd hfd
      refine (h'.once fd hfd).resolve_left ?_
      rintro ⟨e, he, -, hpoll⟩
      cases he
      cases hpoll
    refine ⟨⟨h'.defined, fun fd hfd => ?_, fun fd hfd => ?_⟩, ?_⟩
    · by_cases hne : ev.fd = fd
      · exact .inl ⟨ev, hev, hne, hpoll⟩
      · have := hsettles fd
        rw [if_neg fun h => hne h.1, hone fd hfd] at this
        exact .inr this.symm
    · have : s.dispatching = some fd := hfd
      rw [hdispatching] at this
      cases this
    · have := hsettles ev.fd
      rw [hone ev.fd hlt, hzero] at this
      by_contra hfits
      rw [if_neg fun h => hfits h.2] at this
      cases this
  · rintro ⟨hacc, hfits⟩
    refine ⟨hacc.defined, fun fd hfd => .inr ?_, fun fd hfd => ?_⟩
    · refine (hsettles fd).trans ?_
      rcases hacc.once fd hfd with ⟨e, he, hfd, -⟩ | hone
      · have : s.mEvent = some e := he
        cases hev.symm.trans this
        rw [if_pos ⟨hfd, hfits⟩, ← hfd, hzero]
      · have hne : ev.fd ≠ fd := fun hfd => by rw [← hfd, hzero] at hone; cases hone
        rw [if_neg fun h => hne h.1, hone]
    · cases hfd
      exact ⟨_, rfl, rfl⟩

theorem waiting_of_registered (h : Consistent s) (hacc : Accounted s) {fd : ℕ}
    (hfd : fd ∈ s.registered) : Waiting s fd := by
  obtain ⟨hlt, hzero⟩ := h.registered fd hfd
  refine (hacc.once fd hlt).resolve_right fun hone => ?_
  rw [hzero] at hone
  cases hone

theorem writeEvent_consistent (h : Consistent s) {fd : ℕ} (hfd : fd ∈ s.registered) (err : ℤ)
    (laddr paddr : SockAddr) : Consistent (s.writeEvent fd err laddr paddr) := by
  have hundefined : Consistent { s with undefined := true } :=
    ⟨h.fresh, h.once, h.registered, h.event, h.dispatching⟩
  unfold Connector.writeEvent
  split
  case h_1 ev hev =>
    split_ifs with heq
    · subst heq
      exact handleWrite_consistent h hev ((h.event ev hev).2.mpr hfd) err laddr paddr
    · exact hundefined
  case h_2 => exact hundefined

theorem writeEvent_accounted_iff (h : Consistent s) {fd : ℕ} (hfd : fd ∈ s.registered)
    (hdispatching : s.dispatching = none) (err : ℤ) (laddr paddr : SockAddr) :
    Accounted (s.writeEvent fd err laddr paddr) ↔
      Accounted s ∧ (err = 0 → s.mSuccessCallback = true) := by
  by_cases hw : Waiting s fd
  · obtain ⟨ev, hev, rfl, hpoll⟩ := hw
    have hev : s.mEvent = some ev := hev
    simp only [Connector.writeEvent, hev, if_true]
    exact handleWrite_accounted_iff h hev hpoll hdispatching err laddr paddr
  · -- the `Event` has been destroyed with the descriptor still registered
    refine iff_of_false (fun h' => ?_) fun hs => hw (waiting_of_registered h hs.1 hfd)
    unfold Connector.writeEvent at h'
    cases hev : s.mEvent with
    | none =>
      rw [hev] at h'
      cases h'.defined
    | some ev =>
      rw [hev] at h'
      dsimp only at h'
      split_ifs at h' with heq
      · subst heq
        exact hw ⟨ev, hev, rfl, (h.event ev hev).2.mpr hfd⟩
      · cases h'.defined

theorem returned_eq {ev : Event} (hev : s.mEvent = some ev) :
    s.returned ev.fd = { s with dispatching := none } := by
  unfold Connector.returned
  split
  case h_1 e he =>
    cases hev.symm.trans he
    exact if_pos rfl
  case h_2 he => cases hev.symm.trans he

theorem returned_consistent (h : Consistent s) (fd : ℕ) : Consistent (s.returned fd) := by
  unfold Connector.returned
  split
  · split_ifs
    · exact ⟨h.fresh, h.once, h.registered, h.event, fun _ hfd => by cases hfd⟩
    · exact ⟨h.fresh, h.once, h.registered, h.event, h.dispatching⟩
  · exact ⟨h.fresh, h.once, h.registered, h.event, h.dispatching⟩

theorem returned_accounted_iff {fd : ℕ} (hdispatching : s.dispatching = some fd) :
    Accounted (s.returned fd) ↔ Accounted s := by
  constructor
  · intro h'
    unfold Connector.returned at h'
    split at h'
    case h_1 ev hev =>
      split_ifs at h' with heq
      · refine ⟨h'.defined, h'.once, fun x hx => ⟨ev, hev, ?_⟩⟩
        cases hdispatching.symm.trans hx
        exact heq
      · cases h'.defined
    case h_2 => cases h'.defined
  · intro h
    obtain ⟨ev, hev, rfl⟩ := h.dispatching fd hdispatching
    rw [returned_eq hev]
    exact ⟨h.defined, h.once, fun _ hfd => by cases hfd⟩

/-! ### Every step -/

/-- A step that calls `::connect` for a request, which returns with an error number; `u` is the
state before the call. -/
inductive Attempts (s : Connector) : Label → Connector → ℕ → ℤ → Prop
  | startConnect (err : ℤ) :
    Attempts s (.startConnect (some err)) { s with requests := s.requests + 1 } s.requests err
  | connect {req : ℕ} (err : ℤ) (h : req ∈ s.pending) :
    Attempts s (.connect req err) { s with pending := s.pending.erase req } req err
  | retryTimer {req : ℕ} (err : ℤ) (h : req ∈ s.timers) :
    Attempts s (.retryTimer req err) { s with timers := s.timers.erase req } req err

theorem Attempts.frame {u : Connector} (h : Attempts s l u req err) :
    ∃ ps ts k, u = { s with pending := ps, timers := ts, requests := k } := by
  cases h with
  | startConnect err => exact ⟨_, _, _, rfl⟩
  | connect err h => exact ⟨_, _, _, rfl⟩
  | retryTimer err h => exact ⟨_, _, _, rfl⟩

theorem Attempts.fits_iff {u : Connector} (h : Attempts s l u req err) :
    Fits s l ↔ ConnectFits s err := by
  cases h with
  | startConnect err => simp [Fits]
  | connect err h => exact Iff.rfl
  | retryTimer err h => exact Iff.rfl

theorem step_cases (hs : step s l = some s') : s.undefined = false ∧
    ((l = .elsewhere ∧ s' = { s with retryTimes := s.retryTimes + 1 }) ∨
    (l = .startConnect none ∧ s' = s.startConnect none) ∨
    (∃ u req err, Attempts s l u req err ∧ s' = u.connect req err) ∨
    (∃ fd err laddr paddr, l = .writeEvent fd err laddr paddr ∧ fd ∈ s.registered ∧
      s.dispatching = none ∧ s' = s.writeEvent fd err laddr paddr) ∨
    ∃ fd, l = .returned ∧ s.dispatching = some fd ∧ s' = s.returned fd) := by
  unfold step at hs
  split_ifs at hs with hundefined
  refine ⟨(Bool.not_eq_true _).mp hundefined, ?_⟩
  cases l with
  | startConnect own =>
    cases hs
    cases own with
    | none => exact .inr (.inl ⟨rfl, rfl⟩)
    | some err => exact .inr (.inr (.inl ⟨_, _, _, .startConnect err, rfl⟩))
  | connect req err =>
    simp only [next] at hs
    split_ifs at hs with hok
    cases hs
    exact .inr (.inr (.inl ⟨_, _, _, .connect err hok.1, rfl⟩))
  | retryTimer req err =>
    simp only [next] at hs
    split_ifs at hs with hok
    cases hs
    exact .inr (.inr (.inl ⟨_, _, _, .retryTimer err hok.1, rfl⟩))
  | writeEvent fd err laddr paddr =>
    simp only [next] at hs
    split_ifs at hs with hok
    cases hs
    exact .inr (.inr (.inr (.inl ⟨fd, err, laddr, paddr, rfl, hok.1, hok.2, rfl⟩)))
  | returned =>
    obtain ⟨fd, hfd, rfl⟩ := Option.map_eq_some_iff.mp hs
    exact .inr (.inr (.inr (.inr ⟨fd, rfl, hfd, rfl⟩)))
  | elsewhere =>
    cases hs
    exact .inl ⟨rfl, rfl⟩

theorem step_consistent (h : Consistent s) (hs : step s l = some s') : Consistent s' := by
  obtain ⟨-, ⟨-, rfl⟩ | ⟨-, rfl⟩ | ⟨u, req, err, hu, rfl⟩ |
    ⟨fd, err, laddr, paddr, -, hfd, -, rfl⟩ | ⟨fd, -, -, rfl⟩⟩ := step_cases hs
  · exact ⟨h.fresh, h.once, h.registered, h.event, h.dispatching⟩
  · exact ⟨h.fresh, h.once, h.registered, h.event, h.dispatching⟩
  · obtain ⟨ps, ts, k, rfl⟩ := hu.frame
    exact connect_consistent (s := { s with pending := ps, timers := ts, requests := k })
      ⟨h.fresh, h.once, h.registered, h.event, h.dispatching⟩ req err
  · exact writeEvent_consistent h hfd err laddr paddr
  · exact returned_consistent h fd

theorem step_accounted_iff (h : Consistent s) (hs : step s l = some s') :
    Accounted s' ↔ Accounted s ∧ Fits s l := by
  obtain ⟨-, ⟨rfl, rfl⟩ | ⟨rfl, rfl⟩ | ⟨u, req, err, hu, rfl⟩ |
    ⟨fd, err, laddr, paddr, rfl, hfd, hdispatching, rfl⟩ | ⟨fd, rfl, hfd, rfl⟩⟩ := step_cases hs
  · rw [and_iff_left (show Fits s .elsewhere from trivial)]
    exact ⟨fun h' => ⟨h'.defined, h'.once, h'.dispatching⟩,
      fun h' => ⟨h'.defined, h'.once, h'.dispatching⟩⟩
  · rw [and_iff_left (show Fits s (.startConnect none) from fun err herr => by cases herr)]
    exact ⟨fun h' => ⟨h'.defined, h'.once, h'.dispatching⟩,
      fun h' => ⟨h'.defined, h'.once, h'.dispatching⟩⟩
  · rw [hu.fits_iff]
    obtain ⟨ps, ts, k, rfl⟩ := hu.frame
    rw [connect_accounted_iff (s := { s with pending := ps, timers := ts, requests := k })
      ⟨h.fresh, h.once, h.registered, h.event, h.dispatching⟩]
    exact and_congr_left fun _ => ⟨fun h' => ⟨h'.defined, h'.once, h'.dispatching⟩,
      fun h' => ⟨h'.defined, h'.once, h'.dispatching⟩⟩
  · exact writeEvent_accounted_iff h hfd hdispatching err laddr paddr
  · rw [returned_accounted_iff hfd]
    exact (and_iff_left trivial).symm

theorem start_consistent (success failure : Bool) (retryTimes : ℕ) :
    Consistent (start success failure retryTimes) where
  fresh _ _ := rfl
  once _ := Nat.zero_le _
  registered _ h := absurd h (Finset.notMem_empty _)
  event _ h := by cases h
  dispatching _ h := by cases h

theorem start_accounted (success failure : Bool) (retryTimes : ℕ) :
    Accounted (start success failure retryTimes) where
  defined := rfl
  once _ h := absurd h (Nat.not_lt_zero _)
  dispatching _ h := by cases h

/-! ## Requests -/

/-- One for the request whose write event is still expected. -/
def Connector.awaiting (s : Connector) (r : ℕ) : ℕ :=
  match s.mEvent with
  | some ev => if ev.polling = true ∧ ev.request = r then 1 else 0
  | none => 0

/-- Where a request can be: waiting in the loop, for a timer or for its write event, or
answered. -/
def Connector.places (s : Connector) (r : ℕ) : ℕ :=
  s.pending.count r + s.timers.count r + s.awaiting r + s.succeeded.count r + s.failed.count r

/-- Each request is in one place at most, those to come in none. -/
def Placed (s : Connector) : Prop :=
  ∀ r, s.places r ≤ if r < s.requests then 1 else 0

theorem fail_places (s : Connector) (req r : ℕ) :
    (s.fail req).places r ≤ s.places r + if req = r then 1 else 0 := by
  unfold Connector.fail
  split
  · simp only [Connector.places, Connector.awaiting, List.count_append, List.count_singleton,
      beq_iff_eq]
    omega
  · omega

theorem succeed_places (s : Connector) (fd req r : ℕ) :
    (s.succeed fd req).places r ≤ s.places r + if req = r then 1 else 0 := by
  unfold Connector.succeed
  split
  · simp only [Connector.places, Connector.awaiting, List.count_append, List.count_singleton,
      beq_iff_eq]
    omega
  · omega

theorem retry_places (s : Connector) (fd req r : ℕ) :
    (s.retry fd req).places r ≤ s.places r + if req = r then 1 else 0 := by
  unfold Connector.retry
  dsimp only
  split
  · simp only [Connector.places, Connector.awaiting, Connector.close, List.count_append,
      List.count_singleton, beq_iff_eq]
    omega
  · exact fail_places { s.close fd with retryTimes := s.retryTimes + 1 } req r

theorem check_places (s : Connector) (fd req r : ℕ) :
    (s.check fd req).places r ≤ s.places r + if req = r then 1 else 0 := by
  simp only [Connector.places, Connector.awaiting, Connector.check, true_and]
  omega

theorem connect_places (s : Connector) (req : ℕ) (err : ℤ) (r : ℕ) :
    (s.connect req err).places r ≤ s.places r + if req = r then 1 else 0 := by
  unfold Connector.connect
  cases outcome err with
  | check => exact check_places { s with sockets := s.sockets + 1 } s.sockets req r
  | retry => exact retry_places { s with sockets := s.sockets + 1 } s.sockets req r
  | fail => exact fail_places { s with sockets := s.sockets + 1 } req r

theorem handleWrite_places {ev : Event} (hev : s.mEvent = some ev) (hpoll : ev.polling = true)
    (err : ℤ) (laddr paddr : SockAddr) (r : ℕ) :
    (s.handleWrite ev err laddr paddr).places r ≤ s.places r := by
  unfold Connector.handleWrite Connector.removeEvent
  rw [if_pos hpoll]
  dsimp only
  have hgone : { s with
      registered := s.registered.erase ev.fd, mEvent := some { ev with polling := false },
      dispatching := some ev.fd }.places r + (if ev.request = r then 1 else 0) = s.places r := by
    simp only [Connector.places, Connector.awaiting, hev, hpoll, true_and]
    simp
    omega
  split_ifs
  · exact (succeed_places _ ev.fd ev.request r).trans_eq hgone
  · exact (retry_places _ ev.fd ev.request r).trans_eq hgone
  · exact (fail_places _ ev.request r).trans_eq hgone

theorem connect_requests (s : Connector) (req : ℕ) (err : ℤ) :
    (s.connect req err).requests = s.requests := by
  unfold Connector.connect
  cases outcome err with
  | check => rfl
  | retry =>
    obtain ⟨n, ts, fs, hs⟩ := retry_frame { s with sockets := s.sockets + 1 } s.sockets req
    dsimp only
    rw [hs]
    rfl
  | fail =>
    obtain ⟨fs, hs⟩ := fail_frame { s with sockets := s.sockets + 1 } req
    dsimp only
    rw [hs]

theorem connect_placed {u : Connector} (hp : Placed s) (hreq : u.requests = s.requests)
    (hu : ∀ r, u.places r + (if req = r then 1 else 0) = s.places r) (err : ℤ) :
    Placed (u.connect req err) := by
  intro r
  rw [connect_requests, hreq]
  exact ((connect_places u req err r).trans_eq (hu r)).trans (hp r)

theorem startConnect_placed (hp : Placed s) (own : Option ℤ) : Placed (s.startConnect own) := by
  intro r
  have hroom : s.places r + (if s.requests = r then 1 else 0) ≤
      if r < s.requests + 1 then 1 else 0 := by
    have hr := hp r
    split_ifs at hr ⊢ <;> omega
  cases own with
  | none =>
    refine Eq.trans_le ?_ hroom
    simp only [Connector.places, Connector.awaiting, Connector.startConnect, List.count_append,
      List.count_singleton, beq_iff_eq]
    omega
  | some err =>
    rw [Connector.startConnect, connect_requests]
    exact (connect_places { s with requests := s.requests + 1 } s.requests err r).trans hroom

theorem count_erase_add {xs : List ℕ} (h : req ∈ xs) (r : ℕ) :
    (xs.erase req).count r + (if req = r then 1 else 0) = xs.count r := by
  rw [(List.perm_cons_erase h).count_eq r, List.count_cons]
  simp only [beq_iff_eq]

theorem writeEvent_placed (h : Consistent s) (hp : Placed s) {fd : ℕ} (hfd : fd ∈ s.registered)
    (err : ℤ) (laddr paddr : SockAddr) : Placed (s.writeEvent fd err laddr paddr) := by
  unfold Connector.writeEvent
  split
  case h_1 ev hev =>
    split_ifs with heq
    · subst heq
      have hpoll := (h.event ev hev).2.mpr hfd
      obtain ⟨n, ts, cs, hs, ss, fs, hs', -⟩ := handleWrite_frame s hpoll err laddr paddr
      intro r
      have hreq := congrArg Connector.requests hs'
      rw [hreq]
      exact (handleWrite_places hev hpoll err laddr paddr r).trans (hp r)
    · exact hp
  case h_2 => exact hp

theorem returned_placed (hp : Placed s) (fd : ℕ) : Placed (s.returned fd) := by
  unfold Connector.returned
  split
  · split_ifs
    · exact hp
    · exact hp
  · exact hp

theorem Attempts.placed {u : Connector} (h : Attempts s l u req err) (hp : Placed s) :
    Placed (u.connect req err) := by
  cases h with
  | startConnect err => exact startConnect_placed hp (some err)
  | connect err h =>
    refine connect_placed (u := { s with pending := s.pending.erase req }) hp rfl (fun r => ?_) err
    have hcount := count_erase_add h r
    simp only [Connector.places, Connector.awaiting]
    omega
  | retryTimer err h =>
    refine connect_placed (u := { s with timers := s.timers.erase req }) hp rfl (fun r => ?_) err
    have hcount := count_erase_add h r
    simp only [Connector.places, Connector.awaiting]
    omega

theorem step_placed (h : Consistent s) (hp : Placed s) (hs : step s l = some s') : Placed s' := by
  obtain ⟨-, ⟨-, rfl⟩ | ⟨-, rfl⟩ | ⟨u, req, err, hu, rfl⟩ |
    ⟨fd, err, laddr, paddr, -, hfd, -, rfl⟩ | ⟨fd, -, -, rfl⟩⟩ := step_cases hs
  · exact hp
  · exact startConnect_placed hp none
  · exact hu.placed hp
  · exact writeEvent_placed h hp hfd err laddr paddr
  · exact returned_placed hp fd

/-- A run that has come to rest has settled every descriptor exactly when each of its steps
fits. However it goes, no request is answered twice. -/
theorem descriptors_settled_iff (success failure : Bool) (retryTimes : ℕ)
    (hr : run step (start success failure retryTimes) ls = some s) :
    (∀ r, (s.succeeded ++ s.failed).count r ≤ 1) ∧
      (Idle s → (Settled s ↔ Guarded step Fits (start success failure retryTimes) ls)) := by
  have hstart := start_consistent success failure retryTimes
  constructor
  · intro r
    have hstep : ∀ t m t', Consistent t ∧ Placed t → step t m = some t' →
        Consistent t' ∧ Placed t' :=
      fun _ _ _ h hs => ⟨step_consistent h.1 hs, step_placed h.1 h.2 hs⟩
    have hplaced := run_invariant hstep ⟨hstart, fun _ => Nat.zero_le _⟩ hr
    have hone : s.places r ≤ 1 := (hplaced.2 r).trans (by split_ifs <;> omega)
    rw [List.count_append]
    unfold Connector.places at hone
    omega
  · intro hidle
    rw [← accounted_iff_settled hidle]
    exact guarded_iff (fun _ _ _ h hs => step_consistent h hs)
      (fun _ _ _ h hs => step_accounted_iff h hs) hstart (start_accounted success failure retryTimes) hr

/-- An attempt that is refused at its write event, and one of another thread that succeeds. -/
theorem descriptors_settled_two_attempts : ∃ s,
    run step (start true true 0)
      [.startConnect (some EINPROGRESS), .writeEvent 0 ECONNREFUSED ⟨2, 1, 1, 0⟩ ⟨2, 2, 1, 0⟩,
        .returned, .startConnect none, .connect 1 0, .writeEvent 1 0 ⟨2, 1, 1, 0⟩ ⟨2, 2, 1, 0⟩,
        .returned] = some s ∧
    (s.closed, s.handed, s.succeeded, s.failed) = ([0], [1], [1], [0]) ∧ Settled s := by
  obtain ⟨s, hs⟩ : ∃ s, run step (start true true 0)
      [.startConnect (some EINPROGRESS), .writeEvent 0 ECONNREFUSED ⟨2, 1, 1, 0⟩ ⟨2, 2, 1, 0⟩,
        .returned, .startConnect none, .connect 1 0, .writeEvent 1 0 ⟨2, 1, 1, 0⟩ ⟨2, 2, 1, 0⟩,
        .returned] = some s := ⟨_, rfl⟩
  have hidle : Idle s := by
    cases hs
    exact ⟨rfl, rfl, fun ev hev => by cases hev; rfl, rfl⟩
  refine ⟨s, hs, ?_, ((descriptors_settled_iff true true 0 hs).2 hidle).mpr ?_⟩
  · cases hs
    rfl
  · decide

/-- `::connect` is refused by a firewall rule: the descriptor is neither closed nor handed
over. -/
theorem refused_attempt_leaks : ∃ s,
    run step (start true true 0) [.startConnect (some EACCES)] = some s ∧
    Idle s ∧ s.failed = [0] ∧ s.settles 0 = 0 ∧ ¬ Settled s := by
  refine ⟨_, rfl, ⟨rfl, rfl, fun _ h => (by cases h), rfl⟩, rfl, rfl, fun h => ?_⟩
  exact absurd (h.once 0 (by decide)) (by decide)

end GenericServer.ConnectAttempts
