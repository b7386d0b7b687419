import GenericServer.TransitionRuns
import Mathlib.Data.Int.Notation
import Mathlib.Data.List.Nodup

/-!
# The teardown paths of a connection

`handleClose` and `shutdown` of `src/net/TCPConnection.cpp`, `Event::close`, and the destructor
of `IdleConnectionEntry`. A path is cut at its call of the close callback: user code runs there
and may tear the connection down once more, and so may another thread.
-/
namespace GenericServer.ConnectionTeardown

open TransitionRuns

/-- `announcing` counts the calls of `handleClose` behind `m_event.close()`, and `closing` the
calls of `shutdown` behind the close callback. `announced` are the invocations of that callback,
`closes` the arguments of `::close` so far. -/
structure TCPConnection where
  mFd : ℤ
  mCloseCallback : Bool
  referenced : Bool
  announcing : ℕ
  announced : ℕ
  closing : ℕ
  closes : List ℤ
  deriving DecidableEq, Repr

def start (fd : ℤ) (callback : Bool) : TCPConnection where
  mFd := fd
  mCloseCallback := callback
  referenced := true
  announcing := 0
  announced := 0
  closing := 0
  closes := []

namespace TCPConnection

def sysClose (s : TCPConnection) : TCPConnection := { s with closes := s.closes ++ [s.mFd] }

/-- `Event::close`. -/
def eventClose (s : TCPConnection) : TCPConnection := { s.sysClose with mFd := -1 }

/-- `shutdown` up to and including the close callback. -/
def shutdown (s : TCPConnection) : TCPConnection :=
  { s with
    announced := if s.mCloseCallback then s.announced + 1 else s.announced
    closing := s.closing + 1 }

/-- No call of `handleClose` or `shutdown` is under way. -/
def Returned (s : TCPConnection) : Prop := s.announcing = 0 ∧ s.closing = 0

instance (s : TCPConnection) : Decidable s.Returned := inferInstanceAs (Decidable (_ ∧ _))

end TCPConnection

/-- `announce` and `close` are the second halves of `handleClose` and `shutdown`; `expire`
destroys the idle entry, and `release` drops the last reference to the connection. -/
inductive Label
  | handleClose
  | announce
  | shutdown
  | close
  | expire
  | release
  deriving DecidableEq, Repr

def step (s : TCPConnection) : Label → Option TCPConnection
  | .handleClose =>
    if s.referenced then some { s.eventClose with announcing := s.announcing + 1 } else none
  | .announce =>
    -- `assert(m_closeCallback != nullptr)`
    if 0 < s.announcing ∧ s.mCloseCallback then
      some { s with announcing := s.announcing - 1, announced := s.announced + 1 }
    else none
  | .shutdown => if s.referenced then some s.shutdown else none
  | .close =>
    if 0 < s.closing then some { s.sysClose with closing := s.closing - 1 } else none
  | .expire => some (if s.referenced then s.shutdown else s)
  | .release => if s.Returned then some { s with referenced := false } else none

/-- One callback, one `::close` of the accepted descriptor, none of -1, and none of a number that
has been given back before. -/
structure ClosedOnce (fd : ℤ) (s : TCPConnection) : Prop where
  announced : s.announced ≤ 1
  closed : s.closes.count fd ≤ 1
  valid : -1 ∉ s.closes
  givenBack : s.closes.Nodup

/-- The teardowns that a label starts. -/
def Label.teardowns (referenced : Bool) : Label → ℕ
  | .handleClose => 1
  | .shutdown => 1
  | .expire => if referenced then 1 else 0
  | .announce => 0
  | .close => 0
  | .release => 0

/-- The teardowns that a schedule starts. -/
def teardowns (referenced : Bool) : List Label → ℕ
  | [] => 0
  | l :: ls => l.teardowns referenced + teardowns (referenced && l ≠ .release) ls

/-! ## Counting -/

/-- After `n` teardowns have been started: each has closed a descriptor or is about to, and the
descriptor is the accepted one until the first of them has closed it. -/
structure Counted (fd : ℤ) (n : ℕ) (s : TCPConnection) : Prop where
  announced : s.announced + s.announcing ≤ n
  closed : s.closes.length + s.closing = n
  number : s.mFd = fd ∨ s.mFd = -1
  numbers : ∀ x ∈ s.closes, x = fd ∨ x = -1
  untouched : s.closes = [] → s.mFd = fd
  first : ∀ x ∈ s.closes.head?, x = fd

theorem counted_start (fd : ℤ) (callback : Bool) : Counted fd 0 (start fd callback) where
  announced := Nat.le_refl 0
  closed := rfl
  number := .inl rfl
  numbers _ hx := absurd hx List.not_mem_nil
  untouched _ := rfl
  first _ hx := by cases hx

variable {fd : ℤ} {n : ℕ} {s s' : TCPConnection} {l : Label}

namespace Counted

theorem sysClose (h : Counted fd n s) : (∀ x ∈ s.sysClose.closes, x = fd ∨ x = -1) ∧
    ∀ x ∈ s.sysClose.closes.head?, x = fd := by
  constructor
  · intro x hx
    rcases List.mem_append.mp hx with hx | hx
    · exact h.numbers x hx
    · cases List.mem_singleton.mp hx
      exact h.number
  · intro x hx
    cases hcloses : s.closes with
    | nil =>
      rw [TCPConnection.sysClose, hcloses, List.nil_append] at hx
      cases hx
      exact h.untouched hcloses
    | cons y ys =>
      rw [TCPConnection.sysClose, hcloses] at hx
      exact h.first x (by rw [hcloses]; exact hx)

theorem handleClose (h : Counted fd n s) :
    Counted fd (n + 1) { s.eventClose with announcing := s.announcing + 1 } where
  announced := Nat.succ_le_succ h.announced
  closed := by
    have hclosed := h.closed
    simp only [TCPConnection.eventClose, TCPConnection.sysClose, List.length_append,
      List.length_singleton]
    omega
  number := .inr rfl
  numbers := h.sysClose.1
  untouched hnil := absurd hnil (by simp [TCPConnection.eventClose, TCPConnection.sysClose])
  first := h.sysClose.2

theorem shutdown (h : Counted fd n s) : Counted fd (n + 1) s.shutdown where
  announced := by
    have hannounced := h.announced
    simp only [TCPConnection.shutdown]
    split_ifs
    · omega
    · omega
  closed := congrArg (· + 1) h.closed
  number := h.number
  numbers := h.numbers
  untouched := h.untouched
  first := h.first

theorem close (h : Counted fd n s) (hclosing : 0 < s.closing) :
    Counted fd n { s.sysClose with closing := s.closing - 1 } where
  announced := h.announced
  closed := by
    have hclosed := h.closed
    simp only [TCPConnection.sysClose, List.length_append, List.length_singleton]
    omega
  number := h.number
  numbers := h.sysClose.1
  untouched hnil := absurd hnil (by simp [TCPConnection.sysClose])
  first := h.sysClose.2

theorem announce (h : Counted fd n s) (hannouncing : 0 < s.announcing) :
    Counted fd n { s with announcing := s.announcing - 1, announced := s.announced + 1 } where
  announced := by
    have hannounced := h.announced
    dsimp only
    omega
  closed := h.closed
  number := h.number
  numbers := h.numbers
  untouched := h.untouched
  first := h.first

theorem step (h : Counted fd n s) (hs : ConnectionTeardown.step s l = some s') :
    Counted fd (n + l.teardowns s.referenced) s' ∧
      s'.referenced = (s.referenced && l ≠ .release) := by
  cases l with
  | handleClose =>
    simp only [ConnectionTeardown.step] at hs
    split_ifs at hs
    cases hs
    exact ⟨h.handleClose, (Bool.and_true _).symm⟩
  | announce =>
    simp only [ConnectionTeardown.step] at hs
    split_ifs at hs with hannouncing
    cases hs
    exact ⟨h.announce hannouncing.1, (Bool.and_true _).symm⟩
  | shutdown =>
    simp only [ConnectionTeardown.step] at hs
    split_ifs at hs
    cases hs
    exact ⟨h.shutdown, (Bool.and_true _).symm⟩
  | close =>
    simp only [ConnectionTeardown.step] at hs
    split_ifs at hs with hclosing
    cases hs
    exact ⟨h.close hclosing, (Bool.and_true _).symm⟩
  | expire =>
    cases hs
    unfold Label.teardowns
    split_ifs
    · exact ⟨h.shutdown, (Bool.and_true _).symm⟩
    · exact ⟨h, (Bool.and_true _).symm⟩
  | release =>
    simp only [ConnectionTeardown.step] at hs
    split_ifs at hs
    cases hs
    exact ⟨⟨h.announced, h.closed, h.number, h.numbers, h.untouched, h.first⟩,
      (Bool.and_false _).symm⟩

theorem run {ls : List Label} (h : Counted fd n s)
    (hr : TransitionRuns.run ConnectionTeardown.step s ls = some s') :
    Counted fd (n + teardowns s.referenced ls) s' := by
  induction ls generalizing n s with
  | nil =>
    cases hr
    exact h
  | cons l ls ih =>
    obtain ⟨t, ht, hr⟩ := run_cons_eq_some.mp hr
    obtain ⟨hcounted, hreferenced⟩ := h.step ht
    have hrest := ih hcounted hr
    rw [hreferenced, Nat.add_assoc] at hrest
    exact hrest

theorem closedOnce (h : Counted fd n s) (hfd : 0 ≤ fd) (hn : n ≤ 1) : ClosedOnce fd s := by
  have hlength : s.closes.length ≤ 1 := by
    have hclosed := h.closed
    omega
  have hfirst := h.first
  refine ⟨by have := h.announced; omega, ?_, ?_, ?_⟩
  · exact Nat.le_trans List.count_le_length hlength
  · match hcloses : s.closes, hlength with
    | [], _ => exact List.not_mem_nil
    | [x], _ =>
      have hx : x = fd := hfirst x (by rw [hcloses]; rfl)
      rw [List.mem_singleton]
      omega
  · match s.closes, hlength with
    | [], _ => exact List.nodup_nil
    | [x], _ => exact List.nodup_singleton x

/-- Two calls that have returned have closed the same number twice, or -1. -/
theorem le_one (h : Counted fd n s) (hs : s.Returned) (hc : ClosedOnce fd s) : n ≤ 1 := by
  have hall : s.closes = List.replicate s.closes.length fd := by
    refine List.eq_replicate_of_mem fun x hx => ?_
    rcases h.numbers x hx with heq | heq
    · exact heq
    · exact absurd (heq ▸ hx) hc.valid
  have hcount : s.closes.count fd = s.closes.length := by
    rw [hall, List.count_replicate_self, List.length_replicate]
  have hclosed := h.closed
  have hreturned := hs.2
  have hone := hc.closed
  omega

end Counted

/-- A connection closes exactly once as long as at most one teardown is started, and when two
have returned it has not. -/
theorem closed_once_iff (fd : ℤ) (callback : Bool) {ls : List Label} (hfd : 0 ≤ fd)
    (hr : run step (start fd callback) ls = some s) :
    (teardowns true ls ≤ 1 → ClosedOnce fd s) ∧
      (s.Returned → ClosedOnce fd s → teardowns true ls ≤ 1) := by
  have hcounted := (counted_start fd callback).run hr
  rw [Nat.zero_add] at hcounted
  exact ⟨hcounted.closedOnce hfd, hcounted.le_one⟩

/-- The peer closes, the connection goes, and the idle entry finds it gone. -/
theorem closed_once_peer : ∃ s,
    run step (start 7 true) [.handleClose, .announce, .release, .expire] = some s ∧
    s.closes = [7] ∧ ClosedOnce 7 s ∧
      teardowns true [.handleClose, .announce, .release, .expire] ≤ 1 := by
  obtain ⟨s, hs⟩ : ∃ s,
      run step (start 7 true) [.handleClose, .announce, .release, .expire] = some s := ⟨_, rfl⟩
  have hiff := closed_once_iff 7 true (by decide) hs
  refine ⟨s, hs, ?_, hiff.1 (by decide), hiff.2 ?_ (hiff.1 (by decide))⟩
  · cases hs
    rfl
  · cases hs
    decide

/-- The peer closes, and the idle entry expires while the connection is still referenced. -/
theorem closed_twice : ∃ s,
    run step (start 7 true) [.handleClose, .announce, .expire, .close] = some s ∧
    s.announced = 2 ∧ s.closes = [7, -1] ∧ ¬ ClosedOnce 7 s := by
  refine ⟨_, rfl, rfl, rfl, fun hc => ?_⟩
  exact hc.valid (List.mem_cons_of_mem _ (List.mem_singleton_self _))

end GenericServer.ConnectionTeardown
