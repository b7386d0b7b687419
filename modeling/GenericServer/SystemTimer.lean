import GenericServer.LoopTimers
import Mathlib.Algebra.BigOperators.Group.List.Basic

/-!
# The system timer of a loop

`SysTimer::handleRead` of `src/reactor/SystemTimer.cpp`, with `TimingWheel::tick` as its expire
callback (the constructor of `EventLoop`). A read of the timerfd delivers how many intervals have
passed since the read before.
-/
namespace GenericServer.SystemTimer

open LoopTimers TimingWheel TransitionRuns

structure SysTimer where
  mExpireCallback : Bool
  mLoop : EventLoop

def start (interval : ℤ) (entries : EntryId → TimerEntry) : SysTimer where
  mExpireCallback := true
  mLoop := LoopTimers.start interval entries

/-- The loop between two reads goes on with the walk of a tick, and with its timers. -/
inductive Label
  | handleRead (exp : ℕ)
  | loop (l : LoopTimers.Label)
  deriving DecidableEq, Repr

namespace SysTimer

def setLoop (s : SysTimer) (mLoop : EventLoop) : SysTimer := { s with mLoop := mLoop }

/-- `exp` is read and not used. -/
def handleRead (s : SysTimer) (_exp : ℕ) : Option SysTimer :=
  if s.mExpireCallback then (LoopTimers.step s.mLoop .tick).map s.setLoop else some s

def ticks (s : SysTimer) : ℕ := s.mLoop.mTimerWheel.ticks

def Returned (s : SysTimer) : Prop := s.mLoop.mTimerWheel.walk = none

end SysTimer

/-- A timerfd that is readable has expired at least once. -/
def step (s : SysTimer) : Label → Option SysTimer
  | .handleRead exp => if 1 ≤ exp ∧ s.mLoop.mTimerWheel.walk = none then s.handleRead exp else none
  | .loop .tick => none
  | .loop l => (LoopTimers.step s.mLoop l).map s.setLoop

def Label.expiration : Label → Option ℕ
  | .handleRead exp => some exp
  | .loop _ => none

def expirations (ls : List Label) : List ℕ := ls.filterMap Label.expiration

/-- Behind every read, with what it calls, the wheel has ticked as often as the timer has
expired. -/
def FollowsClock (s : SysTimer) (ls : List Label) : Prop :=
  ∀ ms u, ms <+: ls → run step s ms = some u → u.Returned → u.ticks = (expirations ms).sum

/-! ## One tick for each read -/

variable {s s' : SysTimer} {l : Label} {ls : List Label}

theorem loop_ticks {m m' : EventLoop} {k : LoopTimers.Label} (hk : k ≠ .tick)
    (hs : LoopTimers.step m k = some m') : m'.mTimerWheel.ticks = m.mTimerWheel.ticks := by
  cases k with
  | tick => exact absurd rfl hk
  | addTimer own x =>
    cases own with
    | true =>
      obtain ⟨w, hw, rfl⟩ := Option.map_eq_some_iff.mp hs
      obtain ⟨-, rfl⟩ := step_add hw
      rfl
    | false =>
      cases hs
      rfl
  | doPending =>
    simp only [LoopTimers.step] at hs
    split at hs
    · obtain ⟨w, hw, rfl⟩ := Option.map_eq_some_iff.mp hs
      obtain ⟨-, rfl⟩ := step_add hw
      rfl
    · cases hs
  | disable x =>
    cases hs
    rfl
  | visit script =>
    obtain ⟨w, hw, rfl⟩ := Option.map_eq_some_iff.mp hs
    obtain ⟨pos, -, hvisit⟩ := step_visit_eq_some.mp hw
    exact (visit_fired hvisit).1

/-- Whatever count a read delivers, the wheel ticks once. -/
theorem step_ticks (hcallback : s.mExpireCallback = true) (hs : step s l = some s') :
    s'.mExpireCallback = true ∧ s'.ticks = s.ticks + (expirations [l]).length ∧
      ∀ e ∈ expirations [l], 1 ≤ e := by
  cases l with
  | handleRead exp =>
    simp only [step] at hs
    split_ifs at hs with hok
    rw [SysTimer.handleRead, if_pos hcallback] at hs
    obtain ⟨m, hm, rfl⟩ := Option.map_eq_some_iff.mp hs
    obtain ⟨w, hw, rfl⟩ := Option.map_eq_some_iff.mp hm
    obtain ⟨-, rfl⟩ := step_tick hw
    refine ⟨hcallback, rfl, fun e he => ?_⟩
    obtain rfl := List.mem_singleton.mp he
    exact hok.1
  | loop k =>
    by_cases hk : k = .tick
    · subst hk
      cases hs
    · have hstep : step s (.loop k) = (LoopTimers.step s.mLoop k).map s.setLoop := by
        cases k with
        | tick => exact absurd rfl hk
        | addTimer | doPending | disable | visit => rfl
      rw [hstep] at hs
      obtain ⟨m, hm, rfl⟩ := Option.map_eq_some_iff.mp hs
      exact ⟨hcallback, loop_ticks hk hm, fun _ he => absurd he List.not_mem_nil⟩

theorem expirations_cons (l : Label) (ls : List Label) :
    expirations (l :: ls) = expirations [l] ++ expirations ls :=
  List.filterMap_append (l := [l])

theorem run_ticks (hcallback : s.mExpireCallback = true) (hr : run step s ls = some s') :
    s'.ticks = s.ticks + (expirations ls).length ∧ ∀ e ∈ expirations ls, 1 ≤ e := by
  induction ls generalizing s with
  | nil =>
    cases hr
    exact ⟨rfl, fun _ he => absurd he List.not_mem_nil⟩
  | cons l ls ih =>
    obtain ⟨t, ht, hr⟩ := run_cons_eq_some.mp hr
    obtain ⟨hkeep, hticks, hone⟩ := step_ticks hcallback ht
    obtain ⟨hrest, hones⟩ := ih hkeep hr
    rw [expirations_cons, List.length_append, hrest, hticks, Nat.add_assoc]
    refine ⟨rfl, fun e he => ?_⟩
    exact (List.mem_append.mp he).elim (hone e) (hones e)

theorem length_eq_sum_iff {es : List ℕ} (h : ∀ e ∈ es, 1 ≤ e) :
    es.length = es.sum ↔ ∀ e ∈ es, e = 1 := by
  induction es with
  | nil => simp
  | cons e es ih =>
    obtain ⟨he, hes⟩ := List.forall_mem_cons.mp h
    have hlength := List.length_le_sum_of_one_le es hes
    rw [List.forall_mem_cons, ← ih hes, List.length_cons, List.sum_cons]
    omega

/-- The wheel follows the clock exactly when no read delivers more than one expiration. -/
theorem wheel_follows_clock_iff (interval : ℤ) (entries : EntryId → TimerEntry)
    (hr : run step (start interval entries) ls = some s) (hreturned : s.Returned) :
    FollowsClock (start interval entries) ls ↔ ∀ e ∈ expirations ls, e = 1 := by
  have hticks : ∀ ms u, run step (start interval entries) ms = some u →
      (u.ticks = (expirations ms).sum ↔ ∀ e ∈ expirations ms, e = 1) := by
    intro ms u hu
    obtain ⟨hcount, hone⟩ := run_ticks (s := start interval entries) rfl hu
    rw [hcount, ← length_eq_sum_iff hone]
    exact Iff.of_eq (congrArg (· = _) (Nat.zero_add _))
  constructor
  · intro hfollows
    exact (hticks ls s hr).mp (hfollows ls s (List.prefix_refl ls) hr hreturned)
  · intro hone ms u hms hu _
    exact (hticks ms u hu).mpr fun e he => hone e ((hms.filterMap _).subset he)

/-- A timer of two seconds, and three reads in time. -/
theorem wheel_follows_clock_on_time : ∃ s,
    run step (start 1000 fun _ => ⟨2000, 0, false, false⟩)
      [.loop (.addTimer true 0), .handleRead 1, .loop (.visit []), .handleRead 1,
        .loop (.visit []), .handleRead 1, .loop (.visit []), .loop (.visit [])] = some s ∧
    s.mLoop.mTimerWheel.fired = [(3, 0)] ∧
    FollowsClock (start 1000 fun _ => ⟨2000, 0, false, false⟩)
      [.loop (.addTimer true 0), .handleRead 1, .loop (.visit []), .handleRead 1,
        .loop (.visit []), .handleRead 1, .loop (.visit []), .loop (.visit [])] := by
  obtain ⟨s, hs⟩ : ∃ s, run step (start 1000 fun _ => ⟨2000, 0, false, false⟩)
      [.loop (.addTimer true 0), .handleRead 1, .loop (.visit []), .handleRead 1,
        .loop (.visit []), .handleRead 1, .loop (.visit []), .loop (.visit [])] = some s :=
    ⟨_, rfl⟩
  refine ⟨s, hs, ?_, (wheel_follows_clock_iff 1000 _ hs ?_).mpr (by decide)⟩
  · cases hs
    rfl
  · cases hs
    rfl

/-- The loop is busy for five seconds. The wheel makes up for one of them, and a timer of two
seconds has not run. -/
theorem stall_shifts_timers : ∃ s,
    run step (start 1000 fun _ => ⟨2000, 0, false, false⟩)
      [.loop (.addTimer true 0), .handleRead 1, .loop (.visit []), .handleRead 5,
        .loop (.visit [])] = some s ∧
    s.Returned ∧ s.ticks = 2 ∧ s.mLoop.mTimerWheel.fired = [] ∧
    ¬ FollowsClock (start 1000 fun _ => ⟨2000, 0, false, false⟩)
      [.loop (.addTimer true 0), .handleRead 1, .loop (.visit []), .handleRead 5,
        .loop (.visit [])] := by
  refine ⟨_, rfl, rfl, rfl, rfl, fun h => ?_⟩
  have hsum := h _ _ (List.prefix_refl _) rfl rfl
  exact absurd hsum (by decide)

end GenericServer.SystemTimer
