import GenericServer.TransitionRuns
import Mathlib.Data.Int.Notation
import Mathlib.Logic.Function.Basic
import Mathlib.Tactic.SplitIfs

/-!
# The timing wheel

`src/reactor/Timer.h` and `Timer.cpp`. The entries are shared objects, so they live in a
heap of their own and the slots hold their names. A `tick()` is a walk over one slot:
every pass of its loop is one step, and what a callback does (adding further entries,
disabling entries) is chosen by the run.
-/
namespace GenericServer

abbrev EntryId := ℕ

/-- `class TimerEntry` without the callback, which the run supplies. -/
structure TimerEntry where
  mTimeoutms : ℤ
  mRound : ℤ
  mRepeat : Bool
  mDisabled : Bool
  deriving DecidableEq, Repr

/-- `class TimingWheel` with the heap of the entries; `mSlots` is used on `[0, ROUND_SIZE)`. -/
structure TimingWheel where
  mCur : ℤ
  mInterval : ℤ
  mSlots : ℤ → List EntryId
  entries : EntryId → TimerEntry

namespace TimingWheel

def roundSize : ℤ := 100

def intMax : ℤ := 2147483647

def new (interval : ℤ) (entries : EntryId → TimerEntry) : TimingWheel :=
  ⟨0, interval, fun _ => [], entries⟩

def setEntry (w : TimingWheel) (ent : EntryId) (t : TimerEntry) : TimingWheel :=
  { w with entries := Function.update w.entries ent t }

def setSlot (w : TimingWheel) (i : ℤ) (xs : List EntryId) : TimingWheel :=
  { w with mSlots := Function.update w.mSlots i xs }

def timeoutTicks (w : TimingWheel) (ent : EntryId) : ℤ :=
  (w.entries ent).mTimeoutms.tdiv w.mInterval

/-- The wheel after `addEntry`, for a target position inside the range of `int`. -/
def place (w : TimingWheel) (ent : EntryId) : TimingWheel :=
  let target := w.mCur + w.timeoutTicks ent
  let slot := target.tmod roundSize
  (w.setEntry ent { w.entries ent with mRound := target.tdiv roundSize }).setSlot slot
    (w.mSlots slot ++ [ent])

/-- `TimingWheel::addEntry`. A division by zero, an overflow of the sum and a negative slot
index are undefined behaviour: `none`. The pointer was dereferenced here, so the slots
never hold a null pointer. -/
def addEntry (w : TimingWheel) (ent : EntryId) : Option TimingWheel :=
  let target := w.mCur + w.timeoutTicks ent
  if w.mInterval ≠ 0 ∧ target ≤ intMax ∧ 0 ≤ target.tmod roundSize then some (w.place ent)
  else none

def disable (w : TimingWheel) (ent : EntryId) : TimingWheel :=
  w.setEntry ent { w.entries ent with mDisabled := true }

/-- What a callback can do to the wheel: `EventLoop::addTimer` on the loop thread, and
`disable()` on any entry. -/
inductive Action
  | add (ent : EntryId)
  | disable (ent : EntryId)
  deriving DecidableEq, Repr

def act (w : TimingWheel) : Action → Option TimingWheel
  | .add ent => w.addEntry ent
  | .disable ent => some (w.disable ent)

def countDown (w : TimingWheel) (ent : EntryId) : TimingWheel :=
  w.setEntry ent { w.entries ent with mRound := (w.entries ent).mRound - 1 }

def erase (w : TimingWheel) (pos : ℕ) : TimingWheel :=
  w.setSlot w.mCur ((w.mSlots w.mCur).eraseIdx pos)

/-- A wheel in operation: the iterator of the `tick()` that is running, the number of
`tick()` calls so far, and every call of `expired()` with the number of its tick. -/
structure State where
  wheel : TimingWheel
  walk : Option ℕ
  ticks : ℕ
  fired : List (ℕ × EntryId)

/-- The entry's callback runs and does `script`; a repeating entry is then inserted again. -/
def fire (w : TimingWheel) (ent : EntryId) (script : List Action) : Option TimingWheel := do
  let w ← script.foldlM act w
  if (w.entries ent).mRepeat then w.addEntry ent else some w

/-- One pass of the loop of `tick()` with the iterator at `pos`; at the end of the slot the
loop is left and `m_cur` advances. -/
def visit (s : State) (pos : ℕ) (script : List Action) : Option State :=
  match (s.wheel.mSlots s.wheel.mCur)[pos]? with
  | none => some { s with wheel := { s.wheel with mCur := (s.wheel.mCur + 1).tmod roundSize },
                          walk := none }
  | some ent =>
    if (s.wheel.entries ent).mDisabled then some { s with wheel := s.wheel.erase pos }
    else if (s.wheel.entries ent).mRound > 0 then
      some { s with wheel := s.wheel.countDown ent, walk := some (pos + 1) }
    else (fire s.wheel ent script).map fun w =>
      { s with wheel := w.erase pos, fired := s.fired ++ [(s.ticks, ent)] }

inductive Step
  | add (ent : EntryId)
  | disable (ent : EntryId)
  | tick
  | visit (script : List Action)
  deriving DecidableEq, Repr

/-- Between two ticks entries are added and disabled; `tick` enters the loop of `tick()`. -/
def step (s : State) : Step → Option State
  | .add ent => if s.walk = none then
      (s.wheel.addEntry ent).map fun w => { s with wheel := w } else none
  | .disable ent => if s.walk = none then some { s with wheel := s.wheel.disable ent } else none
  | .tick => if s.walk = none then some { s with walk := some 0, ticks := s.ticks + 1 } else none
  | .visit script => s.walk.bind fun pos => visit s pos script

def start (interval : ℤ) (entries : EntryId → TimerEntry) : State :=
  ⟨new interval entries, none, 0, []⟩

/-- The walk of a `tick()` that returns within `fuel` passes, for callbacks that depend on
the entry only. -/
def tickLoop (callback : EntryId → List Action) : ℕ → State → Option State
  | 0, _ => none
  | fuel + 1, s => match s.walk with
    | none => some s
    | some pos =>
      let ent := ((s.wheel.mSlots s.wheel.mCur)[pos]?).getD 0
      (visit s pos (callback ent)).bind (tickLoop callback fuel)

def tick (callback : EntryId → List Action) (fuel : ℕ) (s : State) : Option State :=
  (step s .tick).bind (tickLoop callback fuel)

end TimingWheel

end GenericServer
