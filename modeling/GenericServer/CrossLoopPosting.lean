import GenericServer.PendingFunctorsWakeup
import GenericServer.WaitGraphs

/-!
# Event loops that post to each other

Every thread has an event loop of its own (`PendingFunctors`), and what runs on it, handlers and
functors of `doPending` included, may call `runInLoop`, `addPending`, `addEvent`, `modifyEvent`,
`removeEvent` or `addTimer` of any other loop. A thread without a loop is one that never calls
`loop()`. While a thread is inside such a call, the code it was called from does not go on.
-/
namespace GenericServer.CrossLoopPosting

open TransitionRuns WaitGraphs PendingFunctors

/-- `loop t` is the loop of thread `t`, and `calling t` the loop that the thread is just posting
to. -/
structure System where
  loop : ℤ → EventLoop
  calling : ℤ → Option ℤ

def start : System := ⟨fun t => PendingFunctors.start t, fun _ => none⟩

/-- The thread that takes a step of the loop `j`. -/
def actor (j : ℤ) : Label → ℤ
  | .runInLoop t => t
  | .addPending t _ => t
  | .lock t => t
  | .push t _ => t
  | .wake t => t
  | _ => j

/-- A call is made by code that runs on the thread; once inside, the thread goes on with the
call, and behind it with its own loop. `quit` is called by any thread. -/
def canAct (s : System) (j : ℤ) : Label → Bool
  | .runInLoop t => s.calling t = none ∧ 0 < (s.loop t).nesting
  | .addPending t _ => s.calling t = none ∧ 0 < (s.loop t).nesting
  | .lock t => s.calling t = some j
  | .push t _ => s.calling t = some j
  | .wake t => s.calling t = some j
  | .quit => true
  | _ => s.calling j = none

/-- The call of thread `t` that a step of another loop has begun, carried on or ended. -/
def callAfter (j t : ℤ) (u : EventLoop) : Option ℤ := if u.poster t = .idle then none else some j

def step (s : System) (l : ℤ × Label) : Option System :=
  let (j, l) := l
  if canAct s j l then
    (PendingFunctors.step (s.loop j) l).map fun u =>
      { loop := Function.update s.loop j u
        calling := if actor j l = j then s.calling
          else Function.update s.calling (actor j l) (callAfter j (actor j l) u) }
  else none

/-- Thread `t` is at the lock of `m_pendingMutex` of the loop `j`, in `addPending` or, on its own
loop, in `doPending`. -/
def Wants (s : System) (t j : ℤ) : Prop :=
  (∃ f wake, (s.loop j).poster t = .locking f wake) ∨ (t = j ∧ (s.loop j).pc = .locking)

/-- Thread `t` waits for a mutex that thread `u` holds. -/
def WaitsFor (s : System) (t u : ℤ) : Prop := ∃ j, Wants s t j ∧ (s.loop j).owner = some u

/-- Thread `t` posts to the loop `j` at a moment where no chain of waiting threads leads from the
holder of that loop's mutex to `t`. -/
def PostFits (s : System) : ℤ × Label → Prop
  | (j, .runInLoop t) =>
    t ≠ j → ∀ u, (s.loop j).owner = some u → ¬ Relation.ReflTransGen (WaitsFor s) u t
  | (j, .addPending t _) =>
    t ≠ j → ∀ u, (s.loop j).owner = some u → ¬ Relation.ReflTransGen (WaitsFor s) u t
  | _ => True

end GenericServer.CrossLoopPosting
