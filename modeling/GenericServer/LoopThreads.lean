import GenericServer.TransitionRuns
import Mathlib.Logic.Function.Basic
import Mathlib.Tactic.SplitIfs

/-!
# Starting the threads of event loops

`EventLoopThreadPool::start` and `EventLoopThread::start` with `loop_thread` (`src/reactor`), and
the operations of `EventLoop` that test `isInLoopThread`. A loop is constructed by the thread
that starts its worker, so `m_threadId` is that thread at first. Every evaluation of
`isInLoopThread` is a step.
-/
namespace GenericServer.LoopThreads

open TransitionRuns

inductive Thread
  | starter
  | worker (i : ℕ)
  deriving DecidableEq, Repr

/-- The operations whose body is executed at once or handed to `addPending`. -/
inductive Operation
  | runInLoop
  | addEvent
  | modifyEvent
  | removeEvent
  | addTimer
  deriving DecidableEq, Repr

/-- A worker: no `std::thread` yet; before `setThreadId`; behind it, on the way to or in
`loop()`. -/
inductive Phase
  | absent
  | created
  | looping
  deriving DecidableEq, Repr

structure EventLoop where
  mThreadId : Thread
  phase : Phase
  pending : List Operation
  deriving DecidableEq, Repr

/-- The starting thread: in the first loop of `start()`, in the second one, behind `start()`. -/
inductive Pc
  | creating (i : ℕ)
  | waiting (i : ℕ)
  | running
  deriving DecidableEq, Repr

/-- A thread inside an operation of loop `i`, behind its test: before the test of `addPending`,
before the test of `wakeup`. -/
inductive Call
  | pushing (i : ℕ) (op : Operation)
  | waking (i : ℕ)
  deriving DecidableEq, Repr

/-- `waits` tells `EventLoopThreadPool::start` from `EventLoopThread::start`, which has no second
loop. `answers` are the calls of `isInLoopThread` that have returned true, and `executed` the
bodies with the thread that has executed them. -/
structure Pool where
  size : ℕ
  waits : Bool
  pc : Pc
  loop : ℕ → EventLoop
  call : Thread → Option Call
  answers : List (ℕ × Thread)
  executed : List (ℕ × Thread × Operation)

def start (size : ℕ) (waits : Bool) : Pool where
  size := size
  waits := waits
  pc := .creating 0
  loop := fun _ => ⟨.starter, .absent, []⟩
  call := fun _ => none
  answers := []
  executed := []

inductive Label
  | create
  | testJoinable
  | setThreadId (i : ℕ)
  | operation (t : Thread) (i : ℕ) (op : Operation)
  | addPending (t : Thread)
  | wakeup (t : Thread)
  | doPending (i : ℕ)
  deriving DecidableEq, Repr

namespace Pool

def isInLoopThread (s : Pool) (i : ℕ) (t : Thread) : Bool := (s.loop i).mThreadId = t

def joinable (s : Pool) (i : ℕ) : Bool := (s.loop i).phase ≠ .absent

def setLoop (s : Pool) (i : ℕ) (l : EventLoop) : Pool :=
  { s with loop := Function.update s.loop i l }

def setCall (s : Pool) (t : Thread) (c : Option Call) : Pool :=
  { s with call := Function.update s.call t c }

/-- One evaluation of `isInLoopThread`. -/
def test (s : Pool) (i : ℕ) (t : Thread) : Pool :=
  { s with answers := if s.isInLoopThread i t then s.answers ++ [(i, t)] else s.answers }

/-- User code runs on the starting thread behind `start()`, and on a worker in `loop()`. -/
def runs (s : Pool) : Thread → Bool
  | .starter => s.pc = .running
  | .worker i => (s.loop i).phase = .looping

end Pool

def step (s : Pool) : Label → Option Pool
  | .create => match s.pc with
    | .creating i =>
      if i < s.size then
        if (s.loop i).phase = .absent then
          some { s.setLoop i { s.loop i with phase := .created } with pc := .creating (i + 1) }
        else none
      else some { s with pc := if s.waits then .waiting 0 else .running }
    | _ => none
  | .testJoinable => match s.pc with
    | .waiting i =>
      if i < s.size then some (if s.joinable i then { s with pc := .waiting (i + 1) } else s)
      else some { s with pc := .running }
    | _ => none
  | .setThreadId i =>
    if (s.loop i).phase = .created then
      some (s.setLoop i { s.loop i with mThreadId := .worker i, phase := .looping })
    else none
  | .operation t i op =>
    if i < s.size ∧ s.runs t ∧ s.call t = none then
      if s.isInLoopThread i t then
        some { s.test i t with executed := s.executed ++ [(i, t, op)] }
      else some ((s.test i t).setCall t (some (.pushing i op)))
    else none
  | .addPending t => match s.call t with
    | some (.pushing i op) =>
      some (((s.test i t).setLoop i
        { s.loop i with pending := (s.loop i).pending ++ [op] }).setCall t (some (.waking i)))
    | _ => none
  | .wakeup t => match s.call t with
    | some (.waking i) => some ((s.test i t).setCall t none)
    | _ => none
  | .doPending i => match (s.loop i).phase, (s.loop i).pending with
    | .looping, op :: rest =>
      some { s.setLoop i { s.loop i with pending := rest } with
        executed := s.executed ++ [(i, .worker i, op)] }
    | _, _ => none

/-- Bodies are executed, and `isInLoopThread` is answered with true, on the thread that runs the
loop only. -/
def Confined (s : Pool) : Prop :=
  (∀ p ∈ s.executed, p.2.1 = .worker p.1) ∧ ∀ p ∈ s.answers, p.2 = .worker p.1

/-- The starting thread uses a loop whose worker has already called `setThreadId`. -/
def CallFits (s : Pool) : Label → Prop
  | .operation .starter i _ => (s.loop i).phase = .looping
  | _ => True

/-! ## Who owns a loop -/

def Call.target : Call → ℕ
  | .pushing i _ => i
  | .waking i => i

/-- `m_threadId` is the worker exactly from `setThreadId` on, and a thread that is posting to a
loop does not run it. -/
structure Owned (s : Pool) : Prop where
  owner : ∀ i, (s.loop i).mThreadId = if (s.loop i).phase = .looping then .worker i else .starter
  posting : ∀ t c, s.call t = some c →
    t ≠ .worker c.target ∧ (t = .starter → (s.loop c.target).phase = .looping)

theorem owned_start (size : ℕ) (waits : Bool) : Owned (start size waits) where
  owner _ := rfl
  posting _ _ h := by cases h

variable {s s' : Pool} {l : Label} {i : ℕ} {t : Thread}

namespace Owned

theorem isInLoopThread_eq (h : Owned s) (i : ℕ) (t : Thread) : s.isInLoopThread i t = true ↔
    t = .worker i ∧ (s.loop i).phase = .looping ∨ t = .starter ∧ (s.loop i).phase ≠ .looping := by
  unfold Pool.isInLoopThread
  rw [decide_eq_true_iff, h.owner]
  split_ifs with hphase
  · simp [hphase, eq_comm]
  · simp [hphase, eq_comm]

theorem test_of_call (h : Owned s) {c : Call} (hc : s.call t = some c) :
    s.test c.target t = s := by
  obtain ⟨hworker, hstarter⟩ := h.posting t c hc
  have hfalse : ¬ s.isInLoopThread c.target t = true := by
    rw [h.isInLoopThread_eq]
    rintro (⟨hself, -⟩ | ⟨hself, hphase⟩)
    · exact hworker hself
    · exact hphase (hstarter hself)
  rw [Pool.test, if_neg hfalse]

theorem setLoop (h : Owned s) (i : ℕ) {x : EventLoop}
    (hx : x.mThreadId = if x.phase = .looping then .worker i else .starter)
    (hkeep : (s.loop i).phase = .looping → x.phase = .looping) : Owned (s.setLoop i x) where
  owner k := by
    unfold Pool.setLoop
    by_cases hk : k = i
    · subst hk
      simpa only [Function.update_self] using hx
    · simpa only [Function.update_of_ne hk] using h.owner k
  posting t c hc := by
    obtain ⟨hworker, hstarter⟩ := h.posting t c hc
    refine ⟨hworker, fun ht => ?_⟩
    have hphase := hstarter ht
    unfold Pool.setLoop
    by_cases hk : c.target = i
    · rw [hk] at hphase ⊢
      simpa only [Function.update_self] using hkeep hphase
    · simpa only [Function.update_of_ne hk] using hphase

theorem setCall (h : Owned s) (t : Thread) {c : Option Call}
    (hc : ∀ d, c = some d → t ≠ .worker d.target ∧
      (t = .starter → (s.loop d.target).phase = .looping)) : Owned (s.setCall t c) where
  owner := h.owner
  posting u d hd := by
    by_cases hu : u = t
    · subst hu
      exact hc d (by simpa only [Pool.setCall, Function.update_self] using hd)
    · exact h.posting u d (by simpa only [Pool.setCall, Function.update_of_ne hu] using hd)

theorem congr (h : Owned s) (hloop : s'.loop = s.loop) (hcall : s'.call = s.call) : Owned s' where
  owner := by
    rw [hloop]
    exact h.owner
  posting := by
    rw [hloop, hcall]
    exact h.posting

theorem posts (h : Owned s) (hruns : s.runs t = true) (hout : ¬ s.isInLoopThread i t = true) :
    t ≠ .worker i ∧ (t = .starter → (s.loop i).phase = .looping) := by
  rw [h.isInLoopThread_eq, not_or, not_and, not_and, not_not] at hout
  refine ⟨?_, hout.2⟩
  rintro rfl
  exact hout.1 rfl (of_decide_eq_true hruns)

theorem addPending (h : Owned s) {op : Operation} (hc : s.call t = some (.pushing i op)) :
    Owned ((s.setLoop i { s.loop i with pending := (s.loop i).pending ++ [op] }).setCall t
      (some (.waking i))) := by
  have hloop := h.setLoop i (x := { s.loop i with pending := (s.loop i).pending ++ [op] })
    (h.owner i) id
  refine hloop.setCall t fun d hd => ?_
  cases hd
  obtain ⟨hworker, hstarter⟩ := h.posting t _ hc
  refine ⟨hworker, fun ht => ?_⟩
  simpa only [Pool.setLoop, Call.target, Function.update_self] using hstarter ht

theorem step (h : Owned s) (hs : LoopThreads.step s l = some s') : Owned s' := by
  cases l with
  | create =>
    simp only [LoopThreads.step] at hs
    split at hs
    · rename_i i hpc
      split_ifs at hs with hi habsent
      · cases hs
        have howner := h.owner i
        rw [habsent] at howner
        have hloop := h.setLoop i (x := { s.loop i with phase := .created }) howner
          fun hphase => by rw [habsent] at hphase; cases hphase
        exact hloop.congr rfl rfl
      · cases hs
        exact h.congr rfl rfl
      · cases hs
        exact h.congr rfl rfl
    · cases hs
  | testJoinable =>
    simp only [LoopThreads.step] at hs
    split at hs
    · split_ifs at hs
      · cases hs
        exact h.congr rfl rfl
      · cases hs
        exact h
      · cases hs
        exact h.congr rfl rfl
    · cases hs
  | setThreadId i =>
    simp only [LoopThreads.step] at hs
    split_ifs at hs
    cases hs
    exact h.setLoop i rfl fun _ => rfl
  | operation t i op =>
    simp only [LoopThreads.step] at hs
    split_ifs at hs with hcall hin
    · cases hs
      exact h.congr rfl rfl
    · cases hs
      have htest : Owned (s.test i t) := h.congr rfl rfl
      refine htest.setCall t fun d hd => ?_
      cases hd
      exact h.posts hcall.2.1 hin
  | addPending t =>
    simp only [LoopThreads.step] at hs
    split at hs
    · rename_i i op hc
      cases hs
      exact (h.addPending hc).congr rfl rfl
    · cases hs
  | wakeup t =>
    simp only [LoopThreads.step] at hs
    split at hs
    · rename_i i hc
      cases hs
      have htest : Owned (s.test i t) := h.congr rfl rfl
      exact htest.setCall t fun d hd => by cases hd
    · cases hs
  | doPending i =>
    simp only [LoopThreads.step] at hs
    split at hs
    · rename_i op rest hphase hpending
      cases hs
      have hloop := h.setLoop i (x := { s.loop i with pending := rest }) (h.owner i) id
      exact hloop.congr rfl rfl
    · cases hs

end Owned

/-! ## Where bodies run -/

theorem confined_start (size : ℕ) (waits : Bool) : Confined (start size waits) :=
  ⟨fun _ hp => absurd hp List.not_mem_nil, fun _ hp => absurd hp List.not_mem_nil⟩

/-- What a step adds to the records: nothing, a body that `doPending` executes, or a body that
the caller executes because it takes itself for the loop thread. -/
theorem record_cases (h : Owned s) (hs : step s l = some s') :
    (s'.executed = s.executed ∧ s'.answers = s.answers) ∨
    (∃ i op, s'.executed = s.executed ++ [(i, .worker i, op)] ∧ s'.answers = s.answers) ∨
    ∃ t i op, l = .operation t i op ∧ s.isInLoopThread i t = true ∧
      s'.executed = s.executed ++ [(i, t, op)] ∧ s'.answers = s.answers ++ [(i, t)] := by
  cases l with
  | create =>
    simp only [step] at hs
    split at hs
    · split_ifs at hs
      all_goals
        cases hs
        exact .inl ⟨rfl, rfl⟩
    · cases hs
  | testJoinable =>
    simp only [step] at hs
    split at hs
    · split_ifs at hs
      all_goals
        cases hs
        exact .inl ⟨rfl, rfl⟩
    · cases hs
  | setThreadId i =>
    simp only [step] at hs
    split_ifs at hs
    cases hs
    exact .inl ⟨rfl, rfl⟩
  | operation t i op =>
    simp only [step] at hs
    split_ifs at hs with hcall hin
    · cases hs
      exact .inr (.inr ⟨t, i, op, rfl, hin, rfl, if_pos hin⟩)
    · cases hs
      exact .inl ⟨rfl, if_neg hin⟩
  | addPending t =>
    simp only [step] at hs
    split at hs
    · rename_i i op hc
      cases hs
      have htest : (s.test i t).answers = s.answers := congrArg Pool.answers (h.test_of_call hc)
      exact .inl ⟨rfl, htest⟩
    · cases hs
  | wakeup t =>
    simp only [step] at hs
    split at hs
    · rename_i i hc
      cases hs
      have htest : (s.test i t).answers = s.answers := congrArg Pool.answers (h.test_of_call hc)
      exact .inl ⟨rfl, htest⟩
    · cases hs
  | doPending i =>
    simp only [step] at hs
    split at hs
    · rename_i op rest hphase hpending
      cases hs
      exact .inr (.inl ⟨i, op, rfl, rfl⟩)
    · cases hs

theorem Confined.of_step (h : Owned s) (hs : step s l = some s') (hc : Confined s') :
    Confined s := by
  have hgrow : s.executed ⊆ s'.executed ∧ s.answers ⊆ s'.answers := by
    rcases record_cases h hs with ⟨he, ha⟩ | ⟨i, op, he, ha⟩ | ⟨t, i, op, -, -, he, ha⟩
    · rw [he, ha]
      exact ⟨List.Subset.refl _, List.Subset.refl _⟩
    · rw [he, ha]
      exact ⟨List.subset_append_left _ _, List.Subset.refl _⟩
    · rw [he, ha]
      exact ⟨List.subset_append_left _ _, List.subset_append_left _ _⟩
  exact ⟨fun p hp => hc.1 p (hgrow.1 hp), fun p hp => hc.2 p (hgrow.2 hp)⟩

theorem Confined.step (hc : Confined s) (h : Owned s) (hfit : CallFits s l)
    (hs : LoopThreads.step s l = some s') : Confined s' := by
  rcases record_cases h hs with ⟨he, ha⟩ | ⟨i, op, he, ha⟩ | ⟨t, i, op, rfl, hin, he, ha⟩
  · unfold Confined
    rw [he, ha]
    exact hc
  · unfold Confined
    rw [he, ha]
    refine ⟨fun p hp => ?_, hc.2⟩
    rcases List.mem_append.mp hp with hp | hp
    · exact hc.1 p hp
    · cases List.mem_singleton.mp hp
      rfl
  · have ht : t = .worker i := by
      rcases (h.isInLoopThread_eq i t).mp hin with ⟨ht, -⟩ | ⟨rfl, hphase⟩
      · exact ht
      · exact absurd hfit hphase
    unfold Confined
    rw [he, ha]
    refine ⟨fun p hp => ?_, fun p hp => ?_⟩
    · rcases List.mem_append.mp hp with hp | hp
      · exact hc.1 p hp
      · cases List.mem_singleton.mp hp
        exact ht
    · rcases List.mem_append.mp hp with hp | hp
      · exact hc.2 p hp
      · cases List.mem_singleton.mp hp
        exact ht

/-- Before `setThreadId` the starting thread is taken for the loop thread. -/
theorem mistaken_step (h : Owned s) (hfit : ¬ CallFits s l) (hs : step s l = some s') :
    ¬ Confined s' := by
  cases l with
  | operation t i op =>
    cases t with
    | starter =>
      have hin : s.isInLoopThread i .starter = true :=
        (h.isInLoopThread_eq i .starter).mpr (.inr ⟨rfl, hfit⟩)
      simp only [step, if_pos hin] at hs
      split_ifs at hs
      cases hs
      intro hc
      have hself := hc.1 (i, .starter, op) (List.mem_append_right _ (List.mem_singleton_self _))
      cases hself
    | worker k => exact absurd trivial hfit
  | create | testJoinable | setThreadId | addPending | wakeup | doPending =>
    exact absurd trivial hfit

/-- One step: a call that does not fit breaks the confinement, and nothing repairs it. -/
theorem confined_step_iff (h : Owned s) (hs : step s l = some s') :
    Confined s' ↔ Confined s ∧ CallFits s l := by
  constructor
  · intro hend
    refine ⟨Confined.of_step h hs hend, ?_⟩
    by_contra hfit
    exact mistaken_step h hfit hs hend
  · rintro ⟨hc, hfit⟩
    exact hc.step h hfit hs

/-- The loops of a pool stay confined to their threads exactly when the starting thread uses a
loop only after its worker has called `setThreadId`. -/
theorem loops_confined_iff (size : ℕ) (waits : Bool) {ls : List Label}
    (hr : run step (start size waits) ls = some s) :
    Confined s ↔ Guarded step CallFits (start size waits) ls :=
  guarded_iff (fun _ _ _ h hs => h.step hs) (fun _ _ _ h hs => confined_step_iff h hs)
    (owned_start size waits) (confined_start size waits) hr

instance (s : Pool) (l : Label) : Decidable (CallFits s l) :=
  match l with
  | .operation .starter i _ => inferInstanceAs (Decidable ((s.loop i).phase = .looping))
  | .operation (.worker _) _ _ => isTrue trivial
  | .create => isTrue trivial
  | .testJoinable => isTrue trivial
  | .setThreadId _ => isTrue trivial
  | .addPending _ => isTrue trivial
  | .wakeup _ => isTrue trivial
  | .doPending _ => isTrue trivial

/-- Both workers have called `setThreadId` before the starting thread adds a timer. -/
theorem loops_confined_two : ∃ s, run step (start 2 true)
    [.create, .setThreadId 0, .create, .create, .testJoinable, .testJoinable, .setThreadId 1,
      .testJoinable, .operation .starter 1 .addTimer, .operation (.worker 0) 0 .addEvent,
      .addPending .starter, .wakeup .starter, .doPending 1] = some s ∧
    s.executed = [(0, .worker 0, .addEvent), (1, .worker 1, .addTimer)] ∧ Confined s := by
  obtain ⟨s, hs⟩ : ∃ s, run step (start 2 true)
      [.create, .setThreadId 0, .create, .create, .testJoinable, .testJoinable, .setThreadId 1,
        .testJoinable, .operation .starter 1 .addTimer, .operation (.worker 0) 0 .addEvent,
        .addPending .starter, .wakeup .starter, .doPending 1] = some s := ⟨_, rfl⟩
  refine ⟨s, hs, ?_, (loops_confined_iff 2 true hs).mpr (by decide)⟩
  cases hs
  rfl

/-- `start()` returns before the worker runs, and the starting thread inserts the timer itself. -/
theorem starter_mistaken : ∃ s, run step (start 1 true)
    [.create, .create, .testJoinable, .testJoinable, .operation .starter 0 .addTimer] = some s ∧
    s.pc = .running ∧ s.executed = [(0, .starter, .addTimer)] ∧ ¬ Confined s := by
  refine ⟨_, rfl, rfl, rfl, fun hc => ?_⟩
  have hself := hc.1 (0, .starter, .addTimer) (List.mem_singleton_self _)
  cases hself

end GenericServer.LoopThreads
