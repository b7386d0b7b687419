import GenericServer.LoopTimers

/-!
# The tasks of a connection

`addTask`, `shutdown` and the timer part of `handleClose` of `src/net/TCPConnection.cpp`, over the
timers of the connection's loop. `shutdown` has no effect on the wheel, so a call that a timer
callback makes is a step of its own behind the pass that runs the callback.
-/
namespace GenericServer.ConnectionTasks

open LoopTimers TimingWheel TransitionRuns

/-- `isTask` tells the entries that `addTask` makes. `tasks` are those made so far, `registering`
those of other threads that are between `addTimer` and `push_back`; `closedAt` is the number of
ticks that had been started when a close path was called first. -/
structure TCPConnection where
  mLoop : EventLoop
  mTimerList : List EntryId
  isTask : EntryId → Bool
  tasks : List EntryId
  registering : List EntryId
  closedAt : Option ℕ

def start (interval : ℤ) (entries : EntryId → TimerEntry) (isTask : EntryId → Bool) :
    TCPConnection where
  mLoop := LoopTimers.start interval entries
  mTimerList := []
  isTask := isTask
  tasks := []
  registering := []
  closedAt := none

/-- A callback of the wheel that adds a task calls `addTask` on the loop thread. -/
inductive Label
  | loop (l : LoopTimers.Label)
  | addTask (own : Bool) (ent : EntryId)
  | pushBack (ent : EntryId)
  | shutdown
  | handleClose
  deriving DecidableEq, Repr

namespace TCPConnection

/-- `timer.lock()` succeeds: a slot, a queued functor or a call of `addTask` holds a pointer. -/
def lock (s : TCPConnection) (ent : EntryId) : Bool :=
  ((List.range 100).any fun i => ent ∈ s.mLoop.mTimerWheel.wheel.mSlots i) ||
    (s.mLoop.mPending.contains ent || s.registering.contains ent)

def disable (s : TCPConnection) (ent : EntryId) : TCPConnection :=
  { s with mLoop := s.mLoop.disable ent }

/-- `if (ptr) ptr->disable()`. -/
def disableTimer (s : TCPConnection) (ent : EntryId) : TCPConnection :=
  if s.lock ent then s.disable ent else s

def markClosed (s : TCPConnection) : TCPConnection :=
  { s with closedAt := s.closedAt.or (some s.mLoop.mTimerWheel.ticks) }

/-- The tasks that a step of the loop registers. -/
def newTasks (s : TCPConnection) (l : LoopTimers.Label) : List EntryId :=
  (s.mLoop.adds l).filter s.isTask

/-- Behind `addTimer` on the loop thread. -/
def register (s : TCPConnection) (mLoop : EventLoop) (ents : List EntryId) : TCPConnection :=
  { s with mLoop := mLoop, mTimerList := s.mTimerList ++ ents, tasks := s.tasks ++ ents }

/-- `disable all timers`, with `m_timerList.clear()`. -/
def handleClose (s : TCPConnection) : TCPConnection :=
  { (s.mTimerList.foldl disableTimer s).markClosed with mTimerList := [] }

end TCPConnection

def step (s : TCPConnection) : Label → Option TCPConnection
  | .loop (.addTimer own ent) =>
    if s.isTask ent then none
    else (LoopTimers.step s.mLoop (.addTimer own ent)).map fun mLoop => s.register mLoop []
  | .loop l =>
    if (s.newTasks l).Nodup ∧ ∀ ent ∈ s.newTasks l, ent ∉ s.tasks then
      (LoopTimers.step s.mLoop l).map fun mLoop => s.register mLoop (s.newTasks l)
    else none
  | .addTask true ent =>
    if s.isTask ent ∧ ent ∉ s.tasks then
      (LoopTimers.step s.mLoop (.addTimer true ent)).map fun mLoop => s.register mLoop [ent]
    else none
  | .addTask false ent =>
    if s.isTask ent ∧ ent ∉ s.tasks then
      (LoopTimers.step s.mLoop (.addTimer false ent)).map fun mLoop =>
        { s with
          mLoop := mLoop
          tasks := s.tasks ++ [ent]
          registering := s.registering ++ [ent] }
    else none
  | .pushBack ent =>
    if ent ∈ s.registering then
      some { s with
        mTimerList := s.mTimerList ++ [ent]
        registering := s.registering.erase ent }
    else none
  | .shutdown => some s.markClosed
  | .handleClose => if s.mLoop.mTimerWheel.walk = none then some s.handleClose else none

/-- No callback of a task has been started by a tick behind the one that was running, or had been
the last one, when the connection was closed. -/
def TasksDie (s : TCPConnection) : Prop :=
  ∀ n, s.closedAt = some n → ∀ p ∈ s.mLoop.mTimerWheel.fired, p.2 ∈ s.tasks → p.1 ≤ n

/-- The task is disabled, or it is neither on the wheel nor on its way there. -/
def Harmless (s : TCPConnection) (e : EntryId) : Prop :=
  Disabled s.mLoop.mTimerWheel.wheel e ∨
    Clear s.mLoop.mTimerWheel.wheel e ∧ e ∉ s.mLoop.mPending

/-- `shutdown` finds harmless tasks only, `handleClose` tasks that are in `m_timerList` or
harmless, and a closed connection gets no new ones. -/
def CloseFits (s : TCPConnection) : Label → Prop
  | .loop l => s.closedAt ≠ none → s.newTasks l = []
  | .addTask _ _ => s.closedAt = none
  | .pushBack _ => True
  | .shutdown => ∀ e ∈ s.tasks, Harmless s e
  | .handleClose => ∀ e ∈ s.registering, Harmless s e

variable {s s' : TCPConnection} {l : Label} {e : EntryId} {k : LoopTimers.Label}
  {ents : List EntryId}

/-! ## Steps of the loop -/

/-- A step of the loop that registers `ents` as new tasks. -/
structure Advances (s s' : TCPConnection) (k : LoopTimers.Label) (ents : List EntryId) : Prop where
  step : LoopTimers.step s.mLoop k = some s'.mLoop
  adds : ∀ e ∈ s.tasks, e ∉ s.mLoop.adds k
  own : ∀ e ∈ ents, s.isTask e = true
  isTask : s'.isTask = s.isTask
  tasks : s'.tasks = s.tasks ++ ents
  listed : ∀ e, e ∈ s.mTimerList ∨ e ∈ s.registering ∨ e ∈ ents →
    e ∈ s'.mTimerList ∨ e ∈ s'.registering
  closedAt : s'.closedAt = s.closedAt

theorem advances_register {mLoop : EventLoop} (hk : LoopTimers.step s.mLoop k = some mLoop)
    (hadds : ∀ e ∈ s.tasks, e ∉ s.mLoop.adds k) (hown : ∀ e ∈ ents, s.isTask e = true) :
    Advances s (s.register mLoop ents) k ents where
  step := hk
  adds := hadds
  own := hown
  isTask := rfl
  tasks := rfl
  listed e he := by
    rcases he with he | he | he
    · exact .inl (List.mem_append_left _ he)
    · exact .inr he
    · exact .inl (List.mem_append_right _ he)
  closedAt := rfl

theorem advances_cases (hown : ∀ e ∈ s.tasks, s.isTask e = true) (hs : step s l = some s') :
    (∃ k ents, Advances s s' k ents ∧ (CloseFits s l → s.closedAt ≠ none → ents = [])) ∨
      (∃ ent, l = .pushBack ent) ∨ l = .shutdown ∨ l = .handleClose := by
  cases l with
  | pushBack ent => exact .inr (.inl ⟨ent, rfl⟩)
  | shutdown => exact .inr (.inr (.inl rfl))
  | handleClose => exact .inr (.inr (.inr rfl))
  | loop k =>
    by_cases htimer : ∃ own ent, k = .addTimer own ent
    · obtain ⟨own, ent, rfl⟩ := htimer
      simp only [step] at hs
      split_ifs at hs with htask
      obtain ⟨mLoop, hk, rfl⟩ := Option.map_eq_some_iff.mp hs
      refine .inl ⟨_, [], advances_register hk (fun e he hadds => ?_) nofun, fun _ _ => rfl⟩
      obtain rfl := List.mem_singleton.mp hadds
      exact htask (hown e he)
    · have hstep : step s (.loop k) =
          if (s.newTasks k).Nodup ∧ ∀ ent ∈ s.newTasks k, ent ∉ s.tasks then
            (LoopTimers.step s.mLoop k).map fun mLoop => s.register mLoop (s.newTasks k)
          else none := by
        cases k with
        | addTimer own ent => exact absurd ⟨own, ent, rfl⟩ htimer
        | doPending | disable | tick | visit => rfl
      rw [hstep] at hs
      split_ifs at hs with hnew
      obtain ⟨mLoop, hk, rfl⟩ := Option.map_eq_some_iff.mp hs
      refine .inl ⟨k, s.newTasks k, advances_register hk (fun e he hadds => ?_) (fun e he => ?_),
        fun hfit => hfit⟩
      · exact hnew.2 e (List.mem_filter.mpr ⟨hadds, hown e he⟩) he
      · exact (List.mem_filter.mp he).2
  | addTask own ent =>
    cases own with
    | true =>
      simp only [step] at hs
      split_ifs at hs with hnew
      obtain ⟨mLoop, hk, rfl⟩ := Option.map_eq_some_iff.mp hs
      refine .inl ⟨_, [ent], advances_register hk (fun e he hadds => ?_) (fun e he => ?_),
        fun hfit hclosed => absurd hfit hclosed⟩
      · obtain rfl := List.mem_singleton.mp hadds
        exact hnew.2 he
      · obtain rfl := List.mem_singleton.mp he
        exact hnew.1
    | false =>
      simp only [step] at hs
      split_ifs at hs with hnew
      obtain ⟨mLoop, hk, rfl⟩ := Option.map_eq_some_iff.mp hs
      refine .inl ⟨_, [ent], ⟨hk, fun e he hadds => ?_, fun e he => ?_, rfl, rfl, ?_, rfl⟩,
        fun hfit hclosed => absurd hfit hclosed⟩
      · obtain rfl := List.mem_singleton.mp hadds
        exact hnew.2 he
      · obtain rfl := List.mem_singleton.mp he
        exact hnew.1
      · rintro e (he | he | he)
        · exact .inl he
        · exact .inr (List.mem_append_left _ he)
        · exact .inr (List.mem_append_right _ he)

theorem harmless_step {m : EventLoop} (h : Harmless s e) (hw : WellFormed s.mLoop.mTimerWheel)
    (hadds : e ∉ s.mLoop.adds k) (hk : LoopTimers.step s.mLoop k = some m) :
    (Disabled m.mTimerWheel.wheel e ∨ Clear m.mTimerWheel.wheel e ∧ e ∉ m.mPending) ∧
      runsOf e m.mTimerWheel = runsOf e s.mLoop.mTimerWheel := by
  rcases h with hdis | ⟨hclear, hpending⟩
  · exact (disabled_step hdis hk).imp_left .inl
  · obtain ⟨hclear', hruns⟩ := clear_step hclear hw (not_inserts hpending hadds) hk
    exact ⟨.inr ⟨hclear', not_pending hpending hadds hk⟩, hruns⟩

/-! ## Closing -/

/-- The timers are disabled, and nothing else is done. -/
structure Quiets (s s' : TCPConnection) : Prop where
  walk : s'.mLoop.mTimerWheel.walk = s.mLoop.mTimerWheel.walk
  ticks : s'.mLoop.mTimerWheel.ticks = s.mLoop.mTimerWheel.ticks
  fired : s'.mLoop.mTimerWheel.fired = s.mLoop.mTimerWheel.fired
  cur : s'.mLoop.mTimerWheel.wheel.mCur = s.mLoop.mTimerWheel.wheel.mCur
  interval : s'.mLoop.mTimerWheel.wheel.mInterval = s.mLoop.mTimerWheel.wheel.mInterval
  slots : s'.mLoop.mTimerWheel.wheel.mSlots = s.mLoop.mTimerWheel.wheel.mSlots
  pending : s'.mLoop.mPending = s.mLoop.mPending
  isTask : s'.isTask = s.isTask
  tasks : s'.tasks = s.tasks
  registering : s'.registering = s.registering
  closedAt : s'.closedAt = s.closedAt
  disabled : ∀ e, Disabled s.mLoop.mTimerWheel.wheel e → Disabled s'.mLoop.mTimerWheel.wheel e

theorem quiets_refl (s : TCPConnection) : Quiets s s :=
  ⟨rfl, rfl, rfl, rfl, rfl, rfl, rfl, rfl, rfl, rfl, rfl, fun _ => id⟩

theorem Quiets.trans {s'' : TCPConnection} (h : Quiets s s') (h' : Quiets s' s'') :
    Quiets s s'' where
  walk := h'.walk.trans h.walk
  ticks := h'.ticks.trans h.ticks
  fired := h'.fired.trans h.fired
  cur := h'.cur.trans h.cur
  interval := h'.interval.trans h.interval
  slots := h'.slots.trans h.slots
  pending := h'.pending.trans h.pending
  isTask := h'.isTask.trans h.isTask
  tasks := h'.tasks.trans h.tasks
  registering := h'.registering.trans h.registering
  closedAt := h'.closedAt.trans h.closedAt
  disabled e he := h'.disabled e (h.disabled e he)

theorem quiets_disableTimer (s : TCPConnection) (ent : EntryId) : Quiets s (s.disableTimer ent) := by
  unfold TCPConnection.disableTimer
  split_ifs
  · exact ⟨rfl, rfl, rfl, rfl, rfl, rfl, rfl, rfl, rfl, rfl, rfl, fun _ he => he.disable ent⟩
  · exact quiets_refl s

theorem Quiets.harmless (h : Quiets s s') (hh : Harmless s e) : Harmless s' e := by
  refine hh.imp (h.disabled e) fun hclear => ?_
  unfold Clear
  rw [h.slots, h.pending]
  exact hclear

theorem Quiets.lock (h : Quiets s s') (ent : EntryId) : s'.lock ent = s.lock ent := by
  unfold TCPConnection.lock
  rw [h.slots, h.pending, h.registering]

theorem disabled_disableTimer (hlock : s.lock e = true) :
    Disabled (s.disableTimer e).mLoop.mTimerWheel.wheel e := by
  rw [TCPConnection.disableTimer, if_pos hlock]
  exact disabled_disable _ e

theorem quiets_foldl (xs : List EntryId) : Quiets s (xs.foldl TCPConnection.disableTimer s) ∧
    ∀ e ∈ xs, s.lock e = true →
      Disabled (xs.foldl TCPConnection.disableTimer s).mLoop.mTimerWheel.wheel e := by
  induction xs generalizing s with
  | nil => exact ⟨quiets_refl s, nofun⟩
  | cons x xs ih =>
    have hone := quiets_disableTimer s x
    obtain ⟨hrest, hdis⟩ := ih (s := s.disableTimer x)
    refine ⟨hone.trans hrest, fun e he hlock => ?_⟩
    rcases List.mem_cons.mp he with rfl | he
    · exact hrest.disabled e (disabled_disableTimer hlock)
    · exact hdis e he ((hone.lock e).trans hlock)

theorem clear_of_not_lock (hlock : s.lock e = false) :
    Clear s.mLoop.mTimerWheel.wheel e ∧ e ∉ s.mLoop.mPending := by
  unfold TCPConnection.lock at hlock
  rw [Bool.or_eq_false_iff, Bool.or_eq_false_iff, List.any_eq_false] at hlock
  obtain ⟨hslots, hpending, -⟩ := hlock
  constructor
  · intro i h0 h1 hmem
    rw [roundSize_eq] at h1
    have hnat : ((i.toNat : ℕ) : ℤ) = i := Int.toNat_of_nonneg h0
    refine hslots i.toNat (List.mem_range.mpr (by omega)) ?_
    rw [hnat, decide_eq_true_iff]
    exact hmem
  · intro hmem
    rw [List.contains_iff_mem.mpr hmem] at hpending
    cases hpending

/-! ## Runs -/

/-- Every task is in `m_timerList`, on its way there or harmless, and behind a close all are
harmless. -/
structure Calm (s : TCPConnection) : Prop where
  wellFormed : WellFormed s.mLoop.mTimerWheel
  fired : ∀ p ∈ s.mLoop.mTimerWheel.fired, p.1 ≤ s.mLoop.mTimerWheel.ticks
  own : ∀ e ∈ s.tasks, s.isTask e = true
  listed : ∀ e ∈ s.tasks, (e ∈ s.mTimerList ∨ e ∈ s.registering) ∨ Harmless s e
  closed : s.closedAt ≠ none → ∀ e ∈ s.tasks, Harmless s e
  die : TasksDie s

theorem Calm.advance (h : Calm s) (ha : Advances s s' k ents)
    (hclosed : s.closedAt ≠ none → ents = []) : Calm s' := by
  have hharmless : ∀ e ∈ s.tasks, Harmless s e → Harmless s' e ∧
      runsOf e s'.mLoop.mTimerWheel = runsOf e s.mLoop.mTimerWheel :=
    fun e he hh => harmless_step hh h.wellFormed (ha.adds e he) ha.step
  refine ⟨wellFormed_step h.wellFormed ha.step, fired_le_step h.fired ha.step, fun e he => ?_,
    fun e he => ?_, fun hc e he => ?_, fun n hn p hp he => ?_⟩
  · rw [ha.isTask]
    rw [ha.tasks] at he
    exact (List.mem_append.mp he).elim (h.own e) (ha.own e)
  · rw [ha.tasks] at he
    rcases List.mem_append.mp he with he | he
    · rcases h.listed e he with (hlist | hreg) | hh
      · exact .inl (ha.listed e (.inl hlist))
      · exact .inl (ha.listed e (.inr (.inl hreg)))
      · exact .inr (hharmless e he hh).1
    · exact .inl (ha.listed e (.inr (.inr he)))
  · rw [ha.closedAt] at hc
    rw [ha.tasks, hclosed hc, List.append_nil] at he
    exact (hharmless e he (h.closed hc e he)).1
  · -- a harmless task has not been run by this step
    rw [ha.closedAt] at hn
    have hc : s.closedAt ≠ none := by
      rw [hn]
      exact Option.some_ne_none n
    rw [ha.tasks, hclosed hc, List.append_nil] at he
    have hruns := (hharmless p.2 he (h.closed hc p.2 he)).2
    have hmem : p.1 ∈ runsOf p.2 s.mLoop.mTimerWheel := by
      rw [← hruns]
      exact mem_runsOf.mpr hp
    exact h.die n hn p (mem_runsOf.mp hmem) he

theorem Calm.markClosed (h : Calm s) (hh : ∀ e ∈ s.tasks, Harmless s e) : Calm s.markClosed := by
  refine ⟨h.wellFormed, h.fired, h.own, h.listed, fun _ => hh, fun n hn p hp he => ?_⟩
  cases hc : s.closedAt with
  | none =>
    rw [TCPConnection.markClosed, hc] at hn
    cases hn
    exact h.fired p hp
  | some m =>
    rw [TCPConnection.markClosed, hc] at hn
    cases hn
    exact h.die _ hc p hp he

theorem Calm.quiets (h : Calm s) (hq : Quiets s s') (hlist : s'.mTimerList = s.mTimerList) :
    Calm s' := by
  have hw := h.wellFormed
  refine ⟨⟨?_, ?_, ?_, fun pos hpos => ?_⟩, ?_, ?_, fun e he => ?_, fun hc e he => ?_, ?_⟩
  · rw [hq.interval]
    exact hw.interval
  · rw [hq.cur]
    exact hw.cur_nonneg
  · rw [hq.cur]
    exact hw.cur_lt
  · rw [hq.cur, hq.slots]
    exact hw.walk pos (hq.walk ▸ hpos)
  · rw [hq.fired, hq.ticks]
    exact h.fired
  · rw [hq.tasks, hq.isTask]
    exact h.own
  · rw [hq.tasks] at he
    rw [hlist, hq.registering]
    exact (h.listed e he).imp_right hq.harmless
  · rw [hq.tasks] at he
    rw [hq.closedAt] at hc
    exact hq.harmless (h.closed hc e he)
  · unfold TasksDie
    rw [hq.closedAt, hq.fired, hq.tasks]
    exact h.die

theorem mTimerList_foldl (xs : List EntryId) :
    (xs.foldl TCPConnection.disableTimer s).mTimerList = s.mTimerList := by
  induction xs generalizing s with
  | nil => rfl
  | cons x xs ih =>
    rw [List.foldl_cons, ih]
    unfold TCPConnection.disableTimer
    split_ifs
    · rfl
    · rfl

theorem Calm.handleClose (h : Calm s) (hreg : ∀ e ∈ s.registering, Harmless s e) :
    Calm s.handleClose := by
  obtain ⟨hq, hdis⟩ := quiets_foldl (s := s) s.mTimerList
  have hcalm := h.quiets hq (mTimerList_foldl s.mTimerList)
  have hall : ∀ e ∈ s.tasks, Harmless (s.mTimerList.foldl TCPConnection.disableTimer s) e := by
    intro e he
    rcases h.listed e he with (hlist | he) | hh
    · cases hlock : s.lock e with
      | true => exact .inl (hdis e hlist hlock)
      | false => exact hq.harmless (.inr (clear_of_not_lock hlock))
    · exact hq.harmless (hreg e he)
    · exact hq.harmless hh
  have hclosed := hcalm.markClosed (fun e he => hall e (hq.tasks ▸ he))
  refine ⟨hclosed.wellFormed, hclosed.fired, hclosed.own, fun e he => .inr ?_, hclosed.closed,
    hclosed.die⟩
  exact hall e (hq.tasks ▸ he)

theorem Calm.step (h : Calm s) (hfit : CloseFits s l) (hs : ConnectionTasks.step s l = some s') :
    Calm s' := by
  rcases advances_cases h.own hs with ⟨k, ents, ha, hclosed⟩ | ⟨ent, rfl⟩ | rfl | rfl
  · exact h.advance ha (hclosed hfit)
  · simp only [ConnectionTasks.step] at hs
    split_ifs at hs
    cases hs
    refine ⟨h.wellFormed, h.fired, h.own, fun e he => ?_, h.closed, h.die⟩
    refine (h.listed e he).imp_left fun hlist => ?_
    rcases hlist with hlist | hreg
    · exact .inl (List.mem_append_left _ hlist)
    · by_cases hne : e = ent
      · exact .inl (List.mem_append_right _ (List.mem_singleton.mpr hne))
      · exact .inr ((List.mem_erase_of_ne hne).mpr hreg)
  · cases hs
    exact h.markClosed hfit
  · simp only [ConnectionTasks.step] at hs
    split_ifs at hs
    cases hs
    exact h.handleClose hfit

end GenericServer.ConnectionTasks
