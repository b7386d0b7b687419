import GenericServer.FifoQueues
import GenericServer.ThreadPlaces
import GenericServer.TransitionRuns
import Mathlib.Tactic.SplitIfs

/-!
# The blocking queue

`BlockingQueue` of `src/BlockingQueue.h` and `BlockingQueue.cpp`, with any number of threads that
call its functions. Every statement under the mutex is a step of its own.
-/
namespace GenericServer.BlockingQueue

open TransitionRuns ThreadPlaces FifoQueues Function

/-- `put` is the overload for `const T &`, `putMove` that for `T &&`. -/
inductive Operation (α : Type*)
  | put (e : α)
  | putMove (e : α)
  | take
  | size
  deriving DecidableEq, Repr

/-- The places of a thread. A thread that is `woken`, by a notification or spuriously, has not
locked the mutex again. Before it unlocks, `take` has the element that it returns. -/
inductive Pc (α : Type*)
  | outside
  | locking (op : Operation α)
  | pushing (e : α)
  | notifying
  | checking
  | asleep
  | woken (notified : Bool)
  | popping
  | reading
  | unlocking (result : Option α)
  deriving DecidableEq, Repr

/-- `mCond` are the threads that wait on the condition variable. The behaviour is `undefined`
after `front` of an empty queue. -/
structure State (τ α : Type*) where
  mMutex : Option τ
  mCond : List τ
  mQueue : List α
  pc : τ → Pc α
  undefined : Bool

/-- `advance` is the next statement of a thread, except for `notify_one`, which wakes the thread
`woken` where there is one to wake. -/
inductive Label (τ α : Type*)
  | call (t : τ) (op : Operation α)
  | advance (t : τ)
  | notify (t : τ) (woken : Option τ)
  | spurious (t : τ)
  deriving DecidableEq, Repr

def Operation.entered {α : Type*} : Operation α → Pc α
  | .put e => .pushing e
  | .putMove e => .pushing e
  | .take => .checking
  | .size => .reading

def Pc.Inside {α : Type*} : Pc α → Prop
  | .pushing _ => True
  | .notifying => True
  | .checking => True
  | .popping => True
  | .reading => True
  | .unlocking _ => True
  | .outside => False
  | .locking _ => False
  | .asleep => False
  | .woken _ => False

variable {τ α : Type*} [DecidableEq τ]

def start : State τ α where
  mMutex := none
  mCond := []
  mQueue := []
  pc := fun _ => .outside
  undefined := false

def State.goto (s : State τ α) (t : τ) (p : Pc α) : State τ α := { s with pc := update s.pc t p }

def State.push (s : State τ α) (e : α) : State τ α := { s with mQueue := s.mQueue ++ [e] }

def State.lock (s : State τ α) (t : τ) : State τ α := { s with mMutex := some t }

def State.unlock (s : State τ α) : State τ α := { s with mMutex := none }

/-- `m_cond.wait(lock)` up to the wake-up. -/
def State.wait (s : State τ α) (t : τ) : State τ α :=
  { s.unlock with mCond := t :: s.mCond }.goto t .asleep

def State.wake (s : State τ α) (t : τ) (notified : Bool) : State τ α :=
  { s with mCond := s.mCond.filter (· ≠ t) }.goto t (.woken notified)

def advance (s : State τ α) (t : τ) : Option (State τ α) :=
  match s.pc t with
  | .locking op =>
    if s.mMutex = none then some ((s.lock t).goto t op.entered) else none
  | .pushing e => some ((s.push e).goto t .notifying)
  | .checking =>
    if s.mQueue.isEmpty then some (s.wait t) else some (s.goto t .popping)
  | .woken _ =>
    if s.mMutex = none then some ((s.lock t).goto t .checking) else none
  | .popping =>
    match s.mQueue with
    -- `front` is moved out, then `pop_front`
    | e :: q => some ({ s with mQueue := q }.goto t (.unlocking (some e)))
    | [] => some { s with undefined := true }
  | .reading => some (s.goto t (.unlocking none))
  | .unlocking _ => some (s.unlock.goto t .outside)
  | .outside => none
  | .notifying => none
  | .asleep => none

def notify (s : State τ α) (t : τ) (woken : Option τ) : Option (State τ α) :=
  match s.pc t, woken with
  | .notifying, some u =>
    if u ∈ s.mCond then some ((s.wake u true).goto t (.unlocking none)) else none
  | .notifying, none => if s.mCond.isEmpty then some (s.goto t (.unlocking none)) else none
  | _, _ => none

def step (s : State τ α) : Label τ α → Option (State τ α)
  | .call t op =>
    match s.pc t with
    | .outside => some (s.goto t (.locking op))
    | _ => none
  | .advance t => advance s t
  | .notify t woken => notify s t woken
  | .spurious t => if t ∈ s.mCond then some (s.wake t false) else none

def Operation.element {α : Type*} : Operation α → Option α
  | .put e => some e
  | .putMove e => some e
  | .take => none
  | .size => none

/-- The call that locks the mutex in a step, and the calls that are still to lock it behind it: the
first step of a thread behind its call locks the mutex. -/
def Label.locked (called : τ → Option (Operation α)) : Label τ α → Option (Operation α)
  | .advance t => called t
  | _ => none

def Label.called (called : τ → Option (Operation α)) : Label τ α → τ → Option (Operation α)
  | .call t op => update called t (some op)
  | .advance t => update called t none
  | _ => called

def sections (called : τ → Option (Operation α)) : List (Label τ α) → List (Operation α)
  | [] => []
  | l :: ls => (l.locked called).toList ++ sections (l.called called) ls

/-- The arguments of the `put` calls of a schedule, in the order of their critical sections. -/
def puts (ls : List (Label τ α)) : List α :=
  (sections (fun _ => none) ls).filterMap Operation.element

/-- What a thread returns from `take` in a step, when it unlocks the mutex. -/
def returns (s : State τ α) : Label τ α → Option α
  | .advance t => match s.pc t with
    | .unlocking result => result
    | _ => none
  | _ => none

/-- What the `take` calls of a schedule return, in the order of their critical sections. -/
def taken (s : State τ α) : List (Label τ α) → List α
  | [] => []
  | l :: ls => (returns s l).toList ++ (step s l).elim [] fun s' => taken s' ls

/-- The element that the owner of the mutex has taken out, or is about to put. -/
def Pc.inHand {α : Type*} : Pc α → List α
  | .unlocking result => result.toList
  | _ => []

def Pc.entering {α : Type*} : Pc α → List α
  | .pushing e => [e]
  | _ => []

/-- The elements that have been put and not been returned. -/
def State.held (s : State τ α) : List α :=
  (s.mMutex.elim [] fun t => (s.pc t).inHand) ++ s.mQueue ++
    s.mMutex.elim [] fun t => (s.pc t).entering

/-- The mutex is free, and some taker is asleep without having been notified. -/
def State.Sleeping (s : State τ α) : Prop := s.mMutex = none ∧ ∃ t, s.pc t = .asleep

/-! ## The invariant -/

/-- An element of the queue that needs no notified thread: the one that the owner of the mutex
has just put or is about to take. -/
def Pc.slack : Pc α → ℕ
  | .notifying => 1
  | .checking => 1
  | .popping => 1
  | _ => 0

def State.slack (s : State τ α) : ℕ := s.mMutex.elim 0 fun t => (s.pc t).slack

structure Inv (s : State τ α) : Prop where
  defined : s.undefined = false
  mutex : Owns Pc.Inside s.mMutex s.pc
  asleep : ∀ t, t ∈ s.mCond ↔ s.pc t = .asleep
  popping : ∀ t, s.pc t = .popping → s.mQueue ≠ []
  notified : s.mCond ≠ [] → AtLeast (s.mQueue.length - s.slack) (· = .woken true) s.pc

variable {s s' : State τ α} {t : τ} {p : Pc α}

omit [DecidableEq τ] in
theorem inv_start : Inv (start : State τ α) where
  defined := rfl
  mutex _ := iff_of_false (fun h => by cases h) id
  asleep _ := iff_of_false List.not_mem_nil (fun h => by cases h)
  popping _ h := by cases h
  notified h := absurd rfl h

omit [DecidableEq τ] in
theorem slack_of_owner (h : s.mMutex = some t) : s.slack = (s.pc t).slack := by
  rw [State.slack, h, Option.elim_some]

omit [DecidableEq τ] in
theorem Inv.owner (h : Inv s) (ht : s.pc t = p) (hp : p.Inside) : s.mMutex = some t :=
  (h.mutex t).mpr (ht ▸ hp)

omit [DecidableEq τ] in
theorem Inv.slack_of_inside (h : Inv s) (ht : s.pc t = p) (hp : p.Inside) : s.slack = p.slack := by
  rw [slack_of_owner (h.owner ht hp), ht]

omit [DecidableEq τ] in
theorem slack_of_free (hfree : s.mMutex = none) : s.slack = 0 := by
  rw [State.slack, hfree]
  rfl

omit [DecidableEq τ] in
theorem Inv.not_popping (h : Inv s) (ht : s.pc t = p) (hp : p.Inside) {u : τ} (hu : u ≠ t) :
    s.pc u ≠ .popping := by
  intro hpop
  refine hu (h.mutex.eq (ht ▸ hp) ?_)
  rw [hpop]
  trivial

@[simp] theorem goto_pc (s : State τ α) (t : τ) (p : Pc α) : (s.goto t p).pc = update s.pc t p := rfl

@[simp] theorem wake_pc (s : State τ α) (t : τ) (notified : Bool) :
    (s.wake t notified).pc = update s.pc t (.woken notified) := rfl

theorem slack_goto (h : s.mMutex = some t) : (s.goto t p).slack = p.slack := by
  rw [slack_of_owner (s := s.goto t p) h, goto_pc, update_self]

theorem Inv.asleep_goto (h : Inv s) (hold : s.pc t ≠ .asleep) (hnew : p ≠ .asleep) (u : τ) :
    u ∈ s.mCond ↔ update s.pc t p u = .asleep := by
  rw [h.asleep u]
  by_cases hu : u = t
  · subst hu
    rw [update_self]
    exact iff_of_false hold hnew
  · rw [update_of_ne hu]

theorem Inv.popping_goto (h : Inv s) (hnew : p = .popping → s.mQueue ≠ []) (u : τ)
    (hu : update s.pc t p u = .popping) : s.mQueue ≠ [] := by
  by_cases heq : u = t
  · subst heq
    rw [update_self] at hu
    exact hnew hu
  · rw [update_of_ne heq] at hu
    exact h.popping u hu

/-! ## One step -/

theorem Inv.move (h : Inv s) (hin : (s.pc t).Inside ↔ p.Inside) (hold : s.pc t ≠ .asleep)
    (hnew : p ≠ .asleep) (hpop : p = .popping → s.mQueue ≠ [])
    (hcount : s.mCond ≠ [] →
      AtLeast (s.mQueue.length - (s.goto t p).slack) (· = .woken true) (s.goto t p).pc) :
    Inv (s.goto t p) where
  defined := h.defined
  mutex := h.mutex.move hin
  asleep := h.asleep_goto hold hnew
  popping := h.popping_goto hpop
  notified := hcount

theorem slack_le_goto (h : s.mMutex = some t → (s.pc t).slack ≤ p.slack) :
    s.slack ≤ (s.goto t p).slack := by
  cases hmutex : s.mMutex with
  | none => exact (slack_of_free hmutex).trans_le (Nat.zero_le _)
  | some u =>
    rw [slack_of_owner hmutex, slack_of_owner (s := s.goto t p) hmutex, goto_pc]
    by_cases hu : u = t
    · subst hu
      rw [update_self]
      exact h hmutex
    · rw [update_of_ne hu]

theorem Inv.goto (h : Inv s) (hin : (s.pc t).Inside ↔ p.Inside) (hold : s.pc t ≠ .asleep)
    (hwoken : s.pc t ≠ .woken true) (hnew : p ≠ .asleep) (hpop : p = .popping → s.mQueue ≠ [])
    (hslack : (s.pc t).slack ≤ p.slack) : Inv (s.goto t p) :=
  h.move hin hold hnew hpop fun hcond =>
    AtLeast.mono ((h.notified hcond).move hwoken)
      (Nat.sub_le_sub_left (slack_le_goto fun _ => hslack) _)

theorem Inv.lock (h : Inv s) (hfree : s.mMutex = none) (hold : s.pc t ≠ .asleep)
    (hwoken : s.pc t = .woken true → p.slack = 1) (hin : p.Inside) (hnew : p ≠ .asleep)
    (hpop : p ≠ .popping) : Inv ((s.lock t).goto t p) where
  defined := h.defined
  mutex := Owns.lock (hfree ▸ h.mutex) hin
  asleep := h.asleep_goto hold hnew
  popping := h.popping_goto fun heq => absurd heq hpop
  notified hcond := by
    have hcount := h.notified hcond
    rw [slack_of_free hfree, Nat.sub_zero] at hcount
    rw [slack_goto rfl]
    by_cases heq : s.pc t = .woken true
    · rw [hwoken heq]
      exact hcount.leave
    · exact AtLeast.mono (hcount.move heq) (Nat.sub_le _ _)

theorem Inv.unlock (h : Inv s) {result : Option α} (ht : s.pc t = .unlocking result) :
    Inv (s.unlock.goto t .outside) where
  defined := h.defined
  mutex := h.mutex.unlock (by rw [ht]; trivial) id
  asleep := h.asleep_goto (by simp [ht]) (by simp)
  popping := h.popping_goto (by simp)
  notified hcond := by
    have hcount := h.notified hcond
    rw [h.slack_of_inside ht trivial] at hcount
    exact hcount.move (by simp [ht])

theorem Inv.push (h : Inv s) {e : α} (ht : s.pc t = .pushing e) :
    Inv ((s.push e).goto t .notifying) where
  defined := h.defined
  mutex := h.mutex.move (by rw [ht]; exact Iff.rfl)
  asleep := h.asleep_goto (by simp [ht]) (by simp)
  popping _ _ := List.concat_ne_nil e s.mQueue
  notified hcond := by
    have hcount := h.notified hcond
    have hmutex : (s.push e).mMutex = some t := h.owner ht trivial
    rw [h.slack_of_inside ht trivial] at hcount
    rw [slack_goto hmutex, State.goto, State.push, List.length_append, List.length_singleton]
    exact hcount.move (by simp [ht])

theorem Inv.pop (h : Inv s) {e : α} {q : List α} (ht : s.pc t = .popping)
    (hq : s.mQueue = e :: q) : Inv ({ s with mQueue := q }.goto t (.unlocking (some e))) where
  defined := h.defined
  mutex := h.mutex.move (by rw [ht]; exact Iff.rfl)
  asleep := h.asleep_goto (by simp [ht]) (by simp)
  popping u hu := by
    by_cases heq : u = t
    · subst heq
      simp [State.goto] at hu
    · simp only [State.goto, update_of_ne heq] at hu
      exact absurd hu (h.not_popping ht trivial heq)
  notified hcond := by
    have hcount := h.notified hcond
    have hmutex : s.mMutex = some t := h.owner ht trivial
    rw [h.slack_of_inside ht trivial, hq] at hcount
    rw [slack_goto (s := { s with mQueue := q }) hmutex]
    exact hcount.move (by simp [ht])

theorem Inv.wait (h : Inv s) (ht : s.pc t = .checking) (hq : s.mQueue = []) :
    Inv (s.wait t) where
  defined := h.defined
  mutex := h.mutex.unlock (by rw [ht]; trivial) id
  asleep u := by
    rw [State.wait, State.goto, List.mem_cons, State.unlock, h.asleep u]
    by_cases hu : u = t
    · subst hu
      simp
    · simp [hu]
  popping := h.popping_goto (by simp)
  notified _ := by
    rw [State.wait, State.goto, State.unlock, hq, List.length_nil, Nat.zero_sub]
    exact atLeast_zero _ _

theorem slack_wake (h : Inv s) (ht : t ∈ s.mCond) (notified : Bool) :
    (s.wake t notified).slack = s.slack := by
  have hpc := (h.asleep t).mp ht
  cases hmutex : s.mMutex with
  | none => rw [slack_of_free hmutex, slack_of_free (s := s.wake t notified) hmutex]
  | some u =>
    have hu : u ≠ t := by
      rintro rfl
      have hin := (h.mutex u).mp hmutex
      rw [hpc] at hin
      exact hin
    rw [slack_of_owner hmutex, slack_of_owner (s := s.wake t notified) hmutex, wake_pc,
      update_of_ne hu]

theorem count_wake (h : Inv s) (ht : t ∈ s.mCond) (notified : Bool) :
    AtLeast (s.mQueue.length - s.slack + if notified = true then 1 else 0) (· = .woken true)
      (s.wake t notified).pc := by
  have hpc := (h.asleep t).mp ht
  have hcount := h.notified (List.ne_nil_of_mem ht)
  cases notified with
  | false => exact hcount.move (by simp [hpc])
  | true => exact hcount.enter (by simp [hpc]) rfl

theorem Inv.wake (h : Inv s) (ht : t ∈ s.mCond) (notified : Bool) : Inv (s.wake t notified) where
  defined := h.defined
  mutex := h.mutex.move (by rw [(h.asleep t).mp ht]; exact Iff.rfl)
  asleep u := by
    rw [State.wake, State.goto, List.mem_filter, decide_eq_true_iff, h.asleep u]
    by_cases hu : u = t
    · subst hu
      simp
    · simp [hu]
  popping := h.popping_goto (by simp)
  notified _ := by
    rw [slack_wake h ht]
    exact (count_wake h ht notified).mono (Nat.le_add_right _ _)

/-- The thread that is notified stands for the element that has been put. -/
theorem Inv.notify_some (h : Inv s) (ht : s.pc t = .notifying) {u : τ} (hu : u ∈ s.mCond) :
    Inv ((s.wake u true).goto t (.unlocking none)) := by
  have hne : t ≠ u := by
    rintro rfl
    rw [(h.asleep t).mp hu] at ht
    cases ht
  have hpc : (s.wake u true).pc t = .notifying := by
    rw [wake_pc, update_of_ne hne, ht]
  have hmutex : (s.wake u true).mMutex = some t := h.owner ht trivial
  refine (h.wake hu true).move (by rw [hpc]; exact Iff.rfl) (by simp [hpc]) (by simp) (by simp)
    fun _ => ?_
  have hcount := (count_wake h hu true).move (t := t) (p := .unlocking none) (by simp [hpc])
  rw [h.slack_of_inside ht trivial] at hcount
  rw [slack_goto hmutex]
  refine hcount.mono ?_
  simp only [Pc.slack, State.wake, State.goto, if_true]
  omega

theorem Inv.notify_none (h : Inv s) (ht : s.pc t = .notifying) (hcond : s.mCond = []) :
    Inv (s.goto t (.unlocking none)) :=
  h.move (by rw [ht]; exact Iff.rfl) (by simp [ht]) (by simp) (by simp)
    fun hne => absurd hcond hne

theorem advance_inv (h : Inv s) (hs : advance s t = some s') : Inv s' := by
  unfold advance at hs
  split at hs
  case h_1 op ht =>
    split_ifs at hs with hfree
    cases hs
    refine h.lock hfree (by simp [ht]) (by simp [ht]) ?_ ?_ ?_
    · cases op <;> trivial
    · cases op <;> simp [Operation.entered]
    · cases op <;> simp [Operation.entered]
  case h_2 e ht =>
    cases hs
    exact h.push ht
  case h_3 ht =>
    split_ifs at hs with hq
    · cases hs
      exact h.wait ht (List.isEmpty_iff.mp hq)
    · cases hs
      refine h.goto (by rw [ht]; exact Iff.rfl) (by simp [ht]) (by simp [ht]) (by simp)
        (fun _ hnil => hq (List.isEmpty_iff.mpr hnil)) (by rw [ht]; exact Nat.le_refl _)
  case h_4 notified ht =>
    split_ifs at hs with hfree
    cases hs
    exact h.lock hfree (by simp [ht]) (fun _ => rfl) trivial (by simp) (by simp)
  case h_5 ht =>
    split at hs
    case h_1 e q hq =>
      cases hs
      exact h.pop ht hq
    case h_2 hq => exact absurd hq (h.popping t ht)
  case h_6 ht =>
    cases hs
    exact h.goto (by rw [ht]; exact Iff.rfl) (by simp [ht]) (by simp [ht]) (by simp) (by simp)
      (by rw [ht]; exact Nat.le_refl _)
  case h_7 result ht =>
    cases hs
    exact h.unlock ht
  all_goals cases hs

theorem notify_inv (h : Inv s) {woken : Option τ} (hs : notify s t woken = some s') : Inv s' := by
  unfold notify at hs
  split at hs
  case h_1 u ht =>
    split_ifs at hs with hu
    cases hs
    exact h.notify_some ht hu
  case h_2 ht =>
    split_ifs at hs with hcond
    cases hs
    exact h.notify_none ht (List.isEmpty_iff.mp hcond)
  case h_3 => cases hs

theorem step_inv {l : Label τ α} (h : Inv s) (hs : step s l = some s') : Inv s' := by
  cases l with
  | call t op =>
    simp only [step] at hs
    split at hs
    case h_1 ht =>
      cases hs
      exact h.goto (by rw [ht]; exact Iff.rfl) (by simp [ht]) (by simp [ht]) (by simp) (by simp)
        (by rw [ht]; exact Nat.le_refl _)
    case h_2 => cases hs
  | advance t => exact advance_inv h hs
  | notify t woken => exact notify_inv h hs
  | spurious t =>
    simp only [step] at hs
    split_ifs at hs with ht
    cases hs
    exact h.wake ht false

/-! ## What is put and what is taken -/

def Called (called : τ → Option (Operation α)) (s : State τ α) : Prop :=
  ∀ t op, called t = some op ↔ s.pc t = .locking op

variable {called : τ → Option (Operation α)} {l : Label τ α}

theorem Called.move (h : Called called s) {x : Option (Operation α)}
    (hp : ∀ op, x = some op ↔ p = .locking op) (hs : s'.pc = update s.pc t p) :
    Called (update called t x) s' := by
  intro u op
  rw [hs]
  by_cases hu : u = t
  · subst hu
    rw [update_self, update_self]
    exact hp op
  · rw [update_of_ne hu, update_of_ne hu]
    exact h u op

omit [DecidableEq τ] in
theorem Called.eq_none (h : Called called s) (ht : ∀ op, s.pc t ≠ .locking op) :
    called t = none := by
  cases hc : called t with
  | none => rfl
  | some op => exact absurd ((h t op).mp hc) (ht op)

theorem Called.goto (h : Called called s) (ht : ∀ op, s.pc t ≠ .locking op)
    (hp : ∀ op, p ≠ .locking op) (hs : s'.pc = update s.pc t p) : Called called s' := by
  have hnone := h.eq_none ht
  have hmoved := h.move (x := none) (fun op => iff_of_false (fun hx => by cases hx) (hp op)) hs
  rwa [← hnone, update_eq_self] at hmoved

omit [DecidableEq τ] in
theorem held_of_owner (h : s.mMutex = some t) :
    s.held = (s.pc t).inHand ++ s.mQueue ++ (s.pc t).entering := by
  rw [State.held, h, Option.elim_some, Option.elim_some]

omit [DecidableEq τ] in
theorem held_of_free (h : s.mMutex = none) : s.held = s.mQueue := by
  rw [State.held, h, Option.elim_none, Option.elim_none, List.nil_append, List.append_nil]

theorem held_goto_owner (h : s.mMutex = some t) (p : Pc α) :
    (s.goto t p).held = p.inHand ++ s.mQueue ++ p.entering := by
  rw [held_of_owner (s := s.goto t p) h, goto_pc, update_self]
  rfl

theorem held_goto_other (h : s.mMutex ≠ some t) (p : Pc α) : (s.goto t p).held = s.held := by
  cases hmutex : s.mMutex with
  | none => exact (held_of_free (s := s.goto t p) hmutex).trans (held_of_free hmutex).symm
  | some u =>
    have hu : u ≠ t := fun heq => h (heq ▸ hmutex)
    rw [held_of_owner (s := s.goto t p) hmutex, held_of_owner hmutex, goto_pc, update_of_ne hu]
    rfl

theorem Inv.held_goto (h : Inv s) (ht : s.pc t = p) (hp : p.Inside) (p' : Pc α)
    (hhand : p'.inHand = p.inHand) (hentering : p'.entering = p.entering) :
    (s.goto t p').held = s.held := by
  have hmutex := h.owner ht hp
  rw [held_goto_owner hmutex, held_of_owner hmutex, ht, hhand, hentering]

theorem Inv.held_wake (h : Inv s) (ht : t ∈ s.mCond) (notified : Bool) :
    (s.wake t notified).held = s.held := by
  have hother : s.mMutex ≠ some t := fun hmutex => by
    have hin := (h.mutex t).mp hmutex
    rw [(h.asleep t).mp ht] at hin
    exact hin
  exact held_goto_other (s := { s with mCond := s.mCond.filter (· ≠ t) }) hother _

/-- What a thread in a call does to the elements: it may begin to put the one of its call, or
return the one that it has taken. -/
theorem advance_held (h : Inv s) (hc : Called called s) (hs : advance s t = some s') :
    Called (update called t none) s' ∧
      s.held ++ (called t).toList.filterMap Operation.element =
        (returns s (.advance t)).toList ++ s'.held := by
  unfold advance at hs
  split at hs
  case h_1 op ht =>
    split_ifs at hs with hfree
    cases hs
    refine ⟨hc.move (by cases op <;> simp [Operation.entered]) rfl, ?_⟩
    rw [(hc t op).mpr ht, held_of_free hfree, held_goto_owner rfl]
    cases op <;> simp [returns, ht, Operation.entered, Operation.element, Pc.inHand, Pc.entering,
      State.lock]
  case h_2 e ht =>
    cases hs
    have hmutex : (s.push e).mMutex = some t := h.owner ht trivial
    refine ⟨hc.move (by simp) rfl, ?_⟩
    rw [hc.eq_none (by simp [ht]), held_of_owner (s := s) hmutex, held_goto_owner hmutex]
    simp [returns, ht, Pc.inHand, Pc.entering, State.push]
  case h_3 ht =>
    split_ifs at hs with hq
    · cases hs
      refine ⟨hc.move (by simp) rfl, ?_⟩
      rw [hc.eq_none (by simp [ht]), held_of_owner (h.owner ht trivial),
        held_of_free (s := s.wait t) rfl]
      simp [returns, ht, Pc.inHand, Pc.entering, State.wait, State.goto, State.unlock]
    · cases hs
      refine ⟨hc.move (by simp) rfl, ?_⟩
      rw [hc.eq_none (by simp [ht]), h.held_goto ht trivial .popping rfl rfl]
      simp [returns, ht]
  case h_4 notified ht =>
    split_ifs at hs with hfree
    cases hs
    refine ⟨hc.move (by simp) rfl, ?_⟩
    rw [hc.eq_none (by simp [ht]), held_of_free hfree, held_goto_owner rfl]
    simp [returns, ht, Pc.inHand, Pc.entering, State.lock]
  case h_5 ht =>
    split at hs
    case h_1 e q hq =>
      cases hs
      have hmutex := h.owner ht trivial
      refine ⟨hc.move (by simp) rfl, ?_⟩
      rw [hc.eq_none (by simp [ht]), held_of_owner hmutex,
        held_goto_owner (s := { s with mQueue := q }) hmutex]
      simp [returns, ht, hq, Pc.inHand, Pc.entering]
    case h_2 hq => exact absurd hq (h.popping t ht)
  case h_6 ht =>
    cases hs
    refine ⟨hc.move (by simp) rfl, ?_⟩
    rw [hc.eq_none (by simp [ht]), h.held_goto ht trivial (.unlocking none) rfl rfl]
    simp [returns, ht]
  case h_7 result ht =>
    cases hs
    refine ⟨hc.move (by simp) rfl, ?_⟩
    rw [hc.eq_none (by simp [ht]), held_of_owner (h.owner ht trivial),
      held_of_free (s := s.unlock.goto t .outside) rfl]
    simp [returns, ht, Pc.inHand, Pc.entering, State.unlock, State.goto]
  all_goals cases hs

theorem notify_held (h : Inv s) (hc : Called called s) {woken : Option τ}
    (hs : notify s t woken = some s') : Called called s' ∧ s'.held = s.held := by
  unfold notify at hs
  split at hs
  case h_1 u ht =>
    split_ifs at hs with hu
    cases hs
    have hasleep := (h.asleep u).mp hu
    have hne : t ≠ u := by
      rintro rfl
      rw [hasleep] at ht
      cases ht
    have hpc : (s.wake u true).pc t = .notifying := by rw [wake_pc, update_of_ne hne, ht]
    refine ⟨(hc.goto (by simp [hasleep]) (by simp) (wake_pc s u true)).goto (by simp [hpc]) (by simp)
      rfl, ?_⟩
    rw [(h.wake hu true).held_goto hpc trivial (.unlocking none) rfl rfl, h.held_wake hu]
  case h_2 ht =>
    split_ifs at hs
    cases hs
    exact ⟨hc.goto (by simp [ht]) (by simp) rfl, h.held_goto ht trivial (.unlocking none) rfl rfl⟩
  case h_3 => cases hs

theorem step_held (h : Inv s) (hc : Called called s) (hs : step s l = some s') :
    Called (l.called called) s' ∧
      s.held ++ (l.locked called).toList.filterMap Operation.element =
        (returns s l).toList ++ s'.held := by
  cases l with
  | call t op =>
    simp only [step] at hs
    split at hs
    case h_1 ht =>
      cases hs
      have hother : s.mMutex ≠ some t := fun hmutex => by
        have hin := (h.mutex t).mp hmutex
        rw [ht] at hin
        exact hin
      refine ⟨hc.move (fun op' => ?_) rfl, ?_⟩
      · rw [Option.some_inj, Pc.locking.injEq]
      · rw [held_goto_other hother]
        exact List.append_nil _
    case h_2 => cases hs
  | advance t => exact advance_held h hc hs
  | notify t woken =>
    obtain ⟨hcalled, hheld⟩ := notify_held h hc hs
    rw [hheld]
    exact ⟨hcalled, List.append_nil _⟩
  | spurious t =>
    simp only [step] at hs
    split_ifs at hs with ht
    cases hs
    refine ⟨hc.goto (by simp [(h.asleep t).mp ht]) (by simp) (wake_pc s t false), ?_⟩
    rw [h.held_wake ht]
    exact List.append_nil _

theorem conserved (h : Inv s) (hc : Called called s) {ls : List (Label τ α)}
    (hr : TransitionRuns.run step s ls = some s') :
    s.held ++ (sections called ls).filterMap Operation.element = taken s ls ++ s'.held := by
  induction ls generalizing s called with
  | nil =>
    cases hr
    exact List.append_nil _
  | cons l ls ih =>
    obtain ⟨t, ht, hr⟩ := run_cons_eq_some.mp hr
    obtain ⟨hcalled, hheld⟩ := step_held h hc ht
    rw [sections, List.filterMap_append, ← List.append_assoc, hheld, List.append_assoc,
      ih (step_inv h ht) hcalled hr, taken, ht, Option.elim_some, List.append_assoc]

theorem conserved_run {ls : List (Label τ α)} (hr : TransitionRuns.run step start ls = some s) :
    taken start ls ++ s.held = puts ls := by
  have hcalled : Called (fun _ => none) (start : State τ α) :=
    fun _ _ => iff_of_false (fun h => by cases h) (fun h => by cases h)
  exact (conserved inv_start hcalled hr).symm

/-- In every run the queue is first-in first-out, with no element lost or duplicated, and a taker
sleeps beside elements only where as many takers have been notified and are on their way. -/
theorem takers_notified {ls : List (Label τ α)} (hr : TransitionRuns.run step start ls = some s) :
    s.undefined = false ∧ taken start ls <+: puts ls ∧
      (∃ f : Fifo α, f.accepted = puts ls ∧ f.returned = taken start ls ∧ f.stored = s.held) ∧
      (s.Sleeping → AtLeast s.mQueue.length (· = .woken true) s.pc) := by
  have h : Inv s := run_invariant (fun _ _ _ h hs => step_inv h hs) inv_start hr
  have hfifo := conserved_run hr
  refine ⟨h.defined, ⟨s.held, hfifo⟩, ⟨⟨puts ls, taken start ls, s.held, hfifo⟩, rfl, rfl, rfl⟩, ?_⟩
  rintro ⟨hfree, t, ht⟩
  have hcount := h.notified (List.ne_nil_of_mem ((h.asleep t).mpr ht))
  rw [slack_of_free hfree] at hcount
  exact hcount

/-- An element is put and taken. Then two takers fall asleep, and one of them is notified of the
next element. -/
theorem takers_notified_two :
    let ls : List (Label ℕ ℕ) := [.call 0 (.put 5), .advance 0, .advance 0, .notify 0 none,
      .advance 0, .call 1 .take, .advance 1, .advance 1, .advance 1, .advance 1,
      .call 0 .take, .advance 0, .advance 0, .call 1 .take, .advance 1, .advance 1,
      .call 2 (.putMove 7), .advance 2, .advance 2, .notify 2 (some 1), .advance 2]
    ∃ s, TransitionRuns.run step start ls = some s ∧
      puts ls = [5, 7] ∧ taken start ls = [5] ∧ s.mQueue = [7] ∧ s.Sleeping ∧
      taken start ls <+: puts ls ∧ AtLeast 1 (· = .woken true) s.pc := by
  intro ls
  obtain ⟨s, hs⟩ : ∃ s, TransitionRuns.run step start ls = some s := ⟨_, rfl⟩
  obtain ⟨-, htaken, -, hwoken⟩ := takers_notified hs
  have hqueue : s.mQueue = [7] := by
    cases hs
    rfl
  have hsleeping : s.Sleeping := by
    cases hs
    exact ⟨rfl, 0, rfl⟩
  have hcount := hwoken hsleeping
  rw [hqueue] at hcount
  exact ⟨s, hs, rfl, rfl, hqueue, hsleeping, htaken, hcount⟩

end GenericServer.BlockingQueue
