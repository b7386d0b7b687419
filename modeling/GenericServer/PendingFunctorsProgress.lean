import GenericServer.CrossLoopDeadlock
import GenericServer.PendingFunctorsWakeup
import GenericServer.ThreadWeights

/-!
# Every functor is executed

Where nothing new is handed over and nothing else happens to the loop, the posting threads and the
loop thread come to rest, and they do so when the loop waits in `epoll_wait` with nothing left.
-/
namespace GenericServer.PendingFunctors

open TransitionRuns ThreadWeights
open CrossLoopPosting (Held)

variable {s s' : EventLoop} {l : Label} {ls : List Label} {ts : Finset ℤ} {t : ℤ}

/-- A call that has begun goes on, a handler or functor returns, or the loop goes on, and has at
most the eventfd to handle. -/
def Label.inner : Label → Bool
  | .lock _ | .push _ _ | .wake _ | .ret | .test | .handleWakeup | .handled | .lockPending
  | .next | .clear | .unlock => true
  | .poll wakeup others => wakeup && !others
  | .runInLoop _ | .addPending _ _ | .quit | .loop | .handleEvent => false

/-- No call that has begun and no step of the loop can go on. -/
def Stuck (s : EventLoop) : Prop := ∀ l : Label, l.inner = true → step s l = none

/-- How many steps a poster causes: its own, two for its functor, and a round of the loop. -/
def Poster.weight : Poster → ℕ
  | .idle => 0
  | .waking => 8
  | .pushing _ _ => 11
  | .locking _ _ => 12

/-- How far it is to the end of a round; a round that the eventfd starts is paid for by it. -/
def Pc.weight : Pc → ℕ
  | .outside => 0
  | .handling wakeup => if wakeup then 0 else 6
  | .polling => 1
  | .testing => 2
  | .cleared => 3
  | .walking _ _ => 4
  | .locking => 5

def EventLoop.work (ts : Finset ℤ) (s : EventLoop) : ℕ :=
  total Poster.weight ts s.poster + 2 * (waiting s).length + s.nesting +
    (if 0 < s.wakeup then 7 else 0) + s.pc.weight

/-- The eventfd is read when it is readable. -/
def Readable (s : EventLoop) : Prop := s.pc = .handling true → 0 < s.wakeup

theorem Readable.step (h : Readable s) (hm : Move s l s') : Readable s' := by
  cases hm with
  | runInLoop | post | pushOwn | pushDuring | lock | push | ret | quit | handleEvent => exact h
  | wake hp => exact fun _ => Nat.succ_pos _
  | loop | leave | goOn | handleWakeup | handled | lockPending | next | clear | unlock =>
    exact nofun
  | poll hpc hsome hread =>
    intro hpc
    simp only [Pc.handling.injEq] at hpc
    exact hread hpc

structure Sane (s : EventLoop) : Prop where
  accounted : Accounted s
  settled : Settled s
  notified : Notified s
  held : Held s
  readable : Readable s

theorem sane_start (threadId : ℤ) : Sane (start threadId) :=
  ⟨accounted_start threadId, settled_start threadId, notified_start threadId,
    CrossLoopPosting.held_start threadId, nofun⟩

theorem Sane.step (h : Sane s) (hl : Notifies s l) (hs : PendingFunctors.step s l = some s') :
    Sane s' :=
  ⟨h.accounted.step hs, h.settled.of_move h.accounted (move_of_step hs),
    h.notified.step h.accounted h.settled hl hs, h.held.step (move_of_step hs),
    h.readable.step (move_of_step hs)⟩

structure Underway (ts : Finset ℤ) (s : EventLoop) : Prop where
  sane : Sane s
  among : AllBut ts .idle s.poster

theorem waiting_of_pc {pc : Pc} (h : s.pc = pc) (hpc : ∀ next stop, pc ≠ .walking next stop) :
    waiting s = s.pending :=
  waiting_of_not_walking (by rw [h]; exact hpc)

theorem total_poster (h : Underway ts s) (hp : s.poster t ≠ .idle) (p : Poster) :
    total Poster.weight ts (Function.update s.poster t p) + (s.poster t).weight =
      total Poster.weight ts s.poster + p.weight ∧
    AllBut ts .idle (Function.update s.poster t p) := by
  have ht : t ∈ ts := h.among.mem rfl hp
  exact ⟨total_update Poster.weight s.poster p ht, h.among.update_mem ht⟩

theorem notifies_of_inner (h : l.inner = true) : Notifies s l := by
  cases l with
  | addPending t room => cases h
  | _ => trivial

theorem Underway.inner_poster (h : Underway ts s) (hl : l.inner = true)
    (hs : step s l = some s') (hp : s.poster t ≠ .idle) {p : Poster}
    (hposter : s'.poster = Function.update s.poster t p) (hpc : s'.pc = s.pc)
    (hnesting : s'.nesting = s.nesting)
    (hwork : p.weight + 2 * (waiting s').length + (if 0 < s'.wakeup then 7 else 0) <
      (s.poster t).weight + 2 * (waiting s).length + (if 0 < s.wakeup then 7 else 0)) :
    Underway ts s' ∧ s'.work ts < s.work ts := by
  obtain ⟨htotal, hamong⟩ := total_poster h hp p
  refine ⟨⟨h.sane.step (notifies_of_inner hl) hs, hposter ▸ hamong⟩, ?_⟩
  unfold EventLoop.work
  rw [hposter, hpc, hnesting]
  omega

theorem Underway.inner_loop (h : Underway ts s) (hl : l.inner = true)
    (hs : step s l = some s') (hposter : s'.poster = s.poster)
    (hwork : 2 * (waiting s').length + s'.nesting + (if 0 < s'.wakeup then 7 else 0) +
        s'.pc.weight <
      2 * (waiting s).length + s.nesting + (if 0 < s.wakeup then 7 else 0) + s.pc.weight) :
    Underway ts s' ∧ s'.work ts < s.work ts := by
  refine ⟨⟨h.sane.step (notifies_of_inner hl) hs, hposter ▸ h.among⟩, ?_⟩
  unfold EventLoop.work
  rw [hposter]
  omega

theorem Underway.inner_move (h : Underway ts s) (hl : l.inner = true) {pc : Pc} {wakeup : ℕ}
    (hs : step s l = some { s with pc := pc, wakeup := wakeup })
    (hfrom : s.pc.holds = false) (hto : pc.holds = false)
    (hwork : (if 0 < wakeup then 7 else 0) + pc.weight <
      (if 0 < s.wakeup then 7 else 0) + s.pc.weight) :
    Underway ts { s with pc := pc, wakeup := wakeup } ∧
      EventLoop.work ts { s with pc := pc, wakeup := wakeup } < s.work ts := by
  refine h.inner_loop hl hs rfl ?_
  rw [waiting_of_not_walking (ne_walking_of_not_holds hfrom),
    waiting_of_not_walking (s := { s with pc := pc, wakeup := wakeup })
      (ne_walking_of_not_holds hto)]
  dsimp only
  omega

theorem Underway.inner (h : Underway ts s) (hl : l.inner = true) (hs : step s l = some s') :
    Underway ts s' ∧ s'.work ts < s.work ts := by
  cases move_of_step hs with
  | runInLoop | pushOwn | pushDuring | quit | loop | handleEvent => cases hl
  | post hbegins =>
    cases hbegins with
    | runInLoop | addPending => cases hl
  | leave hpc =>
    refine h.inner_loop hl hs rfl ?_
    have hsame : waiting { s with pc := .outside, nesting := 1 } = s.pending := rfl
    rw [waiting_of_pc hpc (by simp), hsame, hpc]
    dsimp only [Pc.weight]
    omega
  | @lock t f wake hp howner =>
    refine h.inner_poster hl hs (by simp [hp]) rfl rfl rfl ?_
    rw [hp]
    exact Nat.add_lt_add_right (Nat.add_lt_add_right (Nat.lt_succ_self 11) _) _
  | @push t f wake room hp =>
    refine h.inner_poster hl hs (by simp [hp]) rfl rfl rfl ?_
    have hwaiting := h.sane.accounted.waiting_emplaceBack f room
    have hone : (waiting (emplaceBack s f room)).length = (waiting s).length + 1 := by
      rw [hwaiting, List.length_append, List.length_singleton]
    have hsame : waiting { emplaceBack (setPoster s t (if wake then .waking else .idle)) f room with
        owner := none } = waiting (emplaceBack s f room) := rfl
    have hless : (if wake then Poster.waking else .idle).weight ≤ 8 := by
      cases wake with
      | false => exact Nat.zero_le 8
      | true => exact le_rfl
    rw [hsame, hone, hp]
    change _ + (if 0 < s.wakeup then 7 else 0) < 11 + _ + _
    omega
  | @wake t hp =>
    refine h.inner_poster hl hs (by simp [hp]) rfl rfl rfl ?_
    have hsame : waiting { setPoster s t .idle with wakeup := s.wakeup + 1 } = waiting s := rfl
    rw [hsame, hp, if_pos (Nat.succ_pos _)]
    change 0 + _ + 7 < 8 + _ + _
    omega
  | ret =>
    refine h.inner_loop hl hs rfl ?_
    have hnesting : 0 < s.nesting := by
      by_contra hzero
      simp only [step, Nat.eq_zero_of_not_pos hzero] at hs
      cases hs
    have hsame : waiting { s with nesting := s.nesting - 1 } = waiting s := rfl
    rw [hsame]
    dsimp only
    omega
  | goOn hpc =>
    refine h.inner_move hl hs (by rw [hpc]; rfl) rfl ?_
    rw [hpc]
    exact Nat.lt_succ_self _
  | @poll wakeup others hpc hsome hread =>
    obtain ⟨rfl, -⟩ : wakeup = true ∧ others = false := by simpa [Label.inner] using hl
    refine h.inner_move hl hs (by rw [hpc]; rfl) rfl ?_
    rw [hpc]
    exact Nat.lt_succ_self _
  | handleWakeup hpc hnesting =>
    refine h.inner_move hl hs (by rw [hpc]; rfl) rfl ?_
    rw [if_pos (h.sane.readable hpc), hpc]
    exact Nat.lt_succ_self 6
  | handled hpc hnesting =>
    refine h.inner_move hl hs (by rw [hpc]; rfl) rfl ?_
    rw [hpc]
    exact Nat.lt_succ_self _
  | lockPending hpc howner =>
    refine h.inner_loop hl hs rfl ?_
    have hsame : waiting { s with pc := .walking 0 s.pending.length, owner := some s.threadId } =
        s.pending := rfl
    rw [waiting_of_pc hpc (by simp), hsame, hpc]
    exact Nat.lt_succ_self _
  | @next f n stop hpc hn hnesting hf =>
    refine h.inner_loop hl hs rfl ?_
    obtain ⟨hlt, -⟩ := List.getElem?_eq_some_iff.mp hf
    have hrest : waiting { s with pc := .walking (n + 1) stop, executed := s.executed ++ [f],
                                  nesting := 1 } = s.pending.drop (n + 1) := rfl
    rw [waiting_walking hpc, hrest, hpc, hnesting, List.length_drop, List.length_drop]
    dsimp only [Pc.weight]
    omega
  | @clear stop hpc hnesting =>
    refine h.inner_loop hl hs rfl ?_
    have hnone : waiting { s with pc := .cleared, pending := [] } = [] := rfl
    rw [hnone, hpc]
    dsimp only [Pc.weight, List.length_nil]
    omega
  | unlock hpc =>
    refine h.inner_loop hl hs rfl ?_
    have hsame : waiting { s with pc := .testing, owner := none } = s.pending := rfl
    rw [waiting_of_pc hpc (by simp), hsame, hpc]
    exact Nat.lt_succ_self _

theorem inside_of_inner (hpc : s.pc ≠ .outside) (hquit : s.quit = false) (hl : l.inner = true)
    (hs : step s l = some s') : s'.pc ≠ .outside ∧ s'.quit = false := by
  cases move_of_step hs with
  | runInLoop | pushOwn | pushDuring | quit | loop | handleEvent => cases hl
  | post hbegins =>
    cases hbegins with
    | runInLoop | addPending => cases hl
  | leave htest =>
    simp only [step, htest, hquit] at hs
    cases hs
  | lock | push | wake | ret => exact ⟨hpc, hquit⟩
  | goOn | poll | handleWakeup | handled | lockPending | next | clear | unlock =>
    exact ⟨by simp, hquit⟩

theorem exists_among {threadId : ℤ} (hr : run step (start threadId) ls = some s) :
    ∃ ts : Finset ℤ, AllBut ts .idle s.poster := by
  have hkeep : ∀ s l s', (∃ ts : Finset ℤ, AllBut ts .idle s.poster) →
      step s l = some s' → ∃ ts : Finset ℤ, AllBut ts .idle s'.poster := by
    rintro s l s' ⟨ts, h⟩ hs
    cases move_of_step hs with
    | @post t | @lock t | @push t | @wake t => exact ⟨insert t ts, h.update⟩
    | runInLoop | pushOwn | pushDuring | ret | quit | loop | leave | goOn | poll | handleEvent
    | handleWakeup | handled | lockPending | next | clear | unlock => exact ⟨ts, h⟩
  exact run_invariant hkeep ⟨∅, fun _ _ => rfl⟩ hr

def Label.own : Label → Bool
  | .lock _ | .push _ _ | .wake _ => false
  | _ => true

theorem holder_goes_on (hs : Sane s) (howner : s.owner = some s.threadId) :
    ∃ l : Label, l.inner = true ∧ l.own = true ∧ (step s l).isSome := by
  have hholds := hs.accounted.holds.mp howner
  have hinside : s.pc ≠ .outside := by
    intro hpc
    rw [hpc] at hholds
    cases hholds
  rcases Nat.eq_zero_or_pos s.nesting with hnesting | hnesting
  · cases hcase : s.pc with
    | outside | testing | polling | handling _ | locking =>
      rw [hcase] at hholds
      cases hholds
    | cleared => exact ⟨.unlock, rfl, rfl, by simp [step, hcase]⟩
    | walking next stop =>
      obtain ⟨hle, hstop, -⟩ := hs.accounted.walk next stop hcase
      rcases hle.lt_or_eq with hlt | rfl
      · refine ⟨.next, rfl, rfl, ?_⟩
        simp only [step, hcase, if_pos (And.intro hlt hnesting)]
        rw [List.getElem?_eq_getElem (hlt.trans_le hstop)]
        rfl
      · exact ⟨.clear, rfl, rfl, by simp [step, hcase, hnesting]⟩
  · refine ⟨.ret, rfl, rfl, ?_⟩
    have hret : 1 < s.nesting ∨ s.nesting = 1 ∧ s.pc ≠ .outside := by
      rcases Nat.lt_or_ge 1 s.nesting with hmany | hone
      · exact .inl hmany
      · exact .inr ⟨by omega, hinside⟩
    simp only [step, if_pos hret, Option.isSome_some]

namespace Stuck

theorem nesting (h : Stuck s) (hpc : s.pc ≠ .outside) : s.nesting = 0 := by
  have hret := h .ret rfl
  simp only [step] at hret
  split_ifs at hret with hcan
  rw [not_or, not_and] at hcan
  by_contra hpos
  have hone : s.nesting = 1 := by omega
  exact hcan.2 hone hpc

theorem free (h : Stuck s) (hs : Sane s) : s.owner = none := by
  cases howner : s.owner with
  | none => rfl
  | some t =>
    by_cases ht : t = s.threadId
    · rw [ht] at howner
      obtain ⟨l, hl, -, hsome⟩ := holder_goes_on hs howner
      rw [h l hl] at hsome
      cases hsome
    · obtain ⟨f, wake, hp⟩ := hs.held t howner ht
      have hpush := h (.push t 0) rfl
      simp [step, hp] at hpush

theorem idle (h : Stuck s) (hs : Sane s) (t : ℤ) : s.poster t = .idle := by
  have hfree := h.free hs
  cases hp : s.poster t with
  | idle => rfl
  | locking f wake =>
    have hlock := h (.lock t) rfl
    simp [step, hp, hfree] at hlock
  | pushing f wake =>
    have hpush := h (.push t 0) rfl
    simp [step, hp] at hpush
  | waking =>
    have hwake := h (.wake t) rfl
    simp [step, hp] at hwake

theorem polling (h : Stuck s) (hs : Sane s) (hpc : s.pc ≠ .outside) : s.pc = .polling := by
  have hfree := h.free hs
  have hnesting := h.nesting hpc
  have hholds : s.pc.holds = false := hs.accounted.not_holds (by rw [hfree]; exact nofun)
  cases hcase : s.pc with
  | polling => rfl
  | outside => exact absurd hcase hpc
  | testing =>
    have htest := h .test rfl
    simp [step, hcase] at htest
  | handling wakeup =>
    cases wakeup with
    | true =>
      have hread := h .handleWakeup rfl
      simp [step, hcase, hnesting] at hread
    | false =>
      have hhandled := h .handled rfl
      simp [step, hcase, hnesting] at hhandled
  | locking =>
    have hlock := h .lockPending rfl
    simp [step, hcase, hfree] at hlock
  | walking next stop =>
    rw [hcase] at hholds
    cases hholds
  | cleared =>
    rw [hcase] at hholds
    cases hholds

theorem pending (h : Stuck s) (hs : Sane s) (hpc : s.pc ≠ .outside) : s.pending = [] := by
  have hpolling := h.polling hs hpc
  by_contra hne
  refine hs.notified.not_lost ⟨hne, fun t => ?_, hpolling, ?_⟩
  · rw [h.idle hs t]
    exact nofun
  · by_contra hpos
    have hpoll := h (.poll true false) rfl
    simp [step, hpolling, Nat.pos_of_ne_zero hpos] at hpoll

theorem executed (h : Stuck s) (hs : Sane s) (hpc : s.pc ≠ .outside) {f : Functor}
    (hf : f ∈ s.posted) (hway : f.way ≠ .during) : f ∈ s.executed := by
  have hmem : f ∈ handed f.tid f.way s.posted := List.mem_filter.mpr ⟨hf, by simp⟩
  have hsome : f ∈ handed f.tid f.way s.executed := by
    cases hcase : f.way with
    | during => exact absurd hcase hway
    | direct =>
      rwa [hcase, hs.accounted.direct] at hmem
    | pending =>
      rwa [hcase, hs.accounted.ordered, waiting_of_pc (h.polling hs hpc) nofun, h.pending hs hpc,
        h.idle hs, Poster.inFlight, handed_nil, List.append_nil, List.append_nil] at hmem
  exact List.mem_of_mem_filter hsome

end Stuck

/-- In every state of a running loop that can be reached, the threads in `runInLoop` and the loop
make finitely many steps unless there are new calls or events. When they cannot go on, the loop
waits in `epoll_wait`, and all that was handed over has been executed, unless the loop thread
pushed it during a walk. -/
theorem functors_executed (threadId : ℤ) (hr : run step (start threadId) ls = some s)
    (hl : Guarded step Notifies (start threadId) ls) (hpc : s.pc ≠ .outside)
    (hquit : s.quit = false) :
    (∃ n, ∀ ms s', (∀ m ∈ ms, m.inner = true) → run step s ms = some s' → ms.length ≤ n) ∧
      ∀ ms s', (∀ m ∈ ms, m.inner = true) → run step s ms = some s' → Stuck s' →
        s'.pc = .polling ∧ (∀ t, s'.poster t = .idle) ∧
          ∀ f ∈ s'.posted, f.way ≠ .during → f ∈ s'.executed := by
  obtain ⟨ts, hamong⟩ := exists_among hr
  have hsane : Sane s := hl.invariant (fun _ _ _ h hl hs => h.step hl hs) (sane_start threadId) hr
  have hunder : Underway ts s := ⟨hsane, hamong⟩
  constructor
  · refine ⟨s.work ts, fun ms s' hms hrun => ?_⟩
    have := run_length_le (fun _ _ _ h hl hs => Underway.inner h hl hs) hunder hms hrun
    omega
  · intro ms s' hms hrun hstuck
    have hinner : Guarded step (fun _ m => m.inner = true) s ms :=
      guarded_of_forall s fun m hm _ => hms m hm
    have hend : Sane s' :=
      hinner.invariant (fun _ _ _ h hl hs => h.step (notifies_of_inner hl) hs) hsane hrun
    have hinside : s'.pc ≠ .outside ∧ s'.quit = false :=
      hinner.invariant (fun _ _ _ h hl hs => inside_of_inner h.1 h.2 hl hs) ⟨hpc, hquit⟩ hrun
    exact ⟨hstuck.polling hend hinside.1, hstuck.idle hend,
      fun _ hf hway => hstuck.executed hend hinside.1 hf hway⟩

/-- Thread 2 has pushed a functor and not yet written, thread 3 is at the lock, and the loop is
in `epoll_wait`. -/
theorem functors_executed_two_posters : ∃ s, run step (start 1)
      [.loop, .test, .runInLoop 2, .lock 2, .push 2 0, .runInLoop 3] = some s ∧
    (∃ n, ∀ ms s', (∀ m ∈ ms, m.inner = true) → run step s ms = some s' → ms.length ≤ n) ∧
      ∀ ms s', (∀ m ∈ ms, m.inner = true) → run step s ms = some s' → Stuck s' →
        s'.pc = .polling ∧ (∀ t, s'.poster t = .idle) ∧
          ∀ f ∈ s'.posted, f.way ≠ .during → f ∈ s'.executed := by
  obtain ⟨s, hs⟩ : ∃ s, run step (start 1)
      [.loop, .test, .runInLoop 2, .lock 2, .push 2 0, .runInLoop 3] = some s := ⟨_, rfl⟩
  refine ⟨s, hs, functors_executed 1 hs (guarded_of_forall _ ?_) ?_ ?_⟩
  case refine_1 => simp [Notifies]
  case refine_2 =>
    have hpc : s.pc = .polling := by
      cases hs
      rfl
    simp [hpc]
  case refine_3 =>
    cases hs
    rfl

end GenericServer.PendingFunctors
