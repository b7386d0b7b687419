import GenericServer.PendingFunctorsOrder

/-!
# The loop does not sleep on a waiting functor

A functor that has been pushed while the loop is on its way back to `epoll_wait` is announced
on the eventfd, or the thread that has pushed it is about to write to the eventfd. Functors
pushed between `epoll_wait` and `clear()` need no announcement.
-/
namespace GenericServer.PendingFunctors

open TransitionRuns

variable {t : ℤ} {s s' : EventLoop}

/-- Other threads call `runInLoop`, that is `addPending` and then `wakeup`; the loop thread may
also call `addPending` itself, from a handler or a functor. -/
def Notifies (s : EventLoop) : Label → Prop
  | .addPending t _ => t = s.threadId ∧ s.pc ≠ .outside
  | _ => True

/-- A functor waits, nobody is going to write to the eventfd, whose counter is 0, and the loop
is blocked in `epoll_wait`. -/
def LostWakeup (s : EventLoop) : Prop :=
  s.pending ≠ [] ∧ (∀ t, s.poster t ≠ .waking) ∧ s.pc = .polling ∧ s.wakeup = 0

/-- The thread is in `runInLoop`, if it is inside a call at all. -/
def Poster.wakes : Poster → Prop
  | .locking _ wake => wake = true
  | .pushing _ wake => wake = true
  | _ => True

/-- From here the loop goes to `epoll_wait` before it looks at `m_pending`. -/
def Pc.sleepsNext : Pc → Bool
  | .outside | .testing | .polling => true
  | _ => false

/-- No handler and no functor runs here. -/
def Pc.quiet : Pc → Bool
  | .testing | .polling | .locking | .cleared => true
  | _ => false

/-- The thread `t` is about to write, or the eventfd is readable. -/
def Announced (s : EventLoop) : Prop := (∃ t, s.poster t = .waking) ∨ 0 < s.wakeup

/-- Handlers and functors run where the loop calls them, and outside of `loop()`. -/
def Settled (s : EventLoop) : Prop := s.pc.quiet = true → s.nesting = 0

theorem settled_start (threadId : ℤ) : Settled (start threadId) := by
  intro hquiet
  cases hquiet

namespace Settled

theorem not_quiet (h : Settled s) (hnesting : 0 < s.nesting) : s.pc.quiet = false := by
  by_contra hquiet
  rw [h (by simpa using hquiet)] at hnesting
  exact absurd hnesting (lt_irrefl 0)

theorem of_busy (hquiet : s.pc.quiet = false) : Settled s :=
  fun h => absurd (hquiet.symm.trans h) Bool.false_ne_true

theorem of_move {l : Label} (ha : Accounted s) (h : Settled s) (hm : Move s l s') :
    Settled s' := by
  cases hm with
  | runInLoop hnesting => exact of_busy (h.not_quiet hnesting)
  | post | pushOwn | pushDuring | lock | push | wake | quit => exact h
  | ret =>
    intro hquiet
    simp only [h hquiet]
  | loop hpc => exact fun _ => rfl
  | goOn hpc => exact fun _ => h (by rw [hpc]; rfl)
  | handleEvent hpc hnesting => exact of_busy (by rw [hpc]; rfl)
  | leave | poll | handleWakeup | lockPending | next => exact of_busy rfl
  | handled hpc hnesting => exact fun _ => hnesting
  | clear hpc hnesting => exact fun _ => hnesting
  | unlock hpc => exact fun _ => (ha.cleared hpc).2

end Settled

structure Notified (s : EventLoop) : Prop where
  wakes : ∀ t, (s.poster t).wakes
  told : s.pc.sleepsNext = true → s.pending ≠ [] → Announced s

theorem notified_start (threadId : ℤ) : Notified (start threadId) where
  wakes _ := trivial
  told _ h := absurd rfl h

namespace Notified

/-- Between `epoll_wait` and `clear()` there is nothing to show about the eventfd. -/
theorem of_awake (hwakes : ∀ t, (s.poster t).wakes) (hsleeps : s.pc.sleepsNext = false) :
    Notified s where
  wakes := hwakes
  told h := absurd (hsleeps.symm.trans h) Bool.false_ne_true

theorem wakes_update (h : Notified s) {p : Poster} (hp : p.wakes) (u : ℤ) :
    (Function.update s.poster t p u).wakes := by
  by_cases hu : u = t
  · subst hu
    rwa [Function.update_self]
  · rw [Function.update_of_ne hu]
    exact h.wakes u

theorem announced_update (h : Announced s) {p : Poster} (hp : s.poster t ≠ .waking) :
    (∃ u, Function.update s.poster t p u = .waking) ∨ 0 < s.wakeup := by
  rcases h with ⟨u, hu⟩ | hpos
  · left
    refine ⟨u, ?_⟩
    rw [Function.update_of_ne]
    · exact hu
    · rintro rfl
      exact hp hu
  · exact .inr hpos

theorem post (h : Notified s) (hidle : s.poster t = .idle) {f : Functor} {posted : List Functor} :
    Notified { setPoster s t (.locking f true) with posted := posted } := by
  refine ⟨h.wakes_update rfl, fun hpc hne => ?_⟩
  exact announced_update (h.told hpc hne) (by rw [hidle]; exact nofun)

theorem lock (h : Notified s) {f : Functor} {wake : Bool} (hp : s.poster t = .locking f wake) :
    Notified { setPoster s t (.pushing f wake) with owner := some t } := by
  have hwake := h.wakes t
  rw [hp] at hwake
  refine ⟨h.wakes_update hwake, fun hpc hne => ?_⟩
  exact announced_update (h.told hpc hne) (by rw [hp]; exact nofun)

theorem push (h : Notified s) {f : Functor} {wake : Bool} (hp : s.poster t = .pushing f wake)
    (room : ℕ) :
    Notified { emplaceBack (setPoster s t (if wake then .waking else .idle)) f room with
      owner := none } := by
  have hwake : wake = true := by
    have hw := h.wakes t
    rwa [hp] at hw
  subst hwake
  refine ⟨h.wakes_update trivial, fun _ _ => .inl ⟨t, ?_⟩⟩
  exact Function.update_self ..

theorem wake (h : Notified s) :
    Notified { setPoster s t .idle with wakeup := s.wakeup + 1 } :=
  ⟨h.wakes_update trivial, fun _ _ => .inr (Nat.succ_pos _)⟩

/-- Where the loop thread may call `addPending`, the `doPending` to come finds the functor. -/
theorem awake (hq : Settled s) (hnesting : 0 < s.nesting) (hpc : s.pc ≠ .outside) :
    s.pc.sleepsNext = false := by
  have hquiet := hq.not_quiet hnesting
  cases hcase : s.pc with
  | outside => exact absurd hcase hpc
  | testing | polling =>
    rw [hcase] at hquiet
    cases hquiet
  | handling _ | locking | walking _ _ | cleared => rfl

theorem move (h : Notified s) (pc : Pc) (hsleeps : s.pc.sleepsNext = true) (nesting : ℕ) :
    Notified { s with pc := pc, nesting := nesting } :=
  ⟨h.wakes, fun _ => h.told hsleeps⟩

theorem step {l : Label} (ha : Accounted s) (hq : Settled s) (h : Notified s) (hl : Notifies s l)
    (hs : PendingFunctors.step s l = some s') : Notified s' := by
  cases move_of_step hs with
  | post hbegin ht hidle =>
    cases hbegin with
    | runInLoop => exact h.post hidle
    | addPending => exact absurd hl.1 ht
  | pushOwn hnesting howner => exact of_awake h.wakes (awake hq hnesting hl.2)
  | pushDuring hnesting howner => exact of_awake h.wakes (awake hq hnesting hl.2)
  | lock hp howner => exact h.lock hp
  | push hp => exact h.push hp _
  | wake hp => exact h.wake
  | runInLoop | ret | quit => exact ⟨h.wakes, h.told⟩
  | loop hpc => exact h.move _ (by rw [hpc]; rfl) _
  | leave hpc => exact h.move _ (by rw [hpc]; rfl) _
  | goOn hpc => exact h.move _ (by rw [hpc]; rfl) _
  | handleEvent hpc hnesting => exact of_awake h.wakes (by rw [hpc]; rfl)
  -- `handleWakeup` sets the counter back, and `doPending` is still to come
  | poll | handleWakeup | handled | lockPending | next | clear => exact of_awake h.wakes rfl
  | unlock hpc => exact ⟨h.wakes, fun _ hne => absurd (ha.cleared hpc).1 hne⟩

theorem not_lost (h : Notified s) : ¬ LostWakeup s := by
  rintro ⟨hne, hnone, hpc, hzero⟩
  rcases h.told (by rw [hpc]; rfl) hne with ⟨t, ht⟩ | hpos
  · exact hnone t ht
  · rw [hzero] at hpos
    exact absurd hpos (lt_irrefl 0)

end Notified

/-- However many threads post, the loop never sleeps in `epoll_wait` with nothing on the eventfd
while a functor waits and no thread is about to write. -/
theorem no_lost_wakeup (threadId : ℤ) {ls : List Label} (hr : run step (start threadId) ls = some s)
    (hl : Guarded step Notifies (start threadId) ls) : ¬ LostWakeup s := by
  have hstep : ∀ u l u', Accounted u ∧ Settled u ∧ Notified u → Notifies u l →
      step u l = some u' → Accounted u' ∧ Settled u' ∧ Notified u' :=
    fun _ _ _ hu hl hs => ⟨hu.1.step hs, hu.2.1.of_move hu.1 (move_of_step hs), hu.2.2.step hu.1 hu.2.1 hl hs⟩
  have hstart : Accounted (start threadId) ∧ Settled (start threadId) ∧ Notified (start threadId) :=
    ⟨accounted_start threadId, settled_start threadId, notified_start threadId⟩
  exact (hl.invariant hstep hstart hr).2.2.not_lost

/-- The loop is back in `epoll_wait` while thread 2 has pushed a functor and not yet written;
the functor of thread 3 ran before its write. -/
theorem no_lost_wakeup_two_posters :
    ∃ s, run step (start 1)
        [.loop, .test, .runInLoop 2, .lock 2, .push 2 0, .wake 2, .poll true false, .handleWakeup,
          .runInLoop 3, .lock 3, .push 3 0, .handled, .lockPending, .next, .ret, .next, .ret, .clear,
          .unlock, .test, .runInLoop 2, .lock 2, .push 2 0, .wake 3] = some s ∧
      s.pc = .polling ∧ s.pending = [⟨2, 2, .pending⟩] ∧ s.poster 2 = .waking ∧ s.wakeup = 1 ∧
      ¬ LostWakeup s := by
  obtain ⟨s, hs⟩ : ∃ s, run step (start 1)
      [.loop, .test, .runInLoop 2, .lock 2, .push 2 0, .wake 2, .poll true false, .handleWakeup,
        .runInLoop 3, .lock 3, .push 3 0, .handled, .lockPending, .next, .ret, .next, .ret, .clear,
        .unlock, .test, .runInLoop 2, .lock 2, .push 2 0, .wake 3] = some s := ⟨_, rfl⟩
  refine ⟨s, hs, ?_, ?_, ?_, ?_, no_lost_wakeup 1 hs (guarded_of_forall _ ?_)⟩
  case refine_5 => simp [Notifies]
  all_goals
    cases hs
    rfl

end GenericServer.PendingFunctors
