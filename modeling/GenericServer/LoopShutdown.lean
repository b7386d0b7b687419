import GenericServer.PendingFunctorsOrder

/-!
# Stopping an event loop

`EventLoop::quit`, as `EventLoopThread::stop` and `EventLoopThreadPool::stop` (`src/reactor`) call
it: it only sets `m_quit`, and the loop thread looks at `m_quit` between two passes. A pass goes
from `poll` to the end of `doPending`.
-/
namespace GenericServer.PendingFunctors

open TransitionRuns

/-- The loop thread is in a pass whose `doPending` is still to come or goes on. -/
def Pc.passing : Pc → Bool
  | .polling | .handling _ | .locking | .walking _ _ => true
  | .outside | .testing | .cleared => false

def Label.polls : Label → Bool
  | .poll _ _ => true
  | _ => false

variable {s s' : EventLoop} {l : Label} {ls : List Label} {f : Functor}

theorem quit_step (hquit : s.quit = true) (hs : step s l = some s') : s'.quit = true := by
  cases move_of_step hs with
  | quit => rfl
  | runInLoop | post | pushOwn | pushDuring | lock | push | wake | ret | loop | leave | goOn | poll
  | handleEvent | handleWakeup | handled | lockPending | next | clear | unlock => exact hquit

theorem test_of_quit (hquit : s.quit = true) (hs : step s .test = some s') :
    s' = { s with pc := .outside, nesting := 1 } := by
  simp only [step] at hs
  split at hs
  · rw [if_pos hquit] at hs
    cases hs
    rfl
  · cases hs

/-- One more return of `poll` at most, and none where the loop thread is not in `poll`. -/
theorem polling_of_step (hquit : s.quit = true) (hs : step s l = some s') :
    (if l.polls then 1 else 0) + (if s'.pc = .polling then 1 else 0) ≤
      if s.pc = .polling then 1 else 0 := by
  cases move_of_step hs with
  | goOn hpc => cases congrArg EventLoop.pc (test_of_quit hquit hs)
  | poll hpc hsome hread =>
    rw [if_pos hpc]
    exact Nat.le_refl _
  | loop hpc => exact Nat.zero_le _
  | leave hpc => exact Nat.zero_le _
  | handleWakeup hpc hnesting => exact Nat.zero_le _
  | handled hpc hnesting => exact Nat.zero_le _
  | lockPending hpc howner => exact Nat.zero_le _
  | next hpc hn hnesting hf => exact Nat.zero_le _
  | clear hpc hnesting => exact Nat.zero_le _
  | unlock hpc => exact Nat.zero_le _
  | post hl ht hidle =>
    cases hl with
    | runInLoop => exact Nat.le_of_eq (Nat.zero_add _)
    | addPending => exact Nat.le_of_eq (Nat.zero_add _)
  | runInLoop | pushOwn | pushDuring | lock | push | wake | ret | quit | handleEvent =>
    exact Nat.le_of_eq (Nat.zero_add _)

theorem polls_le (hquit : s.quit = true) (hr : run step s ls = some s') :
    ls.countP Label.polls ≤ if s.pc = .polling then 1 else 0 := by
  induction ls generalizing s with
  | nil => exact Nat.zero_le _
  | cons l ls ih =>
    obtain ⟨t, ht, hr⟩ := run_cons_eq_some.mp hr
    have hone := polling_of_step hquit ht
    have hrest := ih (quit_step hquit ht) hr
    rw [List.countP_cons]
    omega

/-! ## A functor that waits when the loop is stopped -/

/-- The functor is executed in the running pass or has been executed. -/
def Served (s : EventLoop) (f : Functor) : Prop :=
  f ∈ s.executed ∨ f ∈ waiting s ∧ s.pc.passing = true

/-- A functor that was pushed behind the last `doPending` stays in `m_pending`. -/
def Left (s : EventLoop) (f : Functor) : Prop :=
  f ∈ s.pending ∧ (s.pc = .testing ∨ s.pc = .outside)

theorem Left.step (hquit : s.quit = true) (h : Left s f) (hs : step s l = some s') :
    Left s' f := by
  obtain ⟨hf, hpc'⟩ := h
  cases move_of_step hs with
  | goOn hpc => cases congrArg EventLoop.pc (test_of_quit hquit hs)
  | loop hpc => exact ⟨hf, .inl rfl⟩
  | leave hpc => exact ⟨hf, .inr rfl⟩
  | pushOwn hnesting howner => exact ⟨List.mem_append_left _ hf, hpc'⟩
  | pushDuring hnesting howner => exact ⟨List.mem_append_left _ hf, hpc'⟩
  | push hp => exact ⟨List.mem_append_left _ hf, hpc'⟩
  | poll hpc | handleEvent hpc | handleWakeup hpc | handled hpc | lockPending hpc | next hpc
  | clear hpc | unlock hpc =>
    rw [hpc] at hpc'
    rcases hpc' with hpc' | hpc'
    · cases hpc'
    · cases hpc'
  | runInLoop | post | lock | wake | ret | quit => exact ⟨hf, hpc'⟩

theorem Served.congr (h : Served s f) (hexecuted : s.executed ⊆ s'.executed)
    (hwaiting : waiting s ⊆ waiting s') (hpc : s.pc.passing = true → s'.pc.passing = true) :
    Served s' f :=
  h.imp (fun hf => hexecuted hf) fun hf => ⟨hwaiting hf.1, hpc hf.2⟩

theorem waiting_subset {x : Functor} (hpc : s'.pc = s.pc)
    (hpending : s'.pending = s.pending ++ [x]) : waiting s ⊆ waiting s' := by
  unfold waiting
  rw [hpc, hpending]
  cases s.pc with
  | walking next stop =>
    simp only [List.drop_append]
    exact List.subset_append_left _ _
  | outside | testing | polling | handling _ | locking | cleared =>
    exact List.subset_append_left _ _

theorem Served.step (ha : Accounted s) (hway : f.way = .pending) (h : Served s f)
    (hs : PendingFunctors.step s l = some s') : Served s' f := by
  have hsame : s.executed ⊆ s.executed := List.Subset.refl _
  cases move_of_step hs with
  | runInLoop hnesting => exact h.congr (List.subset_append_left _ _) (List.Subset.refl _) id
  | pushOwn hnesting howner => exact h.congr hsame (waiting_subset rfl rfl) id
  | pushDuring hnesting howner => exact h.congr hsame (waiting_subset rfl rfl) id
  | push hp => exact h.congr hsame (waiting_subset rfl rfl) id
  | loop hpc =>
    refine h.congr hsame (fun x hx => ?_) fun hpass => ?_
    · rwa [waiting, hpc] at hx
    · rw [hpc] at hpass
      cases hpass
  | leave hpc =>
    refine h.congr hsame (fun x hx => ?_) fun hpass => ?_
    · rwa [waiting, hpc] at hx
    · rw [hpc] at hpass
      cases hpass
  | goOn hpc =>
    refine h.congr hsame (fun x hx => ?_) fun _ => rfl
    rwa [waiting, hpc] at hx
  | poll hpc hsome hread =>
    refine h.congr hsame (fun x hx => ?_) fun _ => rfl
    rwa [waiting, hpc] at hx
  | handleWakeup hpc hnesting =>
    refine h.congr hsame (fun x hx => ?_) fun _ => rfl
    rwa [waiting, hpc] at hx
  | handled hpc hnesting =>
    refine h.congr hsame (fun x hx => ?_) fun _ => rfl
    rwa [waiting, hpc] at hx
  | lockPending hpc howner =>
    refine h.congr hsame (fun x hx => ?_) fun _ => rfl
    rwa [waiting, hpc] at hx
  | next hpc hn hnesting hf =>
    rename_i x n stop
    rcases h with hdone | ⟨hwaits, -⟩
    · exact .inl (List.mem_append_left _ hdone)
    · rw [waiting_walking hpc] at hwaits
      obtain ⟨hlt, hget⟩ := List.getElem?_eq_some_iff.mp hf
      rw [List.drop_eq_getElem_cons hlt, hget] at hwaits
      rcases List.mem_cons.mp hwaits with rfl | hrest
      · exact .inl (List.mem_append_right _ (List.mem_singleton_self _))
      · exact .inr ⟨hrest, rfl⟩
  | clear hpc hnesting =>
    rename_i stop
    rcases h with hdone | ⟨hwaits, -⟩
    · exact .inl hdone
    · -- the walk is over: what is left was pushed during it
      rw [waiting_walking hpc] at hwaits
      have hduring := (ha.walk stop stop hpc).2.2.2 f hwaits
      rw [hway] at hduring
      cases hduring
  | unlock hpc =>
    refine h.congr hsame (fun x hx => ?_) fun hpass => ?_
    · rwa [waiting, hpc] at hx
    · rw [hpc] at hpass
      cases hpass
  | post | lock | wake | ret | quit | handleEvent => exact h.congr hsame (List.Subset.refl _) id

theorem not_mem_executed (ha : Accounted s) (hway : f.way = .pending) (hf : f ∈ waiting s) :
    f ∉ s.executed := by
  intro hdone
  have hmem : ∀ l : List Functor, f ∈ l → f ∈ handed f.tid .pending l := by
    intro l hl
    exact List.mem_filter.mpr ⟨hl, by simp [hway]⟩
  have hnodup : (handed f.tid .pending s.posted).Nodup := ha.nodup_posted.filter _
  rw [ha.ordered, List.append_assoc] at hnodup
  exact (List.nodup_append.mp hnodup).2.2 f (hmem _ hdone) f
    (List.mem_append_left _ (hmem _ hf)) rfl

/-- `quit` has been called. The loop thread then leaves `poll` at most once more, and a functor
that waits in `m_pending` is executed before the thread leaves `loop()` exactly when the thread is
in a pass at this moment. -/
theorem stop_executes_iff (threadId : ℤ) {ms : List Label}
    (hr : run step (start threadId) ls = some s) (hquit : s.quit = true)
    (hrest : run step s ms = some s') (hout : s'.pc = .outside) (hf : f ∈ waiting s)
    (hway : f.way = .pending) :
    ms.countP Label.polls ≤ 1 ∧ (f ∈ s'.executed ↔ s.pc.passing = true) := by
  have haccounted : ∀ (u : EventLoop) m u', Accounted u → step u m = some u' → Accounted u' :=
    fun _ _ _ hu hs => hu.step hs
  have ha : Accounted s := run_invariant haccounted (accounted_start threadId) hr
  have ha' : Accounted s' := run_invariant haccounted ha hrest
  refine ⟨?_, ?_⟩
  · have hpolls := polls_le hquit hrest
    split_ifs at hpolls <;> omega
  · by_cases hpass : s.pc.passing = true
    · have hserved : ∀ (u : EventLoop) m u', Accounted u ∧ Served u f → step u m = some u' →
          Accounted u' ∧ Served u' f :=
        fun _ _ _ hu hs => ⟨hu.1.step hs, hu.2.step hu.1 hway hs⟩
      refine iff_of_true ?_ hpass
      rcases (run_invariant hserved ⟨ha, .inr ⟨hf, hpass⟩⟩ hrest).2 with hdone | ⟨-, hend⟩
      · exact hdone
      · rw [hout] at hend
        cases hend
    · refine iff_of_false ?_ hpass
      have hleft : ∀ (u : EventLoop) m u', u.quit = true ∧ Left u f → step u m = some u' →
          u'.quit = true ∧ Left u' f :=
        fun _ _ _ hu hs => ⟨quit_step hu.1 hs, hu.2.step hu.1 hs⟩
      have hstart : Left s f := by
        cases hpc : s.pc with
        | outside => exact ⟨by rwa [waiting, hpc] at hf, .inr hpc⟩
        | testing => exact ⟨by rwa [waiting, hpc] at hf, .inl hpc⟩
        | cleared =>
          rw [waiting, hpc] at hf
          rw [(ha.cleared hpc).1] at hf
          cases hf
        | polling | handling _ | locking | walking _ _ =>
          rw [hpc] at hpass
          exact absurd rfl hpass
      obtain ⟨-, hpending, -⟩ := run_invariant hleft ⟨hquit, hstart⟩ hrest
      refine not_mem_executed ha' hway ?_
      rw [waiting, hout]
      exact hpending

/-- The loop is stopped while it is in `poll`, and a functor is pushed before `poll` returns. -/
theorem stop_executes_last_pass : ∃ s s', run step (start 1)
      [.loop, .test, .quit, .runInLoop 2, .lock 2, .push 2 0, .wake 2] = some s ∧
    run step s [.poll true false, .handleWakeup, .handled, .lockPending, .next, .ret, .clear,
      .unlock, .test] = some s' ∧ (⟨0, 2, .pending⟩ : Functor) ∈ s'.executed := by
  obtain ⟨s, hs⟩ : ∃ s, run step (start 1)
      [.loop, .test, .quit, .runInLoop 2, .lock 2, .push 2 0, .wake 2] = some s := ⟨_, rfl⟩
  obtain ⟨s', hs'⟩ : ∃ s', run step s [.poll true false, .handleWakeup, .handled, .lockPending,
      .next, .ret, .clear, .unlock, .test] = some s' := by
    cases hs
    exact ⟨_, rfl⟩
  have hfacts : s.quit = true ∧ (⟨0, 2, .pending⟩ : Functor) ∈ waiting s ∧
      s.pc.passing = true := by
    cases hs
    exact ⟨rfl, List.mem_singleton_self _, rfl⟩
  have hout : s'.pc = .outside := by
    cases hs
    cases hs'
    rfl
  have hstop := stop_executes_iff 1 hs hfacts.1 hs' hout hfacts.2.1 rfl
  exact ⟨s, s', hs, hs', hstop.2.mpr hfacts.2.2⟩

end GenericServer.PendingFunctors
