import GenericServer.PendingFunctorsProgress

/-!
# Loops that post to each other come to rest

Without new posts and events the threads make finitely many steps. Where none of them can go on,
all loops wait in `epoll_wait` with nothing left, or threads wait for each other in a circle.
-/
namespace GenericServer.CrossLoopPosting

open TransitionRuns ThreadWeights WaitGraphs PendingFunctors

variable {s s' : System} {l : Label} {j t u : ℤ} {ts ts' : Finset ℤ}

theorem step_eq (hs : step s (j, l) = some s') :
    canAct s j l = true ∧ ∃ v, PendingFunctors.step (s.loop j) l = some v ∧
      s' = { loop := Function.update s.loop j v
             calling := if actor j l = j then s.calling
               else Function.update s.calling (actor j l) (callAfter j (actor j l) v) } := by
  simp only [step] at hs
  by_cases hact : canAct s j l = true
  · rw [if_pos hact] at hs
    obtain ⟨v, hv, rfl⟩ := Option.map_eq_some_iff.mp hs
    exact ⟨hact, v, hv, rfl⟩
  · rw [if_neg hact] at hs
    cases hs

/-- What holds of the loops in every run, and which of them have been started or called. -/
structure Steady (ts : Finset ℤ) (s : System) : Prop where
  consistent : Consistent s
  sane : ∀ j, Sane (s.loop j)
  inCall : ∀ t j, s.calling t = some j → (s.loop j).poster t ≠ .idle
  among : ∀ j, AllBut ts .idle (s.loop j).poster
  still : ∀ j, j ∉ ts → s.loop j = PendingFunctors.start j

theorem steady_start : Steady ∅ start where
  consistent := consistent_start
  sane := sane_start
  inCall _ _ h := by cases h
  among _ _ _ := rfl
  still _ _ := rfl

namespace Steady

theorem mono (h : Steady ts s) (hsub : ts ⊆ ts') : Steady ts' s :=
  ⟨h.consistent, h.sane, h.inCall, fun j t ht => h.among j t fun hmem => ht (hsub hmem),
    fun j hj => h.still j fun hmem => hj (hsub hmem)⟩

theorem step (h : Steady ts s) (hl : Notifies (s.loop j) l) (hj : j ∈ ts) (ha : actor j l ∈ ts)
    (hs : CrossLoopPosting.step s (j, l) = some s') : Steady ts s' := by
  have hconsistent := h.consistent.step hs
  obtain ⟨-, v, hv, rfl⟩ := step_eq hs
  have hm := move_of_step hv
  have hsane : Sane v := (h.sane j).step hl hv
  refine ⟨hconsistent, fun k => ?_, fun t k hk => ?_, fun k t ht => ?_, fun k hk => ?_⟩
  · dsimp only
    by_cases hkj : k = j
    · subst hkj
      rwa [Function.update_self]
    · rw [Function.update_of_ne hkj]
      exact h.sane k
  · dsimp only at hk ⊢
    have hother : t ≠ actor j l → s.calling t = some k →
        (Function.update s.loop j v k).poster t ≠ .idle := by
      intro ht hcall
      by_cases hkj : k = j
      · subst hkj
        rw [Function.update_self, poster_of_ne hm ht]
        exact h.inCall t k hcall
      · rw [Function.update_of_ne hkj]
        exact h.inCall t k hcall
    by_cases ht : t = actor j l
    · subst ht
      split_ifs at hk with hself
      · -- the loop thread is in no call of its own loop
        by_cases hkj : k = j
        · subst hkj
          have hidle := (h.sane k).accounted.loopThread
          rw [h.consistent.thread] at hidle
          have hbusy := h.inCall _ _ hk
          rw [hself] at hbusy
          exact absurd hidle hbusy
        · rw [Function.update_of_ne hkj]
          exact h.inCall _ _ hk
      · rw [Function.update_self, callAfter] at hk
        split_ifs at hk with hidle
        cases hk
        rwa [Function.update_self]
    · apply hother ht
      split_ifs at hk
      · exact hk
      · rwa [Function.update_of_ne ht] at hk
  · dsimp only
    by_cases hkj : k = j
    · subst hkj
      have hne : t ≠ actor k l := by
        rintro rfl
        exact ht ha
      rw [Function.update_self, poster_of_ne hm hne]
      exact h.among k t ht
    · rw [Function.update_of_ne hkj]
      exact h.among k t ht
  · have hkj : k ≠ j := by
      rintro rfl
      exact hk hj
    dsimp only
    rw [Function.update_of_ne hkj]
    exact h.still k hk

theorem mem_of_inner (h : Steady ts s) (hl : l.inner = true)
    (hs : CrossLoopPosting.step s (j, l) = some s') : j ∈ ts ∧ actor j l ∈ ts := by
  obtain ⟨-, v, hv, -⟩ := step_eq hs
  have hmem : j ∈ ts := by
    by_contra hnot
    rw [h.still j hnot] at hv
    cases l with
    | runInLoop | addPending | quit | loop | handleEvent => cases hl
    | lock | push | wake | test | poll | handleWakeup | handled | lockPending | next | clear
    | unlock | ret => simp [PendingFunctors.step, PendingFunctors.start] at hv
  refine ⟨hmem, ?_⟩
  cases move_of_step hv with
  | runInLoop | pushOwn | pushDuring | quit | loop | handleEvent => cases hl
  | post hbegins =>
    cases hbegins with
    | runInLoop | addPending => cases hl
  | lock hp | push hp | wake hp => exact (h.among j).mem hp (by simp)
  | ret | leave | goOn | poll | handleWakeup | handled | lockPending | next | clear | unlock =>
    exact hmem

theorem inner {m : ℤ × Label} (h : Steady ts s) (hm : m.2.inner = true)
    (hs : CrossLoopPosting.step s m = some s') :
    Steady ts s' ∧ total (EventLoop.work ts) ts s'.loop < total (EventLoop.work ts) ts s.loop := by
  obtain ⟨j, l⟩ := m
  obtain ⟨hj, ha⟩ := h.mem_of_inner hm hs
  have hnext := h.step (notifies_of_inner hm) hj ha hs
  obtain ⟨-, v, hv, rfl⟩ := step_eq hs
  have hless := (Underway.inner ⟨h.sane j, h.among j⟩ hm hv).2
  exact ⟨hnext, total_lt hj hless⟩

end Steady

theorem exists_steady {ls : List (ℤ × Label)} (hr : run step start ls = some s)
    (hl : Guarded step (fun s m => Notifies (s.loop m.1) m.2) start ls) :
    ∃ ts : Finset ℤ, Steady ts s := by
  have hkeep : ∀ (s : System) (m : ℤ × Label) s', (∃ ts, Steady ts s) →
      Notifies (s.loop m.1) m.2 → step s m = some s' → ∃ ts, Steady ts s' := by
    rintro s ⟨j, l⟩ s' ⟨ts, h⟩ hm hs
    refine ⟨insert j (insert (actor j l) ts), ?_⟩
    have hmore := h.mono ((Finset.subset_insert (actor j l) ts).trans (Finset.subset_insert j _))
    exact hmore.step hm (by simp) (by simp) hs
  exact hl.invariant hkeep ⟨∅, steady_start⟩ hr

/-! ## Where no thread can go on -/

/-- No call that has begun and no loop can go on. -/
def Hung (s : System) : Prop := ∀ j l, l.inner = true → step s (j, l) = none

/-- Every thread is outside of calls and of its loop, or waits in `epoll_wait` and has executed
what was handed to its loop, but for what it has pushed during a walk itself. -/
def AtRest (s : System) : Prop :=
  (∀ t, s.calling t = none) ∧ ∀ j, (∀ t, (s.loop j).poster t = .idle) ∧
    ((s.loop j).pc ≠ .outside → (s.loop j).pc = .polling ∧
      ∀ f ∈ (s.loop j).posted, f.way ≠ .during → f ∈ (s.loop j).executed)

theorem AtRest.not_deadlock (h : AtRest s) : ¬ Deadlock (WaitsFor s) := by
  rintro ⟨parties, ⟨t, ht⟩, hwaits⟩
  obtain ⟨u, -, -, j, ⟨f, wake, hp⟩ | ⟨rfl, hpc⟩, -⟩ := hwaits t ht
  · rw [(h.2 j).1 t] at hp
    cases hp
  · obtain ⟨hpolling, -⟩ := (h.2 t).2 (by simp [hpc])
    rw [hpc] at hpolling
    cases hpolling

namespace Hung

theorem loop_none (h : Hung s) (hl : l.inner = true) (hact : canAct s j l = true) :
    PendingFunctors.step (s.loop j) l = none := by
  have hnone := h j l hl
  simp only [step, if_pos hact] at hnone
  exact Option.map_eq_none_iff.mp hnone

theorem waits_of_calling (h : Hung s) (hs : Steady ts s) (hcall : s.calling t = some j) :
    ∃ u, WaitsFor s t u := by
  cases hp : (s.loop j).poster t with
  | idle => exact absurd hp (hs.inCall t j hcall)
  | locking f wake =>
    cases howner : (s.loop j).owner with
    | none =>
      have hlock := h.loop_none (l := .lock t) rfl (decide_eq_true hcall)
      simp [PendingFunctors.step, hp, howner] at hlock
    | some u => exact ⟨u, j, .inl ⟨f, wake, hp⟩, howner⟩
  | pushing f wake =>
    have hpush := h.loop_none (l := .push t 0) rfl (decide_eq_true hcall)
    simp [PendingFunctors.step, hp] at hpush
  | waking =>
    have hwake := h.loop_none (l := .wake t) rfl (decide_eq_true hcall)
    simp [PendingFunctors.step, hp] at hwake

theorem holder_calls (h : Hung s) (hs : Steady ts s) (howner : (s.loop j).owner = some u) :
    ∃ k, s.calling u = some k := by
  by_contra hnot
  have hcall : s.calling u = none := by
    cases hcase : s.calling u with
    | none => rfl
    | some k => exact absurd ⟨k, hcase⟩ hnot
  by_cases hu : u = (s.loop j).threadId
  · subst hu
    obtain ⟨l, hl, hown, hsome⟩ := holder_goes_on (hs.sane j) howner
    rw [hs.consistent.thread] at hcall
    have hact : canAct s j l = true := by
      cases l with
      | runInLoop | addPending | quit | loop | handleEvent => cases hl
      | lock | push | wake => cases hown
      | ret | test | poll | handleWakeup | handled | lockPending | next | clear | unlock =>
        exact decide_eq_true hcall
    rw [h.loop_none hl hact] at hsome
    cases hsome
  · obtain ⟨f, wake, hp⟩ := (hs.sane j).held u howner hu
    exact hnot ⟨j, hs.consistent.calls j u (by simp [hp])⟩

theorem next_waits (h : Hung s) (hs : Steady ts s) (htu : WaitsFor s t u) :
    ∃ v, WaitsFor s u v := by
  obtain ⟨j, -, howner⟩ := htu
  obtain ⟨k, hcall⟩ := h.holder_calls hs howner
  exact h.waits_of_calling hs hcall

/-- Where some thread waits, some threads wait in a circle. -/
theorem deadlock (h : Hung s) (hs : Steady ts s) (htu : WaitsFor s t u) :
    Deadlock (WaitsFor s) := by
  classical
  have hmem : ∀ {a b}, WaitsFor s a b → a ∈ ts.filter fun c => ∃ d, WaitsFor s c d := by
    intro a b hab
    refine Finset.mem_filter.mpr ⟨?_, b, hab⟩
    obtain ⟨k, ⟨f, wake, hp⟩ | ⟨rfl, hpc⟩, -⟩ := hab
    · exact (hs.among k).mem hp (by simp)
    · by_contra hnot
      rw [hs.still a hnot] at hpc
      cases hpc
  refine ⟨ts.filter fun c => ∃ d, WaitsFor s c d, ⟨t, hmem htu⟩, fun a ha => ?_⟩
  obtain ⟨b, hab⟩ := (Finset.mem_filter.mp ha).2
  obtain ⟨c, hbc⟩ := h.next_waits hs hab
  refine ⟨b, hmem hbc, ?_, hab⟩
  rintro rfl
  exact hs.consistent.not_waits_self b hab

theorem atRest (h : Hung s) (hs : Steady ts s) (hnone : ∀ t u, ¬ WaitsFor s t u) : AtRest s := by
  have hcall : ∀ t, s.calling t = none := by
    intro t
    cases hcase : s.calling t with
    | none => rfl
    | some j =>
      obtain ⟨u, hu⟩ := h.waits_of_calling hs hcase
      exact absurd hu (hnone t u)
  have hidle : ∀ j t, (s.loop j).poster t = .idle := by
    intro j t
    by_contra hbusy
    have hbegun := hs.consistent.calls j t hbusy
    rw [hcall t] at hbegun
    cases hbegun
  have hstuck : ∀ j, PendingFunctors.Stuck (s.loop j) := by
    intro j l hl
    cases l with
    | runInLoop | addPending | quit | loop | handleEvent => cases hl
    | lock t | push t | wake t => simp [PendingFunctors.step, hidle j t]
    | ret | test | poll | handleWakeup | handled | lockPending | next | clear | unlock =>
      exact h.loop_none hl (decide_eq_true (hcall j))
  refine ⟨hcall, fun j => ⟨hidle j, fun hpc => ⟨(hstuck j).polling (hs.sane j) hpc, ?_⟩⟩⟩
  exact fun f hf hway => (hstuck j).executed (hs.sane j) hpc hf hway

end Hung

/-- In every state that can be reached, the threads that post with a wake-up, their functors and
the loops make finitely many steps unless there are new posts or events. Where they cannot go on,
all loops have come to rest, or there is a deadlock; and there is none if every post has fitted. -/
theorem loops_settle {ls : List (ℤ × Label)} (hr : run step start ls = some s)
    (hl : Guarded step (fun s m => Notifies (s.loop m.1) m.2) start ls) :
    (∃ n, ∀ ms s', (∀ m ∈ ms, m.2.inner = true) → run step s ms = some s' → ms.length ≤ n) ∧
      ∀ ms s', (∀ m ∈ ms, m.2.inner = true) → run step s ms = some s' → Hung s' →
        (AtRest s' ↔ ¬ Deadlock (WaitsFor s')) ∧
          (Guarded step PostFits start ls → AtRest s') := by
  obtain ⟨ts, hsteady⟩ := exists_steady hr hl
  refine ⟨⟨total (EventLoop.work ts) ts s.loop, fun ms s' hms hrun => ?_⟩, ?_⟩
  · have := run_length_le (fun _ _ _ h hm hs => Steady.inner h hm hs) hsteady hms hrun
    omega
  · intro ms s' hms hrun hhung
    have hinner : Guarded step (fun _ m => m.2.inner = true) s ms :=
      guarded_of_forall s fun m hm _ => hms m hm
    have hend : Steady ts s' :=
      hinner.invariant (fun _ _ _ h hm hs => (h.inner hm hs).1) hsteady hrun
    have hiff : AtRest s' ↔ ¬ Deadlock (WaitsFor s') := by
      refine ⟨AtRest.not_deadlock, fun hfree => hhung.atRest hend fun t u htu => ?_⟩
      exact hfree (hhung.deadlock hend htu)
    refine ⟨hiff, fun hfits => hiff.mpr ?_⟩
    have hkeep : ∀ (s : System) (m : ℤ × Label) s', Consistent s ∧ Acyclic (WaitsFor s) →
        PostFits s m → step s m = some s' → Consistent s' ∧ Acyclic (WaitsFor s') :=
      fun _ _ _ h hfit hs => ⟨h.1.step hs, acyclic_step h.1 hs h.2 hfit⟩
    have hbegin : Acyclic (WaitsFor start) := by
      intro t ht
      obtain ⟨u, ⟨j, -, howner⟩, -⟩ := Relation.TransGen.head'_iff.mp ht
      cases howner
    have hmid := hfits.invariant hkeep ⟨consistent_start, hbegin⟩ hr
    -- only the beginning of a call has to fit
    have hrest : Guarded step PostFits s ms := by
      refine guarded_of_forall s fun m hm s => ?_
      obtain ⟨j, l⟩ := m
      have hl := hms _ hm
      cases l with
      | runInLoop | addPending => cases hl
      | lock | push | wake | ret | quit | loop | test | poll | handleEvent | handleWakeup | handled
      | lockPending | next | clear | unlock => trivial
    exact (hrest.invariant hkeep hmid hrun).2.not_deadlock

/-- A functor of loop 1 is about to post to loop 2, which is executing its own functor. -/
theorem loops_settle_one_way : ∃ s, run step start
      [(1, .loop), (1, .test), (2, .loop), (2, .test), (1, .runInLoop 3), (1, .lock 3),
        (1, .push 3 0), (1, .wake 3), (2, .runInLoop 3), (2, .lock 3), (2, .push 3 0), (2, .wake 3),
        (1, .poll true false), (1, .handleWakeup), (1, .handled), (1, .lockPending), (1, .next),
        (2, .poll true false), (2, .handleWakeup), (2, .handled), (2, .lockPending), (2, .next),
        (2, .runInLoop 1)] = some s ∧
    (∃ n, ∀ ms s', (∀ m ∈ ms, m.2.inner = true) → run step s ms = some s' → ms.length ≤ n) ∧
      ∀ ms s', (∀ m ∈ ms, m.2.inner = true) → run step s ms = some s' → Hung s' → AtRest s' := by
  obtain ⟨s, hs⟩ : ∃ s, run step start
      [(1, .loop), (1, .test), (2, .loop), (2, .test), (1, .runInLoop 3), (1, .lock 3),
        (1, .push 3 0), (1, .wake 3), (2, .runInLoop 3), (2, .lock 3), (2, .push 3 0), (2, .wake 3),
        (1, .poll true false), (1, .handleWakeup), (1, .handled), (1, .lockPending), (1, .next),
        (2, .poll true false), (2, .handleWakeup), (2, .handled), (2, .lockPending), (2, .next),
        (2, .runInLoop 1)] = some s := ⟨_, rfl⟩
  have hall := loops_settle hs (guarded_of_forall _ (by simp [Notifies]))
  refine ⟨s, hs, hall.1, fun ms s' hms hrun hhung => (hall.2 ms s' hms hrun hhung).2 ?_⟩
  exact guarded_of_postsToRunning (by decide)

end GenericServer.CrossLoopPosting
