import GenericServer.CrossLoopPosting

/-!
# When loops that post to each other deadlock

A thread holds the mutex of another loop only inside `emplace_back`, where it waits for nothing;
so every chain of waiting threads runs through threads that are in `doPending` with a functor
that posts on. Such a chain is closed by a post and by nothing else.
-/
namespace GenericServer.CrossLoopPosting

open TransitionRuns WaitGraphs PendingFunctors Relation

/-! ## One mutex -/

/-- The thread is at the lock of this loop's `m_pendingMutex`. -/
def WantsLock (u : EventLoop) (t : ℤ) : Prop :=
  (∃ f wake, u.poster t = .locking f wake) ∨ (t = u.threadId ∧ u.pc = .locking)

/-- A thread other than the loop thread holds the mutex only inside `emplace_back`. -/
def Held (u : EventLoop) : Prop :=
  ∀ t, u.owner = some t → t ≠ u.threadId → ∃ f wake, u.poster t = .pushing f wake

/-- What a step means for the mutex: nothing or a new candidate, taken, given back. -/
inductive MutexMove (u u' : EventLoop) (l : Label) : Prop
  | idle (howner : u'.owner = u.owner) (hwants : ∀ a, WantsLock u' a → WantsLock u a)
  | post (t : ℤ) (wake : Bool) (hl : l.Begins t wake) (ht : t ≠ u.threadId)
      (howner : u'.owner = u.owner) (hwants : ∀ a, WantsLock u' a ↔ WantsLock u a ∨ a = t)
  | handled (hl : l = .handled) (hpc : u.pc.holds = false) (howner : u'.owner = u.owner)
      (hwants : ∀ a, WantsLock u' a → WantsLock u a ∨ a = u.threadId)
  | taken (t : ℤ) (howner : u'.owner = some t) (hwants : ∀ a, WantsLock u' a → WantsLock u a)
      (hself : t = u.threadId → l = .lockPending ∧ u'.pc ≠ .locking)
  | free (howner : u'.owner = none)

variable {u u' : EventLoop} {l : Label} {t : ℤ}

private theorem wantsLock_own (hposter : u'.poster = u.poster) (hthread : u'.threadId = u.threadId)
    (hpc : u'.pc = .locking → u.pc = .locking) (a : ℤ) (h : WantsLock u' a) : WantsLock u a := by
  unfold WantsLock at *
  rw [hposter, hthread] at h
  exact h.imp_right fun h => ⟨h.1, hpc h.2⟩

private theorem wantsLock_congr {a : ℤ} (hpc : u'.pc = u.pc) (hthread : u'.threadId = u.threadId)
    (hposter : u'.poster a = u.poster a) : WantsLock u' a ↔ WantsLock u a := by
  unfold WantsLock
  rw [hposter, hthread, hpc]

private theorem wantsLock_leave (hpc : u'.pc = u.pc) (hthread : u'.threadId = u.threadId)
    {p : Poster} (hposter : u'.poster = Function.update u.poster t p)
    (hp : ∀ f wake, p ≠ .locking f wake) (a : ℤ) (h : WantsLock u' a) : WantsLock u a := by
  by_cases ha : a = t
  · subst ha
    rcases h with ⟨f, wake, hf⟩ | ⟨hself, hlock⟩
    · rw [hposter, Function.update_self] at hf
      exact absurd hf (hp f wake)
    · exact .inr ⟨hself.trans hthread, hpc ▸ hlock⟩
  · exact (wantsLock_congr hpc hthread (by rw [hposter, Function.update_of_ne ha])).mp h

theorem begins_mutex (hm : Move u l u') {wake : Bool} (hl : l.Begins t wake)
    (ht : t ≠ u.threadId) :
    u'.owner = u.owner ∧ ∀ a, WantsLock u' a ↔ WantsLock u a ∨ a = t := by
  cases hm with
  | post hl' ht' hidle =>
    rename_i t' wake'
    have heq : t' = t := by
      cases hl with
      | runInLoop | addPending =>
        cases hl'
        rfl
    subst heq
    refine ⟨rfl, fun a => ?_⟩
    by_cases ha : a = t'
    · subst ha
      exact ⟨fun _ => .inr rfl, fun _ => .inl ⟨_, _, Function.update_self ..⟩⟩
    · rw [or_iff_left ha]
      exact wantsLock_congr rfl rfl (Function.update_of_ne ha _ _)
  | runInLoop | pushOwn | pushDuring =>
    cases hl
    exact absurd rfl ht
  | lock | push | wake | ret | quit | loop | leave | goOn | poll | handleEvent | handleWakeup
  | handled | lockPending | next | clear | unlock => cases hl

theorem mutexMove (h : Accounted u) (hm : Move u l u') : MutexMove u u' l := by
  cases hm with
  | post hl ht hidle =>
    obtain ⟨howner, hwants⟩ := begins_mutex (.post hl ht hidle) hl ht
    exact .post _ _ hl ht howner hwants
  | lock hp howner =>
    rename_i t f wake
    refine .taken t rfl (wantsLock_leave rfl rfl rfl fun _ _ => nofun) fun ht => ?_
    rw [ht, h.loopThread] at hp
    cases hp
  | push => exact .free rfl
  | wake hp => exact .idle rfl (wantsLock_leave rfl rfl rfl fun _ _ => nofun)
  | runInLoop | pushOwn | pushDuring | ret | quit | handleEvent =>
    exact .idle rfl (wantsLock_own rfl rfl id)
  | loop | leave | goOn | poll | handleWakeup | next | clear =>
    exact .idle rfl (wantsLock_own rfl rfl nofun)
  | handled hpc hnesting =>
    refine .handled rfl (by rw [hpc]; rfl) rfl fun a ha => ?_
    exact ha.imp (fun hposter => .inl hposter) (fun hself => hself.1)
  | lockPending hpc howner =>
    exact .taken _ rfl (wantsLock_own rfl rfl nofun) fun _ => ⟨rfl, nofun⟩
  | unlock => exact .free rfl

theorem held_start (threadId : ℤ) : Held (PendingFunctors.start threadId) := nofun

private theorem held_update (h : Held u) (howner : u'.owner = u.owner)
    (hthread : u'.threadId = u.threadId) {p : Poster}
    (hposter : u'.poster = Function.update u.poster t p)
    (ht : ∀ f wake, u.poster t ≠ .pushing f wake) : Held u' := by
  intro a ha hne
  obtain ⟨f, wake, hf⟩ := h a (howner ▸ ha) (hthread ▸ hne)
  refine ⟨f, wake, ?_⟩
  rw [hposter, Function.update_of_ne]
  · exact hf
  · rintro rfl
    exact ht f wake hf

theorem Held.step (h : Held u) (hm : Move u l u') : Held u' := by
  cases hm with
  | post hl ht hidle => exact held_update h rfl rfl rfl (by rw [hidle]; exact fun _ _ => nofun)
  | lock hp howner =>
    intro a ha hne
    cases ha
    exact ⟨_, _, Function.update_self ..⟩
  | push | unlock => exact nofun
  | wake hp => exact held_update h rfl rfl rfl (by rw [hp]; exact fun _ _ => nofun)
  | lockPending hpc howner =>
    intro a ha hne
    cases ha
    exact absurd rfl hne
  | runInLoop | pushOwn | pushDuring | ret | quit | loop | leave | goOn | poll | handleEvent
  | handleWakeup | handled | next | clear => exact h

/-! ## All loops -/

structure Consistent (s : System) : Prop where
  thread : ∀ j, (s.loop j).threadId = j
  accounted : ∀ j, Accounted (s.loop j)
  settled : ∀ j, Settled (s.loop j)
  held : ∀ j, Held (s.loop j)
  calls : ∀ j t, (s.loop j).poster t ≠ .idle → s.calling t = some j
  user : ∀ t j, s.calling t = some j → 0 < (s.loop t).nesting

theorem consistent_start : Consistent start where
  thread _ := rfl
  accounted := accounted_start
  settled := settled_start
  held := held_start
  calls _ _ h := absurd rfl h
  user _ _ h := by cases h

variable {s s' : System} {j : ℤ}

theorem step_cases (hs : step s (j, l) = some s') :
    canAct s j l = true ∧ ∃ u, Move (s.loop j) l u ∧
      s' = { loop := Function.update s.loop j u
             calling := if actor j l = j then s.calling
               else Function.update s.calling (actor j l) (callAfter j (actor j l) u) } := by
  simp only [step] at hs
  by_cases hact : canAct s j l = true
  · rw [if_pos hact] at hs
    obtain ⟨u, hu, rfl⟩ := Option.map_eq_some_iff.mp hs
    exact ⟨hact, u, move_of_step hu, rfl⟩
  · rw [if_neg hact] at hs
    cases hs

theorem foreign_cases (hthread : (s.loop j).threadId = j) (hm : Move (s.loop j) l u)
    (hact : canAct s j l = true) (hne : actor j l ≠ j) :
    u.nesting = (s.loop j).nesting ∧
      ((s.calling (actor j l) = none ∧ 0 < (s.loop (actor j l)).nesting) ∨
        s.calling (actor j l) = some j) := by
  cases hm with
  | post hl ht hidle =>
    refine ⟨rfl, .inl ?_⟩
    cases hl with
    | runInLoop | addPending => exact of_decide_eq_true hact
  | lock | push | wake => exact ⟨rfl, .inr (of_decide_eq_true hact)⟩
  | runInLoop | pushOwn | pushDuring => exact absurd hthread hne
  | ret | quit | loop | leave | goOn | poll | handleEvent | handleWakeup | handled | lockPending
  | next | clear | unlock => exact absurd rfl hne

/-- While a thread is inside a call of another loop, its own loop does not move on. -/
theorem own_cases (hm : Move (s.loop j) l u) (hact : canAct s j l = true) (hself : actor j l = j) :
    u.nesting = (s.loop j).nesting ∨ s.calling j = none := by
  cases hm with
  | quit => exact .inl rfl
  | runInLoop | pushOwn | pushDuring =>
    simp only [actor] at hself
    simp only [canAct, hself, decide_eq_true_eq] at hact
    exact .inr hact.1
  | post hl ht hidle => exact .inl rfl
  | lock | push | wake => exact .inl rfl
  | ret | loop | leave | goOn | poll | handleEvent | handleWakeup | handled | lockPending
  | next | clear | unlock => exact .inr (of_decide_eq_true hact)

theorem poster_of_ne (hm : Move (s.loop j) l u) (ht : t ≠ actor j l) :
    u.poster t = (s.loop j).poster t := by
  cases hm with
  | post hl =>
    cases hl with
    | runInLoop | addPending => exact Function.update_of_ne ht _ _
  | lock | push | wake => exact Function.update_of_ne ht _ _
  | runInLoop | pushOwn | pushDuring | ret | quit | loop | leave | goOn | poll | handleEvent
  | handleWakeup | handled | lockPending | next | clear | unlock => rfl

namespace Consistent

theorem step (h : Consistent s) (hs : CrossLoopPosting.step s (j, l) = some s') :
    Consistent s' := by
  obtain ⟨hact, u, hm, rfl⟩ := step_cases hs
  have hloops : ∀ {P : EventLoop → Prop}, (∀ k, P (s.loop k)) → P u →
      ∀ k, P (Function.update s.loop j u k) := by
    intro P hP hu k
    by_cases hk : k = j
    · subst hk
      rwa [Function.update_self]
    · rw [Function.update_of_ne hk]
      exact hP k
  have hacc : Accounted u := (h.accounted j).of_move hm
  refine ⟨fun k => ?_, hloops h.accounted hacc,
    hloops h.settled ((h.settled j).of_move (h.accounted j) hm), hloops h.held ((h.held j).step hm),
    fun k t hk => ?_, fun t k hk => ?_⟩
  · by_cases hkj : k = j
    · subst hkj
      simp only [Function.update_self, hm.threadId, h.thread k]
    · simp only [Function.update_of_ne hkj, h.thread k]
  · dsimp only at hk ⊢
    by_cases hkj : k = j
    · subst hkj
      rw [Function.update_self] at hk
      by_cases ht : t = actor k l
      · subst ht
        have hself : actor k l ≠ k := by
          intro hself
          have hidle := hacc.loopThread
          rw [hm.threadId, h.thread, ← hself] at hidle
          exact hk hidle
        rw [if_neg hself, Function.update_self, callAfter, if_neg hk]
      · rw [poster_of_ne hm ht] at hk
        split_ifs
        · exact h.calls k t hk
        · rw [Function.update_of_ne ht]
          exact h.calls k t hk
    · rw [Function.update_of_ne hkj] at hk
      have hcall := h.calls k t hk
      split_ifs with hself
      · exact hcall
      · by_cases ht : t = actor j l
        · subst ht
          rcases (foreign_cases (h.thread j) hm hact hself).2 with ⟨hnone, -⟩ | hsome
          · rw [hnone] at hcall
            cases hcall
          · rw [hsome] at hcall
            cases hcall
            exact absurd rfl hkj
        · rw [Function.update_of_ne ht]
          exact hcall
  · dsimp only at hk ⊢
    by_cases hself : actor j l = j
    · rw [if_pos hself] at hk
      by_cases htj : t = j
      · subst htj
        rw [Function.update_self]
        rcases own_cases hm hact hself with hsame | hnone
        · rw [hsame]
          exact h.user t k hk
        · rw [hnone] at hk
          cases hk
      · rw [Function.update_of_ne htj]
        exact h.user t k hk
    · obtain ⟨hsame, hcaller⟩ := foreign_cases (h.thread j) hm hact hself
      rw [if_neg hself] at hk
      by_cases ht : t = actor j l
      · subst ht
        rw [Function.update_of_ne hself]
        exact hcaller.elim (fun hnone => hnone.2) (h.user _ j)
      · rw [Function.update_of_ne ht] at hk
        by_cases htj : t = j
        · subst htj
          rw [Function.update_self, hsame]
          exact h.user t k hk
        · rw [Function.update_of_ne htj]
          exact h.user t k hk

/-! ## Waiting -/

theorem wants_iff (h : Consistent s) (t j : ℤ) : Wants s t j ↔ WantsLock (s.loop j) t := by
  unfold Wants WantsLock
  rw [h.thread]

theorem not_waits_of_owner (h : Consistent s) (howner : (s.loop j).owner = some t) (ht : t ≠ j)
    (v : ℤ) : ¬ WaitsFor s t v := by
  rintro ⟨k, hwants, -⟩
  obtain ⟨f, wake, hp⟩ := h.held j t howner (by rw [h.thread]; exact ht)
  have hcall : s.calling t = some j := h.calls j t (by rw [hp]; exact nofun)
  rcases hwants with ⟨g, w, hg⟩ | ⟨rfl, hpc⟩
  · have hcall' := h.calls k t (by rw [hg]; exact nofun)
    rw [hcall] at hcall'
    cases hcall'
    rw [hp] at hg
    cases hg
  · have huser := h.user t j hcall
    rw [h.settled t (by rw [hpc]; rfl)] at huser
    exact absurd huser (lt_irrefl 0)

theorem not_waits_of_calling (h : Consistent s) (hcall : s.calling t = none)
    (hpc : (s.loop t).pc ≠ .locking) (v : ℤ) : ¬ WaitsFor s t v := by
  rintro ⟨k, ⟨g, w, hg⟩ | ⟨rfl, hlock⟩, -⟩
  · have hcall' := h.calls k t (by rw [hg]; exact nofun)
    rw [hcall] at hcall'
    cases hcall'
  · exact hpc hlock

theorem not_waits_self (h : Consistent s) (t : ℤ) : ¬ WaitsFor s t t := by
  rintro ⟨j, hwants, howner⟩
  by_cases htj : t = j
  · subst htj
    rcases hwants with ⟨f, wake, hf⟩ | ⟨-, hlock⟩
    · have hidle := (h.accounted t).loopThread
      rw [h.thread, hf] at hidle
      cases hidle
    · have hholds := (h.accounted t).holds.mp (by rw [howner, h.thread])
      rw [hlock] at hholds
      cases hholds
  · exact h.not_waits_of_owner howner htj t ⟨j, hwants, howner⟩

end Consistent

theorem loop_step (hs : step s (j, l) = some s') :
    Move (s.loop j) l (s'.loop j) ∧ ∀ k, k ≠ j → s'.loop k = s.loop k := by
  obtain ⟨-, u, hm, rfl⟩ := step_cases hs
  refine ⟨?_, fun k hk => Function.update_of_ne hk _ _⟩
  dsimp only
  rwa [Function.update_self]

theorem calling_own (hs : step s (j, l) = some s') (hself : actor j l = j) :
    canAct s j l = true ∧ s'.calling = s.calling := by
  obtain ⟨hact, u, -, rfl⟩ := step_cases hs
  exact ⟨hact, if_pos hself⟩

theorem postFits_iff {wake : Bool} (hl : l.Begins t wake) : PostFits s (j, l) ↔
    (t ≠ j → ∀ u, (s.loop j).owner = some u → ¬ ReflTransGen (WaitsFor s) u t) := by
  cases hl with
  | runInLoop | addPending => exact Iff.rfl

theorem of_not_postFits (hfit : ¬ PostFits s (j, l)) : ∃ t wake u, l.Begins t wake ∧ t ≠ j ∧
    (s.loop j).owner = some u ∧ ReflTransGen (WaitsFor s) u t := by
  have hbegins : ∃ t wake, l.Begins t wake := by
    cases l with
    | runInLoop t => exact ⟨t, true, .runInLoop t⟩
    | addPending t room => exact ⟨t, false, .addPending t room⟩
    | _ => exact absurd trivial hfit
  obtain ⟨t, wake, hl⟩ := hbegins
  rw [postFits_iff hl] at hfit
  push Not at hfit
  obtain ⟨ht, u, howner, hback⟩ := hfit
  exact ⟨t, wake, u, hl, ht, howner, hback⟩

/-- An edge of the new graph is an old one or goes through the mutex of the loop that moved. -/
theorem waits_cases (h' : Consistent s') (hs : step s (j, l) = some s') {a b : ℤ}
    (hab : WaitsFor s' a b) :
    WaitsFor s a b ∨ (WantsLock (s'.loop j) a ∧ (s'.loop j).owner = some b) := by
  obtain ⟨k, hwants, howner⟩ := hab
  by_cases hk : k = j
  · subst hk
    exact .inr ⟨(h'.wants_iff a k).mp hwants, howner⟩
  · left
    refine ⟨k, ?_, ?_⟩
    · unfold Wants at *
      rwa [(loop_step hs).2 k hk] at hwants
    · rwa [(loop_step hs).2 k hk] at howner

theorem acyclic_step (h : Consistent s) (hs : step s (j, l) = some s')
    (ha : Acyclic (WaitsFor s)) (hfit : PostFits s (j, l)) : Acyclic (WaitsFor s') := by
  have h' := h.step hs
  have hedge : ∀ {a b}, WantsLock (s.loop j) a → (s.loop j).owner = some b → WaitsFor s a b :=
    fun hwants howner => ⟨j, (h.wants_iff _ j).mpr hwants, howner⟩
  cases mutexMove (h.accounted j) (loop_step hs).1 with
  | idle howner hwants =>
    refine ha.mono fun a b hab => ?_
    rcases waits_cases h' hs hab with hold | ⟨hwant, hown⟩
    · exact hold
    · exact hedge (hwants a hwant) (howner ▸ hown)
  | post t wake hl ht howner hwants =>
    rw [h.thread] at ht
    have hback := (postFits_iff hl).mp hfit ht
    refine ha.add_out (t := t) fun a b hab => ?_
    rcases waits_cases h' hs hab with hold | ⟨hwant, hown⟩
    · exact .inl hold
    · rw [howner] at hown
      exact ((hwants a).mp hwant).imp (hedge · hown) fun hat => ⟨hat, hback b hown⟩
  | handled hl hpc howner hwants =>
    refine ha.add_out (t := j) fun a b hab => ?_
    rcases waits_cases h' hs hab with hold | ⟨hwant, hown⟩
    · exact .inl hold
    · rw [howner] at hown
      rcases hwants a hwant with hwant | haj
      · exact .inl (hedge hwant hown)
      · -- the holder is another thread inside `emplace_back`, from which no path goes on
        rw [h.thread] at haj
        refine .inr ⟨haj, fun hback => ?_⟩
        have hne : b ≠ j := by
          rintro rfl
          have hholds := (h.accounted b).holds.mp (by rw [hown, h.thread])
          rw [hpc] at hholds
          cases hholds
        rw [reflTransGen_iff_eq (h.not_waits_of_owner hown hne)] at hback
        exact hne hback.symm
  | taken t howner hwants hself =>
    refine ha.add_sink (u := t) (fun a b hab => ?_) fun b => ?_
    · rcases waits_cases h' hs hab with hold | ⟨hwant, hown⟩
      · exact .inl hold
      · rw [howner] at hown
        exact .inr (Option.some.inj hown).symm
    · by_cases htj : t = j
      · subst htj
        obtain ⟨rfl, hpc⟩ := hself (h.thread t).symm
        obtain ⟨hact, hcalling⟩ := calling_own hs rfl
        exact h'.not_waits_of_calling (hcalling ▸ of_decide_eq_true hact) hpc b
      · exact h'.not_waits_of_owner howner htj b
  | free howner =>
    refine ha.mono fun a b hab => ?_
    rcases waits_cases h' hs hab with hold | ⟨-, hown⟩
    · exact hold
    · rw [howner] at hown
      cases hown

/-- The thread that holds the mutex of loop `j`, if any, is not at a lock itself. -/
def HolderRuns (s : System) (j : ℤ) : Prop :=
  ∀ u ∈ (s.loop j).owner, s.calling u = none ∧ (s.loop u).pc ≠ .locking

instance (s : System) (j : ℤ) : Decidable (HolderRuns s j) :=
  inferInstanceAs (Decidable (∀ u ∈ (s.loop j).owner, _))

theorem postFits_of_holderRuns (h : Consistent s)
    (hruns : ∀ t wake, l.Begins t wake → HolderRuns s j) : PostFits s (j, l) := by
  by_contra hfit
  obtain ⟨t, wake, u, hl, ht, howner, hback⟩ := of_not_postFits hfit
  obtain ⟨hcall, hpc⟩ := hruns t wake hl u howner
  rw [reflTransGen_iff_eq (h.not_waits_of_calling hcall hpc)] at hback
  subst hback
  obtain ⟨f, w, hp⟩ := h.held j t howner (by rw [h.thread]; exact ht)
  rw [h.calls j t (by rw [hp]; exact nofun)] at hcall
  cases hcall

/-- Every post goes to such a loop. -/
def PostsToRunning (s : System) : ℤ × Label → Bool
  | (j, .runInLoop _) => HolderRuns s j
  | (j, .addPending _ _) => HolderRuns s j
  | _ => true

theorem guarded_of_postsToRunning {ls : List (ℤ × Label)}
    (h : Guarded step (fun s l => PostsToRunning s l = true) start ls) :
    Guarded step PostFits start ls := by
  have hstep : ∀ s l s', Consistent s → step s l = some s' → Consistent s' :=
    fun _ _ _ hs ht => hs.step ht
  refine h.imp hstep (fun s l hs hruns => ?_) consistent_start
  refine postFits_of_holderRuns hs fun t wake hl => ?_
  obtain ⟨j, l⟩ := l
  cases hl with
  | runInLoop | addPending => exact of_decide_eq_true hruns

end GenericServer.CrossLoopPosting
