import GenericServer.TimingWheelCadence

/-!
# Timers that are added by callbacks

A callback of the wheel that calls `EventLoop::addTimer` inserts the entry while its own slot is
being walked. The slot of the running tick is still ahead of the iterator, so such an entry is one
tick earlier than one that is added between two ticks.
-/
namespace GenericServer.TimingWheel

open TransitionRuns

variable {s s' : State} {e x : EntryId} {k f : ℤ} {repeats : Bool} {pos : ℕ}
  {pre post : List Action}

theorem foldlM_split {w v : TimingWheel} {a : Action}
    (h : (pre ++ a :: post).foldlM act w = some v) :
    ∃ u u', pre.foldlM act w = some u ∧ u.act a = some u' ∧ post.foldlM act u' = some v := by
  rw [List.foldlM_append] at h
  obtain ⟨u, hu, h⟩ := Option.bind_eq_some_iff.mp h
  rw [List.foldlM_cons] at h
  obtain ⟨u', hu', h⟩ := Option.bind_eq_some_iff.mp h
  exact ⟨u, u', hu, hu', h⟩

theorem Armed.finish {v : TimingWheel} (h : Armed s e f) (hw : WellFormed s)
    (hwalk : s.walk = some pos) (hpos : (s.wheel.mSlots s.wheel.mCur)[pos]? = some x) (hx : x ≠ e)
    (hext : Extends (· ≠ e) s.wheel v) (fired : List (ℕ × EntryId)) :
    Armed { s with wheel := v.erase pos, fired := fired } e f := by
  have hpos' : (v.mSlots v.mCur)[pos]? = some x := by
    rw [hext.cur]
    exact hext.getElem? hpos
  refine h.congr hext.cur rfl (fun i => ?_) ?_ (passed_erase hwalk ?_)
  · rw [← hext.count i, ← count_erase hpos' i]
    simp [hx]
  · exact congrArg TimerEntry.mRound (hext.entries e (by simp))
  · rw [hext.cur, hext.take (hw.walk pos hwalk)]

/-- A callback that adds `e` settles its first run, counted from the running tick. -/
theorem armed_of_callback (hw : WellFormed s) (hsub : Subject s.wheel e k repeats) (hk : 0 ≤ k)
    (habs : Absent s e) (hwalk : s.walk = some pos)
    (hpos : (s.wheel.mSlots s.wheel.mCur)[pos]? = some x) (hx : x ≠ e)
    (hpre : ∀ a ∈ pre, a.target ≠ e) (hpost : ∀ a ∈ post, a.target ≠ e) {v : TimingWheel}
    (hv : s.wheel.fire x (pre ++ .add e :: post) = some v) (fired : List (ℕ × EntryId)) :
    Armed { s with wheel := v.erase pos, fired := fired } e (s.ticks + dueIn s.wheel.mCur k) ∧
      Subject v e k repeats ∧ v.mCur = s.wheel.mCur := by
  obtain ⟨u, hu, hrest⟩ := fire_cases hv
  obtain ⟨u₁, u₂, hu₁, hadd, hu₂⟩ := foldlM_split hu
  obtain ⟨-, -, -, rfl⟩ := addEntry_eq_some.mp hadd
  have hext₁ : Extends (· ≠ e) s.wheel u₁ := extends_script hpre hu₁
  have hext₂ : Extends (· ≠ e) (u₁.place e) v := by
    have hscript : Extends (· ≠ e) (u₁.place e) u := extends_script hpost hu₂
    rcases hrest with ⟨-, hagain⟩ | ⟨-, rfl⟩
    · obtain ⟨-, -, -, rfl⟩ := addEntry_eq_some.mp hagain
      exact hscript.trans (extends_place hx)
    · exact hscript
  have hplace : Extends (fun _ => True) u₁ (u₁.place e) := extends_place trivial
  have hlen₁ := length_slot_le hext₁ s.wheel.mCur
  have hlen₂ := length_slot_le hplace s.wheel.mCur
  have hwell₁ : WellFormed { s with wheel := u₁ } := by
    refine ⟨by rw [hext₁.interval]; exact hw.interval, by rw [hext₁.cur]; exact hw.cur_nonneg,
      by rw [hext₁.cur]; exact hw.cur_lt, fun p hp => ?_⟩
    rw [hext₁.cur]
    exact (hw.walk p hp).trans hlen₁
  have hwell₂ : WellFormed { s with wheel := u₁.place e } := by
    refine ⟨hwell₁.interval, hwell₁.cur_nonneg, hwell₁.cur_lt, fun p hp => ?_⟩
    rw [hplace.cur, hext₁.cur]
    exact ((hw.walk p hp).trans hlen₁).trans hlen₂
  have hsub₁ := hsub.extends hext₁
  have harm := armed_place hwell₁ hsub₁ hk fun i => hext₁.absent habs i
  have hpos₂ : ((u₁.place e).mSlots (u₁.place e).mCur)[pos]? = some x := by
    rw [hplace.cur, hext₁.cur]
    exact hplace.getElem? (hext₁.getElem? hpos)
  have htick : currentTick { s with wheel := u₁ } = s.ticks := by simp [currentTick, hwalk]
  rw [htick, hext₁.cur] at harm
  refine ⟨harm.finish hwell₂ hwalk hpos₂ hx hext₂ fired, hsub₁.place.extends hext₂, ?_⟩
  rw [hext₂.cur, hplace.cur, hext₁.cur]

theorem ticks_pos {l : Step} (h : s.walk ≠ none → 1 ≤ s.ticks) (hs : step s l = some s') :
    s'.walk ≠ none → 1 ≤ s'.ticks := by
  cases l with
  | add y =>
    obtain ⟨-, rfl⟩ := step_add hs
    exact h
  | disable y =>
    obtain ⟨-, rfl⟩ := step_disable hs
    exact h
  | tick =>
    obtain ⟨-, rfl⟩ := step_tick hs
    exact fun _ => Nat.le_add_left ..
  | visit script =>
    obtain ⟨p, hp, hs⟩ := step_visit_eq_some.mp hs
    rw [(visit_fired hs).1]
    exact fun _ => h (by rw [hp]; exact Option.some_ne_none p)

/-- The history of an entry that a callback adds starts as if it had been added one tick
earlier. -/
theorem Progress.start_nested (hw : WellFormed s) (hsub : Subject s.wheel e k repeats)
    (hk : 0 ≤ k) (habs : Absent s e) (hticks : s.walk ≠ none → 1 ≤ s.ticks)
    (hpre : ∀ a ∈ pre, a.target ≠ e) (hpost : ∀ a ∈ post, a.target ≠ e) (hx : x ≠ e)
    (hs : TimingWheel.step s (.visit (pre ++ .add e :: post)) = some s')
    (hran : s'.fired = s.fired ++ [(s.ticks, x)]) :
    1 ≤ s.ticks ∧ s'.ticks = s.ticks ∧
      Progress (s.ticks - 1) s.wheel.mCur k repeats e (runsOf e s) s' [] := by
  obtain ⟨p, hp, hvisit⟩ := step_visit_eq_some.mp hs
  have hpositive := hticks (by rw [hp]; exact Option.some_ne_none p)
  refine ⟨hpositive, (visit_fired hvisit).1, ?_⟩
  have hwell := hw.step hs
  have h0 := hw.cur_nonneg
  have h1 := hw.cur_lt
  rcases visit_cases hvisit with ⟨-, rfl⟩ | ⟨y, hy, ⟨-, rfl⟩ | ⟨-, -, rfl⟩ | ⟨-, -, v, hv, rfl⟩⟩
  · simp at hran
  · simp at hran
  · simp at hran
  · obtain rfl : y = x := by simpa using hran
    obtain ⟨harm, hsub', hcur⟩ := armed_of_callback hw hsub hk habs hp hy hx hpre hpost hv
      (s.fired ++ [(s.ticks, y)])
    refine ⟨hwell, hsub'.setSlot _ _, ?_, ?_, ?_, by simp, by simp, ?_⟩
    · have hct : currentTick { s with wheel := v.erase p, fired := s.fired ++ [(s.ticks, y)] } =
          s.ticks := by simp [currentTick, hp]
      rw [hct, show (v.erase p).mCur = s.wheel.mCur from hcur, curDuring]
      rw [roundSize_eq] at *
      omega
    · rw [List.append_nil]
      exact runsOf_append_other s hx _ rfl
    · exact fun i hi => absurd hi (Nat.not_lt_zero i)
    · rw [if_pos (.inr rfl), List.length_nil, dueRun]
      convert harm using 1
      omega

/-- The callback of `x` adds an enabled entry with a timeout of `k >= 0` ticks in any tick that
can be reached. After any further steps that leave the entry alone, its runs are those of the
cadence, one tick earlier than for an insertion behind this tick. -/
theorem callback_add_cadence {interval : ℤ} (hinterval : 0 < interval)
    {entries : EntryId → TimerEntry} {hist : List Step}
    (hr : run step (start interval entries) hist = some s)
    (hnew : ∀ i, e ∉ s.wheel.mSlots i) (hon : (s.wheel.entries e).mDisabled = false)
    (hms : 0 ≤ (s.wheel.entries e).mTimeoutms) {s₁ s₂ : State} {ls : List Step}
    (hpre : ∀ a ∈ pre, a.target ≠ e) (hpost : ∀ a ∈ post, a.target ≠ e) (hx : x ≠ e)
    (hadd : step s (.visit (pre ++ .add e :: post)) = some s₁)
    (hran : s₁.fired = s.fired ++ [(s.ticks, x)]) (hl : ∀ l ∈ ls, l.avoids e)
    (hrun : run step s₁ ls = some s₂) (hwalk₂ : s₂.walk = none) :
    ∃ m, runsOf e s₂ = runsOf e s ++ (List.range m).map
        (fun i => s.ticks - 1 + (cadence s.wheel.mCur (s.wheel.timeoutTicks e) i).toNat) ∧
      ∀ i, i < m ↔ (i = 0 ∨ (s.wheel.entries e).mRepeat = true) ∧
        s.ticks - 1 + cadence s.wheel.mCur (s.wheel.timeoutTicks e) i ≤ s₂.ticks := by
  have hw : WellFormed s := (wellFormed_start hinterval entries).run hr
  have hk : 0 ≤ s.wheel.timeoutTicks e := Int.tdiv_nonneg hms hw.interval.le
  have hkeep : ∀ (s : State) l s', (s.walk ≠ none → 1 ≤ s.ticks) → step s l = some s' →
      (s'.walk ≠ none → 1 ≤ s'.ticks) := fun _ _ _ h hs => ticks_pos h hs
  have hticks : s.walk ≠ none → 1 ≤ s.ticks := run_invariant hkeep (fun h => absurd rfl h) hr
  obtain ⟨hpos, -, hstart⟩ := Progress.start_nested hw ⟨hon, rfl, rfl⟩ hk hnew hticks hpre hpost hx
    hadd hran
  obtain ⟨runs, hprog⟩ := hstart.run hk hl hrun
  refine ⟨runs.length, ?_, fun i => ?_⟩
  · rw [← hprog.runs_eq hw.cur_nonneg hw.cur_lt hk]
    exact hprog.record
  · rw [hprog.lt_length_iff hw.cur_nonneg hw.cur_lt hk hwalk₂, Nat.cast_sub hpos, Nat.cast_one]

def nestedEntries : EntryId → TimerEntry := fun _ => ⟨5, 0, false, false⟩

theorem callback_add_cadence_same_tick : ∃ s s₁ s₂,
    run step (start 1000 nestedEntries) [.add 0, .tick] = some s ∧
    step s (.visit ([] ++ .add 1 :: [])) = some s₁ ∧
    run step s₁ [.visit [], .visit []] = some s₂ ∧
    ∃ m, runsOf 1 s₂ = runsOf 1 s ++ (List.range m).map
        (fun i => s.ticks - 1 + (cadence s.wheel.mCur (s.wheel.timeoutTicks 1) i).toNat) ∧
      ∀ i, i < m ↔ (i = 0 ∨ (s.wheel.entries 1).mRepeat = true) ∧
        s.ticks - 1 + cadence s.wheel.mCur (s.wheel.timeoutTicks 1) i ≤ s₂.ticks := by
  refine ⟨_, _, _, rfl, rfl, rfl, ?_⟩
  refine @callback_add_cadence _ 1 0 [] [] 1000 (by decide) nestedEntries [.add 0, .tick] rfl ?_
    rfl (by decide) _ _ [.visit [], .visit []] (by simp) (by simp) (by decide) rfl rfl
    (by simp [Step.avoids]) rfl rfl
  intro i
  by_cases hi : i = 0
  · subst hi
    decide
  · simp [start, new, place, setSlot, setEntry, timeoutTicks, nestedEntries, roundSize, hi]

end GenericServer.TimingWheel
