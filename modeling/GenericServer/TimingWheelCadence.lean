import GenericServer.TimingWheelPunctuality
import Mathlib.Data.List.Range

/-!
# The cadence of a repeating entry

An insertion that crosses the end of the wheel costs one revolution more. Summed over all
runs of an entry the lost revolutions have a closed form, so the complete record of an entry is
known from its timeout and from `m_cur` at its insertion.
-/
namespace GenericServer.TimingWheel

open TransitionRuns

/-- The tick, counted from the insertion, of the `i`-th run: `i + 1` timeouts, and one revolution
for each time that `c + (i + 1) * (k % ROUND_SIZE)` has passed the end of the wheel. -/
def cadence (c k : ℤ) (i : ℕ) : ℤ :=
  1 + (i + 1) * k + roundSize * ((c + (i + 1) * (k % roundSize)) / roundSize)

variable {c k : ℤ}

theorem dueIn_emod (x r : ℤ) (hr0 : 0 ≤ r) (hr : r < roundSize) (hk : k % roundSize = r) :
    dueIn (x % roundSize) k = k + roundSize * ((x + r) / roundSize - x / roundSize) := by
  unfold dueIn
  rw [hk]
  rw [roundSize_eq] at *
  split_ifs <;> omega

theorem curDuring_cadence (c k : ℤ) (i : ℕ) :
    curDuring c (cadence c k i) = (c + (i + 1) * (k % roundSize)) % roundSize := by
  have hk : k = k % roundSize + roundSize * (k / roundSize) := (Int.emod_add_mul_ediv k roundSize).symm
  have hsum : c + cadence c k i - 1 = c + (i + 1) * (k % roundSize) +
      roundSize * ((i + 1) * (k / roundSize) + (c + (i + 1) * (k % roundSize)) / roundSize) := by
    rw [cadence]
    conv_lhs => rw [hk]
    simp only [Int.add_mul_emod_self_left, Int.emod_emod]
    ring
  rw [curDuring, hsum, Int.add_mul_emod_self_left]

theorem dueRun_eq_cadence (h0 : 0 ≤ c) (h1 : c < roundSize) (i : ℕ) :
    dueRun c k i = cadence c k i := by
  have hr0 : 0 ≤ k % roundSize := Int.emod_nonneg k (by rw [roundSize_eq]; decide)
  have hr : k % roundSize < roundSize := Int.emod_lt_of_pos k (by rw [roundSize_eq]; decide)
  induction i with
  | zero =>
    have hc : c % roundSize = c := Int.emod_eq_of_lt h0 h1
    have hdiv : c / roundSize = 0 := Int.ediv_eq_zero_of_lt h0 h1
    have hdue := dueIn_emod c _ hr0 hr rfl
    rw [hc, hdiv] at hdue
    simp only [dueRun, cadence, Nat.cast_zero, zero_add, one_mul]
    rw [hdue]
    ring
  | succ i ih =>
    -- the position after the `i`-th run is the one at which the entry is inserted again
    have hdue := dueIn_emod (c + (i + 1) * (k % roundSize)) _ hr0 hr rfl
    have hnext : c + (i + 1) * (k % roundSize) + k % roundSize =
        c + (((i + 1 : ℕ) : ℤ) + 1) * (k % roundSize) := by
      push_cast
      ring
    rw [hnext] at hdue
    rw [dueRun, ih, curDuring_cadence, hdue, cadence, cadence]
    push_cast
    ring

theorem one_le_cadence (h0 : 0 ≤ c) (h1 : c < roundSize) (hk : 0 ≤ k) (i : ℕ) :
    1 ≤ cadence c k i := by
  have hle := le_dueRun c k i
  have := mul_nonneg (show 0 ≤ (i : ℤ) + 1 by omega) hk
  rw [← dueRun_eq_cadence h0 h1]
  omega

theorem mInterval_step {s s' : State} {l : Step} (hs : step s l = some s') :
    s'.wheel.mInterval = s.wheel.mInterval := by
  cases l with
  | add x =>
    obtain ⟨-, rfl⟩ := step_add hs
    rfl
  | disable x =>
    obtain ⟨-, rfl⟩ := step_disable hs
    rfl
  | tick =>
    obtain ⟨-, rfl⟩ := step_tick hs
    rfl
  | visit script =>
    obtain ⟨pos, -, hs⟩ := step_visit_eq_some.mp hs
    rcases visit_cases hs with ⟨-, rfl⟩ | ⟨x, -, ⟨-, rfl⟩ | ⟨-, -, rfl⟩ | ⟨-, -, v, hv, rfl⟩⟩
    · rfl
    · rfl
    · rfl
    · have hext : Extends (fun _ => True) s.wheel v :=
        extends_fire (fun _ _ => trivial) trivial hv
      exact hext.interval

section Record

variable {T : ℕ} {repeats : Bool} {e : EntryId} {old runs : List ℕ} {s : State}

/-- The runs since the insertion, in closed form. -/
theorem Progress.runs_eq (h : Progress T c k repeats e old s runs) (h0 : 0 ≤ c)
    (h1 : c < roundSize) (hk : 0 ≤ k) :
    runs = (List.range runs.length).map fun i => T + (cadence c k i).toNat := by
  apply List.ext_getElem
  · rw [List.length_map, List.length_range]
  · intro i hi _
    have hseq := h.onSequence i hi
    have hpos := one_le_cadence h0 h1 hk i
    rw [dueRun_eq_cadence h0 h1] at hseq
    rw [List.getElem_map, List.getElem_range]
    omega

theorem Progress.lt_length_iff (h : Progress T c k repeats e old s runs) (h0 : 0 ≤ c)
    (h1 : c < roundSize) (hk : 0 ≤ k) (hwalk : s.walk = none) (i : ℕ) :
    i < runs.length ↔ (i = 0 ∨ repeats = true) ∧ T + cadence c k i ≤ s.ticks := by
  constructor
  · intro hi
    refine ⟨?_, ?_⟩
    · cases hr : repeats with
      | false =>
        have := h.once hr
        exact .inl (by omega)
      | true => exact .inr rfl
    · have hseq := h.onSequence i hi
      have hpast := h.past _ (List.getElem_mem hi)
      rw [dueRun_eq_cadence h0 h1] at hseq
      omega
  · rintro ⟨hi, hle⟩
    by_contra hge
    have hnext := h.next
    split_ifs at hnext with harmed
    · -- the next run is still to come, and it is not later than the `i`-th
      have hlate := hnext.lt h.wellFormed hwalk
      have hmono : dueRun c k runs.length ≤ dueRun c k i := dueRun_mono hk (by omega)
      rw [dueRun_eq_cadence h0 h1 i] at hmono
      omega
    · rw [not_or] at harmed
      rcases hi with rfl | hr
      · exact harmed.2 (List.length_eq_zero_iff.mp (by omega))
      · exact harmed.1 hr

end Record

/-- An enabled entry with a timeout of `k >= 0` ticks is inserted between two ticks into a wheel
in any state that can be reached. After any further steps that leave the entry alone, its runs
since then are those that the cadence puts into the completed ticks: all of them for a
repeating entry, the first one otherwise. -/
theorem add_runs_cadence {interval : ℤ} (hinterval : 0 < interval)
    {entries : EntryId → TimerEntry} {hist : List Step} {s : State}
    (hr : run step (start interval entries) hist = some s) (hwalk : s.walk = none)
    {e : EntryId} (hnew : ∀ i, e ∉ s.wheel.mSlots i)
    (hon : (s.wheel.entries e).mDisabled = false) (hms : 0 ≤ (s.wheel.entries e).mTimeoutms)
    {s₁ s₂ : State} {ls : List Step} (hadd : step s (.add e) = some s₁)
    (hl : ∀ l ∈ ls, l.avoids e) (hrun : run step s₁ ls = some s₂) (hwalk₂ : s₂.walk = none) :
    ∃ m, runsOf e s₂ = runsOf e s ++ (List.range m).map
        (fun i => s.ticks + (cadence s.wheel.mCur (s.wheel.timeoutTicks e) i).toNat) ∧
      ∀ i, i < m ↔ (i = 0 ∨ (s.wheel.entries e).mRepeat = true) ∧
        s.ticks + cadence s.wheel.mCur (s.wheel.timeoutTicks e) i ≤ s₂.ticks := by
  have hw : WellFormed s := (wellFormed_start hinterval entries).run hr
  have hk : 0 ≤ s.wheel.timeoutTicks e := Int.tdiv_nonneg hms hw.interval.le
  obtain ⟨-, rfl⟩ := step_add hadd
  obtain ⟨runs, hprog⟩ := (Progress.start hw hwalk ⟨hon, rfl, rfl⟩ hk hnew).run hk hl hrun
  refine ⟨runs.length, ?_, hprog.lt_length_iff hw.cur_nonneg hw.cur_lt hk hwalk₂⟩
  rw [← hprog.runs_eq hw.cur_nonneg hw.cur_lt hk]
  exact hprog.record

theorem add_runs_cadence_second_tick :
    ∃ s₁ s₂, step (start 1000 (oneSecond true)) (.add 0) = some s₁ ∧
      run step s₁ [.tick, .visit [], .tick, .visit [], .visit []] = some s₂ ∧
      ∃ m, runsOf 0 s₂ = [] ++ (List.range m).map (fun i => 0 + (cadence 0 1 i).toNat) ∧
        ∀ i, i < m ↔ (i = 0 ∨ true = true) ∧ 0 + cadence 0 1 i ≤ 2 :=
  ⟨_, _, rfl, rfl, @add_runs_cadence 1000 (by decide) (oneSecond true) [] _ rfl rfl 0
    (fun _ => List.not_mem_nil) rfl (by decide) _ _
    [.tick, .visit [], .tick, .visit [], .visit []] rfl (by simp [Step.avoids]) rfl rfl⟩

end GenericServer.TimingWheel
