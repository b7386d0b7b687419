import GenericServer.TimingWheelSchedule
import Mathlib.Data.List.Nodup

/-!
# Punctuality of the timing wheel

The firing ticks of an entry form a sequence that depends only on its timeout and on
`m_cur` at its insertion. The sequence has the intended distances exactly when no
insertion crosses the end of the wheel.
-/
namespace GenericServer.TimingWheel

open TransitionRuns

/-- `m_cur` during the `n`-th tick that follows a state with `m_cur = c`. -/
def curDuring (c n : ℤ) : ℤ := (c + n - 1) % roundSize

/-- The number, counted from the insertion, of the tick that runs the callback for the
`i`-th time. -/
def dueRun (c k : ℤ) : ℕ → ℤ
  | 0 => 1 + dueIn c k
  | i + 1 => dueRun c k i + dueIn (curDuring c (dueRun c k i)) k

section Sequence

variable {c k m : ℤ}

theorem curDuring_one (h0 : 0 ≤ c) (h1 : c < roundSize) : curDuring c 1 = c := by
  rw [curDuring, roundSize_eq] at *
  omega

theorem le_dueRun (c k : ℤ) (i : ℕ) : 1 + (i + 1) * k ≤ dueRun c k i := by
  induction i with
  | zero =>
    have := le_dueIn c k
    simp only [dueRun, Nat.cast_zero]
    omega
  | succ i ih =>
    have := le_dueIn (curDuring c (dueRun c k i)) k
    have hsplit : (((i + 1 : ℕ) : ℤ) + 1) * k = (i + 1) * k + k := by push_cast; ring
    rw [dueRun, hsplit]
    omega

theorem dueRun_add_le (c k : ℤ) (i : ℕ) : dueRun c k i + k ≤ dueRun c k (i + 1) := by
  have := le_dueIn (curDuring c (dueRun c k i)) k
  rw [dueRun]
  omega

theorem dueRun_mono (hk : 0 ≤ k) {i j : ℕ} (h : i ≤ j) : dueRun c k i ≤ dueRun c k j := by
  induction h with
  | refl => exact le_refl _
  | @step j _ ih =>
    have := dueRun_add_le c k j
    rw [Nat.succ_eq_add_one]
    omega

theorem dueRun_strictMono (hk : 1 ≤ k) {i j : ℕ} (h : i < j) : dueRun c k i < dueRun c k j := by
  have hstep := dueRun_add_le c k i
  have hmono : dueRun c k (i + 1) ≤ dueRun c k j := dueRun_mono (by omega) h
  omega

/-- The `i`-th run is on time as long as no insertion up to it crosses the end of the wheel. -/
theorem dueRun_eq (h0 : 0 ≤ c) (h1 : c < roundSize) {i : ℕ}
    (h : ∀ j ≤ i, curDuring c (1 + j * k) + k % roundSize < roundSize) :
    dueRun c k i = 1 + (i + 1) * k := by
  induction i with
  | zero =>
    have hc := h 0 (le_refl _)
    simp only [Nat.cast_zero, zero_mul, add_zero, curDuring_one h0 h1] at hc
    simp [dueRun, dueIn_eq_iff.mpr hc]
  | succ i ih =>
    have hprev := ih (fun j hj => h j (by omega))
    have hc := h (i + 1) (le_refl _)
    push_cast at hc ⊢
    rw [dueRun, hprev, dueIn_eq_iff.mpr hc]
    ring

/-- A sequence of runs is on time within the first `m` ticks exactly when every insertion
whose run is expected there stays before the end of the wheel. -/
private theorem onTime_aux (h0 : 0 ≤ c) (h1 : c < roundSize) (hk : 0 ≤ k) {R : Prop}
    (h : ∀ i : ℕ, (i = 0 ∨ R) → 1 + (i + 1) * k ≤ m →
      curDuring c (1 + i * k) + k % roundSize < roundSize)
    {i : ℕ} (hi : i = 0 ∨ R) (him : 1 + (i + 1) * k ≤ m) : dueRun c k i = 1 + (i + 1) * k := by
  refine dueRun_eq h0 h1 (fun j hj => h j ?_ ?_)
  · rcases hi with rfl | hR
    · exact .inl (by omega)
    · exact .inr hR
  · have hle : ((j : ℤ) + 1) * k ≤ (i + 1) * k := by
      apply mul_le_mul_of_nonneg_right _ hk
      omega
    omega

theorem onTime_iff (h0 : 0 ≤ c) (h1 : c < roundSize) (hk : 0 ≤ k) (R : Prop) (hR : R → 1 ≤ k) :
    (∀ n, 1 ≤ n → n ≤ m → ((∃ i, (i = 0 ∨ R) ∧ dueRun c k i = n) ↔
        ∃ i : ℕ, (i = 0 ∨ R) ∧ 1 + (i + 1) * k = n)) ↔
      ∀ i : ℕ, (i = 0 ∨ R) → 1 + (i + 1) * k ≤ m →
        curDuring c (1 + i * k) + k % roundSize < roundSize := by
  constructor
  · intro hprop i
    induction i using Nat.strong_induction_on with
    | _ i ih =>
      intro hi him
      have hprod : 0 ≤ ((i : ℤ) + 1) * k := mul_nonneg (by omega) hk
      obtain ⟨j, -, hj⟩ := (hprop (1 + (i + 1) * k) (by omega) him).mpr ⟨i, hi, rfl⟩
      -- the runs before the `i`-th one are on time, so the run that is due now is the `i`-th
      have hbefore : ∀ j < i, dueRun c k j = 1 + (j + 1) * k := by
        intro j hj
        have hRk := hi.resolve_left (by omega)
        have hlt : ∀ j' ≤ j, ((j' : ℤ) + 1) * k ≤ (i + 1) * k := fun j' hj' =>
          mul_le_mul_of_nonneg_right (by omega) hk
        exact dueRun_eq h0 h1 (fun j' hj' => ih j' (by omega) (.inr hRk)
          (by have := hlt j' hj'; omega))
      have hij : i ≤ j := by
        by_contra hlt
        have hRk := hR (hi.resolve_left (by omega))
        have hmul : ((j : ℤ) + 1) * k < (i + 1) * k :=
          mul_lt_mul_of_pos_right (by omega) (by omega)
        rw [hbefore j (by omega)] at hj
        omega
      have hdue : dueRun c k i = 1 + (i + 1) * k :=
        le_antisymm (hj ▸ dueRun_mono hk hij) (le_dueRun c k i)
      rw [← dueIn_eq_iff]
      cases i with
      | zero =>
        simp only [dueRun, Nat.cast_zero] at hdue
        rw [Nat.cast_zero, zero_mul, add_zero, curDuring_one h0 h1]
        omega
      | succ i =>
        have hprev := hbefore i (by omega)
        rw [dueRun, hprev] at hdue
        push_cast at hdue ⊢
        linarith
  · intro h n _ hnm
    constructor
    · rintro ⟨i, hi, rfl⟩
      have hle := le_dueRun c k i
      exact ⟨i, hi, (onTime_aux h0 h1 hk h hi (by omega)).symm⟩
    · rintro ⟨i, hi, rfl⟩
      exact ⟨i, hi, onTime_aux h0 h1 hk h hi hnm⟩

end Sequence

theorem clock_step {s s' : State} {l : Step} (h : WellFormed s) (hs : step s l = some s') :
    s.ticks ≤ s'.ticks ∧
    ((s'.wheel.mCur = s.wheel.mCur ∧ currentTick s' = currentTick s) ∨
      (s'.wheel.mCur = (s.wheel.mCur + 1) % roundSize ∧ currentTick s' = currentTick s + 1)) := by
  have hcur := h.cur_nonneg
  cases l with
  | add x =>
    obtain ⟨-, rfl⟩ := step_add hs
    exact ⟨le_refl _, .inl ⟨rfl, rfl⟩⟩
  | disable x =>
    obtain ⟨-, rfl⟩ := step_disable hs
    exact ⟨le_refl _, .inl ⟨rfl, rfl⟩⟩
  | tick =>
    obtain ⟨hw, rfl⟩ := step_tick hs
    exact ⟨Nat.le_succ _, .inl ⟨rfl, by simp [currentTick, hw]⟩⟩
  | visit script =>
    obtain ⟨pos, hw, hs⟩ := step_visit_eq_some.mp hs
    refine ⟨(visit_fired hs).1.ge, ?_⟩
    rcases visit_cases hs with ⟨-, rfl⟩ | ⟨x, -, ⟨-, rfl⟩ | ⟨-, -, rfl⟩ | ⟨-, -, v, hv, rfl⟩⟩
    · exact .inr ⟨Int.tmod_eq_emod_of_nonneg (by omega), by simp [currentTick, hw]⟩
    · exact .inl ⟨rfl, rfl⟩
    · exact .inl ⟨rfl, by simp [currentTick, hw]⟩
    · have hext : Extends (fun _ => True) s.wheel v :=
        extends_fire (fun _ _ => trivial) trivial hv
      exact .inl ⟨hext.cur, rfl⟩

theorem ticks_le {s s' : State} {ls : List Step} (h : WellFormed s)
    (hr : run step s ls = some s') : s.ticks ≤ s'.ticks := by
  induction ls generalizing s with
  | nil =>
    cases hr
    exact le_refl _
  | cons l ls ih =>
    obtain ⟨t, ht, hr⟩ := run_cons_eq_some.mp hr
    exact (clock_step h ht).1.trans (ih (h.step ht) hr)

/-- The history of `e` since it was inserted after `T` ticks with `m_cur = c`: `old` are
its runs before that, and the runs since then are the first ones of the sequence. -/
structure Progress (T : ℕ) (c k : ℤ) (repeats : Bool) (e : EntryId) (old : List ℕ) (s : State)
    (runs : List ℕ) : Prop where
  wellFormed : WellFormed s
  subject : Subject s.wheel e k repeats
  clock : s.wheel.mCur = curDuring c (currentTick s - T)
  record : runsOf e s = old ++ runs
  onSequence : ∀ i, (hi : i < runs.length) → (runs[i] : ℤ) = T + dueRun c k i
  past : ∀ j ∈ runs, j ≤ s.ticks
  once : repeats = false → runs.length ≤ 1
  next : if repeats = true ∨ runs = [] then Armed s e (T + dueRun c k runs.length)
    else Absent s e

variable {T : ℕ} {c k : ℤ} {repeats : Bool} {e : EntryId} {old runs : List ℕ} {s s' : State}

theorem Progress.step (h : Progress T c k repeats e old s runs) (hk : 0 ≤ k) {l : Step}
    (hl : l.avoids e) (hs : TimingWheel.step s l = some s') :
    ∃ runs', Progress T c k repeats e old s' runs' := by
  have hwell := h.wellFormed.step hs
  obtain ⟨hticks, hclock⟩ := clock_step h.wellFormed hs
  have hclock' : s'.wheel.mCur = curDuring c (currentTick s' - T) := by
    rcases hclock with ⟨hc, ht⟩ | ⟨hc, ht⟩
    · rw [hc, ht, h.clock]
    · rw [hc, ht, h.clock, curDuring, curDuring, roundSize_eq]
      omega
  have hsub := h.subject.step hl hs
  have hpast : ∀ j ∈ runs, j ≤ s'.ticks := fun j hj => (h.past j hj).trans hticks
  by_cases harmed : repeats = true ∨ runs = []
  · have hnext := h.next
    rw [if_pos harmed] at hnext
    rcases hnext.step h.wellFormed h.subject hk hl hs with
      ⟨hrun, harm⟩ | ⟨hrun, htick, hwalk, hcase⟩
    · exact ⟨runs, hwell, hsub, hclock', hrun.trans h.record, h.onSequence, hpast, h.once,
        by rwa [if_pos harmed]⟩
    · -- the callback has just run, in the tick that the sequence names
      refine ⟨runs ++ [s.ticks], hwell, hsub, hclock', ?_, ?_, ?_, ?_, ?_⟩
      · rw [hrun, h.record, List.append_assoc]
      · intro i hi
        rw [List.length_append, List.length_singleton] at hi
        by_cases hlt : i < runs.length
        · rw [List.getElem_append_left hlt]
          exact h.onSequence i hlt
        · obtain rfl : i = runs.length := by omega
          simpa using htick
      · intro j hj
        rcases List.mem_append.mp hj with hj | hj
        · exact hpast j hj
        · cases List.mem_singleton.mp hj
          exact hticks
      · intro hrep
        rcases harmed with hrep' | rfl
        · rw [hrep'] at hrep
          cases hrep
        · simp
      · cases repeats with
        | false => simpa using hcase
        | true =>
          have hcur : s.wheel.mCur = curDuring c (dueRun c k runs.length) := by
            have hct : currentTick s = s.ticks := by simp [currentTick, hwalk]
            rw [h.clock, hct, htick]
            congr 1
            omega
          rw [if_pos rfl, hcur] at hcase
          rw [if_pos (.inl rfl), List.length_append, List.length_singleton, dueRun, ← Int.add_assoc]
          exact hcase
  · have hnext := h.next
    rw [if_neg harmed] at hnext
    obtain ⟨habs, hrun⟩ := hnext.step hl hs
    exact ⟨runs, hwell, hsub, hclock', hrun.trans h.record, h.onSequence, hpast, h.once,
      by rwa [if_neg harmed]⟩

theorem Progress.run (h : Progress T c k repeats e old s runs) (hk : 0 ≤ k) {ls : List Step}
    (hl : ∀ l ∈ ls, l.avoids e) (hr : TransitionRuns.run TimingWheel.step s ls = some s') :
    ∃ runs', Progress T c k repeats e old s' runs' := by
  induction ls generalizing s runs with
  | nil =>
    cases hr
    exact ⟨runs, h⟩
  | cons l ls ih =>
    obtain ⟨t, ht, hr⟩ := run_cons_eq_some.mp hr
    obtain ⟨runs', h'⟩ := h.step hk (hl l (by simp)) ht
    exact ih h' (fun m hm => hl m (by simp [hm])) hr

theorem Armed.lt {f : ℤ} (h : Armed s e f) (hw : WellFormed s) (hwalk : s.walk = none) :
    (s.ticks : ℤ) < f := by
  obtain ⟨slot, lap, hp, rfl⟩ := h
  have hround := hp.round
  have h0 := hp.slot_nonneg
  have hcur := hw.cur_lt
  have hlap : 0 ≤ lap := by rcases hp.lap with ⟨-, rfl⟩ | ⟨-, rfl⟩ <;> omega
  simp only [currentTick, hwalk, if_true, ahead]
  rw [roundSize_eq] at *
  split_ifs <;> omega

theorem Progress.start (hw : WellFormed s) (hwalk : s.walk = none)
    (hsub : Subject s.wheel e k repeats) (hk : 0 ≤ k) (habs : Absent s e) :
    Progress s.ticks s.wheel.mCur k repeats e (runsOf e s)
      { s with wheel := s.wheel.place e } [] where
  wellFormed := ⟨hw.interval, hw.cur_nonneg, hw.cur_lt, by simp [hwalk]⟩
  subject := hsub.place
  clock := by
    have h0 := hw.cur_nonneg
    have h1 := hw.cur_lt
    simp only [currentTick, hwalk, if_true, curDuring, roundSize_eq, place, setSlot, setEntry] at *
    omega
  record := by simp [runsOf]
  onSequence := by simp
  past := by simp
  once := by simp
  next := by
    have harm := armed_place hw hsub hk habs
    simp only [or_true, if_true, List.length_nil, dueRun]
    convert harm using 1
    simp only [currentTick, hwalk, if_true]
    ring

theorem Progress.period_pos (h : Progress T c k repeats e old s runs) (h0 : 0 ≤ c)
    (h1 : c < roundSize) (hk : 0 ≤ k) (hwalk : s.walk = none) (hT : T < s.ticks)
    (hrep : repeats = true) : 1 ≤ k := by
  by_contra hlt
  obtain rfl : k = 0 := by omega
  have hnext := h.next
  rw [if_pos (.inl hrep), dueRun_eq h0 h1] at hnext
  · have := hnext.lt h.wellFormed hwalk
    omega
  · intro j _
    rw [curDuring, roundSize_eq]
    omega

theorem Progress.nodup (h : Progress T c k repeats e old s runs)
    (hrep : repeats = true → 1 ≤ k) : runs.Nodup := by
  rw [List.nodup_iff_injective_get]
  intro i j hij
  have hsame : dueRun c k i = dueRun c k j := by
    have hi := h.onSequence i i.2
    have hj := h.onSequence j j.2
    rw [List.get_eq_getElem, List.get_eq_getElem] at hij
    omega
  cases hr : repeats with
  | false =>
    have := h.once hr
    exact Fin.ext (by omega)
  | true =>
    rcases lt_trichotomy (i : ℕ) j with hlt | heq | hgt
    · exact absurd hsame (dueRun_strictMono (hrep hr) hlt).ne
    · exact Fin.ext heq
    · exact absurd hsame (dueRun_strictMono (hrep hr) hgt).ne'

/-- The ticks since the insertion in which the callback has run, in terms of the sequence. -/
theorem Progress.mem_runs (h : Progress T c k repeats e old s runs) (hk : 0 ≤ k)
    (hrep : repeats = true → 1 ≤ k) (hwalk : s.walk = none) {n : ℕ} (hnT : T + n ≤ s.ticks) :
    T + n ∈ runs ↔ ∃ i, (i = 0 ∨ repeats = true ∧ 1 ≤ k) ∧ dueRun c k i = n := by
  constructor
  · intro hmem
    obtain ⟨i, hi, hget⟩ := List.getElem_of_mem hmem
    have hseq := h.onSequence i hi
    refine ⟨i, ?_, by omega⟩
    cases hr : repeats with
    | false =>
      have := h.once hr
      exact .inl (by omega)
    | true => exact .inr ⟨rfl, hrep hr⟩
  · rintro ⟨i, hi, hdue⟩
    have hlt : i < runs.length := by
      by_contra hge
      have hnext := h.next
      split_ifs at hnext with harmed
      · -- the next run is settled for a later tick than the one that is due
        have hlate := hnext.lt h.wellFormed hwalk
        have hmono : dueRun c k runs.length ≤ dueRun c k i := dueRun_mono hk (by omega)
        omega
      · rw [not_or] at harmed
        rcases hi with rfl | ⟨hr, -⟩
        · exact harmed.2 (List.length_eq_zero_iff.mp (by omega))
        · exact harmed.1 hr
    have hseq := h.onSequence i hlt
    have hget : runs[i] = T + n := by omega
    exact hget ▸ List.getElem_mem hlt

theorem Progress.count_eq (h : Progress T c k repeats e old s runs)
    (hrep : repeats = true → 1 ≤ k) (hold : ∀ j ∈ old, j ≤ T) {n : ℕ} (hn : 1 ≤ n) :
    s.fired.count (T + n, e) = if T + n ∈ runs then 1 else 0 := by
  have hnew : T + n ∉ old := fun hmem => by
    have := hold _ hmem
    omega
  rw [← count_runsOf, h.record, List.count_append, List.count_eq_zero_of_not_mem hnew, Nat.zero_add]
  split_ifs with hmem
  · exact List.count_eq_one_of_mem (h.nodup hrep) hmem
  · exact List.count_eq_zero_of_not_mem hmem

/-- The ticks, counted from the insertion, in which the callback is to run: the one after
`k` others, and for a repeating entry every `k`-th tick after it. -/
def Due (k : ℤ) (repeats : Bool) (n : ℤ) : Prop :=
  ∃ i : ℕ, (i = 0 ∨ repeats = true ∧ 1 ≤ k) ∧ 1 + (i + 1) * k = n

/-- In every completed tick since the insertion after `T` ticks, the callback of `e` has run
once if it was due and not at all otherwise. -/
def Punctual (T : ℕ) (k : ℤ) (repeats : Bool) (e : EntryId) (s : State) : Prop :=
  ∀ n : ℕ, 1 ≤ n → T + n ≤ s.ticks →
    (Due k repeats n → s.fired.count (T + n, e) = 1) ∧
      (¬ Due k repeats n → s.fired.count (T + n, e) = 0)

/-- Every insertion of the entry whose run falls into the completed ticks stays before the
end of the wheel: `m_cur`, which is `(c + i * k) % ROUND_SIZE` at the `i`-th reinsertion,
and the part of the timeout below one revolution add up to less than `ROUND_SIZE`. -/
def StaysInside (T : ℕ) (c k : ℤ) (repeats : Bool) (s : State) : Prop :=
  ∀ i : ℕ, (i = 0 ∨ repeats = true ∧ 1 ≤ k) → T + (1 + (i + 1) * k) ≤ s.ticks →
    (c + i * k) % roundSize + k % roundSize < roundSize

theorem Progress.punctual_iff (h : Progress T c k repeats e old s runs) (h0 : 0 ≤ c)
    (h1 : c < roundSize) (hk : 0 ≤ k) (hwalk : s.walk = none) (hold : ∀ j ∈ old, j ≤ T)
    (hT : T ≤ s.ticks) :
    Punctual T k repeats e s ↔ StaysInside T c k repeats s := by
  rcases hT.eq_or_lt with heq | hlt
  · -- no tick has been completed yet
    constructor
    · intro _ i _ hi
      have := mul_nonneg (show 0 ≤ (i : ℤ) + 1 by omega) hk
      omega
    · intro _ n hn hnT
      omega
  · have hrep := h.period_pos h0 h1 hk hwalk hlt
    have hcur : ∀ i : ℕ, curDuring c (1 + i * k) = (c + i * k) % roundSize := fun i => by
      rw [curDuring]
      congr 1
      ring
    have hseq := onTime_iff (m := s.ticks - T) h0 h1 hk (repeats = true ∧ 1 ≤ k) And.right
    simp only [hcur] at hseq
    have hinside : StaysInside T c k repeats s ↔ ∀ i : ℕ, (i = 0 ∨ repeats = true ∧ 1 ≤ k) →
        1 + (i + 1) * k ≤ s.ticks - T → (c + i * k) % roundSize + k % roundSize < roundSize :=
      forall_congr' fun i => forall_congr' fun _ => by rw [le_sub_iff_add_le']
    rw [hinside, ← hseq]
    constructor
    · intro hp n hn hnT
      lift n to ℕ using by omega
      obtain ⟨hdue, hnot⟩ := hp n (by omega) (by omega)
      rw [h.count_eq hrep hold (by omega)] at hdue hnot
      rw [← h.mem_runs hk hrep hwalk (by omega)]
      constructor
      · intro hmem
        by_contra hno
        simpa [hmem] using hnot hno
      · intro hd
        by_contra hno
        simpa [hno] using hdue hd
    · intro hiff n hn hnT
      have hdue : (T + n ∈ runs) ↔ Due k repeats n := by
        rw [h.mem_runs hk hrep hwalk hnT]
        exact hiff n (by omega) (by omega)
      rw [h.count_eq hrep hold hn]
      exact ⟨fun hd => if_pos (hdue.mpr hd), fun hd => if_neg (fun hm => hd (hdue.mp hm))⟩

/-- An enabled entry with a timeout of `k >= 0` ticks is inserted between two ticks into
any wheel that `add`, `disable` and `tick` can reach. The insertion is defined unless
`m_cur + k` overflows, and after any further steps that leave the entry alone the
callback has run punctually exactly when no insertion crossed the end of the wheel. -/
theorem add_punctual_iff {interval : ℤ} (hinterval : 0 < interval)
    {entries : EntryId → TimerEntry} {hist : List Step} {s : State}
    (hr : run step (start interval entries) hist = some s) (hwalk : s.walk = none)
    {e : EntryId} (hnew : ∀ i, e ∉ s.wheel.mSlots i)
    (hon : (s.wheel.entries e).mDisabled = false) (hms : 0 ≤ (s.wheel.entries e).mTimeoutms) :
    ((step s (.add e)).isSome ↔ s.wheel.mCur + s.wheel.timeoutTicks e ≤ intMax) ∧
    ∀ s₁ ls s₂, step s (.add e) = some s₁ → (∀ l ∈ ls, l.avoids e) →
      run step s₁ ls = some s₂ → s₂.walk = none →
      (Punctual s.ticks (s.wheel.timeoutTicks e) (s.wheel.entries e).mRepeat e s₂ ↔
        StaysInside s.ticks s.wheel.mCur (s.wheel.timeoutTicks e) (s.wheel.entries e).mRepeat
          s₂) := by
  have hw : WellFormed s := (wellFormed_start hinterval entries).run hr
  have hpast : ∀ p ∈ s.fired, p.1 ≤ s.ticks :=
    run_invariant (fun _ _ _ h hs => fired_le h hs) (by simp [start]) hr
  have hk : 0 ≤ s.wheel.timeoutTicks e := Int.tdiv_nonneg hms hw.interval.le
  constructor
  · have h0 := hw.cur_nonneg
    have htarget := (ahead_target h0 hw.cur_lt hk).1
    simp only [step, hwalk, if_true, Option.isSome_map, addEntry]
    split_ifs with hdef
    · simpa using hdef.2.1
    · simp only [Option.isSome_none, Bool.false_eq_true, false_iff]
      exact fun hle => hdef ⟨hw.interval.ne', hle, htarget⟩
  · intro s₁ ls s₂ hadd hl hrun hwalk₂
    rw [step, if_pos hwalk] at hadd
    obtain ⟨w, hplace, rfl⟩ := Option.map_eq_some_iff.mp hadd
    obtain ⟨-, -, -, rfl⟩ := addEntry_eq_some.mp hplace
    have hstart := Progress.start hw hwalk ⟨hon, rfl, rfl⟩ hk hnew
    obtain ⟨runs, hprog⟩ := hstart.run hk hl hrun
    have hold : ∀ j ∈ runsOf e s, j ≤ s.ticks := by
      intro j hj
      obtain ⟨p, hp, rfl⟩ := List.mem_map.mp hj
      exact hpast p (List.mem_of_mem_filter hp)
    have hticks := ticks_le hstart.wellFormed hrun
    exact hprog.punctual_iff hw.cur_nonneg hw.cur_lt hk hwalk₂ hold hticks

def oneSecond (repeats : Bool) : EntryId → TimerEntry := fun _ => ⟨1000, 0, repeats, false⟩

theorem add_punctual_second_tick :
    ∃ s₁ s₂, step (start 1000 (oneSecond false)) (.add 0) = some s₁ ∧
      run step s₁ [.tick, .visit [], .tick, .visit [], .visit []] = some s₂ ∧
      s₂.ticks = 2 ∧ Punctual 0 1 false 0 s₂ := by
  refine ⟨_, _, rfl, rfl, rfl, ?_⟩
  have hiff := (@add_punctual_iff 1000 (by decide) (oneSecond false) [] _ rfl rfl 0
    (fun _ => List.not_mem_nil) rfl (by decide)).2
  refine (hiff _ [.tick, .visit [], .tick, .visit [], .visit []] _ rfl ?_ rfl rfl).mpr ?_
  · simp [Step.avoids]
  · rintro i (rfl | ⟨h, -⟩) -
    · decide
    · cases h

def idleTicks (n : ℕ) : List Step := (List.replicate n [.tick, .visit []]).flatten

set_option maxRecDepth 20000 in
/-- A one-second entry inserted with `m_cur = 99` is not run by the second tick. -/
theorem add_late_at_end_of_wheel :
    ∃ s s₁ s₂, run step (start 1000 (oneSecond false)) (idleTicks 99) = some s ∧
      step s (.add 0) = some s₁ ∧
      run step s₁ [.tick, .visit [], .tick, .visit [], .visit []] = some s₂ ∧
      s₂.walk = none ∧ ¬ Punctual s.ticks (s.wheel.timeoutTicks 0) false 0 s₂ := by
  refine ⟨_, _, _, rfl, rfl, rfl, rfl, fun h => ?_⟩
  have hdue := (h 2 (by decide) (by decide)).1 ⟨0, .inl rfl, by decide⟩
  exact absurd hdue (by decide)

end GenericServer.TimingWheel
