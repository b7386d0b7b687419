import GenericServer.BlockingQueue
import GenericServer.ThreadWeights

/-!
# Calls on the blocking queue come to an end

Without new calls and spurious wake-ups the threads inside of `BlockingQueue` make finitely many
steps. What they leave behind is settled: a thread is stuck only in `take`, before an empty queue.
-/
namespace GenericServer.BlockingQueue

open TransitionRuns ThreadPlaces ThreadWeights Function

variable {τ α : Type*} [DecidableEq τ]

def Label.Inner : Label τ α → Prop
  | .call _ _ => False
  | .advance _ => True
  | .notify _ _ => True
  | .spurious _ => False

/-- How many steps a thread can make, and others on its behalf. -/
def Pc.weight : Pc α → ℕ
  | .outside => 0
  | .asleep => 0
  | .unlocking _ => 1
  | .popping => 2
  | .reading => 2
  | .checking => 3
  | .woken _ => 4
  | .notifying => 6
  | .pushing _ => 7
  | .locking _ => 8

variable {s s' : State τ α} {t : τ} {ts : Finset τ}

theorem weight_entered (op : Operation α) : op.entered.weight < 8 := by
  cases op <;> simp [Operation.entered, Pc.weight]

theorem advance_pc (h : Inv s) (hs : advance s t = some s') :
    ∃ p, s'.pc = update s.pc t p ∧ p.weight < (s.pc t).weight := by
  unfold advance at hs
  split at hs
  case h_1 op ht =>
    split_ifs at hs
    cases hs
    exact ⟨_, rfl, by rw [ht]; exact weight_entered op⟩
  case h_2 e ht =>
    cases hs
    exact ⟨_, rfl, by rw [ht]; exact Nat.lt_succ_self 6⟩
  case h_3 ht =>
    split_ifs at hs
    · cases hs
      exact ⟨_, rfl, by rw [ht]; exact Nat.succ_pos 2⟩
    · cases hs
      exact ⟨_, rfl, by rw [ht]; exact Nat.lt_succ_self 2⟩
  case h_4 notified ht =>
    split_ifs at hs
    cases hs
    exact ⟨_, rfl, by rw [ht]; exact Nat.lt_succ_self 3⟩
  case h_5 ht =>
    split at hs
    case h_1 e q hq =>
      cases hs
      exact ⟨_, rfl, by rw [ht]; exact Nat.lt_succ_self 1⟩
    case h_2 hq => exact absurd hq (h.popping t ht)
  case h_6 ht =>
    cases hs
    exact ⟨_, rfl, by rw [ht]; exact Nat.lt_succ_self 1⟩
  case h_7 result ht =>
    cases hs
    exact ⟨_, rfl, by rw [ht]; exact Nat.succ_pos 0⟩
  all_goals cases hs

theorem notify_pc {woken : Option τ} (hs : notify s t woken = some s') :
    s.pc t = .notifying ∧ (s'.pc = update s.pc t (.unlocking none) ∨
      ∃ u ∈ s.mCond, s'.pc = update (update s.pc u (.woken true)) t (.unlocking none)) := by
  unfold notify at hs
  split at hs
  case h_1 u ht =>
    split_ifs at hs with hu
    cases hs
    exact ⟨ht, .inr ⟨u, hu, rfl⟩⟩
  case h_2 ht =>
    split_ifs at hs
    cases hs
    exact ⟨ht, .inl rfl⟩
  case h_3 => cases hs

structure Busy (ts : Finset τ) (s : State τ α) : Prop where
  inv : Inv s
  among : AllBut ts .outside s.pc

theorem Busy.inner {l : Label τ α} (h : Busy ts s) (hl : l.Inner) (hs : step s l = some s') :
    Busy ts s' ∧ total Pc.weight ts s'.pc < total Pc.weight ts s.pc := by
  have hinv := step_inv h.inv hs
  cases l with
  | call t op => exact hl.elim
  | spurious t => exact hl.elim
  | advance t =>
    obtain ⟨p, hpc, hless⟩ := advance_pc h.inv hs
    have ht : t ∈ ts := h.among.mem rfl fun hout => by
      rw [hout] at hless
      exact absurd hless (Nat.not_lt_zero _)
    rw [hpc]
    exact ⟨⟨hinv, hpc ▸ h.among.update_mem ht⟩, total_lt ht hless⟩
  | notify t woken =>
    obtain ⟨hpc, hnone | ⟨u, hu, hsome⟩⟩ := notify_pc hs
    · have ht : t ∈ ts := h.among.mem hpc (by simp)
      rw [hnone]
      refine ⟨⟨hinv, hnone ▸ h.among.update_mem ht⟩, total_lt ht ?_⟩
      rw [hpc]
      exact Nat.lt_add_of_pos_left (Nat.succ_pos 4)
    · have hasleep := (h.inv.asleep u).mp hu
      have ht : t ∈ ts := h.among.mem hpc (by simp)
      have hus : u ∈ ts := h.among.mem hasleep (by simp)
      have hne : t ≠ u := by
        rintro rfl
        rw [hpc] at hasleep
        cases hasleep
      -- the weight of `notify_one` pays for the thread that is woken
      have hwake := total_update Pc.weight s.pc (.woken true) hus
      have hmove := total_update Pc.weight (update s.pc u (.woken true)) (.unlocking none) ht
      rw [update_of_ne hne, hpc] at hmove
      rw [hasleep] at hwake
      rw [hsome]
      refine ⟨⟨hinv, hsome ▸ (h.among.update_mem hus).update_mem ht⟩, ?_⟩
      simp only [Pc.weight] at hwake hmove
      omega

theorem exists_busy {ls : List (Label τ α)} (hr : run step start ls = some s) :
    ∃ ts : Finset τ, Busy ts s := by
  have hkeep : ∀ (s : State τ α) l s', (∃ ts : Finset τ, Busy ts s) → step s l = some s' →
      ∃ ts : Finset τ, Busy ts s' := by
    rintro s l s' ⟨ts, h⟩ hs
    have hinv := step_inv h.inv hs
    cases l with
    | call t op =>
      simp only [step] at hs
      split at hs
      case h_1 =>
        cases hs
        exact ⟨insert t ts, hinv, h.among.update⟩
      case h_2 => cases hs
    | spurious t =>
      simp only [step] at hs
      split_ifs at hs
      cases hs
      exact ⟨insert t ts, hinv, h.among.update⟩
    | advance t => exact ⟨ts, (h.inner (l := .advance t) trivial hs).1⟩
    | notify t woken => exact ⟨ts, (h.inner (l := .notify t woken) trivial hs).1⟩
  exact run_invariant hkeep ⟨∅, inv_start, fun _ _ => rfl⟩ hr

/-- No thread that is in a call can make a step. -/
def Stuck (s : State τ α) : Prop := ∀ l : Label τ α, l.Inner → step s l = none

theorem Stuck.free (h : Stuck s) (hinv : Inv s) : s.mMutex = none := by
  cases hmutex : s.mMutex with
  | none => rfl
  | some u =>
    have hinside := (hinv.mutex u).mp hmutex
    have hadvance : advance s u = none := h (.advance u) trivial
    have hnotify : ∀ woken, notify s u woken = none := fun woken => h (.notify u woken) trivial
    cases hpc : s.pc u with
    | notifying =>
      cases hcond : s.mCond with
      | nil =>
        have := hnotify none
        simp [notify, hpc, hcond] at this
      | cons v vs =>
        have := hnotify (some v)
        simp [notify, hpc, hcond] at this
    | checking =>
      simp only [advance, hpc] at hadvance
      split_ifs at hadvance
    | popping =>
      simp only [advance, hpc] at hadvance
      split at hadvance <;> cases hadvance
    | pushing e | reading | unlocking result => simp [advance, hpc] at hadvance
    | outside | locking op | asleep | woken notified =>
      rw [hpc] at hinside
      exact hinside.elim

theorem Stuck.places (h : Stuck s) (hinv : Inv s) (t : τ) :
    s.pc t = .outside ∨ s.pc t = .asleep := by
  have hfree := h.free hinv
  have hadvance : advance s t = none := h (.advance t) trivial
  have hinside : ¬ (s.pc t).Inside := fun hin => by
    have hmutex := (hinv.mutex t).mpr hin
    rw [hfree] at hmutex
    cases hmutex
  cases hpc : s.pc t with
  | outside => exact .inl rfl
  | asleep => exact .inr rfl
  | locking op | woken notified => simp [advance, hpc, hfree] at hadvance
  | pushing e | notifying | checking | popping | reading | unlocking result =>
    exact absurd (by rw [hpc]; trivial) hinside

theorem Stuck.empty (h : Stuck s) (hinv : Inv s) (ht : s.pc t = .asleep) : s.mQueue = [] := by
  have hcount := hinv.notified (List.ne_nil_of_mem ((hinv.asleep t).mpr ht))
  rw [slack_of_free (h.free hinv)] at hcount
  obtain ⟨us, hcard, hus⟩ := hcount
  have hnone : us = ∅ := by
    refine Finset.eq_empty_of_forall_notMem fun u hu => ?_
    have hwoken := hus u hu
    rcases h.places hinv u with hplace | hplace
    · rw [hplace] at hwoken
      cases hwoken
    · rw [hplace] at hwoken
      cases hwoken
  rw [hnone, Finset.card_empty] at hcard
  exact List.length_eq_zero_iff.mp (by omega)

/-- In every state that can be reached, the threads in the queue make finitely many steps unless
there are new calls or spurious wake-ups. When they cannot go on, every `put` and `size` has
returned, and so has every `take` unless the queue is empty. -/
theorem calls_return {ls : List (Label τ α)} (hr : run step start ls = some s) :
    (∃ n, ∀ ms s', (∀ m ∈ ms, Label.Inner m) → run step s ms = some s' → ms.length ≤ n) ∧
      ∀ ms s', (∀ m ∈ ms, Label.Inner m) → run step s ms = some s' → Stuck s' →
        (∀ t, s'.pc t = .outside ∨ s'.pc t = .asleep) ∧
          ((∃ t, s'.pc t = .asleep) → s'.mQueue = [] ∧ taken start (ls ++ ms) = puts (ls ++ ms)) := by
  obtain ⟨ts, hbusy⟩ := exists_busy hr
  constructor
  · refine ⟨total Pc.weight ts s.pc, fun ms s' hms hrun => ?_⟩
    have := run_length_le (μ := fun s : State τ α => total Pc.weight ts s.pc)
      (fun _ _ _ h hl hs => Busy.inner h hl hs) hbusy hms hrun
    omega
  · intro ms s' _ hrun hstuck
    have hinv : Inv s' := run_invariant (fun _ _ _ h hs => step_inv h hs) hbusy.inv hrun
    refine ⟨hstuck.places hinv, fun ⟨t, ht⟩ => ?_⟩
    have hqueue := hstuck.empty hinv ht
    have hall : run step start (ls ++ ms) = some s' := by rw [run_append, hr, Option.bind_some, hrun]
    have hfifo := conserved_run hall
    rw [held_of_free (hstuck.free hinv), hqueue, List.append_nil] at hfifo
    exact ⟨hqueue, hfifo⟩

/-- Two takers sleep, and another thread is about to put an element. One of them gets it, and the
other one sleeps on. -/
theorem calls_return_taker_asleep :
    let ls : List (Label (Fin 3) ℕ) := [.call 0 .take, .advance 0, .advance 0, .call 2 .take, .advance 2,
      .advance 2, .call 1 (.put 7)]
    let ms : List (Label (Fin 3) ℕ) := [.advance 1, .advance 1, .notify 1 (some 0), .advance 1,
      .advance 0, .advance 0, .advance 0, .advance 0]
    ∃ s s', run step start ls = some s ∧ run step s ms = some s' ∧
      (∃ n, ∀ ms s', (∀ m ∈ ms, Label.Inner m) → run step s ms = some s' → ms.length ≤ n) ∧
      Stuck s' ∧ s'.pc 2 = .asleep ∧ taken start (ls ++ ms) = [7] ∧
      taken start (ls ++ ms) = puts (ls ++ ms) := by
  intro ls ms
  obtain ⟨s, hs⟩ : ∃ s, run step start ls = some s := ⟨_, rfl⟩
  obtain ⟨s', hs'⟩ : ∃ s', run step s ms = some s' := by
    cases hs
    exact ⟨_, rfl⟩
  have hpc : s'.pc 2 = .asleep ∧ ∀ t, t ≠ 2 → s'.pc t = .outside := by
    cases hs
    cases hs'
    decide
  have hstuck : Stuck s' := by
    intro l hl
    cases l with
    | call t op | spurious t => exact hl.elim
    | advance t =>
      by_cases ht : t = 2
      · simp [step, advance, ht, hpc.1]
      · simp [step, advance, hpc.2 t ht]
    | notify t woken =>
      by_cases ht : t = 2
      · simp [step, notify, ht, hpc.1]
      · simp [step, notify, hpc.2 t ht]
  obtain ⟨hbound, hrest⟩ := calls_return hs
  have hend := (hrest ms s' (by simp [ms, Label.Inner]) hs' hstuck).2 ⟨2, hpc.1⟩
  exact ⟨s, s', hs, hs', hbound, hstuck, hpc.1, rfl, hend.2⟩

end GenericServer.BlockingQueue
