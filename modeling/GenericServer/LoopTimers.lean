import GenericServer.TimingWheelDisable

/-!
# The timers of a loop

`EventLoop::addTimer` over the timing wheel of the loop: other threads queue the insertion, and
the loop thread carries it out between two ticks. `disable` can be called by any thread, also
between two passes of a walk.
-/
namespace GenericServer.LoopTimers

open TimingWheel TransitionRuns

structure EventLoop where
  mTimerWheel : TimingWheel.State
  mPending : List EntryId

def start (interval : ℤ) (entries : EntryId → TimerEntry) : EventLoop where
  mTimerWheel := TimingWheel.start interval entries
  mPending := []

inductive Label
  | addTimer (own : Bool) (ent : EntryId)
  | doPending
  | disable (ent : EntryId)
  | tick
  | visit (script : List Action)
  deriving DecidableEq, Repr

namespace EventLoop

def setWheel (s : EventLoop) (w : TimingWheel.State) : EventLoop := { s with mTimerWheel := w }

def addPending (s : EventLoop) (ent : EntryId) : EventLoop :=
  { s with mPending := s.mPending ++ [ent] }

def disable (s : EventLoop) (ent : EntryId) : EventLoop :=
  s.setWheel { s.mTimerWheel with wheel := s.mTimerWheel.wheel.disable ent }

end EventLoop

def step (s : EventLoop) : Label → Option EventLoop
  | .addTimer true ent => (TimingWheel.step s.mTimerWheel (.add ent)).map s.setWheel
  | .addTimer false ent => some (s.addPending ent)
  | .doPending => match s.mPending with
    | ent :: rest =>
      (TimingWheel.step s.mTimerWheel (.add ent)).map fun w =>
        { s.setWheel w with mPending := rest }
    | [] => none
  | .disable ent => some (s.disable ent)
  | .tick => (TimingWheel.step s.mTimerWheel .tick).map s.setWheel
  | .visit script => (TimingWheel.step s.mTimerWheel (.visit script)).map s.setWheel

def EventLoop.adds (s : EventLoop) : Label → List EntryId
  | .addTimer _ ent => [ent]
  | .doPending => []
  | .disable _ => []
  | .tick => []
  | .visit script => addedBy s.mTimerWheel (.visit script)

def EventLoop.inserts (s : EventLoop) : Label → List EntryId
  | .addTimer true ent => [ent]
  | .addTimer false _ => []
  | .doPending => s.mPending.head?.toList
  | .disable _ => []
  | .tick => []
  | .visit script => addedBy s.mTimerWheel (.visit script)

variable {s s' : EventLoop} {l : Label} {e : EntryId}

/-- What a step of the loop does to the wheel: nothing, a `disable`, or a step of the wheel. -/
theorem wheel_cases (hs : step s l = some s') :
    s'.mTimerWheel = s.mTimerWheel ∨
    (∃ x, l = .disable x ∧ s'.mTimerWheel =
      { s.mTimerWheel with wheel := s.mTimerWheel.wheel.disable x }) ∨
    ∃ k, addedBy s.mTimerWheel k = s.inserts l ∧
      TimingWheel.step s.mTimerWheel k = some s'.mTimerWheel := by
  cases l with
  | addTimer own x =>
    cases own with
    | true =>
      obtain ⟨w, hw, rfl⟩ := Option.map_eq_some_iff.mp hs
      exact .inr (.inr ⟨_, rfl, hw⟩)
    | false =>
      cases hs
      exact .inl rfl
  | doPending =>
    simp only [step] at hs
    split at hs
    · rename_i x rest hpending
      obtain ⟨w, hw, rfl⟩ := Option.map_eq_some_iff.mp hs
      refine .inr (.inr ⟨.add x, ?_, hw⟩)
      rw [EventLoop.inserts, hpending]
      rfl
    · cases hs
  | disable x =>
    cases hs
    exact .inr (.inl ⟨x, rfl, rfl⟩)
  | tick =>
    obtain ⟨w, hw, rfl⟩ := Option.map_eq_some_iff.mp hs
    exact .inr (.inr ⟨_, rfl, hw⟩)
  | visit script =>
    obtain ⟨w, hw, rfl⟩ := Option.map_eq_some_iff.mp hs
    exact .inr (.inr ⟨_, rfl, hw⟩)

/-- A property of the wheel that its steps and `disable` keep, for steps that insert nothing that
the loop does not insert. -/
theorem wheel_preserved {P : TimingWheel.State → Prop} (h : P s.mTimerWheel)
    (hdisable : ∀ x, P { s.mTimerWheel with wheel := s.mTimerWheel.wheel.disable x })
    (hstep : ∀ k w, addedBy s.mTimerWheel k = s.inserts l →
      TimingWheel.step s.mTimerWheel k = some w → P w)
    (hs : step s l = some s') : P s'.mTimerWheel := by
  rcases wheel_cases hs with heq | ⟨x, -, heq⟩ | ⟨k, hk, hw⟩
  · rw [heq]
    exact h
  · rw [heq]
    exact hdisable x
  · exact hstep k _ hk hw

theorem mPending_cases (hs : step s l = some s') :
    s'.mPending = s.mPending ∨ (∃ x, l = .addTimer false x ∧ s'.mPending = s.mPending ++ [x]) ∨
      l = .doPending ∧ ∃ x, s.mPending = x :: s'.mPending := by
  cases l with
  | addTimer own x =>
    cases own with
    | true =>
      obtain ⟨w, -, rfl⟩ := Option.map_eq_some_iff.mp hs
      exact .inl rfl
    | false =>
      cases hs
      exact .inr (.inl ⟨x, rfl, rfl⟩)
  | doPending =>
    simp only [step] at hs
    split at hs
    · rename_i x rest hpending
      obtain ⟨w, -, rfl⟩ := Option.map_eq_some_iff.mp hs
      exact .inr (.inr ⟨rfl, x, hpending⟩)
    · cases hs
  | disable x =>
    cases hs
    exact .inl rfl
  | tick =>
    obtain ⟨w, -, rfl⟩ := Option.map_eq_some_iff.mp hs
    exact .inl rfl
  | visit script =>
    obtain ⟨w, -, rfl⟩ := Option.map_eq_some_iff.mp hs
    exact .inl rfl

theorem not_inserts (hpending : e ∉ s.mPending) (hadds : e ∉ s.adds l) : e ∉ s.inserts l := by
  cases l with
  | addTimer own x =>
    cases own with
    | true => exact hadds
    | false => exact List.not_mem_nil
  | doPending =>
    intro hmem
    rw [EventLoop.inserts, Option.mem_toList] at hmem
    exact hpending (List.mem_of_mem_head? hmem)
  | visit script => exact hadds
  | disable | tick => exact List.not_mem_nil

theorem not_pending (hpending : e ∉ s.mPending) (hadds : e ∉ s.adds l)
    (hs : step s l = some s') : e ∉ s'.mPending := by
  rcases mPending_cases hs with heq | ⟨x, rfl, heq⟩ | ⟨-, x, heq⟩
  · rw [heq]
    exact hpending
  · rw [heq, List.mem_append, not_or]
    exact ⟨hpending, hadds⟩
  · intro hmem
    exact hpending (heq ▸ List.mem_cons_of_mem x hmem)

/-! ## Disabled entries -/

theorem wellFormed_step (hw : WellFormed s.mTimerWheel) (hs : step s l = some s') :
    WellFormed s'.mTimerWheel :=
  wheel_preserved hw (fun _ => ⟨hw.interval, hw.cur_nonneg, hw.cur_lt, hw.walk⟩)
    (fun _ _ _ hk => hw.step hk) hs

theorem disabled_step (hdis : Disabled s.mTimerWheel.wheel e) (hs : step s l = some s') :
    Disabled s'.mTimerWheel.wheel e ∧ runsOf e s'.mTimerWheel = runsOf e s.mTimerWheel :=
  wheel_preserved (P := fun w => Disabled w.wheel e ∧ runsOf e w = runsOf e s.mTimerWheel)
    ⟨hdis, rfl⟩ (fun x => ⟨hdis.disable x, rfl⟩) (fun _ _ _ hk => hdis.step hk) hs

theorem disabled_run {ls : List Label} (hdis : Disabled s.mTimerWheel.wheel e)
    (hr : run step s ls = some s') :
    Disabled s'.mTimerWheel.wheel e ∧ runsOf e s'.mTimerWheel = runsOf e s.mTimerWheel := by
  have hstep : ∀ t l t', Disabled t.mTimerWheel.wheel e ∧
      runsOf e t.mTimerWheel = runsOf e s.mTimerWheel → step t l = some t' →
      Disabled t'.mTimerWheel.wheel e ∧ runsOf e t'.mTimerWheel = runsOf e s.mTimerWheel := by
    rintro t l t' ⟨ht, hruns⟩ hs
    obtain ⟨ht', hruns'⟩ := disabled_step ht hs
    exact ⟨ht', hruns'.trans hruns⟩
  exact run_invariant hstep ⟨hdis, rfl⟩ hr

theorem fired_le_step (h : ∀ p ∈ s.mTimerWheel.fired, p.1 ≤ s.mTimerWheel.ticks)
    (hs : step s l = some s') : ∀ p ∈ s'.mTimerWheel.fired, p.1 ≤ s'.mTimerWheel.ticks :=
  wheel_preserved (P := fun w => ∀ p ∈ w.fired, p.1 ≤ w.ticks) h (fun _ => h)
    (fun _ _ _ hk => fired_le h hk) hs

theorem clear_step (h : Clear s.mTimerWheel.wheel e) (hw : WellFormed s.mTimerWheel)
    (hinserts : e ∉ s.inserts l) (hs : step s l = some s') :
    Clear s'.mTimerWheel.wheel e ∧ runsOf e s'.mTimerWheel = runsOf e s.mTimerWheel := by
  refine wheel_preserved (P := fun w => Clear w.wheel e ∧ runsOf e w = runsOf e s.mTimerWheel)
    ⟨h, rfl⟩ (fun _ => ⟨h, rfl⟩) (fun k w hk hstep => ?_) hs
  rw [← hk] at hinserts
  exact h.step hw hinserts hstep

theorem swept_step {n : ℕ} (h : Swept n s.mTimerWheel e) (hw : WellFormed s.mTimerWheel)
    (hdis : Disabled s.mTimerWheel.wheel e) (hinserts : e ∉ s.inserts l)
    (hs : step s l = some s') : Swept n s'.mTimerWheel e := by
  refine wheel_preserved (P := fun w => Swept n w e) h (fun x => ?_) (fun k w hk hstep => ?_) hs
  · exact h.leaves ⟨rfl, fun _ => rfl, Iff.rfl⟩ rfl Iff.rfl
  · rw [← hk] at hinserts
    exact h.step hw hdis hinserts hstep

/-- A disabled entry that is not on its way to the wheel any more. -/
structure Withdrawn (n : ℕ) (e : EntryId) (s : EventLoop) : Prop where
  wellFormed : WellFormed s.mTimerWheel
  disabled : Disabled s.mTimerWheel.wheel e
  pending : e ∉ s.mPending
  swept : Swept n s.mTimerWheel e

theorem Withdrawn.step {n : ℕ} (h : Withdrawn n e s) (hadds : e ∉ s.adds l)
    (hs : LoopTimers.step s l = some s') : Withdrawn n e s' where
  wellFormed := wellFormed_step h.wellFormed hs
  disabled := (disabled_step h.disabled hs).1
  pending := not_pending h.pending hadds hs
  swept := swept_step h.swept h.wellFormed h.disabled (not_inserts h.pending hadds) hs

/-- `disable` is final. From any state of the loop in which `e` is disabled: the callback of `e`
does not run any more; once `e` has been inserted, and is not handed to `addTimer` again, no slot
holds it behind `roundSize` further ticks; and a step that takes it off a slot leaves every other
entry its slot, its place there and its round count. -/
theorem disable_final {interval : ℤ} (hinterval : 0 < interval) {entries : EntryId → TimerEntry}
    {ms ls : List Label} (hs : run step (start interval entries) ms = some s)
    (hdis : Disabled s.mTimerWheel.wheel e) (hr : run step s ls = some s') :
    runsOf e s'.mTimerWheel = runsOf e s.mTimerWheel ∧
    (e ∉ s.mPending → Guarded step (fun t l => e ∉ t.adds l) s ls → s'.mTimerWheel.walk = none →
      s.mTimerWheel.ticks + roundSize ≤ s'.mTimerWheel.ticks → Clear s'.mTimerWheel.wheel e) ∧
    ∀ l t i, step s' l = some t →
      (t.mTimerWheel.wheel.mSlots i).count e < (s'.mTimerWheel.wheel.mSlots i).count e →
      Dropped s'.mTimerWheel t.mTimerWheel e := by
  obtain ⟨hdis', hruns⟩ := disabled_run hdis hr
  refine ⟨hruns, fun hpending hguard hwalk hticks => ?_, fun l t i ht hless => ?_⟩
  · have hw : WellFormed s.mTimerWheel :=
      run_invariant (fun _ _ _ => wellFormed_step) (wellFormed_start hinterval entries) hs
    have hstart : Withdrawn s.mTimerWheel.ticks e s := ⟨hw, hdis, hpending, swept_start hw⟩
    have hend : Withdrawn s.mTimerWheel.ticks e s' :=
      hguard.invariant (fun _ _ _ h hadds hstep => h.step hadds hstep) hstart hr
    exact hend.swept.clear hend.wellFormed hwalk hticks
  · rcases wheel_cases ht with heq | ⟨x, -, heq⟩ | ⟨k, -, hk⟩
    · rw [heq] at hless
      exact absurd hless (Nat.lt_irrefl _)
    · rw [heq] at hless
      exact absurd hless (Nat.lt_irrefl _)
    · exact hdis'.dropped hk hless

def sweepOnce : List Label :=
  [.tick, .visit [], .tick, .visit [], .visit []] ++
    (List.replicate 98 [Label.tick, .visit []]).flatten

/-- An entry that is disabled before its insertion is carried out. -/
theorem disable_final_queued : ∃ s s',
    run step (start 1000 fun _ => ⟨1000, 0, true, false⟩)
      [.addTimer false 0, .disable 0, .doPending] = some s ∧
    run step s sweepOnce = some s' ∧ s'.mTimerWheel.ticks = 100 ∧
    runsOf 0 s'.mTimerWheel = runsOf 0 s.mTimerWheel ∧ Clear s'.mTimerWheel.wheel 0 := by
  have heval : ((run step (start 1000 fun _ => ⟨1000, 0, true, false⟩)
      [.addTimer false 0, .disable 0, .doPending]).bind fun s => (run step s sweepOnce).map fun s' =>
        ((s.mTimerWheel.wheel.entries 0).mDisabled, s.mPending, s.mTimerWheel.ticks,
          s'.mTimerWheel.walk, s'.mTimerWheel.ticks)) = some (true, [], 0, none, 100) := by
    decide +kernel
  obtain ⟨s, hs, heval⟩ := Option.bind_eq_some_iff.mp heval
  obtain ⟨s', hr, hvalues⟩ := Option.map_eq_some_iff.mp heval
  simp only [Prod.mk.injEq] at hvalues
  obtain ⟨hdis, hpending, hticks, hwalk, hticks'⟩ := hvalues
  have hlabels : ∀ l ∈ sweepOnce, l = .tick ∨ l = .visit [] := by decide +kernel
  have hguard : Guarded step (fun t l => 0 ∉ t.adds l) s sweepOnce := by
    refine guarded_of_forall s fun l hl t => ?_
    rcases hlabels l hl with rfl | rfl
    · exact List.not_mem_nil
    · simp [EventLoop.adds, addedBy]
  obtain ⟨hruns, hclear, -⟩ := disable_final (by decide) hs hdis hr
  refine ⟨s, s', hs, hr, hticks', hruns, hclear ?_ hguard hwalk ?_⟩
  · rw [hpending]
    exact List.not_mem_nil
  · rw [hticks, hticks']
    decide

end GenericServer.LoopTimers
