import GenericServer.IdleExpiry
import GenericServer.TimingWheelCadence

/-!
# How long a connection may be idle

`src/example/EchoServer.h`: every worker loop has a table of idle connections, and a repeating
timer of one second on the timing wheel of the loop calls `IdleConnections::tick`. The wheel and
the table are put together here; the wheel has one slot for each second.
-/
namespace GenericServer.IdleTimeouts

open TransitionRuns
open IdleExpiry (IdleConnections ConnectionId slotSize)

abbrev WheelState := TimingWheel.State

abbrev TimerId := GenericServer.EntryId

abbrev EntryId := IdleExpiry.EntryId

def timerInterval : ℤ := 1000

theorem timerInterval_pos : 0 < timerInterval := by decide

/-- What the constructor of `EchoServer` adds: `TimerEntry(tick, 1000, true)`. -/
def idleTimer : TimerEntry := ⟨1000, 0, true, false⟩

/-- A worker loop of the echo server with the idle table of its thread. -/
structure Worker where
  wheel : WheelState
  idle : IdleConnections

/-- `wheel` is a step of the timing wheel, `release` the next pass of the `clear()` of a running
`IdleConnections::tick`; `gone` drops the last reference to a connection, on any thread. -/
inductive Label
  | wheel (l : TimingWheel.Step)
  | release
  | onConnected (ent : EntryId) (conn : ConnectionId)
  | onMessage (ent : EntryId)
  | gone (conn : ConnectionId)
  deriving DecidableEq, Repr

/-- The callback of the idle timer has run in the step between two states of the wheel. -/
def called (timer : TimerId) (w w' : WheelState) : Bool :=
  decide (TimingWheel.runsOf timer w' ≠ TimingWheel.runsOf timer w)

/-- `updateIdleConn`: the weak pointer of the connection is locked first. -/
def updateIdleConn (s : IdleConnections) (ent : EntryId) : IdleConnections :=
  if s.alive ent then s.pushBack ent else s

/-- Everything but `gone` happens on the loop thread, so nothing interleaves with a callback, and
connections and messages are handled between two ticks of the wheel. -/
def step (timer : TimerId) (s : Worker) : Label → Option Worker
  | .wheel l =>
    if s.idle.ticking = false then
      (TimingWheel.step s.wheel l).map fun w =>
        ⟨w, if called timer s.wheel w then s.idle.tick else s.idle⟩
    else none
  | .release => (IdleExpiry.step s.idle .release).map fun idle => { s with idle := idle }
  | .onConnected ent conn =>
    if s.wheel.walk = none then
      (IdleExpiry.step s.idle (.add ent conn)).map fun idle => { s with idle := idle }
    else none
  | .onMessage ent =>
    if s.wheel.walk = none ∧ s.idle.ticking = false then
      some { s with idle := updateIdleConn s.idle ent }
    else none
  | .gone conn => (IdleExpiry.step s.idle (.gone conn)).map fun idle => { s with idle := idle }

/-- The label does not concern the entry of the idle timer. -/
def Label.avoids (timer : TimerId) : Label → Prop
  | .wheel l => l.avoids timer
  | _ => True

/-- The label is no sign of life of the connection. -/
def Label.quiet (ent : EntryId) : Label → Prop
  | .onConnected e _ => e ≠ ent
  | .onMessage e => e ≠ ent
  | _ => True

variable {timer : TimerId} {s s' : Worker} {ent : EntryId} {l : Label}

def calls (timer : TimerId) (s : Worker) : ℕ := (TimingWheel.runsOf timer s.wheel).length

/-! ## The two parts of a step -/

theorem step_wheel {w : TimingWheel.Step} (h : step timer s (.wheel w) = some s') :
    s.idle.ticking = false ∧ TimingWheel.step s.wheel w = some s'.wheel ∧
      s'.idle = if called timer s.wheel s'.wheel then s.idle.tick else s.idle := by
  simp only [step] at h
  split_ifs at h with hticking
  obtain ⟨v, hv, rfl⟩ := Option.map_eq_some_iff.mp h
  exact ⟨hticking, hv, rfl⟩

theorem calls_step {w : TimingWheel.Step} (h : step timer s (.wheel w) = some s') :
    calls timer s' = calls timer s + if called timer s.wheel s'.wheel then 1 else 0 := by
  obtain ⟨-, hw, -⟩ := step_wheel h
  have hrecord : TimingWheel.runsOf timer s'.wheel = TimingWheel.runsOf timer s.wheel ∨
      ∃ n, TimingWheel.runsOf timer s'.wheel = TimingWheel.runsOf timer s.wheel ++ [n] := by
    cases w with
    | add x =>
      obtain ⟨-, hs⟩ := TimingWheel.step_add hw
      exact .inl (by rw [hs]; rfl)
    | disable x =>
      obtain ⟨-, hs⟩ := TimingWheel.step_disable hw
      exact .inl (by rw [hs]; rfl)
    | tick =>
      obtain ⟨-, hs⟩ := TimingWheel.step_tick hw
      exact .inl (by rw [hs]; rfl)
    | visit script =>
      obtain ⟨pos, -, hs⟩ := TimingWheel.step_visit_eq_some.mp hw
      rcases (TimingWheel.visit_fired hs).2 with hf | ⟨x, -, hf⟩
      · exact .inl (by rw [TimingWheel.runsOf, hf, TimingWheel.runsOf])
      · by_cases hx : x = timer
        · subst hx
          exact .inr ⟨_, TimingWheel.runsOf_append_self s.wheel _ hf⟩
        · exact .inl (TimingWheel.runsOf_append_other s.wheel hx _ hf)
  unfold calls called
  rcases hrecord with hsame | ⟨n, hmore⟩
  · rw [hsame]
    simp
  · rw [hmore]
    simp

theorem wheel_step (hl : l.avoids timer) (h : step timer s l = some s') :
    s'.wheel = s.wheel ∨
      ∃ w : TimingWheel.Step, w.avoids timer ∧ TimingWheel.step s.wheel w = some s'.wheel := by
  cases l with
  | wheel w => exact .inr ⟨w, hl, (step_wheel h).2.1⟩
  | release =>
    obtain ⟨idle, -, rfl⟩ := Option.map_eq_some_iff.mp h
    exact .inl rfl
  | onConnected e c =>
    simp only [step] at h
    split_ifs at h
    obtain ⟨idle, -, rfl⟩ := Option.map_eq_some_iff.mp h
    exact .inl rfl
  | onMessage e =>
    simp only [step] at h
    split_ifs at h
    cases h
    exact .inl rfl
  | gone c =>
    cases h
    exact .inl rfl

/-- What the table sees of a step: the calls of the timer are its ticks, and a message of a
living entry is an update. -/
theorem idle_step (ent : EntryId) (h : step timer s l = some s') :
    ∃ ms, run IdleExpiry.step s.idle ms = some s'.idle ∧ (l.quiet ent →
      ∀ n, IdleExpiry.idleTicks ent n ms + calls timer s = n + calls timer s') := by
  cases l with
  | wheel w =>
    have hcalls := calls_step h
    obtain ⟨hticking, -, hidle⟩ := step_wheel h
    cases hc : called timer s.wheel s'.wheel with
    | true =>
      rw [hc, if_pos rfl] at hidle hcalls
      refine ⟨[.tick], ?_, fun _ n => ?_⟩
      · rw [run_cons_of (if_pos hticking), run_nil, hidle]
      · rw [hcalls, show IdleExpiry.idleTicks ent n [.tick] = n + 1 from rfl]
        omega
    | false =>
      rw [hc, if_neg Bool.false_ne_true] at hidle hcalls
      exact ⟨[], by rw [run_nil, hidle], fun _ n => by rw [hcalls]; rfl⟩
  | release =>
    obtain ⟨idle, hstep, rfl⟩ := Option.map_eq_some_iff.mp h
    exact ⟨[.release], run_cons_of hstep, fun _ n => rfl⟩
  | onConnected e c =>
    simp only [step] at h
    split_ifs at h
    obtain ⟨idle, hstep, rfl⟩ := Option.map_eq_some_iff.mp h
    refine ⟨[.add e c], run_cons_of hstep, fun hl n => ?_⟩
    rw [show IdleExpiry.idleTicks ent n [.add e c] = n from if_neg hl]
    rfl
  | onMessage e =>
    simp only [step] at h
    split_ifs at h with hbetween
    cases h
    by_cases halive : s.idle.alive e = true
    · refine ⟨[.update e], ?_, fun hl n => ?_⟩
      · rw [updateIdleConn, if_pos halive]
        exact run_cons_of (if_pos ⟨hbetween.2, halive⟩)
      · rw [show IdleExpiry.idleTicks ent n [.update e] = n from if_neg hl]
        rfl
    · refine ⟨[], ?_, fun _ n => rfl⟩
      rw [updateIdleConn, if_neg halive]
      rfl
  | gone c =>
    cases h
    exact ⟨[.gone c], rfl, fun _ n => rfl⟩

/-! ## Runs -/

theorem idle_run (ent : EntryId) {ls : List Label} (hr : run (step timer) s ls = some s') :
    ∃ ms, run IdleExpiry.step s.idle ms = some s'.idle ∧ ((∀ l ∈ ls, l.quiet ent) →
      ∀ n, IdleExpiry.idleTicks ent n ms + calls timer s = n + calls timer s') := by
  induction ls generalizing s with
  | nil =>
    cases hr
    exact ⟨[], rfl, fun _ _ => rfl⟩
  | cons l ls ih =>
    obtain ⟨t, ht, hr⟩ := run_cons_eq_some.mp hr
    obtain ⟨ms, hms, hn⟩ := idle_step ent ht
    obtain ⟨ms', hms', hn'⟩ := ih hr
    refine ⟨ms ++ ms', ?_, fun hl n => ?_⟩
    · rw [run_append, hms]
      exact hms'
    · have hfirst := hn (hl l (by simp)) n
      have hrest := hn' (fun m hm => hl m (by simp [hm])) (IdleExpiry.idleTicks ent n ms)
      rw [show IdleExpiry.idleTicks ent n (ms ++ ms') =
        IdleExpiry.idleTicks ent (IdleExpiry.idleTicks ent n ms) ms' from List.foldl_append ..]
      omega

theorem wheel_run {ls : List Label} (hl : ∀ l ∈ ls, l.avoids timer)
    (hr : run (step timer) s ls = some s') :
    ∃ ws, (∀ w ∈ ws, TimingWheel.Step.avoids timer w) ∧
      run TimingWheel.step s.wheel ws = some s'.wheel := by
  induction ls generalizing s with
  | nil =>
    cases hr
    exact ⟨[], by simp, rfl⟩
  | cons l ls ih =>
    obtain ⟨t, ht, hr⟩ := run_cons_eq_some.mp hr
    obtain ⟨ws, hws, hrun⟩ := ih (fun m hm => hl m (by simp [hm])) hr
    rcases wheel_step (hl l (by simp)) ht with hsame | ⟨w, hw, hstep⟩
    · rw [hsame] at hrun
      exact ⟨ws, hws, hrun⟩
    · exact ⟨w :: ws, List.forall_mem_cons.mpr ⟨hw, hws⟩, (run_cons_of hstep).trans hrun⟩

/-! ## A sign of life -/

/-- The label puts the entry of a connection into the current slot of the table. -/
def Touches (s : Worker) (ent : EntryId) (l : Label) : Prop :=
  (∃ conn, l = .onConnected ent conn) ∨ l = .onMessage ent ∧ s.idle.alive ent = true

theorem mCur_start : IdleExpiry.start.mCur < slotSize := Nat.succ_pos 59

theorem expired_of_within {idle idle' : IdleConnections} {n : ℕ} {ms : List IdleExpiry.Label}
    {conn : ConnectionId} (h : IdleExpiry.ExpiredWithin idle n ms idle' ent conn) :
    ∃ told, IdleExpiry.Expired idle' ent conn told := by
  obtain ⟨_, _, _, _, -, -, -, -, -, hexpired⟩ := h
  exact ⟨_, hexpired⟩

theorem Touches.standing {before : List Label} {w : WheelState}
    (hr : run (step timer) ⟨w, IdleExpiry.start⟩ before = some s) (hl : Touches s ent l)
    (hs : step timer s l = some s') :
    s'.wheel = s.wheel ∧ s.wheel.walk = none ∧ s'.idle.mCur < slotSize ∧
      ∃ conn, IdleExpiry.Standing s'.idle ent conn 0 := by
  obtain ⟨ms, hms, -⟩ := idle_run ent hr
  have hcur : s.idle.mCur < slotSize := IdleExpiry.mCur_run mCur_start hms
  have hhist := (IdleExpiry.unborn_start ent).run (n := 0) mCur_start hms
  rcases hl with ⟨conn, rfl⟩ | ⟨rfl, halive⟩
  · simp only [step] at hs
    split_ifs at hs with hwalk
    obtain ⟨idle, hstep, rfl⟩ := Option.map_eq_some_iff.mp hs
    refine ⟨rfl, hwalk, IdleExpiry.mCur_step hcur hstep, conn, ?_⟩
    have hnew := hstep
    simp only [IdleExpiry.step] at hnew
    split_ifs at hnew with hok
    have hconn : idle.mConn ent = some conn := by
      cases hnew
      exact Function.update_self ..
    rcases hhist with hunborn | ⟨c, hstanding | ⟨-, hwithin⟩⟩
    · rcases hunborn.step (n := 0) hcur hstep with hstill | ⟨c, hstanding⟩
      · rw [hstill.conn] at hconn
        cases hconn
      · cases hstanding.conn.symm.trans hconn
        rwa [IdleExpiry.Label.idleTicks, if_pos rfl] at hstanding
    · rw [hstanding.conn] at hok
      cases hok.2
    · obtain ⟨_, hexpired⟩ := expired_of_within hwithin
      rw [hexpired.conn] at hok
      cases hok.2
  · simp only [step] at hs
    split_ifs at hs with hbetween
    cases hs
    rw [updateIdleConn, if_pos halive]
    have hstep : IdleExpiry.step s.idle (.update ent) = some (s.idle.pushBack ent) :=
      if_pos ⟨hbetween.2, halive⟩
    refine ⟨rfl, hbetween.1, IdleExpiry.mCur_step hcur hstep, ?_⟩
    rcases hhist with hunborn | ⟨c, hstanding | ⟨-, hwithin⟩⟩
    · rw [hunborn.not_alive] at halive
      cases halive
    · rcases hstanding.step hcur hstep with hstanding | ⟨hrelease, -⟩
      · rw [IdleExpiry.Label.idleTicks, if_pos rfl] at hstanding
        exact ⟨c, hstanding⟩
      · cases hrelease
    · obtain ⟨_, hexpired⟩ := expired_of_within hwithin
      rw [IdleExpiry.not_alive_iff.mpr hexpired.slots] at halive
      cases halive

theorem alive_iff_calls {conn : ConnectionId} {ls : List Label}
    (h : IdleExpiry.Standing s.idle ent conn 0) (hcur : s.idle.mCur < slotSize)
    (hquiet : ∀ l ∈ ls, l.quiet ent) (hr : run (step timer) s ls = some s')
    (hbetween : s'.idle.ticking = false) :
    (s'.idle.alive ent = true ↔ calls timer s' < calls timer s + slotSize) ∧
      s'.idle.destroyed.count ent = if s'.idle.alive ent then 0 else 1 := by
  obtain ⟨ms, hms, hcount⟩ := idle_run ent hr
  have hcalls := hcount hquiet 0
  rcases h.run hcur hms with hstanding | ⟨hlong, hwithin⟩
  · have halive := hstanding.alive (IdleExpiry.mCur_run hcur hms)
    have hyoung : IdleExpiry.idleTicks ent 0 ms < slotSize := by
      rcases hstanding.place with hkept | hleaving
      · exact hkept.young
      · rw [hleaving.ticking] at hbetween
        cases hbetween
    rw [halive, hstanding.told.destroyed]
    exact ⟨iff_of_true rfl (by omega), rfl⟩
  · obtain ⟨_, hexpired⟩ := expired_of_within hwithin
    have hdead := IdleExpiry.not_alive_iff.mpr hexpired.slots
    rw [hdead, hexpired.told.destroyed]
    exact ⟨iff_of_false Bool.false_ne_true (by omega), rfl⟩

/-! ## Calls and ticks -/

section Calls

open TimingWheel

variable {T : ℕ} {c : ℤ} {old runs runs' : List ℕ} {w w' : WheelState}

theorem cadence_one (c : ℤ) (i : ℕ) : cadence c 1 i = i + 2 + 100 * ((c + i + 1) / 100) := by
  rw [cadence, roundSize_eq, show (1 : ℤ) % 100 = 1 from rfl, mul_one, Int.add_assoc c]
  omega

/-- The timer of one slot runs at most once in each tick, and sixty runs take at most the
hundred ticks of one pause longer than sixty. -/
theorem calls_bounds (h0 : 0 ≤ c) (h1 : c < roundSize)
    (h : Progress T c 1 true timer old w runs) (h' : Progress T c 1 true timer old w' runs')
    (hwalk : w.walk = none) (hwalk' : w'.walk = none) (hT : T ≤ w.ticks) :
    (w'.ticks < w.ticks + slotSize → runs'.length < runs.length + slotSize) ∧
      (w.ticks + 160 < w'.ticks → runs.length + slotSize ≤ runs'.length) := by
  have hlt := h.lt_length_iff h0 h1 (by decide) hwalk
  have hlt' := h'.lt_length_iff h0 h1 (by decide) hwalk'
  simp only [or_true, true_and, cadence_one] at hlt hlt'
  rw [roundSize_eq] at h1
  unfold slotSize
  constructor
  · intro hticks
    by_contra hge
    have hnext := (hlt runs.length).not.mp (Nat.lt_irrefl _)
    have hlast := (hlt' (runs.length + 59)).mp (by omega)
    push_cast at hlast
    omega
  · intro hticks
    refine (hlt' (runs.length + 59)).mpr ?_
    rcases Nat.eq_zero_or_pos runs.length with hzero | hpos
    · rw [hzero]
      push_cast
      omega
    · have hlast := (hlt (runs.length - 1)).mp (by omega)
      push_cast [Nat.cast_sub hpos] at hlast ⊢
      omega

end Calls

/-- The echo server has added its timer to the wheel of a worker loop. The entry of a connection
that is silent behind a sign of life is dropped by the sixtieth call of the timer: never before the
sixtieth tick of the wheel and always within a hundred and sixty-one, as the timer stands still in
every second revolution. -/
theorem idle_timeout {entries : TimerId → TimerEntry} {hist : List TimingWheel.Step}
    {w₀ w₁ : WheelState}
    (hr : run TimingWheel.step (TimingWheel.start timerInterval entries) hist = some w₀)
    (hwalk : w₀.walk = none) (hnew : ∀ i, timer ∉ w₀.wheel.mSlots i)
    (hentry : w₀.wheel.entries timer = idleTimer)
    (hadd : TimingWheel.step w₀ (.add timer) = some w₁) {before ls : List Label} {s u v : Worker}
    (hs : run (step timer) ⟨w₁, IdleExpiry.start⟩ before = some s) (htouch : Touches s ent l)
    (hu : step timer s l = some u) (hv : run (step timer) u ls = some v)
    (havoid : ∀ m ∈ before ++ ls, m.avoids timer) (hquiet : ∀ m ∈ ls, m.quiet ent)
    (hwalkv : v.wheel.walk = none) (hbetween : v.idle.ticking = false) :
    (v.idle.alive ent = true ↔ calls timer v < calls timer u + slotSize) ∧
      (v.wheel.ticks < u.wheel.ticks + slotSize → v.idle.alive ent = true) ∧
      (u.wheel.ticks + 160 < v.wheel.ticks → v.idle.alive ent = false) ∧
      v.idle.destroyed.count ent = if v.idle.alive ent then 0 else 1 := by
  obtain ⟨hsame, hwalks, hcur, conn, hstanding⟩ := htouch.standing hs hu
  obtain ⟨halive, hdestroyed⟩ := alive_iff_calls hstanding hcur hquiet hv hbetween
  have hw : TimingWheel.WellFormed w₀ :=
    (TimingWheel.wellFormed_start timerInterval_pos entries).run hr
  have hinterval : w₀.wheel.mInterval = timerInterval := by
    have hkeep : ∀ (w : WheelState) l w', w.wheel.mInterval = timerInterval →
        TimingWheel.step w l = some w' → w'.wheel.mInterval = timerInterval :=
      fun _ _ _ h hstep => (TimingWheel.mInterval_step hstep).trans h
    exact run_invariant hkeep rfl hr
  have hk : w₀.wheel.timeoutTicks timer = 1 := by
    rw [TimingWheel.timeoutTicks, hentry, hinterval]
    rfl
  obtain ⟨-, rfl⟩ := TimingWheel.step_add hadd
  have hsub : TimingWheel.Subject w₀.wheel timer 1 true :=
    ⟨by rw [hentry]; rfl, hk, by rw [hentry]; rfl⟩
  have hstart := TimingWheel.Progress.start hw hwalk hsub (by decide) hnew
  obtain ⟨ws, hws, hruns⟩ := wheel_run (fun m hm => havoid m (List.mem_append_left _ hm)) hs
  obtain ⟨ws', hws', hruns'⟩ := wheel_run (fun m hm => havoid m (List.mem_append_right _ hm)) hv
  obtain ⟨runs, hprog⟩ := hstart.run (by decide) hws hruns
  rw [← hsame] at hprog
  obtain ⟨runs', hprog'⟩ := hprog.run (by decide) hws' hruns'
  have hT := TimingWheel.ticks_le hstart.wellFormed hruns
  rw [← hsame] at hT hwalks
  have hbounds := calls_bounds hw.cur_nonneg hw.cur_lt hprog hprog' hwalks hwalkv hT
  have hcalls : calls timer u = (TimingWheel.runsOf timer w₀).length + runs.length := by
    rw [calls, hprog.record, List.length_append]
  have hcalls' : calls timer v = (TimingWheel.runsOf timer w₀).length + runs'.length := by
    rw [calls, hprog'.record, List.length_append]
  refine ⟨halive, fun hshort => halive.mpr ?_, fun hlong => ?_, hdestroyed⟩
  · have := hbounds.1 hshort
    omega
  · have := hbounds.2 hlong
    exact eq_false_of_ne_true (halive.not.mpr (by omega))

/-- A connection is accepted behind the first tick and its only message arrives in the same
second; then a tick passes. -/
theorem idle_timeout_first_seconds : ∃ w₁ s u v,
    TimingWheel.step (TimingWheel.start timerInterval fun _ => idleTimer) (.add 0) = some w₁ ∧
    run (step 0) ⟨w₁, IdleExpiry.start⟩
      [.wheel .tick, .wheel (.visit []), .onConnected 4 7] = some s ∧
    step 0 s (.onMessage 4) = some u ∧
    run (step 0) u [.wheel .tick, .wheel (.visit []), .release, .wheel (.visit [])] = some v ∧
    (v.idle.alive 4 = true ↔ calls 0 v < calls 0 u + slotSize) ∧
      (v.wheel.ticks < u.wheel.ticks + slotSize → v.idle.alive 4 = true) ∧
      (u.wheel.ticks + 160 < v.wheel.ticks → v.idle.alive 4 = false) ∧
      v.idle.destroyed.count 4 = if v.idle.alive 4 then 0 else 1 := by
  refine ⟨_, _, _, _, rfl, rfl, rfl, rfl, ?_⟩
  exact @idle_timeout 0 4 (.onMessage 4) (fun _ => idleTimer) [] _ _ rfl rfl
    (fun _ => List.not_mem_nil) rfl rfl [.wheel .tick, .wheel (.visit []), .onConnected 4 7]
    [.wheel .tick, .wheel (.visit []), .release, .wheel (.visit [])] _ _ _ rfl (.inr ⟨rfl, rfl⟩)
    rfl rfl (by simp [Label.avoids, TimingWheel.Step.avoids]) (by simp [Label.quiet]) rfl rfl

end GenericServer.IdleTimeouts
