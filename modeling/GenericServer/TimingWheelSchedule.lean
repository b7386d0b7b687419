import GenericServer.TimingWheel
import Mathlib.Data.List.Count
import Mathlib.Tactic.Linarith
import Mathlib.Tactic.Ring

/-!
# When an entry of the timing wheel fires

`Armed s e f` says that the entry `e` stands at exactly one position of the wheel and
that its callback is going to run in the tick with number `f`. Every step of the wheel
that does not touch `e` keeps `f`, so the firing tick is settled at the insertion.
-/
namespace GenericServer.TimingWheel

open TransitionRuns

theorem roundSize_eq : roundSize = 100 := rfl

/-- What the wheel must have whatever is on it: `m_cur` in range and the iterator inside
the slot being walked. -/
structure WellFormed (s : State) : Prop where
  interval : 0 < s.wheel.mInterval
  cur_nonneg : 0 ≤ s.wheel.mCur
  cur_lt : s.wheel.mCur < roundSize
  walk : ∀ pos, s.walk = some pos → pos ≤ (s.wheel.mSlots s.wheel.mCur).length

/-- `w'` is `w` after entries that satisfy `P` were appended to slots and after such
entries were modified. -/
structure Extends (P : EntryId → Prop) (w w' : TimingWheel) : Prop where
  cur : w'.mCur = w.mCur
  interval : w'.mInterval = w.mInterval
  slots : ∀ i, ∃ ys, w'.mSlots i = w.mSlots i ++ ys ∧ ∀ y ∈ ys, P y
  entries : ∀ x, ¬ P x → w'.entries x = w.entries x
  kinds : ∀ x, (w'.entries x).mTimeoutms = (w.entries x).mTimeoutms ∧
    (w'.entries x).mRepeat = (w.entries x).mRepeat

variable {P : EntryId → Prop} {w w' : TimingWheel} {ent : EntryId}

theorem Extends.refl (w : TimingWheel) : Extends P w w :=
  ⟨rfl, rfl, fun i => ⟨[], by simp⟩, fun _ _ => rfl, fun _ => ⟨rfl, rfl⟩⟩

theorem Extends.trans {w'' : TimingWheel} (h : Extends P w w') (h' : Extends P w' w'') :
    Extends P w w'' where
  cur := h'.cur.trans h.cur
  interval := h'.interval.trans h.interval
  slots i := by
    obtain ⟨ys, hys, hP⟩ := h.slots i
    obtain ⟨zs, hzs, hP'⟩ := h'.slots i
    refine ⟨ys ++ zs, by rw [hzs, hys, List.append_assoc], fun y hy => ?_⟩
    rcases List.mem_append.mp hy with hy | hy
    · exact hP y hy
    · exact hP' y hy
  entries x hx := (h'.entries x hx).trans (h.entries x hx)
  kinds x := ⟨(h'.kinds x).1.trans (h.kinds x).1, (h'.kinds x).2.trans (h.kinds x).2⟩

theorem addEntry_eq_some :
    w.addEntry ent = some w' ↔ w.mInterval ≠ 0 ∧ w.mCur + w.timeoutTicks ent ≤ intMax ∧
      0 ≤ (w.mCur + w.timeoutTicks ent).tmod roundSize ∧ w' = w.place ent := by
  simp only [addEntry]
  split_ifs with h
  · simp [h, eq_comm]
  · simp only [false_iff]
    exact fun hp => h ⟨hp.1, hp.2.1, hp.2.2.1⟩

theorem extends_place (hP : P ent) : Extends P w (w.place ent) where
  cur := rfl
  interval := rfl
  slots i := by
    by_cases hi : i = (w.mCur + w.timeoutTicks ent).tmod roundSize
    · subst hi
      exact ⟨[ent], by simp [place, setSlot, setEntry], by simpa using hP⟩
    · exact ⟨[], by simp [place, setSlot, setEntry, Function.update_of_ne hi], by simp⟩
  entries x hx := by
    have hne : x ≠ ent := fun h => hx (h ▸ hP)
    simp [place, setSlot, setEntry, Function.update_of_ne hne]
  kinds x := by
    by_cases hx : x = ent
    · subst hx
      simp [place, setSlot, setEntry]
    · simp [place, setSlot, setEntry, Function.update_of_ne hx]

theorem extends_disable (hP : P ent) : Extends P w (w.disable ent) where
  cur := rfl
  interval := rfl
  slots i := ⟨[], by simp [disable, setEntry], by simp⟩
  entries x hx := by
    have hne : x ≠ ent := fun h => hx (h ▸ hP)
    simp [disable, setEntry, Function.update_of_ne hne]
  kinds x := by
    by_cases hx : x = ent
    · subst hx
      simp [disable, setEntry]
    · simp [disable, setEntry, Function.update_of_ne hx]

def Action.target : Action → EntryId
  | .add ent => ent
  | .disable ent => ent

theorem extends_act {a : Action} (hP : P a.target) (h : w.act a = some w') : Extends P w w' := by
  cases a with
  | add ent =>
    obtain ⟨-, -, -, rfl⟩ := addEntry_eq_some.mp h
    exact extends_place hP
  | disable ent =>
    cases h
    exact extends_disable hP

theorem extends_script {script : List Action} (hP : ∀ a ∈ script, P a.target)
    (h : script.foldlM act w = some w') : Extends P w w' := by
  induction script generalizing w with
  | nil =>
    cases h
    exact .refl _
  | cons a script ih =>
    rw [List.foldlM_cons] at h
    obtain ⟨v, hv, h⟩ := Option.bind_eq_some_iff.mp h
    exact (extends_act (hP a (by simp)) hv).trans (ih (fun b hb => hP b (by simp [hb])) h)

/-- What running a callback does: the script, and one more insertion for a repeating entry. -/
theorem fire_cases {script : List Action} (h : w.fire ent script = some w') :
    ∃ v, script.foldlM act w = some v ∧
      (((v.entries ent).mRepeat = true ∧ v.addEntry ent = some w') ∨
        ((v.entries ent).mRepeat = false ∧ w' = v)) := by
  obtain ⟨v, hv, h⟩ := Option.bind_eq_some_iff.mp h
  refine ⟨v, hv, ?_⟩
  split_ifs at h with hrep
  · exact .inl ⟨hrep, h⟩
  · exact .inr ⟨by simpa using hrep, (Option.some.inj h).symm⟩

theorem extends_fire {script : List Action} (hP : ∀ a ∈ script, P a.target) (hent : P ent)
    (h : w.fire ent script = some w') : Extends P w w' := by
  obtain ⟨v, hv, ⟨-, hadd⟩ | ⟨-, rfl⟩⟩ := fire_cases h
  · obtain ⟨-, -, -, rfl⟩ := addEntry_eq_some.mp hadd
    exact (extends_script hP hv).trans (extends_place hent)
  · exact extends_script hP hv

/-- All that one pass of the loop of `tick()` can do. -/
theorem visit_cases {s s' : State} {pos : ℕ} {script : List Action}
    (h : visit s pos script = some s') :
    ((s.wheel.mSlots s.wheel.mCur)[pos]? = none ∧
      s' = { s with wheel := { s.wheel with mCur := (s.wheel.mCur + 1).tmod roundSize },
                    walk := none }) ∨
    ∃ ent, (s.wheel.mSlots s.wheel.mCur)[pos]? = some ent ∧
      (((s.wheel.entries ent).mDisabled = true ∧ s' = { s with wheel := s.wheel.erase pos }) ∨
      ((s.wheel.entries ent).mDisabled = false ∧ 0 < (s.wheel.entries ent).mRound ∧
        s' = { s with wheel := s.wheel.countDown ent, walk := some (pos + 1) }) ∨
      ((s.wheel.entries ent).mDisabled = false ∧ (s.wheel.entries ent).mRound ≤ 0 ∧
        ∃ v, s.wheel.fire ent script = some v ∧
          s' = { s with wheel := v.erase pos, fired := s.fired ++ [(s.ticks, ent)] })) := by
  unfold visit at h
  cases hpos : (s.wheel.mSlots s.wheel.mCur)[pos]? with
  | none =>
    rw [hpos] at h
    exact .inl ⟨rfl, (Option.some.inj h).symm⟩
  | some ent =>
    rw [hpos] at h
    refine .inr ⟨ent, rfl, ?_⟩
    simp only at h
    split_ifs at h with hdis hround
    · exact .inl ⟨hdis, (Option.some.inj h).symm⟩
    · exact .inr (.inl ⟨by simpa using hdis, hround, (Option.some.inj h).symm⟩)
    · obtain ⟨v, hv, h⟩ := Option.map_eq_some_iff.mp h
      exact .inr (.inr ⟨by simpa using hdis, not_lt.mp hround, v, hv, h.symm⟩)

theorem step_add {s s' : State} (h : step s (.add ent) = some s') :
    s.walk = none ∧ s' = { s with wheel := s.wheel.place ent } := by
  simp only [step] at h
  split_ifs at h with hwalk
  obtain ⟨w, hadd, rfl⟩ := Option.map_eq_some_iff.mp h
  obtain ⟨-, -, -, rfl⟩ := addEntry_eq_some.mp hadd
  exact ⟨hwalk, rfl⟩

theorem step_disable {s s' : State} (h : step s (.disable ent) = some s') :
    s.walk = none ∧ s' = { s with wheel := s.wheel.disable ent } := by
  simp only [step] at h
  split_ifs at h with hwalk
  cases h
  exact ⟨hwalk, rfl⟩

theorem step_tick {s s' : State} (h : step s .tick = some s') :
    s.walk = none ∧ s' = { s with walk := some 0, ticks := s.ticks + 1 } := by
  simp only [step] at h
  split_ifs at h with hwalk
  cases h
  exact ⟨hwalk, rfl⟩

theorem step_visit_eq_some {s s' : State} {script : List Action} :
    step s (.visit script) = some s' ↔
      ∃ pos, s.walk = some pos ∧ visit s pos script = some s' :=
  Option.bind_eq_some_iff

theorem erase_slots (w : TimingWheel) (pos : ℕ) (i : ℤ) :
    (w.erase pos).mSlots i =
      if i = w.mCur then (w.mSlots w.mCur).eraseIdx pos else w.mSlots i := by
  simp [erase, setSlot, Function.update_apply]

theorem length_slot_le (h : Extends P w w') (i : ℤ) :
    (w.mSlots i).length ≤ (w'.mSlots i).length := by
  obtain ⟨ys, hys, -⟩ := h.slots i
  simp [hys]

theorem wellFormed_start {interval : ℤ} (h : 0 < interval) (entries : EntryId → TimerEntry) :
    WellFormed (start interval entries) :=
  ⟨h, le_refl _, show (0 : ℤ) < 100 by decide, by simp [start]⟩

theorem WellFormed.visit {s s' : State} {pos : ℕ} {script : List Action} (h : WellFormed s)
    (hw : s.walk = some pos) (hs : TimingWheel.visit s pos script = some s') :
    WellFormed s' := by
  have hcur := h.cur_nonneg
  rcases visit_cases hs with ⟨-, rfl⟩ | ⟨ent, hpos, hcase⟩
  · refine ⟨h.interval, ?_, ?_, by simp⟩
    · exact Int.tmod_nonneg _ (by omega)
    · exact Int.tmod_lt_of_pos _ (by rw [roundSize_eq]; decide)
  · have hlt := (List.getElem?_eq_some_iff.mp hpos).1
    have herase : ∀ v : TimingWheel, Extends (fun _ => True) s.wheel v →
        pos ≤ ((v.erase pos).mSlots v.mCur).length := by
      intro v hv
      have hlen := length_slot_le hv v.mCur
      rw [erase_slots, if_pos rfl, List.length_eraseIdx]
      rw [hv.cur] at hlen ⊢
      split_ifs <;> omega
    rcases hcase with ⟨-, rfl⟩ | ⟨-, -, rfl⟩ | ⟨-, -, v, hv, rfl⟩
    · refine ⟨h.interval, h.cur_nonneg, h.cur_lt, fun p hp => ?_⟩
      cases hw.symm.trans hp
      exact herase s.wheel (.refl _)
    · refine ⟨h.interval, h.cur_nonneg, h.cur_lt, fun p hp => ?_⟩
      cases hp
      exact hlt
    · have hext : Extends (fun _ => True) s.wheel v :=
        extends_fire (fun _ _ => trivial) trivial hv
      refine ⟨?_, ?_, ?_, fun p hp => ?_⟩
      · simpa [erase, setSlot, hext.interval] using h.interval
      · simpa [erase, setSlot, hext.cur] using h.cur_nonneg
      · simpa [erase, setSlot, hext.cur] using h.cur_lt
      · cases hw.symm.trans hp
        exact herase v hext

theorem WellFormed.step {s s' : State} {l : Step} (h : WellFormed s)
    (hs : TimingWheel.step s l = some s') : WellFormed s' := by
  cases l with
  | add ent =>
    obtain ⟨hw, rfl⟩ := step_add hs
    exact ⟨h.interval, h.cur_nonneg, h.cur_lt, by simp [hw]⟩
  | disable ent =>
    obtain ⟨hw, rfl⟩ := step_disable hs
    exact ⟨h.interval, h.cur_nonneg, h.cur_lt, by simp [hw]⟩
  | tick =>
    obtain ⟨-, rfl⟩ := step_tick hs
    exact ⟨h.interval, h.cur_nonneg, h.cur_lt, by rintro pos ⟨⟩; omega⟩
  | visit script =>
    obtain ⟨pos, hw, hs⟩ := step_visit_eq_some.mp hs
    exact h.visit hw hs

theorem WellFormed.run {s s' : State} {ls : List Step} (h : WellFormed s)
    (hr : TransitionRuns.run TimingWheel.step s ls = some s') : WellFormed s' :=
  run_invariant (fun _ _ _ ht hs => WellFormed.step ht hs) h hr

theorem tickLoop_run {callback : EntryId → List Action} {fuel : ℕ} {s s' : State}
    (h : tickLoop callback fuel s = some s') :
    s'.walk = none ∧ ∃ ls, TransitionRuns.run TimingWheel.step s ls = some s' := by
  induction fuel generalizing s with
  | zero => cases h
  | succ fuel ih =>
    rw [tickLoop] at h
    split at h
    · rename_i hwalk
      cases h
      exact ⟨hwalk, [], rfl⟩
    · rename_i pos hwalk
      obtain ⟨t, ht, hloop⟩ := Option.bind_eq_some_iff.mp h
      obtain ⟨hdone, ls, hls⟩ := ih hloop
      exact ⟨hdone, _ :: ls,
        run_cons_eq_some.mpr ⟨t, step_visit_eq_some.mpr ⟨pos, hwalk, ht⟩, hls⟩⟩

theorem tick_run {callback : EntryId → List Action} {fuel : ℕ} {s s' : State}
    (h : tick callback fuel s = some s') :
    s.walk = none ∧ s'.walk = none ∧
      ∃ ls, TransitionRuns.run TimingWheel.step s (.tick :: ls) = some s' := by
  obtain ⟨t, ht, hloop⟩ := Option.bind_eq_some_iff.mp h
  obtain ⟨hdone, ls, hls⟩ := tickLoop_run hloop
  exact ⟨(step_tick ht).1, hdone, ls, run_cons_eq_some.mpr ⟨t, ht, hls⟩⟩

theorem WellFormed.tick {callback : EntryId → List Action} {fuel : ℕ} {s s' : State}
    (h : WellFormed s) (hs : TimingWheel.tick callback fuel s = some s') : WellFormed s' := by
  obtain ⟨-, -, ls, hr⟩ := tick_run hs
  exact h.run hr

/-! ## One entry -/

/-- The walk of the running tick has already been past `e`. -/
def Passed (s : State) (e : EntryId) : Prop :=
  ∃ pos, s.walk = some pos ∧ e ∈ (s.wheel.mSlots s.wheel.mCur).take pos

def currentTick (s : State) : ℤ := if s.walk = none then s.ticks + 1 else s.ticks

/-- Ticks from the one that walks `cur` to the next one that walks `slot`. -/
def ahead (cur slot : ℤ) : ℤ := if cur ≤ slot then slot - cur else slot - cur + roundSize

/-- `e` stands at exactly one position of the wheel, in `slot`; `lap` is 1 when the walk of
the running tick is already past it, so that a whole revolution is still to come. -/
structure Position (s : State) (e : EntryId) (slot lap : ℤ) : Prop where
  slot_nonneg : 0 ≤ slot
  slot_lt : slot < roundSize
  count : ∀ i, (s.wheel.mSlots i).count e = if i = slot then 1 else 0
  round : 0 ≤ (s.wheel.entries e).mRound
  lap : (Passed s e ∧ lap = 1) ∨ (¬ Passed s e ∧ lap = 0)

/-- `e` is on the wheel once and will fire in the tick with number `f`. -/
def Armed (s : State) (e : EntryId) (f : ℤ) : Prop :=
  ∃ slot lap, Position s e slot lap ∧
    f = currentTick s + ahead s.wheel.mCur slot +
      roundSize * ((s.wheel.entries e).mRound + lap)

def Absent (s : State) (e : EntryId) : Prop := ∀ i, e ∉ s.wheel.mSlots i

theorem Armed.congr {s s' : State} {e : EntryId} {f : ℤ} (h : Armed s e f)
    (hcur : s'.wheel.mCur = s.wheel.mCur) (htick : currentTick s' = currentTick s)
    (hcount : ∀ i, (s'.wheel.mSlots i).count e = (s.wheel.mSlots i).count e)
    (hround : (s'.wheel.entries e).mRound = (s.wheel.entries e).mRound)
    (hpass : Passed s' e ↔ Passed s e) : Armed s' e f := by
  obtain ⟨slot, lap, hp, rfl⟩ := h
  refine ⟨slot, lap, ⟨hp.slot_nonneg, hp.slot_lt, fun i => ?_, ?_, ?_⟩, ?_⟩
  · rw [hcount, hp.count]
  · rw [hround]
    exact hp.round
  · rw [hpass]
    exact hp.lap
  · rw [hcur, htick, hround]

theorem take_eraseIdx (l : List EntryId) (pos : ℕ) : (l.eraseIdx pos).take pos = l.take pos := by
  rcases lt_or_ge pos l.length with h | h
  · rw [List.eraseIdx_eq_take_drop_succ, List.take_append_of_le_length (by simp; omega),
      List.take_take, min_self]
  · rw [List.eraseIdx_of_length_le h]

theorem count_eraseIdx {l : List EntryId} {pos : ℕ} {x e : EntryId} (h : l[pos]? = some x) :
    (l.eraseIdx pos).count e + (if x = e then 1 else 0) = l.count e := by
  obtain ⟨hlt, hx⟩ := List.getElem?_eq_some_iff.mp h
  have hsplit : l = l.take pos ++ x :: l.drop (pos + 1) := by
    rw [← hx, List.getElem_cons_drop, List.take_append_drop]
  conv_rhs => rw [hsplit]
  rw [List.eraseIdx_eq_take_drop_succ, List.count_append, List.count_append, List.count_cons]
  simp [Nat.add_assoc]

theorem count_erase {pos : ℕ} {x e : EntryId} (h : (w.mSlots w.mCur)[pos]? = some x) (i : ℤ) :
    ((w.erase pos).mSlots i).count e + (if i = w.mCur ∧ x = e then 1 else 0) =
      (w.mSlots i).count e := by
  by_cases hi : i = w.mCur
  · subst hi
    simpa [erase_slots] using count_eraseIdx (e := e) h
  · simp [erase_slots, hi]

theorem count_place (w : TimingWheel) (x e : EntryId) (i : ℤ) :
    ((w.place x).mSlots i).count e = (w.mSlots i).count e +
      if i = (w.mCur + w.timeoutTicks x).tmod roundSize ∧ x = e then 1 else 0 := by
  by_cases hi : i = (w.mCur + w.timeoutTicks x).tmod roundSize
  · subst hi
    by_cases hx : x = e <;> simp [place, setSlot, setEntry, hx]
  · simp [place, setSlot, setEntry, hi]

theorem Extends.count {e : EntryId} (h : Extends (· ≠ e) w w') (i : ℤ) :
    (w'.mSlots i).count e = (w.mSlots i).count e := by
  obtain ⟨ys, hys, hne⟩ := h.slots i
  rw [hys, List.count_append, List.count_eq_zero_of_not_mem (fun hy => hne e hy rfl), Nat.add_zero]

theorem Extends.take (h : Extends P w w') {pos : ℕ} {i : ℤ} (hpos : pos ≤ (w.mSlots i).length) :
    (w'.mSlots i).take pos = (w.mSlots i).take pos := by
  obtain ⟨ys, hys, -⟩ := h.slots i
  rw [hys, List.take_append_of_le_length hpos]

theorem Extends.getElem? (h : Extends P w w') {pos : ℕ} {i : ℤ} {x : EntryId}
    (hx : (w.mSlots i)[pos]? = some x) : (w'.mSlots i)[pos]? = some x := by
  obtain ⟨ys, hys, -⟩ := h.slots i
  rw [hys, List.getElem?_append_left (List.getElem?_eq_some_iff.mp hx).1]
  exact hx

theorem passed_erase {s : State} {pos : ℕ} {v : TimingWheel} {e : EntryId}
    {fired : List (ℕ × EntryId)} (hw : s.walk = some pos)
    (htake : (v.mSlots v.mCur).take pos = (s.wheel.mSlots s.wheel.mCur).take pos) :
    Passed { s with wheel := v.erase pos, fired := fired } e ↔ Passed s e := by
  have hslot : ((v.erase pos).mSlots (v.erase pos).mCur).take pos =
      (s.wheel.mSlots s.wheel.mCur).take pos := by
    rw [erase_slots, if_pos (show (v.erase pos).mCur = v.mCur from rfl), take_eraseIdx, htake]
  simp only [Passed, hw, Option.some.injEq]
  constructor
  · rintro ⟨p, rfl, hp⟩
    exact ⟨pos, rfl, hslot ▸ hp⟩
  · rintro ⟨p, rfl, hp⟩
    exact ⟨pos, rfl, hslot.symm ▸ hp⟩

/-- The position right after an insertion at `m_cur`, for a timeout of `k` ticks. -/
def dueIn (cur k : ℤ) : ℤ :=
  if cur + k % roundSize < roundSize then k else k + roundSize

theorem le_dueIn (cur k : ℤ) : k ≤ dueIn cur k := by
  unfold dueIn
  rw [roundSize_eq]
  split_ifs <;> omega

theorem dueIn_eq_iff {cur k : ℤ} : dueIn cur k = k ↔ cur + k % roundSize < roundSize := by
  unfold dueIn
  split_ifs with h
  · simpa using h
  · rw [roundSize_eq] at *
    constructor <;> omega

/-- Slot and round count that `addEntry` computes, measured from `m_cur`. -/
theorem ahead_target {cur k : ℤ} (hc : 0 ≤ cur) (hcm : cur < roundSize) (hk : 0 ≤ k) :
    0 ≤ (cur + k).tmod roundSize ∧ (cur + k).tmod roundSize < roundSize ∧
      0 ≤ (cur + k).tdiv roundSize ∧
      ahead cur ((cur + k).tmod roundSize) + roundSize * (cur + k).tdiv roundSize =
        dueIn cur k := by
  have hsum : 0 ≤ cur + k := by omega
  rw [Int.tmod_eq_emod_of_nonneg hsum, Int.tdiv_eq_ediv_of_nonneg hsum]
  unfold ahead dueIn
  rw [roundSize_eq] at *
  refine ⟨by omega, by omega, by omega, ?_⟩
  split_ifs <;> omega

/-- `e` is enabled, has a timeout of `k` ticks and repeats or not. -/
structure Subject (w : TimingWheel) (e : EntryId) (k : ℤ) (repeats : Bool) : Prop where
  enabled : (w.entries e).mDisabled = false
  timeout : w.timeoutTicks e = k
  kind : (w.entries e).mRepeat = repeats

variable {e : EntryId} {k : ℤ} {repeats : Bool}

theorem Subject.extends (h : Subject w e k repeats) (hext : Extends (· ≠ e) w w') :
    Subject w' e k repeats := by
  have hentry := hext.entries e (by simp)
  refine ⟨hentry ▸ h.enabled, ?_, hentry ▸ h.kind⟩
  rw [timeoutTicks, hentry, hext.interval]
  exact h.timeout

theorem Subject.setRound (h : Subject w e k repeats) (x : EntryId) (n : ℤ) :
    Subject (w.setEntry x { w.entries x with mRound := n }) e k repeats := by
  by_cases hx : e = x
  · subst hx
    exact ⟨by simpa [setEntry] using h.enabled, by simpa [timeoutTicks, setEntry] using h.timeout,
      by simpa [setEntry] using h.kind⟩
  · exact ⟨by simpa [setEntry, hx] using h.enabled,
      by simpa [timeoutTicks, setEntry, hx] using h.timeout, by simpa [setEntry, hx] using h.kind⟩

theorem Subject.setSlot (h : Subject w e k repeats) (i : ℤ) (xs : List EntryId) :
    Subject (w.setSlot i xs) e k repeats :=
  ⟨h.enabled, h.timeout, h.kind⟩

theorem Subject.place (h : Subject w e k repeats) : Subject (w.place e) e k repeats :=
  (h.setRound e _).setSlot _ _

theorem armed_place {s : State} (hw : WellFormed s) (h : Subject s.wheel e k repeats) (hk : 0 ≤ k)
    (habs : Absent s e) :
    Armed { s with wheel := s.wheel.place e } e (currentTick s + dueIn s.wheel.mCur k) := by
  obtain ⟨h0, h1, h2, h3⟩ := ahead_target hw.cur_nonneg hw.cur_lt hk
  have hround : ((s.wheel.place e).entries e).mRound = (s.wheel.mCur + k).tdiv roundSize := by
    simp [TimingWheel.place, TimingWheel.setSlot, setEntry, h.timeout]
  refine ⟨(s.wheel.mCur + k).tmod roundSize, 0, ⟨h0, h1, fun i => ?_, ?_, .inr ⟨?_, rfl⟩⟩, ?_⟩
  · rw [count_place, List.count_eq_zero_of_not_mem (habs i), h.timeout]
    simp
  · rw [hround]
    exact h2
  · rintro ⟨pos, hpos, hmem⟩
    have hext : Extends (fun _ => True) s.wheel (s.wheel.place e) := extends_place trivial
    rw [hext.cur, hext.take (hw.walk pos hpos)] at hmem
    exact habs _ (List.mem_of_mem_take hmem)
  · rw [hround, ← h3]
    simp only [currentTick, add_zero]
    rw [Int.add_assoc]
    rfl

/-! ## Steps that leave an entry alone -/

def Step.avoids (e : EntryId) : Step → Prop
  | .add ent => ent ≠ e
  | .disable ent => ent ≠ e
  | .tick => True
  | .visit script => ∀ a ∈ script, a.target ≠ e

private theorem Armed.leave {s : State} {f : ℤ} {pos : ℕ} (h : Armed s e f) (hw : WellFormed s)
    (hwalk : s.walk = some pos) (hpos : (s.wheel.mSlots s.wheel.mCur)[pos]? = none) :
    Armed { s with wheel := { s.wheel with mCur := (s.wheel.mCur + 1).tmod roundSize },
                   walk := none } e f := by
  obtain ⟨slot, lap, hp, rfl⟩ := h
  have hcur := hw.cur_nonneg
  have hcur' := hw.cur_lt
  have h0 := hp.slot_nonneg
  have h1 := hp.slot_lt
  have hnext : (s.wheel.mCur + 1).tmod roundSize = (s.wheel.mCur + 1) % 100 :=
    Int.tmod_eq_emod_of_nonneg (by omega)
  -- an entry of the slot just walked is behind the iterator, any other entry is not
  have hpass : Passed s e ↔ slot = s.wheel.mCur := by
    have hlen := List.getElem?_eq_none_iff.mp hpos
    have hcount := hp.count s.wheel.mCur
    simp only [Passed, hwalk, Option.some.injEq, exists_eq_left', List.take_of_length_le hlen]
    rw [← List.count_pos_iff, hcount]
    split_ifs with heq
    · simp [heq]
    · simp only [lt_self_iff_false, false_iff]
      exact fun h => heq h.symm
  refine ⟨slot, 0, ⟨h0, h1, hp.count, hp.round, .inr ⟨by simp [Passed], rfl⟩⟩, ?_⟩
  simp only [currentTick, hwalk, hnext, ahead, if_true, reduceCtorEq, if_false]
  rw [roundSize_eq] at *
  rcases hp.lap with ⟨hpas, rfl⟩ | ⟨hpas, rfl⟩
  · have heq := hpass.mp hpas
    split_ifs <;> omega
  · have hne : slot ≠ s.wheel.mCur := fun h => hpas (hpass.mpr h)
    split_ifs <;> omega

private theorem Armed.visit_other {s s' : State} {f : ℤ} {pos : ℕ} {x : EntryId}
    {script : List Action} (h : Armed s e f) (hw : WellFormed s) (hwalk : s.walk = some pos)
    (hpos : (s.wheel.mSlots s.wheel.mCur)[pos]? = some x) (hx : x ≠ e)
    (hscript : ∀ a ∈ script, a.target ≠ e) (hs : visit s pos script = some s') :
    Armed s' e f := by
  have herase : ∀ (v : TimingWheel) (fired : List (ℕ × EntryId)), Extends (· ≠ e) s.wheel v →
      Armed { s with wheel := v.erase pos, fired := fired } e f := by
    intro v fired hext
    have hpos' : (v.mSlots v.mCur)[pos]? = some x := by
      rw [hext.cur]
      exact hext.getElem? hpos
    refine h.congr hext.cur rfl (fun i => ?_) ?_ (passed_erase hwalk ?_)
    · rw [← hext.count i, ← count_erase hpos' i]
      simp [hx]
    · exact congrArg TimerEntry.mRound (hext.entries e (by simp))
    · rw [hext.cur, hext.take (hw.walk pos hwalk)]
  rcases visit_cases hs with ⟨hnone, -⟩ | ⟨x', hx', hcase⟩
  · simp [hnone] at hpos
  · cases hx'.symm.trans hpos
    rcases hcase with ⟨-, rfl⟩ | ⟨-, -, rfl⟩ | ⟨-, -, v, hv, rfl⟩
    · exact herase s.wheel s.fired (.refl _)
    · refine h.congr rfl (by simp [currentTick, hwalk]) (fun i => rfl) ?_ ?_
      · simp [countDown, setEntry, Function.update_of_ne hx.symm]
      · have htake : (s.wheel.mSlots s.wheel.mCur).take (pos + 1) =
            (s.wheel.mSlots s.wheel.mCur).take pos ++ [x] := by
          rw [List.take_add_one, hpos, Option.toList_some]
        simp [Passed, hwalk, countDown, setEntry, htake, hx.symm]
    · exact herase v _ (extends_fire hscript hx hv)

/-- Appending to a slot and erasing an older element commute. -/
theorem place_erase {pos : ℕ} (hpos : pos < (w.mSlots w.mCur).length) (x : EntryId) :
    (w.place x).erase pos = (w.erase pos).place x := by
  have htarget : (w.erase pos).timeoutTicks x = w.timeoutTicks x := rfl
  simp only [place, erase, setSlot, setEntry, timeoutTicks] at *
  congr 1
  funext i
  by_cases hi : i = w.mCur
  · subst hi
    by_cases hslot : w.mCur = (w.mCur + (w.entries x).mTimeoutms.tdiv w.mInterval).tmod roundSize
    · rw [← hslot]
      simp [List.eraseIdx_append_of_lt_length hpos]
    · simp [Function.update_of_ne hslot]
  · by_cases hslot : i = (w.mCur + (w.entries x).mTimeoutms.tdiv w.mInterval).tmod roundSize
    · rw [← hslot]
      simp [hi]
    · simp [Function.update_of_ne hslot, Function.update_of_ne hi]

private theorem Position.reached {s : State} {slot lap : ℤ} {pos : ℕ} (hp : Position s e slot lap)
    (hwalk : s.walk = some pos) (hpos : (s.wheel.mSlots s.wheel.mCur)[pos]? = some e) :
    slot = s.wheel.mCur ∧ lap = 0 ∧
      ∀ v, Extends (· ≠ e) s.wheel v → ∀ i, e ∉ (v.erase pos).mSlots i := by
  have hslot : slot = s.wheel.mCur := by
    by_contra hne
    have hzero := hp.count s.wheel.mCur
    rw [if_neg (fun h => hne h.symm), List.count_eq_zero] at hzero
    exact hzero (List.mem_of_getElem? hpos)
  have habs : ∀ v, Extends (· ≠ e) s.wheel v → ∀ i, e ∉ (v.erase pos).mSlots i := by
    intro v hext i
    have hpos' : (v.mSlots v.mCur)[pos]? = some e := by
      rw [hext.cur]
      exact hext.getElem? hpos
    have hcount := count_erase (e := e) hpos' i
    rw [hext.count, hp.count, hext.cur, hslot] at hcount
    simp only [and_true] at hcount
    rw [← List.count_eq_zero]
    split_ifs at hcount <;> omega
  refine ⟨hslot, ?_, habs⟩
  rcases hp.lap with ⟨⟨p, hp', hmem⟩, -⟩ | ⟨-, hlap⟩
  · cases hwalk.symm.trans hp'
    have hgone := habs s.wheel (.refl _) s.wheel.mCur
    rw [erase_slots, if_pos rfl, List.eraseIdx_eq_take_drop_succ] at hgone
    exact absurd (List.mem_append_left _ hmem) hgone
  · exact hlap

private theorem Armed.countDown {s : State} {f : ℤ} {pos : ℕ} (h : Armed s e f)
    (hw : WellFormed s) (hwalk : s.walk = some pos)
    (hpos : (s.wheel.mSlots s.wheel.mCur)[pos]? = some e)
    (hround : 0 < (s.wheel.entries e).mRound) :
    Armed { s with wheel := s.wheel.countDown e, walk := some (pos + 1) } e f := by
  obtain ⟨slot, lap, hp, rfl⟩ := h
  obtain ⟨rfl, rfl, -⟩ := hp.reached hwalk hpos
  refine ⟨s.wheel.mCur, 1, ⟨hw.cur_nonneg, hw.cur_lt, hp.count, ?_, .inl ⟨⟨pos + 1, rfl, ?_⟩, rfl⟩⟩,
    ?_⟩
  · simp only [TimingWheel.countDown, setEntry, Function.update_self]
    omega
  · simp [TimingWheel.countDown, setEntry, List.take_add_one, hpos]
  · have htick : currentTick s = s.ticks := by simp [currentTick, hwalk]
    have htick' : currentTick { s with wheel := s.wheel.countDown e, walk := some (pos + 1) } =
        s.ticks := by simp [currentTick]
    rw [htick, htick']
    simp only [TimingWheel.countDown, setEntry, Function.update_self]
    ring

private theorem Armed.due {s : State} {f : ℤ} {pos : ℕ} (h : Armed s e f)
    (hwalk : s.walk = some pos) (hpos : (s.wheel.mSlots s.wheel.mCur)[pos]? = some e)
    (hround : (s.wheel.entries e).mRound ≤ 0) : (s.ticks : ℤ) = f := by
  obtain ⟨slot, lap, hp, rfl⟩ := h
  obtain ⟨rfl, rfl, -⟩ := hp.reached hwalk hpos
  have hzero : (s.wheel.entries e).mRound = 0 := le_antisymm hround hp.round
  have htick : currentTick s = s.ticks := by simp [currentTick, hwalk]
  have hahead : ahead s.wheel.mCur s.wheel.mCur = 0 := by simp [ahead]
  rw [htick, hahead, hzero]
  ring

private theorem armed_reinserted {s : State} {pos : ℕ} {u : TimingWheel}
    (hext : Extends (· ≠ e) s.wheel u) (hw : WellFormed s) (hsub : Subject u e k repeats)
    (hk : 0 ≤ k) (hwalk : s.walk = some pos) (hlen : pos < (u.mSlots u.mCur).length)
    (habs : ∀ i, e ∉ (u.erase pos).mSlots i) (fired : List (ℕ × EntryId)) :
    Armed { s with wheel := (u.place e).erase pos, fired := fired } e
      (s.ticks + dueIn s.wheel.mCur k) := by
  rw [place_erase hlen]
  have hwell : WellFormed { s with wheel := u.erase pos, fired := fired } := by
    refine ⟨by simpa [erase, setSlot, hext.interval] using hw.interval,
      by simpa [erase, setSlot, hext.cur] using hw.cur_nonneg,
      by simpa [erase, setSlot, hext.cur] using hw.cur_lt, fun p hp => ?_⟩
    cases hwalk.symm.trans hp
    show pos ≤ ((u.erase pos).mSlots u.mCur).length
    rw [erase_slots, if_pos rfl, List.length_eraseIdx_of_lt hlen]
    omega
  have harm := armed_place hwell (hsub.setSlot _ _) hk habs
  convert harm using 2
  · simp [currentTick, hwalk]
  · exact congrArg (dueIn · k) hext.cur.symm

/-- A pass of the loop that is about `e` itself: it counts down, or the callback runs in
the tick that was settled and the entry is inserted again or gone. -/
private theorem Armed.visit_self {s s' : State} {f : ℤ} {pos : ℕ} {script : List Action}
    (h : Armed s e f) (hw : WellFormed s) (hsub : Subject s.wheel e k repeats) (hk : 0 ≤ k)
    (hwalk : s.walk = some pos) (hpos : (s.wheel.mSlots s.wheel.mCur)[pos]? = some e)
    (hscript : ∀ a ∈ script, a.target ≠ e) (hs : visit s pos script = some s') :
    (s'.fired = s.fired ∧ Armed s' e f) ∨
      (s'.fired = s.fired ++ [(s.ticks, e)] ∧ (s.ticks : ℤ) = f ∧
        if repeats then Armed s' e (f + dueIn s.wheel.mCur k) else Absent s' e) := by
  have habs : ∀ v, Extends (· ≠ e) s.wheel v → ∀ i, e ∉ (v.erase pos).mSlots i := by
    obtain ⟨slot, lap, hp, -⟩ := h
    exact (hp.reached hwalk hpos).2.2
  rcases visit_cases hs with ⟨hnone, -⟩ | ⟨x, hx, hcase⟩
  · simp [hnone] at hpos
  · cases hx.symm.trans hpos
    rcases hcase with ⟨hdis, -⟩ | ⟨-, hround, rfl⟩ | ⟨-, hround, v, hv, rfl⟩
    · rw [hsub.enabled] at hdis
      cases hdis
    · exact .inl ⟨rfl, h.countDown hw hwalk hpos hround⟩
    · have hdue := h.due hwalk hpos hround
      subst hdue
      obtain ⟨u, hu, hcase⟩ := fire_cases hv
      have hext : Extends (· ≠ e) s.wheel u := extends_script hscript hu
      have hsub' := hsub.extends hext
      refine .inr ⟨rfl, rfl, ?_⟩
      rcases hcase with ⟨hrep, hadd⟩ | ⟨hrep, rfl⟩
      · obtain ⟨-, -, -, rfl⟩ := addEntry_eq_some.mp hadd
        rw [if_pos (hsub'.kind.symm.trans hrep)]
        apply armed_reinserted hext hw hsub' hk hwalk _ (habs u hext)
        rw [hext.cur]
        exact (List.getElem?_eq_some_iff.mp hpos).1.trans_le (length_slot_le hext _)
      · rw [if_neg (by rw [hsub'.kind.symm.trans hrep]; exact Bool.false_ne_true)]
        exact habs _ hext

/-- The numbers of the ticks in which the callback of `e` has run, oldest first. -/
def runsOf (e : EntryId) (s : State) : List ℕ := (s.fired.filter (·.2 = e)).map (·.1)

theorem count_runsOf (e : EntryId) (s : State) (n : ℕ) :
    (runsOf e s).count n = s.fired.count (n, e) := by
  unfold runsOf
  induction s.fired with
  | nil => rfl
  | cons p ps ih =>
    obtain ⟨m, x⟩ := p
    by_cases hx : x = e
    · subst hx
      simp [List.count_cons, ih]
    · simp [hx, ih]

theorem mem_runsOf {e : EntryId} {s : State} {n : ℕ} : n ∈ runsOf e s ↔ (n, e) ∈ s.fired := by
  simp [runsOf]

theorem runsOf_append_self (s : State) {s' : State} (n : ℕ)
    (h : s'.fired = s.fired ++ [(n, e)]) : runsOf e s' = runsOf e s ++ [n] := by
  simp [runsOf, h]

theorem runsOf_append_other (s : State) {s' : State} {x : EntryId} (hx : x ≠ e) (n : ℕ)
    (h : s'.fired = s.fired ++ [(n, x)]) : runsOf e s' = runsOf e s := by
  simp [runsOf, h, hx]

theorem visit_fired {s s' : State} {pos : ℕ} {script : List Action}
    (h : visit s pos script = some s') :
    s'.ticks = s.ticks ∧ (s'.fired = s.fired ∨
      ∃ x, (s.wheel.mSlots s.wheel.mCur)[pos]? = some x ∧ s'.fired = s.fired ++ [(s.ticks, x)]) := by
  rcases visit_cases h with ⟨-, rfl⟩ | ⟨x, hx, ⟨-, rfl⟩ | ⟨-, -, rfl⟩ | ⟨-, -, v, -, rfl⟩⟩
  · exact ⟨rfl, .inl rfl⟩
  · exact ⟨rfl, .inl rfl⟩
  · exact ⟨rfl, .inl rfl⟩
  · exact ⟨rfl, .inr ⟨x, hx, rfl⟩⟩

theorem fired_le {s s' : State} {l : Step} (h : ∀ p ∈ s.fired, p.1 ≤ s.ticks)
    (hs : TimingWheel.step s l = some s') : ∀ p ∈ s'.fired, p.1 ≤ s'.ticks := by
  cases l with
  | add x =>
    obtain ⟨-, rfl⟩ := step_add hs
    exact h
  | disable x =>
    obtain ⟨-, rfl⟩ := step_disable hs
    exact h
  | tick =>
    obtain ⟨-, rfl⟩ := step_tick hs
    exact fun p hp => (h p hp).trans (Nat.le_succ _)
  | visit script =>
    obtain ⟨pos, -, hs⟩ := step_visit_eq_some.mp hs
    obtain ⟨ht, hf | ⟨x, -, hf⟩⟩ := visit_fired hs
    · rw [ht, hf]
      exact h
    · rw [ht, hf]
      intro p hp
      rcases List.mem_append.mp hp with hp | hp
      · exact h p hp
      · cases List.mem_singleton.mp hp
        exact le_refl _

theorem Subject.step {s s' : State} {l : Step} (h : Subject s.wheel e k repeats)
    (hl : l.avoids e) (hs : TimingWheel.step s l = some s') : Subject s'.wheel e k repeats := by
  cases l with
  | add x =>
    obtain ⟨-, rfl⟩ := step_add hs
    exact h.extends (extends_place hl)
  | disable x =>
    obtain ⟨-, rfl⟩ := step_disable hs
    exact h.extends (extends_disable hl)
  | tick =>
    obtain ⟨-, rfl⟩ := step_tick hs
    exact h
  | visit script =>
    obtain ⟨pos, -, hs⟩ := step_visit_eq_some.mp hs
    rcases visit_cases hs with ⟨-, rfl⟩ | ⟨x, -, ⟨-, rfl⟩ | ⟨-, -, rfl⟩ | ⟨-, -, v, hv, rfl⟩⟩
    · exact ⟨h.enabled, h.timeout, h.kind⟩
    · exact h.setSlot _ _
    · exact h.setRound x _
    · obtain ⟨u, hu, ⟨-, hadd⟩ | ⟨-, rfl⟩⟩ := fire_cases hv
      · obtain ⟨-, -, -, rfl⟩ := addEntry_eq_some.mp hadd
        have hsub := h.extends (extends_script hl hu)
        exact ((hsub.setRound x _).setSlot _ _).setSlot _ _
      · exact (h.extends (extends_script hl hu)).setSlot _ _

/-- A step that leaves `e` alone keeps the settled firing tick, or it is the run of the
callback in exactly that tick. -/
theorem Armed.step {s s' : State} {f : ℤ} {l : Step} (h : Armed s e f) (hw : WellFormed s)
    (hsub : Subject s.wheel e k repeats) (hk : 0 ≤ k) (hl : l.avoids e)
    (hs : TimingWheel.step s l = some s') :
    (runsOf e s' = runsOf e s ∧ Armed s' e f) ∨
      (runsOf e s' = runsOf e s ++ [s.ticks] ∧ (s.ticks : ℤ) = f ∧ s.walk ≠ none ∧
        if repeats then Armed s' e (f + dueIn s.wheel.mCur k) else Absent s' e) := by
  cases l with
  | add x =>
    obtain ⟨hwalk, rfl⟩ := step_add hs
    have hext : Extends (· ≠ e) s.wheel (s.wheel.place x) := extends_place hl
    refine .inl ⟨rfl, h.congr rfl rfl hext.count ?_ (by simp [Passed, hwalk])⟩
    exact congrArg TimerEntry.mRound (hext.entries e (by simp))
  | disable x =>
    obtain ⟨hwalk, rfl⟩ := step_disable hs
    have hext : Extends (· ≠ e) s.wheel (s.wheel.disable x) := extends_disable hl
    refine .inl ⟨rfl, h.congr rfl rfl hext.count ?_ (by simp [Passed, hwalk])⟩
    exact congrArg TimerEntry.mRound (hext.entries e (by simp))
  | tick =>
    obtain ⟨hwalk, rfl⟩ := step_tick hs
    exact .inl ⟨rfl, h.congr rfl (by simp [currentTick, hwalk]) (fun _ => rfl) rfl
      (by simp [Passed, hwalk])⟩
  | visit script =>
    obtain ⟨pos, hwalk, hs⟩ := step_visit_eq_some.mp hs
    cases hpos : (s.wheel.mSlots s.wheel.mCur)[pos]? with
    | none =>
      rcases visit_cases hs with ⟨-, rfl⟩ | ⟨x, hx, -⟩
      · exact .inl ⟨rfl, h.leave hw hwalk hpos⟩
      · simp [hpos] at hx
    | some x =>
      by_cases hx : x = e
      · subst hx
        rcases h.visit_self hw hsub hk hwalk hpos hl hs with ⟨hf, harm⟩ | ⟨hf, htick, hnext⟩
        · exact .inl ⟨by simp [runsOf, hf], harm⟩
        · exact .inr ⟨runsOf_append_self s _ hf, htick, by simp [hwalk], hnext⟩
      · refine .inl ⟨?_, h.visit_other hw hwalk hpos hx hl hs⟩
        rcases (visit_fired hs).2 with hf | ⟨y, hy, hf⟩
        · simp [runsOf, hf]
        · cases hy.symm.trans hpos
          exact runsOf_append_other s hx _ hf

theorem Extends.absent {s : State} (h : Extends (· ≠ e) s.wheel w) (habs : Absent s e) (i : ℤ) :
    e ∉ w.mSlots i := by
  rw [← List.count_eq_zero, h.count, List.count_eq_zero]
  exact habs i

theorem Absent.step {s s' : State} {l : Step} (h : Absent s e) (hl : l.avoids e)
    (hs : TimingWheel.step s l = some s') : Absent s' e ∧ runsOf e s' = runsOf e s := by
  cases l with
  | add x =>
    obtain ⟨-, rfl⟩ := step_add hs
    exact ⟨(extends_place hl).absent h, rfl⟩
  | disable x =>
    obtain ⟨-, rfl⟩ := step_disable hs
    exact ⟨(extends_disable hl).absent h, rfl⟩
  | tick =>
    obtain ⟨-, rfl⟩ := step_tick hs
    exact ⟨h, rfl⟩
  | visit script =>
    obtain ⟨pos, -, hs⟩ := step_visit_eq_some.mp hs
    have herase : ∀ v, Extends (· ≠ e) s.wheel v → ∀ i, e ∉ (v.erase pos).mSlots i := by
      intro v hext i hmem
      rw [erase_slots] at hmem
      split_ifs at hmem
      · exact hext.absent h _ (List.mem_of_mem_eraseIdx hmem)
      · exact hext.absent h _ hmem
    rcases visit_cases hs with ⟨-, rfl⟩ | ⟨x, hx, ⟨-, rfl⟩ | ⟨-, -, rfl⟩ | ⟨-, -, v, hv, rfl⟩⟩
    · exact ⟨h, rfl⟩
    · exact ⟨herase s.wheel (.refl _), rfl⟩
    · exact ⟨h, rfl⟩
    · have hxe : x ≠ e := fun heq => h _ (List.mem_of_getElem? (heq ▸ hx))
      exact ⟨herase v (extends_fire hl hxe hv), runsOf_append_other s hxe _ rfl⟩

end GenericServer.TimingWheel
