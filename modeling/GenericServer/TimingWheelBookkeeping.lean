import GenericServer.TimingWheelSchedule
import Mathlib.Data.List.Nodup

/-!
# The bookkeeping of the timing wheel

`Sane w` says that `addEntry` stays inside the slots whatever is added. Each entry that callers
have added once is `Waiting` at its one position until it is dropped, and `Done` afterwards.
-/
namespace GenericServer.TimingWheel

open TransitionRuns

/-! ## Indices and round counts -/

/-- `m_cur` is in range, no slot outside of the range is used, and the timeouts are
non-negative `int`s. -/
structure Sane (w : TimingWheel) : Prop where
  interval : 2 ≤ w.mInterval
  cur_nonneg : 0 ≤ w.mCur
  cur_lt : w.mCur < roundSize
  timeout_nonneg : ∀ e, 0 ≤ (w.entries e).mTimeoutms
  timeout_le : ∀ e, (w.entries e).mTimeoutms ≤ intMax
  round : ∀ e, 0 ≤ (w.entries e).mRound
  slots : ∀ i, w.mSlots i ≠ [] → 0 ≤ i ∧ i < roundSize

variable {w w' : TimingWheel} {e : EntryId} {s s' : State} {l : Step} {script : List Action}

namespace Sane

theorem setEntry (h : Sane w) {t : TimerEntry} (htime : t.mTimeoutms = (w.entries e).mTimeoutms)
    (hround : 0 ≤ t.mRound) : Sane (w.setEntry e t) := by
  refine ⟨h.interval, h.cur_nonneg, h.cur_lt, fun x => ?_, fun x => ?_, fun x => ?_, h.slots⟩
  all_goals
    by_cases hx : x = e
    · subst hx
      simp only [TimingWheel.setEntry, Function.update_self, htime]
      first | exact h.timeout_nonneg x | exact h.timeout_le x | exact hround
    · simp only [TimingWheel.setEntry, Function.update_of_ne hx]
      first | exact h.timeout_nonneg x | exact h.timeout_le x | exact h.round x

theorem setSlot (h : Sane w) {i : ℤ} (hi : 0 ≤ i ∧ i < roundSize) (xs : List EntryId) :
    Sane (w.setSlot i xs) := by
  refine ⟨h.interval, h.cur_nonneg, h.cur_lt, h.timeout_nonneg, h.timeout_le, h.round,
    fun k hk => ?_⟩
  by_cases hki : k = i
  · rw [hki]
    exact hi
  · simp only [TimingWheel.setSlot, Function.update_of_ne hki] at hk
    exact h.slots k hk

theorem target (h : Sane w) (e : EntryId) : 0 ≤ w.mCur + w.timeoutTicks e ∧
    w.mCur + w.timeoutTicks e ≤ intMax := by
  have hinterval := h.interval
  have hnonneg := h.timeout_nonneg e
  have hle := h.timeout_le e
  have hcur := h.cur_nonneg
  have hlt := h.cur_lt
  have hticks : w.timeoutTicks e = (w.entries e).mTimeoutms / w.mInterval :=
    Int.tdiv_eq_ediv_of_nonneg hnonneg
  have hpos : 0 ≤ (w.entries e).mTimeoutms / w.mInterval := Int.ediv_nonneg hnonneg (by omega)
  have hmul : (w.entries e).mTimeoutms / w.mInterval * w.mInterval ≤ (w.entries e).mTimeoutms :=
    Int.ediv_mul_le _ (by omega)
  have htwice : 2 * ((w.entries e).mTimeoutms / w.mInterval) ≤ (w.entries e).mTimeoutms := by
    nlinarith only [hpos, hmul, hinterval]
  rw [hticks]
  rw [roundSize_eq] at hlt
  unfold intMax at *
  omega

theorem slot (h : Sane w) (e : EntryId) :
    0 ≤ (w.mCur + w.timeoutTicks e).tmod roundSize ∧
      (w.mCur + w.timeoutTicks e).tmod roundSize < roundSize :=
  ⟨Int.tmod_nonneg _ (h.target e).1, Int.tmod_lt_of_pos _ (by decide)⟩

theorem addEntry (h : Sane w) (e : EntryId) : w.addEntry e = some (w.place e) := by
  have hinterval := h.interval
  exact addEntry_eq_some.mpr ⟨by omega, (h.target e).2, (h.slot e).1, rfl⟩

theorem place (h : Sane w) (e : EntryId) : Sane (w.place e) := by
  refine (h.setEntry ?_ ?_).setSlot (h.slot e) _
  · rfl
  · exact Int.tdiv_nonneg (h.target e).1 (by decide)

theorem disable (h : Sane w) (e : EntryId) : Sane (w.disable e) := h.setEntry rfl (h.round e)

theorem countDown (h : Sane w) (hround : 0 < (w.entries e).mRound) : Sane (w.countDown e) :=
  h.setEntry rfl (by dsimp only; omega)

theorem erase (h : Sane w) (pos : ℕ) : Sane (w.erase pos) :=
  h.setSlot ⟨h.cur_nonneg, h.cur_lt⟩ _

theorem act (h : Sane w) (a : Action) : ∃ w', w.act a = some w' ∧ Sane w' := by
  cases a with
  | add x => exact ⟨_, h.addEntry x, h.place x⟩
  | disable x => exact ⟨_, rfl, h.disable x⟩

theorem scripted (h : Sane w) (script : List Action) :
    ∃ w', script.foldlM TimingWheel.act w = some w' ∧ Sane w' := by
  induction script generalizing w with
  | nil => exact ⟨w, rfl, h⟩
  | cons a script ih =>
    obtain ⟨v, hv, hsane⟩ := h.act a
    obtain ⟨u, hu, hsane⟩ := ih hsane
    exact ⟨u, by rw [List.foldlM_cons, hv]; exact hu, hsane⟩

theorem fire (h : Sane w) (e : EntryId) (script : List Action) :
    ∃ w', w.fire e script = some w' ∧ Sane w' := by
  obtain ⟨u, hu, hsane⟩ := h.scripted script
  unfold TimingWheel.fire
  rw [hu]
  by_cases hrepeat : (u.entries e).mRepeat = true
  · exact ⟨u.place e, (if_pos hrepeat).trans (hsane.addEntry e), hsane.place e⟩
  · exact ⟨u, if_neg hrepeat, hsane⟩

theorem advance (h : Sane w) : Sane { w with mCur := (w.mCur + 1).tmod roundSize } where
  interval := h.interval
  cur_nonneg := Int.tmod_nonneg _ (Int.add_nonneg h.cur_nonneg (by decide))
  cur_lt := Int.tmod_lt_of_pos _ (by decide)
  timeout_nonneg := h.timeout_nonneg
  timeout_le := h.timeout_le
  round := h.round
  slots := h.slots

theorem visit (h : Sane s.wheel) (pos : ℕ) (script : List Action) :
    ∃ s', TimingWheel.visit s pos script = some s' ∧ Sane s'.wheel := by
  unfold TimingWheel.visit
  split
  · exact ⟨_, rfl, h.advance⟩
  · rename_i x hpos
    split_ifs with hdis hround
    · exact ⟨_, rfl, h.erase pos⟩
    · exact ⟨_, rfl, h.countDown hround⟩
    · obtain ⟨v, hv, hsane⟩ := h.fire x script
      rw [hv]
      exact ⟨_, rfl, hsane.erase pos⟩

theorem step (h : Sane s.wheel) (hs : TimingWheel.step s l = some s') : Sane s'.wheel := by
  cases l with
  | add x =>
    obtain ⟨-, rfl⟩ := step_add hs
    exact h.place x
  | disable x =>
    obtain ⟨-, rfl⟩ := step_disable hs
    exact h.disable x
  | tick =>
    obtain ⟨-, rfl⟩ := step_tick hs
    exact h
  | visit script =>
    obtain ⟨pos, -, hs⟩ := step_visit_eq_some.mp hs
    obtain ⟨t, ht, hsane⟩ := h.visit pos script
    cases hs.symm.trans ht
    exact hsane

end Sane

/-! ## Positions -/

def Action.adds : Action → List EntryId
  | .add ent => [ent]
  | .disable _ => []

/-- The pass with the iterator at `pos` runs a callback. -/
def runsCallback (s : State) : Bool :=
  match s.walk with
  | none => false
  | some pos => match (s.wheel.mSlots s.wheel.mCur)[pos]? with
    | none => false
    | some ent => !(s.wheel.entries ent).mDisabled && (s.wheel.entries ent).mRound ≤ 0

/-- The entries that callers add in a step; reinsertions by `tick()` are not among them. -/
def addedBy (s : State) : Step → List EntryId
  | .add ent => [ent]
  | .disable _ => []
  | .tick => []
  | .visit script => if runsCallback s then script.flatMap Action.adds else []

/-- The entries that callers add in the course of a schedule. -/
def added (s : State) : List Step → List EntryId
  | [] => []
  | l :: ls => addedBy s l ++ match step s l with
    | some t => added t ls
    | none => []

/-- The entry stands at exactly one position. -/
def Seated (w : TimingWheel) (e : EntryId) : Prop :=
  ∃ slot, 0 ≤ slot ∧ slot < roundSize ∧ ∀ i, (w.mSlots i).count e = if i = slot then 1 else 0

/-- The entry stands nowhere. -/
def Off (w : TimingWheel) (e : EntryId) : Prop := ∀ i, (w.mSlots i).count e = 0

structure Unused (s : State) (e : EntryId) : Prop where
  off : Off s.wheel e
  idle : runsOf e s = []

structure Waiting (s : State) (e : EntryId) : Prop where
  seated : Seated s.wheel e
  fresh : (s.wheel.entries e).mRepeat = false → runsOf e s = []

structure Done (s : State) (e : EntryId) : Prop where
  off : Off s.wheel e
  ended : (s.wheel.entries e).mDisabled = true ∨
    (s.wheel.entries e).mRepeat = false ∧ runsOf e s ≠ []
  once : (s.wheel.entries e).mRepeat = false → (runsOf e s).length ≤ 1

/-- Where each entry is, when callers have added those of `xs`. Nothing is said of an entry that
they have added more than once. -/
structure Booked (s : State) (xs : List EntryId) : Prop where
  unused : ∀ e, e ∉ xs → Unused s e
  used : ∀ e, xs.count e = 1 → Waiting s e ∨ Done s e

theorem Off.addEntry (h : Off w e) (hadd : w.addEntry e = some w') : Seated w' e := by
  obtain ⟨-, -, hslot, rfl⟩ := addEntry_eq_some.mp hadd
  refine ⟨_, hslot, Int.tmod_lt_of_pos _ (by decide), fun i => ?_⟩
  rw [count_place, h i, Nat.zero_add]
  simp only [and_true]

/-- What keeps `e` where it is. -/
structure Stays (w w' : TimingWheel) (e : EntryId) : Prop where
  count : ∀ i, (w'.mSlots i).count e = (w.mSlots i).count e
  kind : (w'.entries e).mRepeat = (w.entries e).mRepeat
  disabled : (w.entries e).mDisabled = true → (w'.entries e).mDisabled = true

namespace Stays

theorem refl (w : TimingWheel) (e : EntryId) : Stays w w e := ⟨fun _ => rfl, rfl, id⟩

theorem trans {w'' : TimingWheel} (h : Stays w w' e) (h' : Stays w' w'' e) : Stays w w'' e :=
  ⟨fun i => (h'.count i).trans (h.count i), h'.kind.trans h.kind, h'.disabled ∘ h.disabled⟩

theorem setEntry (x : EntryId) {t : TimerEntry} (hkind : t.mRepeat = (w.entries x).mRepeat)
    (hdis : (w.entries x).mDisabled = true → t.mDisabled = true) : Stays w (w.setEntry x t) e := by
  refine ⟨fun _ => rfl, ?_, ?_⟩
  all_goals
    by_cases he : e = x
    · subst he
      simpa only [TimingWheel.setEntry, Function.update_self]
    · simp [TimingWheel.setEntry, Function.update_of_ne he]

theorem disable (w : TimingWheel) (x : EntryId) : Stays w (w.disable x) e :=
  setEntry x rfl fun _ => rfl

theorem place (w : TimingWheel) {x : EntryId} (hx : x ≠ e) : Stays w (w.place x) e := by
  have hentry : (w.place x).entries e = w.entries e := Function.update_of_ne hx.symm ..
  refine ⟨fun i => ?_, by rw [hentry], by rw [hentry]; exact id⟩
  rw [count_place, if_neg fun h => hx h.2, Nat.add_zero]

theorem act {a : Action} (ha : e ∉ a.adds) (h : w.act a = some w') : Stays w w' e := by
  cases a with
  | add x =>
    obtain ⟨-, -, -, rfl⟩ := addEntry_eq_some.mp h
    exact place w fun hx => ha (hx ▸ List.mem_singleton_self x)
  | disable x =>
    cases h
    exact disable w x

theorem scripted (hadds : e ∉ script.flatMap Action.adds)
    (h : script.foldlM TimingWheel.act w = some w') : Stays w w' e := by
  induction script generalizing w with
  | nil =>
    cases h
    exact refl _ e
  | cons a script ih =>
    rw [List.flatMap_cons, List.mem_append, not_or] at hadds
    rw [List.foldlM_cons] at h
    obtain ⟨v, hv, h⟩ := Option.bind_eq_some_iff.mp h
    exact (act hadds.1 hv).trans (ih hadds.2 h)

theorem erase {pos : ℕ} {x : EntryId} (hpos : (w.mSlots w.mCur)[pos]? = some x) (hx : x ≠ e) :
    Stays w (w.erase pos) e := by
  refine ⟨fun i => ?_, rfl, id⟩
  rw [← count_erase hpos i, if_neg fun h => hx h.2, Nat.add_zero]

theorem off (h : Stays w w' e) (hoff : Off w e) : Off w' e :=
  fun i => (h.count i).trans (hoff i)

theorem seated (h : Stays w w' e) (hseated : Seated w e) : Seated w' e := by
  obtain ⟨slot, h0, h1, hcount⟩ := hseated
  exact ⟨slot, h0, h1, fun i => (h.count i).trans (hcount i)⟩

end Stays

theorem Unused.stays (h : Unused s e) (hw : Stays s.wheel s'.wheel e)
    (hruns : runsOf e s' = runsOf e s) : Unused s' e :=
  ⟨hw.off h.off, hruns.trans h.idle⟩

theorem Waiting.stays (h : Waiting s e) (hw : Stays s.wheel s'.wheel e)
    (hruns : runsOf e s' = runsOf e s) : Waiting s' e :=
  ⟨hw.seated h.seated, fun hkind => hruns.trans (h.fresh (hw.kind.symm.trans hkind))⟩

theorem Done.stays (h : Done s e) (hw : Stays s.wheel s'.wheel e)
    (hruns : runsOf e s' = runsOf e s) : Done s' e := by
  refine ⟨hw.off h.off, h.ended.imp hw.disabled ?_, fun hkind => ?_⟩
  · rw [hw.kind, hruns]
    exact id
  · rw [hruns]
    exact h.once (hw.kind.symm.trans hkind)

theorem Off.scripted (h : Off w e) (hadds : (script.flatMap Action.adds).count e = 1)
    (hs : script.foldlM TimingWheel.act w = some w') : Seated w' e := by
  induction script generalizing w with
  | nil => cases hadds
  | cons a script ih =>
    rw [List.foldlM_cons] at hs
    obtain ⟨v, hv, hrest⟩ := Option.bind_eq_some_iff.mp hs
    rw [List.flatMap_cons, List.count_append] at hadds
    by_cases ha : e ∈ a.adds
    · cases a with
      | add x =>
        obtain rfl := List.mem_singleton.mp ha
        rw [Action.adds, List.count_singleton_self] at hadds
        have hnone : e ∉ script.flatMap Action.adds := List.count_eq_zero.mp (by omega)
        exact (Stays.scripted hnone hrest).seated (h.addEntry hv)
      | disable x => cases ha
    · rw [List.count_eq_zero_of_not_mem ha, Nat.zero_add] at hadds
      exact ih ((Stays.act ha hv).off h) hadds hrest

/-! ## One step -/

theorem Booked.of_stays {xs : List EntryId} (h : Booked s xs)
    (hstays : ∀ e, Stays s.wheel s'.wheel e ∧ runsOf e s' = runsOf e s) : Booked s' xs where
  unused e he := (h.unused e he).stays (hstays e).1 (hstays e).2
  used e he := (h.used e he).imp (fun hw => hw.stays (hstays e).1 (hstays e).2)
    fun hd => hd.stays (hstays e).1 (hstays e).2

theorem Booked.add {xs : List EntryId} {x : EntryId} (h : Booked s xs)
    (hadd : s.wheel.addEntry x = some w) : Booked { s with wheel := w } (xs ++ [x]) where
  unused e he := by
    rw [List.mem_append, List.mem_singleton, not_or] at he
    obtain ⟨-, -, -, rfl⟩ := addEntry_eq_some.mp hadd
    exact (h.unused e he.1).stays (Stays.place s.wheel (Ne.symm he.2)) rfl
  used e he := by
    rw [List.count_append] at he
    by_cases hxe : x = e
    · subst hxe
      rw [List.count_singleton_self] at he
      have hunused := h.unused x (List.count_eq_zero.mp (by omega))
      exact .inl ⟨hunused.off.addEntry hadd, fun _ => hunused.idle⟩
    · rw [List.count_singleton, beq_false_of_ne hxe, if_neg Bool.false_ne_true] at he
      obtain ⟨-, -, -, rfl⟩ := addEntry_eq_some.mp hadd
      have hstays : Stays s.wheel (s.wheel.place x) e := Stays.place s.wheel hxe
      exact (h.used e he).imp (fun hw => hw.stays hstays rfl) fun hd => hd.stays hstays rfl

theorem Booked.mem {xs : List EntryId} {pos : ℕ} (h : Booked s xs)
    (hpos : (s.wheel.mSlots s.wheel.mCur)[pos]? = some e) : e ∈ xs := by
  by_contra hmem
  exact List.count_eq_zero.mp ((h.unused e hmem).off s.wheel.mCur) (List.mem_of_getElem? hpos)

/-- The walk stands at `e`, so `e` waits, and it is on the wheel at the iterator only. -/
theorem Booked.reached {xs : List EntryId} {pos : ℕ} (h : Booked s xs)
    (hpos : (s.wheel.mSlots s.wheel.mCur)[pos]? = some e) (hone : xs.count e = 1) :
    Waiting s e ∧
      ∀ v, Extends (fun _ => True) s.wheel v → Stays s.wheel v e → Off (v.erase pos) e := by
  have hcount : 0 < (s.wheel.mSlots s.wheel.mCur).count e :=
    List.count_pos_iff.mpr (List.mem_of_getElem? hpos)
  have hon : ¬ Off s.wheel e := fun hoff => by
    rw [hoff s.wheel.mCur] at hcount
    exact absurd hcount (Nat.lt_irrefl 0)
  have hwaiting : Waiting s e := (h.used e hone).resolve_right fun hdone => hon hdone.off
  refine ⟨hwaiting, fun v hext hstays i => ?_⟩
  obtain ⟨slot, -, -, hone⟩ := hwaiting.seated
  have hslot : s.wheel.mCur = slot := by
    by_contra hne
    rw [hone, if_neg hne] at hcount
    exact absurd hcount (Nat.lt_irrefl 0)
  have hvpos : (v.mSlots v.mCur)[pos]? = some e := by
    rw [hext.cur]
    exact hext.getElem? hpos
  have herase := count_erase (e := e) hvpos i
  rw [hstays.count, hone, hext.cur, hslot] at herase
  simp only [and_true] at herase
  split_ifs at herase <;> omega

theorem Booked.fired_self {xs : List EntryId} {pos : ℕ} {u v : TimingWheel} (h : Booked s xs)
    (hpos : (s.wheel.mSlots s.wheel.mCur)[pos]? = some e) (hone : xs.count e = 1)
    (hadds : e ∉ script.flatMap Action.adds)
    (hu : script.foldlM TimingWheel.act s.wheel = some u)
    (hcase : (u.entries e).mRepeat = true ∧ u.addEntry e = some v ∨
      (u.entries e).mRepeat = false ∧ v = u) :
    Waiting { s with wheel := v.erase pos, fired := s.fired ++ [(s.ticks, e)] } e ∨
      Done { s with wheel := v.erase pos, fired := s.fired ++ [(s.ticks, e)] } e := by
  obtain ⟨hwaiting, hoff⟩ := h.reached hpos hone
  have hext : Extends (fun _ => True) s.wheel u := extends_script (fun _ _ => trivial) hu
  have hstays : Stays s.wheel u e := Stays.scripted hadds hu
  have hgone : Off (u.erase pos) e := hoff u hext hstays
  rcases hcase with ⟨hrepeat, hadd⟩ | ⟨hrepeat, rfl⟩
  · obtain ⟨hinterval, htarget, hslot, rfl⟩ := addEntry_eq_some.mp hadd
    have hlt : pos < (u.mSlots u.mCur).length := by
      rw [hext.cur]
      exact (List.getElem?_eq_some_iff.mp hpos).1.trans_le (length_slot_le hext _)
    refine .inl ⟨?_, fun hkind => ?_⟩
    · rw [place_erase hlt]
      exact hgone.addEntry (addEntry_eq_some.mpr ⟨hinterval, htarget, hslot, rfl⟩)
    · have hsame : ((u.place e).entries e).mRepeat = (u.entries e).mRepeat :=
        ((extends_place (P := fun _ => True) trivial).kinds e).2
      rw [show (((u.place e).erase pos).entries e).mRepeat = ((u.place e).entries e).mRepeat from rfl,
        hsame, hrepeat] at hkind
      cases hkind
  · have hfresh := hwaiting.fresh (hstays.kind.symm.trans hrepeat)
    have hruns : runsOf e { s with wheel := v.erase pos, fired := s.fired ++ [(s.ticks, e)] } =
        runsOf e s ++ [s.ticks] := runsOf_append_self s s.ticks rfl
    rw [hfresh, List.nil_append] at hruns
    refine .inr ⟨hgone, .inr ⟨hrepeat, ?_⟩, fun _ => ?_⟩
    · rw [hruns]
      exact List.cons_ne_nil _ _
    · rw [hruns]
      exact Nat.le_refl 1

/-- A callback has run: what it has added waits, and the entry itself waits again or is done. -/
theorem Booked.fired {xs : List EntryId} {pos : ℕ} {x : EntryId} {v : TimingWheel}
    (h : Booked s xs) (hpos : (s.wheel.mSlots s.wheel.mCur)[pos]? = some x)
    (hv : s.wheel.fire x script = some v) :
    Booked { s with wheel := v.erase pos, fired := s.fired ++ [(s.ticks, x)] }
      (xs ++ script.flatMap Action.adds) := by
  have hx := h.mem hpos
  obtain ⟨u, hu, hcase⟩ := fire_cases hv
  have hvext : Extends (fun _ => True) s.wheel v := extends_fire (fun _ _ => trivial) trivial hv
  have hvpos : (v.mSlots v.mCur)[pos]? = some x := by
    rw [hvext.cur]
    exact hvext.getElem? hpos
  -- every entry but `x` is where the script has left it
  have hothers : ∀ e, e ≠ x → Stays u (v.erase pos) e := by
    intro e he
    have hfire : Stays u v e := by
      rcases hcase with ⟨-, hadd⟩ | ⟨-, rfl⟩
      · obtain ⟨-, -, -, rfl⟩ := addEntry_eq_some.mp hadd
        exact Stays.place u he.symm
      · exact Stays.refl _ e
    exact hfire.trans (Stays.erase hvpos he.symm)
  have hruns : ∀ e, e ≠ x → runsOf e { s with
      wheel := v.erase pos, fired := s.fired ++ [(s.ticks, x)] } = runsOf e s :=
    fun e he => runsOf_append_other s he.symm _ rfl
  constructor
  · intro e he
    rw [List.mem_append, not_or] at he
    have hne : e ≠ x := fun heq => he.1 (heq ▸ hx)
    exact (h.unused e he.1).stays ((Stays.scripted he.2 hu).trans (hothers e hne)) (hruns e hne)
  · intro e he
    rw [List.count_append] at he
    by_cases hne : e = x
    · subst hne
      have hpos' := List.count_pos_iff.mpr hx
      have hadds : e ∉ script.flatMap Action.adds := List.count_eq_zero.mp (by omega)
      exact h.fired_self hpos (by omega) hadds hu hcase
    · by_cases hadds : e ∈ script.flatMap Action.adds
      · have hpos' := List.count_pos_iff.mpr hadds
        have hunused := h.unused e (List.count_eq_zero.mp (by omega))
        have hseated := hunused.off.scripted (by omega) hu
        exact .inl ⟨(hothers e hne).seated hseated, fun _ => (hruns e hne).trans hunused.idle⟩
      · rw [List.count_eq_zero_of_not_mem hadds, Nat.add_zero] at he
        have hstays := (Stays.scripted hadds hu).trans (hothers e hne)
        exact (h.used e he).imp (fun hwait => hwait.stays hstays (hruns e hne))
          fun hd => hd.stays hstays (hruns e hne)

theorem Booked.dropped {xs : List EntryId} {pos : ℕ} {x : EntryId} (h : Booked s xs)
    (hpos : (s.wheel.mSlots s.wheel.mCur)[pos]? = some x)
    (hdis : (s.wheel.entries x).mDisabled = true) :
    Booked { s with wheel := s.wheel.erase pos } xs := by
  constructor
  · intro e he
    exact (h.unused e he).stays (Stays.erase hpos fun heq => he (heq ▸ h.mem hpos)) rfl
  · intro e he
    by_cases hne : e = x
    · subst hne
      obtain ⟨hwaiting, hoff⟩ := h.reached hpos he
      refine .inr ⟨hoff s.wheel (.refl _) (.refl _ e), .inl hdis, fun hkind => ?_⟩
      exact Nat.le_trans (Nat.le_of_eq (congrArg List.length (hwaiting.fresh hkind))) (Nat.zero_le 1)
    · have hstays : Stays s.wheel (s.wheel.erase pos) e := Stays.erase hpos (Ne.symm hne)
      exact (h.used e he).imp (fun hw => hw.stays hstays rfl) fun hd => hd.stays hstays rfl

theorem runsCallback_eq {pos : ℕ} {x : EntryId} (hwalk : s.walk = some pos)
    (hpos : (s.wheel.mSlots s.wheel.mCur)[pos]? = some x) : runsCallback s =
      (!(s.wheel.entries x).mDisabled && (s.wheel.entries x).mRound ≤ 0) := by
  simp only [runsCallback, hwalk, hpos]

theorem Booked.step {xs : List EntryId} (h : Booked s xs) (hs : TimingWheel.step s l = some s') :
    Booked s' (xs ++ addedBy s l) := by
  cases l with
  | add x =>
    simp only [TimingWheel.step] at hs
    split_ifs at hs
    obtain ⟨w, hadd, rfl⟩ := Option.map_eq_some_iff.mp hs
    exact h.add hadd
  | disable x =>
    obtain ⟨-, rfl⟩ := step_disable hs
    rw [addedBy, List.append_nil]
    exact h.of_stays fun e => ⟨Stays.disable s.wheel x, rfl⟩
  | tick =>
    obtain ⟨-, rfl⟩ := step_tick hs
    rw [addedBy, List.append_nil]
    exact h.of_stays fun e => ⟨Stays.refl s.wheel e, rfl⟩
  | visit script =>
    obtain ⟨pos, hwalk, hs⟩ := step_visit_eq_some.mp hs
    rcases visit_cases hs with ⟨hnone, rfl⟩ | ⟨x, hpos, ⟨hdis, rfl⟩ | ⟨hdis, hround, rfl⟩ |
      ⟨hdis, hround, v, hv, rfl⟩⟩
    · have hruns : runsCallback s = false := by simp only [runsCallback, hwalk, hnone]
      rw [addedBy, hruns, if_neg Bool.false_ne_true, List.append_nil]
      exact h.of_stays fun e => ⟨⟨fun _ => rfl, rfl, id⟩, rfl⟩
    · have hruns : runsCallback s = false := by
        rw [runsCallback_eq hwalk hpos, hdis]
        rfl
      rw [addedBy, hruns, if_neg Bool.false_ne_true, List.append_nil]
      exact h.dropped hpos hdis
    · have hruns : runsCallback s = false := by
        rw [runsCallback_eq hwalk hpos, hdis, decide_eq_false (not_le.mpr hround)]
        rfl
      rw [addedBy, hruns, if_neg Bool.false_ne_true, List.append_nil]
      exact h.of_stays fun e => ⟨Stays.setEntry x rfl id, rfl⟩
    · have hruns : runsCallback s = true := by
        rw [runsCallback_eq hwalk hpos, hdis, decide_eq_true hround]
        rfl
      rw [addedBy, hruns, if_pos rfl]
      exact h.fired hpos hv

/-! ## Runs -/

theorem Booked.run {xs : List EntryId} {ls : List Step} (h : Booked s xs)
    (hr : TransitionRuns.run TimingWheel.step s ls = some s') : Booked s' (xs ++ added s ls) := by
  induction ls generalizing s xs with
  | nil =>
    cases hr
    rw [added, List.append_nil]
    exact h
  | cons l ls ih =>
    obtain ⟨t, ht, hr⟩ := run_cons_eq_some.mp hr
    have hadded : added s (l :: ls) = addedBy s l ++ added t ls := by
      rw [added, ht]
    rw [hadded, ← List.append_assoc]
    exact ih (h.step ht) hr

/-- What is promised of a wheel on which callers have put the entries `xs`. The two fields about
`addEntry` and `visit` say that no insertion leaves the range of the slots. -/
structure Bookkept (s : State) (xs : List EntryId) : Prop where
  cur : 0 ≤ s.wheel.mCur ∧ s.wheel.mCur < roundSize
  slots : ∀ i, s.wheel.mSlots i ≠ [] → 0 ≤ i ∧ i < roundSize
  addEntry : ∀ e, (s.wheel.addEntry e).isSome = true
  visit : ∀ pos script, (visit s pos script).isSome = true
  round : ∀ e, 0 ≤ (s.wheel.entries e).mRound
  waiting : s.walk = none → ∀ e ∈ xs, (s.wheel.entries e).mDisabled = false →
    (s.wheel.entries e).mRepeat = true ∨ runsOf e s = [] → Seated s.wheel e
  oneShot : ∀ e ∈ xs, (s.wheel.entries e).mRepeat = false →
    (runsOf e s).length ≤ 1 ∧ (runsOf e s ≠ [] → Off s.wheel e)

theorem Booked.bookkept {xs : List EntryId} (h : Booked s xs) (hw : Sane s.wheel)
    (hnodup : xs.Nodup) : Bookkept s xs where
  cur := ⟨hw.cur_nonneg, hw.cur_lt⟩
  slots := hw.slots
  addEntry e := Option.isSome_iff_exists.mpr ⟨_, hw.addEntry e⟩
  visit pos script := by
    obtain ⟨t, ht, -⟩ := hw.visit pos script
    exact Option.isSome_iff_exists.mpr ⟨t, ht⟩
  round := hw.round
  waiting _ e he hdis hkind := by
    rcases h.used e (List.count_eq_one_of_mem hnodup he) with hwaiting | hdone
    · exact hwaiting.seated
    · rcases hdone.ended with htrue | ⟨hfalse, hruns⟩
      · rw [hdis] at htrue
        cases htrue
      · rcases hkind with htrue | hnone
        · rw [hfalse] at htrue
          cases htrue
        · exact absurd hnone hruns
  oneShot e he hkind := by
    rcases h.used e (List.count_eq_one_of_mem hnodup he) with hwaiting | hdone
    · rw [hwaiting.fresh hkind]
      exact ⟨Nat.zero_le 1, fun hruns => absurd rfl hruns⟩
    · exact ⟨hdone.once hkind, fun _ => hdone.off⟩

/-- What the constructor makes of a non-negative timeout. -/
def Fresh (t : TimerEntry) : Prop :=
  0 ≤ t.mTimeoutms ∧ t.mTimeoutms ≤ intMax ∧ t.mRound = 0 ∧ t.mDisabled = false

theorem sane_start {interval : ℤ} (hinterval : 2 ≤ interval) {entries : EntryId → TimerEntry}
    (hfresh : ∀ e, Fresh (entries e)) : Sane (start interval entries).wheel where
  interval := hinterval
  cur_nonneg := le_refl _
  cur_lt := show (0 : ℤ) < 100 by decide
  timeout_nonneg e := (hfresh e).1
  timeout_le e := (hfresh e).2.1
  round e := (hfresh e).2.2.1.ge
  slots _ h := absurd rfl h

theorem booked_start (interval : ℤ) (entries : EntryId → TimerEntry) :
    Booked (start interval entries) [] where
  unused _ _ := ⟨fun _ => rfl, rfl⟩
  used _ he := absurd he Nat.zero_ne_one

/-- The bookkeeping of a wheel to which callers add each entry at most once. -/
theorem wheel_bookkept {interval : ℤ} (hinterval : 2 ≤ interval) {entries : EntryId → TimerEntry}
    (hfresh : ∀ e, Fresh (entries e)) {ls : List Step}
    (hnodup : (added (start interval entries) ls).Nodup)
    (hr : run step (start interval entries) ls = some s) :
    Bookkept s (added (start interval entries) ls) := by
  have hstep : ∀ a l b, Sane a.wheel → step a l = some b → Sane b.wheel :=
    fun _ _ _ h hs => h.step hs
  have hw := run_invariant hstep (sane_start hinterval hfresh) hr
  exact ((booked_start interval entries).run hr).bookkept hw hnodup

/-- The callback of entry 0, which does not repeat, adds entry 1 and disables it. -/
theorem wheel_bookkept_nested : ∃ s,
    run step (start 1000 fun e => ⟨1000, 0, e ≠ 0, false⟩)
      [.add 0, .add 2, .tick, .visit [], .tick, .visit [.add 1, .disable 1], .visit [],
        .visit []] = some s ∧
    runsOf 0 s = [2] ∧ runsOf 2 s = [2] ∧ Bookkept s [0, 2, 1] := by
  obtain ⟨s, hs⟩ : ∃ s, run step (start 1000 fun e => ⟨1000, 0, e ≠ 0, false⟩)
      [.add 0, .add 2, .tick, .visit [], .tick, .visit [.add 1, .disable 1], .visit [],
        .visit []] = some s := ⟨_, rfl⟩
  have hfresh : ∀ e : EntryId, Fresh ⟨1000, 0, e ≠ 0, false⟩ := fun _ =>
    ⟨show (0 : ℤ) ≤ 1000 by decide, show (1000 : ℤ) ≤ intMax by decide, rfl, rfl⟩
  refine ⟨s, hs, ?_, ?_, wheel_bookkept (by decide) hfresh (by decide) hs⟩
  · cases hs
    rfl
  · cases hs
    rfl

end GenericServer.TimingWheel
