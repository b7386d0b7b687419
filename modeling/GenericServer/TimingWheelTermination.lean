import GenericServer.TimingWheelBookkeeping
import Mathlib.Data.Finset.Card
import Mathlib.Data.Prod.Lex

/-!
# The end of a tick

The loop of `tick()` walks a list that grows behind the iterator. The measure is the number of
entries ahead that are going to run, and then the number of all positions ahead.
-/
namespace GenericServer.TimingWheel

open TransitionRuns

/-- A call of `tick()` up to its pass number `n`; what the callback of a pass does is
`script`. -/
def passes (script : ℕ → List Action) (n : ℕ) : List Step :=
  .tick :: (List.range n).map fun i => .visit (script i)

/-- The call returns, and no callback has run twice in it. -/
def Returns (s : State) (script : ℕ → List Action) : Prop :=
  ∃ n t, run step s (passes script n) = some t ∧ t.walk = none ∧
    ∀ e, t.fired.count (t.ticks, e) ≤ 1

def upcoming (s : State) : List EntryId :=
  match s.walk with
  | none => []
  | some pos => (s.wheel.mSlots s.wheel.mCur).drop pos

def slotOf (w : TimingWheel) (e : EntryId) : ℤ := (w.mCur + w.timeoutTicks e).tmod roundSize

def roundOf (w : TimingWheel) (e : EntryId) : ℤ := (w.mCur + w.timeoutTicks e).tdiv roundSize

/-- `addEntry` is defined: no division by zero, no overflow and no negative index. -/
def Placeable (w : TimingWheel) (e : EntryId) : Prop :=
  w.mInterval ≠ 0 ∧ w.mCur + w.timeoutTicks e ≤ intMax ∧ 0 ≤ slotOf w e

/-- An insertion of the entry goes into the slot of the walk, with no revolution to wait for. -/
def AtOnce (w : TimingWheel) (e : EntryId) : Prop := slotOf w e = w.mCur ∧ roundOf w e ≤ 0

/-- The actions of a pass that runs the callback of `x`, the reinsertion included. -/
def actions (w : TimingWheel) (x : EntryId) (script : List Action) : List Action :=
  script ++ if (w.entries x).mRepeat then [.add x] else []

def insertedBy (s : State) (script : List Action) : List EntryId :=
  match (upcoming s).head? with
  | none => []
  | some x => if runsCallback s then (actions s.wheel x script).flatMap Action.adds else []

/-- The condition on a call of `tick()` on a wheel to which callers have added the entries `xs`.
When the walk comes again to an entry that has run, the entry is disabled if it repeats at once,
and disabled or still waiting if callers have added it more than once. Every insertion is
defined, and from some pass on the callbacks add only entries that are new and not due at
once. -/
structure Fits (s : State) (script : ℕ → List Action) (xs : List EntryId) : Prop where
  disabled : ∀ n t e, run step s (passes script n) = some t → (upcoming t).head? = some e →
    (t.ticks, e) ∈ t.fired → AtOnce t.wheel e → (t.wheel.entries e).mRepeat = true →
    (t.wheel.entries e).mDisabled = true
  shared : ∀ n t e, run step s (passes script n) = some t → (upcoming t).head? = some e →
    (t.ticks, e) ∈ t.fired → 2 ≤ (xs ++ added s (passes script n)).count e →
    (t.wheel.entries e).mDisabled = true ∨ 0 < (t.wheel.entries e).mRound
  placeable : ∀ n t, run step s (passes script n) = some t →
    ∀ e ∈ insertedBy t (script n), Placeable t.wheel e
  settled : ∃ N, ∀ n t, N ≤ n → run step s (passes script n) = some t →
    ∀ e ∈ addedBy t (.visit (script n)), ¬ AtOnce t.wheel e ∧
      (xs ++ added s (passes script (n + 1))).count e = 1

/-! ## What a callback does -/

variable {w w' : TimingWheel} {e x : EntryId} {s s' : State} {script : List Action}

/-- What the actions of a callback, and the reinsertion, leave as it is. -/
structure SameTimes (w w' : TimingWheel) : Prop where
  cur : w'.mCur = w.mCur
  interval : w'.mInterval = w.mInterval
  kinds : ∀ x, (w'.entries x).mTimeoutms = (w.entries x).mTimeoutms ∧
    (w'.entries x).mRepeat = (w.entries x).mRepeat

theorem Extends.sameTimes {P : EntryId → Prop} (h : Extends P w w') : SameTimes w w' :=
  ⟨h.cur, h.interval, h.kinds⟩

theorem SameTimes.timeoutTicks (h : SameTimes w w') (e : EntryId) :
    w'.timeoutTicks e = w.timeoutTicks e := by
  rw [TimingWheel.timeoutTicks, h.interval, (h.kinds e).1]
  rfl

theorem SameTimes.target (h : SameTimes w w') (e : EntryId) :
    slotOf w' e = slotOf w e ∧ roundOf w' e = roundOf w e := by
  unfold slotOf roundOf
  rw [h.cur, h.timeoutTicks]
  exact ⟨rfl, rfl⟩

theorem SameTimes.placeable (h : SameTimes w w') : Placeable w' e ↔ Placeable w e := by
  rw [Placeable, h.interval, h.cur, h.timeoutTicks, (h.target e).1, Placeable]

theorem SameTimes.atOnce (h : SameTimes w w') : AtOnce w' e ↔ AtOnce w e := by
  rw [AtOnce, (h.target e).1, (h.target e).2, h.cur, AtOnce]

theorem sameTimes_act {a : Action} (h : w.act a = some w') : SameTimes w w' :=
  (extends_act (P := fun _ => True) trivial h).sameTimes

theorem sameTimes_script (h : script.foldlM act w = some w') : SameTimes w w' :=
  (extends_script (P := fun _ => True) (fun _ _ => trivial) h).sameTimes

theorem script_defined :
    (∃ w', script.foldlM act w = some w') ↔
      ∀ e ∈ script.flatMap Action.adds, Placeable w e := by
  induction script generalizing w with
  | nil => exact ⟨fun _ _ he => absurd he List.not_mem_nil, fun _ => ⟨w, rfl⟩⟩
  | cons a script ih =>
    have hrest : ∀ v, w.act a = some v →
        ((∃ w', script.foldlM act v = some w') ↔
          ∀ e ∈ script.flatMap Action.adds, Placeable w e) := fun v hv =>
      ih.trans (forall₂_congr fun e _ => (sameTimes_act hv).placeable)
    simp only [List.foldlM_cons, Option.bind_eq_bind, Option.bind_eq_some_iff, List.flatMap_cons,
      List.forall_mem_append]
    constructor
    · rintro ⟨w', v, hv, hw'⟩
      refine ⟨fun e he => ?_, (hrest v hv).mp ⟨w', hw'⟩⟩
      cases a with
      | add x =>
        obtain rfl := List.mem_singleton.mp he
        obtain ⟨hinterval, htarget, hslot, -⟩ := addEntry_eq_some.mp hv
        exact ⟨hinterval, htarget, hslot⟩
      | disable x => cases he
    · rintro ⟨hfirst, hall⟩
      have hv : ∃ v, w.act a = some v := by
        cases a with
        | add x =>
          obtain ⟨hinterval, htarget, hslot⟩ := hfirst x (List.mem_singleton_self x)
          exact ⟨_, addEntry_eq_some.mpr ⟨hinterval, htarget, hslot, rfl⟩⟩
        | disable x => exact ⟨_, rfl⟩
      obtain ⟨v, hv⟩ := hv
      obtain ⟨w', hw'⟩ := (hrest v hv).mpr hall
      exact ⟨w', v, hv, hw'⟩

theorem count_scripted (h : script.foldlM act w = some w') (i : ℤ) (e : EntryId) :
    (w'.mSlots i).count e = (w.mSlots i).count e +
      if i = slotOf w e then (script.flatMap Action.adds).count e else 0 := by
  induction script generalizing w with
  | nil =>
    cases h
    simp
  | cons a script ih =>
    rw [List.foldlM_cons] at h
    obtain ⟨v, hv, h⟩ := Option.bind_eq_some_iff.mp h
    have hsame := sameTimes_act hv
    rw [ih h, (hsame.target e).1, List.flatMap_cons, List.count_append]
    cases a with
    | add x =>
      obtain ⟨-, -, -, rfl⟩ := addEntry_eq_some.mp hv
      rw [count_place, Action.adds, List.count_singleton]
      by_cases hx : x = e
      · subst hx
        by_cases hi : i = slotOf w x
        · simp only [slotOf] at hi
          simp only [slotOf, ← hi, and_self, if_true, beq_self_eq_true]
          omega
        · simp only [slotOf] at hi
          simp only [slotOf, hi, false_and, if_false]
      · simp [hx]
    | disable x =>
      cases hv
      simp [Action.adds, disable, TimingWheel.setEntry]

theorem round_scripted (h : script.foldlM act w = some w') (e : EntryId) :
    (w'.entries e).mRound =
      if e ∈ script.flatMap Action.adds then roundOf w e else (w.entries e).mRound := by
  induction script generalizing w with
  | nil =>
    cases h
    simp
  | cons a script ih =>
    rw [List.foldlM_cons] at h
    obtain ⟨v, hv, h⟩ := Option.bind_eq_some_iff.mp h
    have hsame := sameTimes_act hv
    rw [ih h, (hsame.target e).2, List.flatMap_cons]
    simp only [List.mem_append]
    by_cases hscript : e ∈ script.flatMap Action.adds
    · simp [hscript]
    · cases a with
      | add x =>
        obtain ⟨-, -, -, rfl⟩ := addEntry_eq_some.mp hv
        by_cases hx : e = x
        · subst hx
          simp [Action.adds, place, setSlot, TimingWheel.setEntry, roundOf, hscript]
        · simp [Action.adds, hscript, hx, place, setSlot, TimingWheel.setEntry]
      | disable x =>
        cases hv
        by_cases hx : e = x
        · subst hx
          simp [Action.adds, hscript, disable, TimingWheel.setEntry]
        · simp [Action.adds, hscript, disable, TimingWheel.setEntry, Function.update_of_ne hx]

theorem fire_eq (w : TimingWheel) (x : EntryId) (script : List Action) :
    w.fire x script = (actions w x script).foldlM act w := by
  rw [actions, List.foldlM_append, TimingWheel.fire]
  cases hv : script.foldlM act w with
  | none => rfl
  | some v =>
    change (if (v.entries x).mRepeat = true then v.addEntry x else some v) =
      (if (w.entries x).mRepeat = true then [Action.add x] else []).foldlM act v
    rw [((sameTimes_script hv).kinds x).2]
    split_ifs
    · exact (bind_pure (v.addEntry x)).symm
    · rfl

theorem mem_actions : e ∈ (actions w x script).flatMap Action.adds ↔
    e ∈ script.flatMap Action.adds ∨ e = x ∧ (w.entries x).mRepeat = true := by
  rw [actions, List.flatMap_append, List.mem_append]
  split_ifs with h
  · simp [Action.adds, h]
  · simp [h]

/-! ## One pass -/

theorem upcoming_eq {pos : ℕ} (hwalk : s.walk = some pos) :
    upcoming s = (s.wheel.mSlots s.wheel.mCur).drop pos := by
  rw [upcoming, hwalk]

theorem upcoming_cons {pos : ℕ} (hwalk : s.walk = some pos)
    (hpos : (s.wheel.mSlots s.wheel.mCur)[pos]? = some x) :
    upcoming s = x :: (s.wheel.mSlots s.wheel.mCur).drop (pos + 1) := by
  obtain ⟨hlt, hx⟩ := List.getElem?_eq_some_iff.mp hpos
  rw [upcoming_eq hwalk, List.drop_eq_getElem_cons hlt, hx]

theorem drop_eraseIdx (l : List EntryId) (pos : ℕ) : (l.eraseIdx pos).drop pos = l.drop (pos + 1) := by
  rw [List.eraseIdx_eq_take_drop_succ]
  rcases Nat.lt_or_ge pos l.length with h | h
  · rw [List.drop_append_of_le_length (by simp; omega)]
    simp
  · rw [List.take_of_length_le h, List.drop_eq_nil_of_le (Nat.le_succ_of_le h), List.append_nil,
      List.drop_eq_nil_of_le h]

theorem upcoming_erase {pos : ℕ} (hwalk : s.walk = some pos) (v : TimingWheel)
    (fired : List (ℕ × EntryId)) : upcoming { s with wheel := v.erase pos, fired := fired } =
      (v.mSlots v.mCur).drop (pos + 1) := by
  rw [upcoming_eq (s := { s with wheel := v.erase pos, fired := fired }) hwalk]
  dsimp only
  rw [erase_slots, if_pos (show (v.erase pos).mCur = v.mCur from rfl), drop_eraseIdx]


/-- What stands ahead after a callback: what stood there, without the entry itself, and what the
actions have inserted into the slot of the walk. -/
theorem upcoming_fired {pos : ℕ} {v : TimingWheel} (hwalk : s.walk = some pos)
    (hpos : (s.wheel.mSlots s.wheel.mCur)[pos]? = some x)
    (hv : s.wheel.fire x script = some v) (fired : List (ℕ × EntryId)) :
    ∃ ys, upcoming { s with wheel := v.erase pos, fired := fired } =
        (s.wheel.mSlots s.wheel.mCur).drop (pos + 1) ++ ys ∧
      ∀ y, ys.count y = if s.wheel.mCur = slotOf s.wheel y
        then ((actions s.wheel x script).flatMap Action.adds).count y else 0 := by
  have hext : Extends (fun _ => True) s.wheel v := extends_fire (fun _ _ => trivial) trivial hv
  obtain ⟨ys, hys, -⟩ := hext.slots s.wheel.mCur
  have hlt := (List.getElem?_eq_some_iff.mp hpos).1
  refine ⟨ys, ?_, fun y => ?_⟩
  · rw [upcoming_erase hwalk, hext.cur, hys, List.drop_append_of_le_length hlt]
  · have hcount := count_scripted (fire_eq s.wheel x script ▸ hv) s.wheel.mCur y
    rw [hys, List.count_append] at hcount
    omega

theorem countDown_other (w : TimingWheel) (hne : e ≠ x) : (w.countDown x).entries e = w.entries e :=
  Function.update_of_ne hne ..

theorem sameTimes_countDown (w : TimingWheel) (x : EntryId) : SameTimes w (w.countDown x) := by
  refine ⟨rfl, rfl, fun e => ?_⟩
  by_cases hne : e = x
  · subst hne
    simp [countDown, TimingWheel.setEntry]
  · rw [countDown_other w hne]
    exact ⟨rfl, rfl⟩

theorem runsCallback_true {pos : ℕ} (hwalk : s.walk = some pos)
    (hpos : (s.wheel.mSlots s.wheel.mCur)[pos]? = some x)
    (hdis : (s.wheel.entries x).mDisabled = false) (hround : (s.wheel.entries x).mRound ≤ 0) :
    runsCallback s = true := by
  rw [runsCallback_eq hwalk hpos, hdis, decide_eq_true hround]
  rfl

theorem addedBy_fire {pos : ℕ} (hwalk : s.walk = some pos)
    (hpos : (s.wheel.mSlots s.wheel.mCur)[pos]? = some x)
    (hdis : (s.wheel.entries x).mDisabled = false) (hround : (s.wheel.entries x).mRound ≤ 0) :
    addedBy s (.visit script) = script.flatMap Action.adds := by
  rw [addedBy, if_pos (runsCallback_true hwalk hpos hdis hround)]

theorem insertedBy_fire {pos : ℕ} (hwalk : s.walk = some pos)
    (hpos : (s.wheel.mSlots s.wheel.mCur)[pos]? = some x)
    (hdis : (s.wheel.entries x).mDisabled = false) (hround : (s.wheel.entries x).mRound ≤ 0) :
    insertedBy s script = (actions s.wheel x script).flatMap Action.adds := by
  rw [insertedBy, upcoming_cons hwalk hpos]
  exact if_pos (runsCallback_true hwalk hpos hdis hround)

theorem visit_defined (hwalk : s.walk ≠ none) :
    (∃ s', TimingWheel.step s (.visit script) = some s') ↔
      ∀ e ∈ insertedBy s script, Placeable s.wheel e := by
  obtain ⟨pos, hpos⟩ := Option.ne_none_iff_exists'.mp hwalk
  have hstep : TimingWheel.step s (.visit script) = visit s pos script := by
    rw [TimingWheel.step, hpos]
    rfl
  rw [hstep]
  cases hx : (s.wheel.mSlots s.wheel.mCur)[pos]? with
  | none =>
    have hnil : upcoming s = [] := by
      rw [upcoming_eq hpos]
      exact List.drop_eq_nil_of_le (List.getElem?_eq_none_iff.mp hx)
    simp [visit, hx, insertedBy, hnil]
  | some x =>
    by_cases hdis : (s.wheel.entries x).mDisabled = true
    · simp [visit, hx, hdis, insertedBy, upcoming_cons hpos hx, runsCallback_eq hpos hx]
    · have hdis : (s.wheel.entries x).mDisabled = false := (Bool.not_eq_true _).mp hdis
      by_cases hround : 0 < (s.wheel.entries x).mRound
      · simp [visit, hx, hdis, hround, insertedBy, upcoming_cons hpos hx, runsCallback_eq hpos hx]
      · rw [insertedBy_fire hpos hx hdis (not_lt.mp hround), ← script_defined, ← fire_eq]
        simp [visit, hx, hdis, hround]

/-- What holds in the course of a `tick()` of a wheel to which callers have added `xs`. -/
structure Underway (s : State) (xs : List EntryId) : Prop where
  once : ∀ e, s.fired.count (s.ticks, e) ≤ 1
  spent : ∀ e ∈ upcoming s, xs.count e = 1 → (s.ticks, e) ∈ s.fired → ¬ AtOnce s.wheel e →
    1 ≤ (s.wheel.entries e).mRound

structure Stopped (s : State) (xs : List EntryId) : Prop where
  disabled : ∀ e, (upcoming s).head? = some e → (s.ticks, e) ∈ s.fired → AtOnce s.wheel e →
    (s.wheel.entries e).mRepeat = true → (s.wheel.entries e).mDisabled = true
  shared : ∀ e, (upcoming s).head? = some e → (s.ticks, e) ∈ s.fired → 2 ≤ xs.count e →
    (s.wheel.entries e).mDisabled = true ∨ 0 < (s.wheel.entries e).mRound

variable {xs : List EntryId} {pos : ℕ}

theorem Booked.notMem_drop (h : Booked s xs)
    (hpos : (s.wheel.mSlots s.wheel.mCur)[pos]? = some x) (hone : xs.count x = 1) :
    x ∉ (s.wheel.mSlots s.wheel.mCur).drop (pos + 1) := by
  intro hmem
  have hzero := (h.reached hpos hone).2 s.wheel (.refl _) (.refl _ x) s.wheel.mCur
  rw [erase_slots, if_pos rfl] at hzero
  refine List.count_eq_zero.mp hzero ?_
  rw [← drop_eraseIdx] at hmem
  exact List.mem_of_mem_drop hmem

theorem Underway.notMem_fired (h : Underway s xs) (hb : Booked s xs) (hstopped : Stopped s xs)
    (hwalk : s.walk = some pos) (hpos : (s.wheel.mSlots s.wheel.mCur)[pos]? = some x)
    (hdis : (s.wheel.entries x).mDisabled = false) (hround : (s.wheel.entries x).mRound ≤ 0) :
    (s.ticks, x) ∉ s.fired := by
  intro hfired
  have hcons := upcoming_cons hwalk hpos
  have hhead : (upcoming s).head? = some x := by rw [hcons, List.head?_cons]
  have hmem := List.count_pos_iff.mpr (hb.mem hpos)
  rcases Nat.lt_or_ge 1 (xs.count x) with hmany | hone
  · rcases hstopped.shared x hhead hfired hmany with htrue | hwaits
    · rw [hdis] at htrue
      cases htrue
    · exact absurd hround (not_le.mpr hwaits)
  · have hone : xs.count x = 1 := le_antisymm hone hmem
    cases hrepeat : (s.wheel.entries x).mRepeat with
    | false =>
      have hruns := mem_runsOf.mpr hfired
      rw [(hb.reached hpos hone).1.fresh hrepeat] at hruns
      cases hruns
    | true =>
      by_cases hnow : AtOnce s.wheel x
      · have := hstopped.disabled x hhead hfired hnow hrepeat
        rw [hdis] at this
        cases this
      · have := h.spent x (by rw [hcons]; exact List.mem_cons_self) hone hfired hnow
        omega

theorem round_fired {v : TimingWheel} (hv : w.fire x script = some v) (hne : e ≠ x)
    (hscript : e ∉ script.flatMap Action.adds) : (v.entries e).mRound = (w.entries e).mRound := by
  have hkept : e ∉ (actions w x script).flatMap Action.adds := fun hadds =>
    (mem_actions.mp hadds).elim hscript fun hself => hne hself.1
  rw [round_scripted (fire_eq w x script ▸ hv), if_neg hkept]

theorem Underway.fired {v : TimingWheel} (h : Underway s xs) (hb : Booked s xs)
    (hwalk : s.walk = some pos) (hpos : (s.wheel.mSlots s.wheel.mCur)[pos]? = some x)
    (hv : s.wheel.fire x script = some v)
    (he : e ∈ upcoming { s with wheel := v.erase pos, fired := s.fired ++ [(s.ticks, x)] })
    (hone : (xs ++ script.flatMap Action.adds).count e = 1)
    (hfired : (s.ticks, e) ∈ s.fired ++ [(s.ticks, x)]) (hlater : ¬ AtOnce s.wheel e) :
    1 ≤ (v.entries e).mRound := by
  have hactions : (actions s.wheel x script).foldlM act s.wheel = some v :=
    fire_eq s.wheel x script ▸ hv
  obtain ⟨ys, hys, htarget⟩ := upcoming_fired hwalk hpos hv (s.fired ++ [(s.ticks, x)])
  have hx := hb.mem hpos
  rw [List.count_append] at hone
  -- it has run, so it was there before the callback
  have hold : e ∈ xs := by
    by_contra hnew
    have hidle := (hb.unused e hnew).idle
    rcases List.mem_append.mp hfired with hfired | hfired
    · rw [← mem_runsOf, hidle] at hfired
      cases hfired
    · cases List.mem_singleton.mp hfired
      exact hnew hx
  have hcount := List.count_pos_iff.mpr hold
  have hnone : e ∉ script.flatMap Action.adds := List.count_eq_zero.mp (by omega)
  rw [hys] at he
  rcases List.mem_append.mp he with he | he
  · have hne : e ≠ x := by
      rintro rfl
      exact hb.notMem_drop hpos (by omega) he
    rw [round_fired hv hne hnone]
    refine h.spent e ?_ (by omega) ?_ hlater
    · rw [upcoming_cons hwalk hpos]
      exact List.mem_cons_of_mem x he
    · rcases List.mem_append.mp hfired with hfired | hfired
      · exact hfired
      · cases List.mem_singleton.mp hfired
        exact absurd rfl hne
  · have hys := List.count_pos_iff.mpr he
    rw [htarget e] at hys
    split_ifs at hys with hslot
    · rw [round_scripted hactions, if_pos (List.count_pos_iff.mp hys)]
      by_contra hround
      exact hlater ⟨hslot.symm, by omega⟩
    · exact absurd hys (Nat.lt_irrefl 0)

theorem Underway.visit (h : Underway s xs) (hb : Booked s xs) (hstopped : Stopped s xs)
    (hs : TimingWheel.step s (.visit script) = some s') :
    Underway s' (xs ++ addedBy s (.visit script)) := by
  obtain ⟨pos, hwalk, hs⟩ := step_visit_eq_some.mp hs
  rcases visit_cases hs with ⟨hnone, rfl⟩ | ⟨x, hpos, hcase⟩
  · exact ⟨h.once, fun e he => absurd he List.not_mem_nil⟩
  have hcons := upcoming_cons hwalk hpos
  rcases hcase with ⟨hdis, rfl⟩ | ⟨hdis, hround, rfl⟩ | ⟨hdis, hround, v, hv, rfl⟩
  · have hadded : addedBy s (.visit script) = [] := by
      rw [addedBy, runsCallback_eq hwalk hpos, hdis]
      rfl
    rw [hadded, List.append_nil]
    refine ⟨h.once, fun e he => h.spent e ?_⟩
    rw [upcoming_erase hwalk s.wheel s.fired] at he
    rw [hcons]
    exact List.mem_cons_of_mem x he
  · have hadded : addedBy s (.visit script) = [] := by
      rw [addedBy, runsCallback_eq hwalk hpos, hdis, decide_eq_false (not_le.mpr hround)]
      rfl
    rw [hadded, List.append_nil]
    refine ⟨h.once, fun e he hone hfired hlater => ?_⟩
    have hne : e ≠ x := by
      rintro rfl
      exact hb.notMem_drop hpos hone he
    dsimp only
    rw [countDown_other _ hne]
    refine h.spent e ?_ hone hfired fun hnow => hlater ?_
    · rw [hcons]
      exact List.mem_cons_of_mem x he
    · exact (sameTimes_countDown s.wheel x).atOnce.mpr hnow
  · rw [addedBy_fire hwalk hpos hdis hround]
    have hnew := h.notMem_fired hb hstopped hwalk hpos hdis hround
    have hsame := sameTimes_script (fire_eq s.wheel x script ▸ hv)
    refine ⟨fun e => ?_, fun e he hone hfired hlater => ?_⟩
    · rw [List.count_append]
      by_cases hne : x = e
      · subst hne
        rw [List.count_eq_zero_of_not_mem hnew]
        simp
      · have := h.once e
        simp [hne, this]
    · have hwaits : 1 ≤ (v.entries e).mRound :=
        h.fired hb hwalk hpos hv he hone hfired fun hnow => hlater (hsame.atOnce.mpr hnow)
      exact hwaits

/-! ## The measure -/

/-- The entries ahead that are going to run, unless they are disabled: those whose rounds are
used up before their last position. -/
def due (s : State) : Finset EntryId :=
  (upcoming s).toFinset.filter fun e =>
    (s.ticks, e) ∉ s.fired ∧ (s.wheel.entries e).mRound < (upcoming s).count e

theorem mem_due : e ∈ due s ↔ e ∈ upcoming s ∧ (s.ticks, e) ∉ s.fired ∧
    (s.wheel.entries e).mRound < (upcoming s).count e := by
  rw [due, Finset.mem_filter, List.mem_toFinset]

/-- The walk leaves `x` behind, whose rounds it may have counted down. -/
theorem due_dropped (hcons : upcoming s = x :: upcoming s') (hticks : s'.ticks = s.ticks)
    (hfired : s'.fired = s.fired) (hround : ∀ e,
      (s.wheel.entries e).mRound ≤ (s'.wheel.entries e).mRound + if x = e then 1 else 0) :
    due s' ⊆ due s := by
  intro e he
  obtain ⟨hmem, hfresh, hless⟩ := mem_due.mp he
  rw [hticks, hfired] at hfresh
  refine mem_due.mpr ⟨?_, hfresh, ?_⟩
  · rw [hcons]
    exact List.mem_cons_of_mem x hmem
  · have hround := hround e
    by_cases hxe : x = e
    · subst hxe
      rw [if_pos rfl] at hround
      rw [hcons, List.count_cons_self]
      omega
    · rw [if_neg hxe] at hround
      rw [hcons, List.count_cons_of_ne hxe]
      omega

theorem due_fired {v : TimingWheel} (hb : Booked s xs) (hwalk : s.walk = some pos)
    (hpos : (s.wheel.mSlots s.wheel.mCur)[pos]? = some x)
    (hv : s.wheel.fire x script = some v)
    (hsettled : ∀ e ∈ script.flatMap Action.adds, ¬ AtOnce s.wheel e ∧
      (xs ++ script.flatMap Action.adds).count e = 1) :
    due { s with wheel := v.erase pos, fired := s.fired ++ [(s.ticks, x)] } ⊆ (due s).erase x := by
  intro e he
  have hactions : (actions s.wheel x script).foldlM act s.wheel = some v :=
    fire_eq s.wheel x script ▸ hv
  obtain ⟨ys, hys, htarget⟩ := upcoming_fired hwalk hpos hv (s.fired ++ [(s.ticks, x)])
  obtain ⟨hmem, hfresh, hless⟩ := mem_due.mp he
  have hahead := List.count_pos_iff.mpr (hys ▸ hmem)
  have hless : (v.entries e).mRound <
      (((s.wheel.mSlots s.wheel.mCur).drop (pos + 1) ++ ys).count e : ℤ) := hys ▸ hless
  have hne : e ≠ x := by
    rintro rfl
    exact hfresh (List.mem_append_right _ (List.mem_singleton_self _))
  rw [List.count_append] at hless hahead
  have hcons := upcoming_cons hwalk hpos
  have hadds : ((actions s.wheel x script).flatMap Action.adds).count e =
      (script.flatMap Action.adds).count e := by
    rw [actions, List.flatMap_append, List.count_append]
    split_ifs
    · rw [List.flatMap_singleton, Action.adds, List.count_singleton,
        beq_false_of_ne hne.symm, if_neg Bool.false_ne_true, Nat.add_zero]
    · rfl
  have hys := htarget e
  rw [hadds] at hys
  by_cases hscript : e ∈ script.flatMap Action.adds
  · -- it is new, so it stands ahead at most once, with a revolution to wait for
    exfalso
    obtain ⟨hlater, hone⟩ := hsettled e hscript
    have hcount := List.count_pos_iff.mpr hscript
    rw [List.count_append] at hone
    have hunused := hb.unused e (List.count_eq_zero.mp (by omega))
    have hdrop : ((s.wheel.mSlots s.wheel.mCur).drop (pos + 1)).count e = 0 :=
      Nat.eq_zero_of_le_zero
        (((List.drop_sublist _ _).count_le e).trans (Nat.le_of_eq (hunused.off s.wheel.mCur)))
    have hround := round_scripted hactions e
    rw [if_pos (mem_actions.mpr (.inl hscript))] at hround
    split_ifs at hys with hslot
    · have hwaits : ¬ roundOf s.wheel e ≤ 0 := fun hle => hlater ⟨hslot.symm, hle⟩
      omega
    · omega
  · rw [List.count_eq_zero_of_not_mem hscript, ite_self] at hys
    have hround := round_fired hv hne hscript
    refine Finset.mem_erase.mpr ⟨hne, mem_due.mpr ⟨?_, ?_, ?_⟩⟩
    · rw [hcons]
      exact List.mem_cons_of_mem x (List.count_pos_iff.mp (by omega))
    · exact fun hfired => hfresh (List.mem_append_left _ hfired)
    · rw [hcons, List.count_cons_of_ne hne.symm]
      omega

/-- Every pass whose callback adds only new entries that are not due at once brings the walk
nearer to its end. -/
theorem Underway.progress (h : Underway s xs) (hb : Booked s xs) (hstopped : Stopped s xs)
    (hsettled : ∀ e ∈ addedBy s (.visit script), ¬ AtOnce s.wheel e ∧
      (xs ++ addedBy s (.visit script)).count e = 1)
    (hs : TimingWheel.step s (.visit script) = some s') :
    s'.walk = none ∨ (due s').card < (due s).card ∨
      (due s').card ≤ (due s).card ∧ (upcoming s').length < (upcoming s).length := by
  obtain ⟨pos, hwalk, hs⟩ := step_visit_eq_some.mp hs
  rcases visit_cases hs with ⟨hnone, rfl⟩ | ⟨x, hpos, hcase⟩
  · exact .inl rfl
  have hcons := upcoming_cons hwalk hpos
  rcases hcase with ⟨-, rfl⟩ | ⟨-, hround, rfl⟩ | ⟨hdis, hround, v, hv, rfl⟩
  · rw [← upcoming_erase hwalk s.wheel s.fired] at hcons
    refine .inr (.inr ⟨Finset.card_le_card (due_dropped hcons rfl rfl fun e => ?_), ?_⟩)
    · split_ifs
      · exact le_of_lt (Int.lt_succ _)
      · exact le_of_eq (Int.add_zero _).symm
    · rw [hcons]
      exact Nat.lt_succ_self _
  · refine .inr (.inr ⟨Finset.card_le_card (due_dropped hcons rfl rfl fun e => ?_), ?_⟩)
    · split_ifs with hxe
      · subst hxe
        simp [countDown, TimingWheel.setEntry]
      · exact (congrArg _ (countDown_other _ (Ne.symm hxe))).ge.trans (le_of_eq (Int.add_zero _).symm)
    · rw [hcons]
      exact Nat.lt_succ_self _
  · rw [addedBy_fire hwalk hpos hdis hround] at hsettled
    have hnew := h.notMem_fired hb hstopped hwalk hpos hdis hround
    have hx : x ∈ due s := by
      refine mem_due.mpr ⟨?_, hnew, ?_⟩
      · rw [hcons]
        exact List.mem_cons_self
      · rw [hcons, List.count_cons_self]
        omega
    refine .inr (.inl ?_)
    exact (Finset.card_le_card (due_fired hb hwalk hpos hv hsettled)).trans_lt
      (Finset.card_erase_lt_of_mem hx)

/-! ## The whole call -/

theorem run_passes_succ (s : State) (script : ℕ → List Action) (n : ℕ) :
    run step s (passes script (n + 1)) =
      (run step s (passes script n)).bind fun t => step t (.visit (script n)) := by
  have hpasses : passes script (n + 1) = passes script n ++ [.visit (script n)] := by
    simp [passes, List.range_succ]
  rw [hpasses, run_append]
  congr 1
  funext t
  exact Option.bind_fun_some _

theorem added_append {ls : List Step} (ms : List Step) (hr : run step s ls = some s') :
    added s (ls ++ ms) = added s ls ++ added s' ms := by
  induction ls generalizing s with
  | nil =>
    cases hr
    rfl
  | cons l ls ih =>
    obtain ⟨t, ht, hr⟩ := run_cons_eq_some.mp hr
    simp only [List.cons_append, added, ht, ih hr, List.append_assoc]

variable {scripts : ℕ → List Action} {n m : ℕ} {t u : State}

theorem exists_pass (hu : run step s (passes scripts m) = some u) (h : n < m) :
    ∃ t, run step s (passes scripts n) = some t ∧ t.walk ≠ none := by
  induction m generalizing u with
  | zero => exact absurd h (Nat.not_lt_zero n)
  | succ m ih =>
    rw [run_passes_succ] at hu
    obtain ⟨t, ht, hu⟩ := Option.bind_eq_some_iff.mp hu
    rcases Nat.lt_succ_iff_lt_or_eq.mp h with h | rfl
    · exact ih ht h
    · obtain ⟨pos, hpos, -⟩ := step_visit_eq_some.mp hu
      exact ⟨t, ht, by simp [hpos]⟩

theorem last_pass (ht : run step s (passes scripts n) = some t) (hwalk : t.walk = none)
    (hu : run step s (passes scripts m) = some u) : m ≤ n := by
  by_contra hlt
  obtain ⟨t', ht', hne⟩ := exists_pass hu (not_le.mp hlt)
  cases ht.symm.trans ht'
  exact hne hwalk

theorem passes_count (ht : run step s (passes scripts n) = some t)
    (hu : run step s (passes scripts m) = some u) (h : n ≤ m) :
    u.ticks = t.ticks ∧ ∀ p, t.fired.count p ≤ u.fired.count p := by
  induction m, h using Nat.le_induction generalizing u with
  | base =>
    cases ht.symm.trans hu
    exact ⟨rfl, fun _ => le_refl _⟩
  | succ m _ ih =>
    rw [run_passes_succ] at hu
    obtain ⟨v, hv, hu⟩ := Option.bind_eq_some_iff.mp hu
    obtain ⟨hticks, hcount⟩ := ih hv
    obtain ⟨pos, -, hu⟩ := step_visit_eq_some.mp hu
    obtain ⟨hticks', hfired⟩ := visit_fired hu
    refine ⟨hticks'.trans hticks, fun p => (hcount p).trans ?_⟩
    rcases hfired with hfired | ⟨x, -, hfired⟩
    · rw [hfired]
    · rw [hfired, List.count_append]
      exact Nat.le_add_right _ _

theorem exists_pos (h : (upcoming s).head? = some e) :
    ∃ pos, s.walk = some pos ∧ (s.wheel.mSlots s.wheel.mCur)[pos]? = some e := by
  cases hwalk : s.walk with
  | none =>
    rw [upcoming, hwalk] at h
    cases h
  | some pos =>
    rw [upcoming_eq hwalk, List.head?_drop] at h
    exact ⟨pos, rfl, h⟩

theorem fires_again (hhead : (upcoming s).head? = some e)
    (hdis : (s.wheel.entries e).mDisabled = false) (hround : (s.wheel.entries e).mRound ≤ 0)
    (hfired : (s.ticks, e) ∈ s.fired) (hs : TimingWheel.step s (.visit script) = some s') :
    2 ≤ s'.fired.count (s.ticks, e) ∧ s'.ticks = s.ticks := by
  obtain ⟨pos, hwalk, hpos⟩ := exists_pos hhead
  obtain ⟨p, hp, hs⟩ := step_visit_eq_some.mp hs
  cases hwalk.symm.trans hp
  rcases visit_cases hs with ⟨hnone, -⟩ | ⟨x, hx, hcase⟩
  · rw [hpos] at hnone
    cases hnone
  · cases hpos.symm.trans hx
    rcases hcase with ⟨htrue, -⟩ | ⟨-, hwaits, -⟩ | ⟨-, -, w, -, rfl⟩
    · rw [hdis] at htrue
      cases htrue
    · exact absurd hround (not_le.mpr hwaits)
    · have hone := List.count_pos_iff.mpr hfired
      refine ⟨?_, rfl⟩
      rw [List.count_append, List.count_singleton_self]
      omega

theorem exists_next (hu : run step s (passes scripts m) = some u) (hend : u.walk = none)
    (ht : run step s (passes scripts n) = some t) (hwalk : t.walk ≠ none) :
    n < m ∧ ∃ v, step t (.visit (scripts n)) = some v ∧
      run step s (passes scripts (n + 1)) = some v := by
  have hlt : n < m := by
    refine lt_of_le_of_ne (last_pass hu hend ht) fun heq => ?_
    subst heq
    cases hu.symm.trans ht
    exact hwalk hend
  obtain ⟨v, hv⟩ : ∃ v, run step s (passes scripts (n + 1)) = some v := by
    rcases Nat.lt_or_eq_of_le (Nat.succ_le_of_lt hlt) with hlt | heq
    · obtain ⟨v, hv, -⟩ := exists_pass hu hlt
      exact ⟨v, hv⟩
    · subst heq
      exact ⟨u, hu⟩
  refine ⟨hlt, v, ?_, hv⟩
  rw [run_passes_succ, ht] at hv
  exact hv

/-- In a call that returns, an entry that has run is disabled or waits when the walk comes to it
again. -/
theorem Returns.stopped (h : Returns s scripts) (ht : run step s (passes scripts n) = some t)
    (hhead : (upcoming t).head? = some e) (hfired : (t.ticks, e) ∈ t.fired) :
    (t.wheel.entries e).mDisabled = true ∨ 0 < (t.wheel.entries e).mRound := by
  obtain ⟨m, u, hu, hend, honce⟩ := h
  by_contra hnot
  obtain ⟨hdis, hround⟩ := not_or.mp hnot
  obtain ⟨pos, hwalk, -⟩ := exists_pos hhead
  obtain ⟨hlt, v, hstep, hv⟩ := exists_next hu hend ht (by simp [hwalk])
  obtain ⟨htwice, hsame⟩ := fires_again hhead ((Bool.not_eq_true _).mp hdis) (not_lt.mp hround)
    hfired hstep
  obtain ⟨hticks, hcount⟩ := passes_count hv hu hlt
  have hle := honce e
  have hge := hcount (t.ticks, e)
  rw [hticks, hsame] at hle
  omega

theorem passes_invariant {I : ℕ → State → Prop}
    (htick : ∀ t, step s .tick = some t → I 0 t)
    (hvisit : ∀ n t u, run step s (passes scripts n) = some t → I n t →
      step t (.visit (scripts n)) = some u → I (n + 1) u)
    (ht : run step s (passes scripts n) = some t) : I n t := by
  induction n generalizing t with
  | zero =>
    obtain ⟨v, hv, ht⟩ := run_cons_eq_some.mp ht
    cases ht
    exact htick t hv
  | succ n ih =>
    rw [run_passes_succ] at ht
    obtain ⟨u, hu, ht⟩ := Option.bind_eq_some_iff.mp ht
    exact hvisit n u t hu (ih hu) ht

theorem notMem_fired_tick (hpast : ∀ p ∈ s.fired, p.1 ≤ s.ticks) (ht : step s .tick = some t)
    (e : EntryId) : (t.ticks, e) ∉ t.fired := by
  obtain ⟨-, rfl⟩ := step_tick ht
  exact fun he => absurd (hpast _ he) (Nat.not_succ_le_self _)

/-- A repeating entry that has run in this call has at most the rounds of its reinsertion. -/
theorem round_le_of_fired (hpast : ∀ p ∈ s.fired, p.1 ≤ s.ticks)
    (ht : run step s (passes scripts n) = some t) (hwalk : t.walk ≠ none)
    (hfired : (t.ticks, e) ∈ t.fired) (hrepeat : (t.wheel.entries e).mRepeat = true) :
    (t.wheel.entries e).mRound ≤ roundOf t.wheel e := by
  refine passes_invariant (I := fun _ t => t.walk ≠ none → (t.ticks, e) ∈ t.fired →
    (t.wheel.entries e).mRepeat = true → (t.wheel.entries e).mRound ≤ roundOf t.wheel e)
    (fun t ht _ hfired => absurd hfired (notMem_fired_tick hpast ht e)) ?_ ht hwalk hfired hrepeat
  intro n t u _ ih hu hwalk hfired hrepeat
  obtain ⟨pos, hpos, hu⟩ := step_visit_eq_some.mp hu
  have ih := ih (by simp [hpos])
  rcases visit_cases hu with ⟨-, rfl⟩ | ⟨x, -, ⟨-, rfl⟩ | ⟨-, -, rfl⟩ | ⟨-, -, v, hv, rfl⟩⟩
  · exact absurd rfl hwalk
  · exact ih hfired hrepeat
  · have hsame := sameTimes_countDown t.wheel x
    have ih := ih hfired ((hsame.kinds e).2.symm.trans hrepeat)
    rw [← (hsame.target e).2] at ih
    refine le_trans ?_ ih
    by_cases hne : e = x
    · subst hne
      simp [countDown, TimingWheel.setEntry]
    · dsimp only
      rw [countDown_other _ hne]
  · have hactions : (actions t.wheel x (scripts n)).foldlM act t.wheel = some v :=
      fire_eq t.wheel x (scripts n) ▸ hv
    have hsame := sameTimes_script hactions
    have hkind : (t.wheel.entries e).mRepeat = true := (hsame.kinds e).2.symm.trans hrepeat
    have hgoal : (v.entries e).mRound ≤ roundOf v e := by
      rw [round_scripted hactions, (hsame.target e).2]
      split_ifs with hadds
      · exact le_refl _
      · rcases List.mem_append.mp hfired with hfired | hfired
        · exact ih hfired hkind
        · obtain ⟨-, rfl⟩ := Prod.mk.inj (List.mem_singleton.mp hfired)
          exact absurd (mem_actions.mpr (.inr ⟨rfl, hkind⟩)) hadds
    exact hgoal

variable {xs : List EntryId}

theorem fits_of_returns (hpast : ∀ p ∈ s.fired, p.1 ≤ s.ticks) (h : Returns s scripts) :
    Fits s scripts xs where
  disabled n t e ht hhead hfired hnow hrepeat := by
    obtain ⟨pos, hwalk, -⟩ := exists_pos hhead
    have hle := round_le_of_fired hpast ht (by simp [hwalk]) hfired hrepeat
    exact (h.stopped ht hhead hfired).resolve_right (not_lt.mpr (hle.trans hnow.2))
  shared n t e ht hhead hfired _ := h.stopped ht hhead hfired
  placeable n t ht := by
    by_cases hwalk : t.walk = none
    · intro e he
      rw [insertedBy, upcoming, hwalk] at he
      cases he
    · obtain ⟨m, u, hu, hend, -⟩ := h
      obtain ⟨-, v, hv, -⟩ := exists_next hu hend ht hwalk
      exact (visit_defined hwalk).mp ⟨v, hv⟩
  settled := by
    obtain ⟨m, u, hu, hend, -⟩ := h
    refine ⟨m, fun n t hn ht e he => ?_⟩
    obtain rfl := le_antisymm hn (last_pass hu hend ht)
    cases hu.symm.trans ht
    have hruns : runsCallback u = false := by simp only [runsCallback, hend]
    rw [addedBy, hruns] at he
    cases he

theorem added_passes_succ (ht : run step s (passes scripts n) = some t) :
    xs ++ added s (passes scripts (n + 1)) =
      xs ++ added s (passes scripts n) ++ addedBy t (.visit (scripts n)) := by
  have hpasses : passes scripts (n + 1) = passes scripts n ++ [.visit (scripts n)] := by
    simp [passes, List.range_succ]
  rw [hpasses, added_append _ ht, List.append_assoc]
  simp only [added]
  split <;> rw [List.append_nil]

namespace Fits

theorem stopped (h : Fits s scripts xs) (ht : run step s (passes scripts n) = some t) :
    Stopped t (xs ++ added s (passes scripts n)) :=
  ⟨fun e => h.disabled n t e ht, fun e => h.shared n t e ht⟩

theorem underway (h : Fits s scripts xs) (hpast : ∀ p ∈ s.fired, p.1 ≤ s.ticks)
    (hb : Booked s xs) (ht : run step s (passes scripts n) = some t) :
    Underway t (xs ++ added s (passes scripts n)) := by
  refine passes_invariant (I := fun n t => Underway t (xs ++ added s (passes scripts n)))
    (fun t ht => ?_) (fun n t u ht ih hu => ?_) ht
  · have hnew := notMem_fired_tick hpast ht
    refine ⟨fun e => ?_, fun e _ _ he => absurd he (hnew e)⟩
    exact (List.count_eq_zero_of_not_mem (hnew e)).trans_le (Nat.zero_le 1)
  · rw [added_passes_succ ht]
    exact ih.visit (hb.run ht) (h.stopped ht) hu

theorem next (h : Fits s scripts xs) (ht : run step s (passes scripts n) = some t)
    (hwalk : t.walk ≠ none) : ∃ u, step t (.visit (scripts n)) = some u ∧
      run step s (passes scripts (n + 1)) = some u := by
  obtain ⟨u, hu⟩ := (visit_defined hwalk).mpr (h.placeable n t ht)
  refine ⟨u, hu, ?_⟩
  rw [run_passes_succ, ht]
  exact hu

/-- Once the callbacks add only new entries that are not due at once, the measure goes down with
every pass. -/
theorem ends (h : Fits s scripts xs) (hpast : ∀ p ∈ s.fired, p.1 ≤ s.ticks) (hb : Booked s xs)
    (hsettled : ∀ m u, n ≤ m → run step s (passes scripts m) = some u →
      ∀ e ∈ addedBy u (.visit (scripts m)), ¬ AtOnce u.wheel e ∧
        (xs ++ added s (passes scripts (m + 1))).count e = 1)
    (ht : run step s (passes scripts n) = some t) :
    ∃ m u, run step s (passes scripts m) = some u ∧ u.walk = none := by
  obtain ⟨p, hp⟩ : ∃ p : ℕ ×ₗ ℕ, p = toLex ((due t).card, (upcoming t).length) := ⟨_, rfl⟩
  induction p using WellFoundedLT.induction generalizing n t with
  | ind p ih =>
    by_cases hwalk : t.walk = none
    · exact ⟨n, t, ht, hwalk⟩
    obtain ⟨u, hstep, hu⟩ := h.next ht hwalk
    have hadds := hsettled n t (le_refl n) ht
    rw [added_passes_succ ht] at hadds
    rcases (h.underway hpast hb ht).progress (hb.run ht) (h.stopped ht) hadds hstep
      with hend | hless
    · exact ⟨n + 1, u, hu, hend⟩
    · refine ih _ ?_ (fun m v hm => hsettled m v (Nat.le_of_succ_le hm)) hu rfl
      rw [hp]
      rw [Prod.Lex.toLex_lt_toLex]
      omega

theorem reaches (h : Fits s scripts xs) (hwalk : s.walk = none) (n : ℕ) :
    (∃ m u, run step s (passes scripts m) = some u ∧ u.walk = none) ∨
      ∃ t, run step s (passes scripts n) = some t := by
  induction n with
  | zero =>
    exact .inr ⟨_, run_cons_of (if_pos hwalk)⟩
  | succ n ih =>
    rcases ih with hend | ⟨t, ht⟩
    · exact .inl hend
    · by_cases hlast : t.walk = none
      · exact .inl ⟨n, t, ht, hlast⟩
      · obtain ⟨u, -, hu⟩ := h.next ht hlast
        exact .inr ⟨u, hu⟩

end Fits

/-- A call of `tick()` on any wheel returns without running a callback twice if and only if it
fits. -/
theorem tick_returns_iff {interval : ℤ} {entries : EntryId → TimerEntry} {ls : List Step}
    (hr : run step (start interval entries) ls = some s) (hwalk : s.walk = none) :
    Returns s scripts ↔ Fits s scripts (added (start interval entries) ls) := by
  have hpast : ∀ p ∈ s.fired, p.1 ≤ s.ticks :=
    run_invariant (fun _ _ _ h hs => fired_le h hs) (fun _ h => absurd h List.not_mem_nil) hr
  have hb : Booked s (added (start interval entries) ls) := (booked_start interval entries).run hr
  refine ⟨fits_of_returns hpast, fun hfits => ?_⟩
  obtain ⟨n, hsettled⟩ := hfits.settled
  have hend : ∃ m u, run step s (passes scripts m) = some u ∧ u.walk = none := by
    rcases hfits.reaches hwalk n with hend | ⟨t, ht⟩
    · exact hend
    · exact hfits.ends hpast hb hsettled ht
  obtain ⟨m, u, hu, hnone⟩ := hend
  exact ⟨m, u, hu, hnone, (hfits.underway hpast hb hu).once⟩

/-- A repeating timer of half an interval that disables itself. -/
theorem tick_returns_disabled : ∃ s,
    run step (start 1000 fun _ => ⟨500, 0, true, false⟩) [.add 0] = some s ∧
    Returns s (fun _ => [.disable 0]) ∧ Fits s (fun _ => [.disable 0]) [0] := by
  obtain ⟨s, hs⟩ : ∃ s, run step (start 1000 fun _ => ⟨500, 0, true, false⟩) [.add 0] = some s :=
    ⟨_, rfl⟩
  have hreturns : Returns s fun _ => [.disable 0] := by
    cases hs
    exact ⟨3, _, rfl, rfl, fun e => List.count_le_length⟩
  have hwalk : s.walk = none := by
    cases hs
    rfl
  exact ⟨s, hs, hreturns, (tick_returns_iff hs hwalk).mp hreturns⟩

/-- The same timer with a callback that leaves the wheel alone: the call does not return. -/
theorem half_interval_never_returns : ∃ s,
    run step (start 1000 fun _ => ⟨500, 0, true, false⟩) [.add 0] = some s ∧
    ¬ Returns s fun _ => [] := by
  refine ⟨_, rfl, fun hreturns => ?_⟩
  have hfits : Fits _ _ [0] := fits_of_returns (fun _ h => absurd h List.not_mem_nil) hreturns
  have hnow : AtOnce (start 1000 fun _ => ⟨500, 0, true, false⟩).wheel 0 :=
    ⟨by decide, by decide⟩
  have hdisabled := hfits.disabled 1 _ 0 rfl rfl (List.mem_singleton_self _) hnow rfl
  exact absurd hdisabled Bool.false_ne_true

-- an entry that was added twice runs twice in its tick
example : (run step (start 1000 fun _ => ⟨1000, 0, false, false⟩)
    [.add 0, .add 0, .tick, .visit [], .tick, .visit [], .visit []]).map State.fired =
      some [(2, 0), (2, 0)] := rfl

/-- With a positive interval an insertion is due at once for the timeouts below the interval. -/
theorem Sane.atOnce_iff (h : Sane w) (e : EntryId) :
    AtOnce w e ↔ (w.entries e).mTimeoutms < w.mInterval := by
  have hinterval := h.interval
  have hcur := h.cur_nonneg
  have hlt := h.cur_lt
  have hsum := (h.target e).1
  have hticks : w.timeoutTicks e = (w.entries e).mTimeoutms / w.mInterval :=
    Int.tdiv_eq_ediv_of_nonneg (h.timeout_nonneg e)
  have hpos : 0 ≤ w.timeoutTicks e := by
    rw [hticks]
    exact Int.ediv_nonneg (h.timeout_nonneg e) (by omega)
  have hzero : w.timeoutTicks e < 1 ↔ (w.entries e).mTimeoutms < w.mInterval := by
    rw [hticks, Int.ediv_lt_iff_lt_mul (by omega), Int.one_mul]
  rw [← hzero, AtOnce, slotOf, roundOf, Int.tmod_eq_emod_of_nonneg hsum,
    Int.tdiv_eq_ediv_of_nonneg hsum]
  rw [roundSize_eq] at *
  omega

theorem Sane.placeable (h : Sane w) (e : EntryId) : Placeable w e :=
  ⟨by have := h.interval; omega, (h.target e).2, (h.slot e).1⟩

/-- On a wheel like that of an `EventLoop`, to which callers add each entry once, the condition
is about the timeouts below the interval only. -/
theorem fits_iff {interval : ℤ} (hinterval : 2 ≤ interval) {entries : EntryId → TimerEntry}
    (hfresh : ∀ e, Fresh (entries e)) {ls : List Step}
    (hr : run step (start interval entries) ls = some s)
    (hnodup : ∀ n, (added (start interval entries) (ls ++ passes scripts n)).Nodup) :
    Fits s scripts (added (start interval entries) ls) ↔
      (∀ n t e, run step s (passes scripts n) = some t → (upcoming t).head? = some e →
        (t.ticks, e) ∈ t.fired → (t.wheel.entries e).mTimeoutms < t.wheel.mInterval →
        (t.wheel.entries e).mRepeat = true → (t.wheel.entries e).mDisabled = true) ∧
      ∃ N, ∀ n t, N ≤ n → run step s (passes scripts n) = some t →
        ∀ e ∈ addedBy t (.visit (scripts n)),
          ¬ (t.wheel.entries e).mTimeoutms < t.wheel.mInterval := by
  have hstep : ∀ a l b, Sane a.wheel → step a l = some b → Sane b.wheel := fun _ _ _ h hs => h.step hs
  have hsane : ∀ n t, run step s (passes scripts n) = some t → Sane t.wheel := fun n t ht =>
    run_invariant hstep (run_invariant hstep (sane_start hinterval hfresh) hr) ht
  have honce : ∀ n e, (added (start interval entries) ls ++ added s (passes scripts n)).count e ≤ 1 :=
    fun n e => List.nodup_iff_count_le_one.mp (added_append _ hr ▸ hnodup n) e
  constructor
  · rintro ⟨hdisabled, -, -, N, hsettled⟩
    refine ⟨fun n t e ht hhead hfired hshort => ?_, N, fun n t hn ht e he => ?_⟩
    · exact hdisabled n t e ht hhead hfired (((hsane n t ht).atOnce_iff e).mpr hshort)
    · exact ((hsane n t ht).atOnce_iff e).not.mp (hsettled n t hn ht e he).1
  · rintro ⟨hdisabled, N, hsettled⟩
    refine ⟨fun n t e ht hhead hfired hnow => ?_, fun n t e ht hhead hfired hmany => ?_,
      fun n t ht e _ => (hsane n t ht).placeable e, N, fun n t hn ht e he => ⟨?_, ?_⟩⟩
    · exact hdisabled n t e ht hhead hfired (((hsane n t ht).atOnce_iff e).mp hnow)
    · exact absurd (honce n e) (not_le.mpr hmany)
    · exact ((hsane n t ht).atOnce_iff e).not.mpr (hsettled n t hn ht e he)
    · refine le_antisymm (honce (n + 1) e) (List.count_pos_iff.mpr ?_)
      rw [added_passes_succ ht]
      exact List.mem_append_right _ he

end GenericServer.TimingWheel
