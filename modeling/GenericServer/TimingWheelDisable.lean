import GenericServer.TimingWheelBookkeeping

/-!
# Disabled entries of the timing wheel

A disabled entry is not run any more. It stays on the wheel until the walk meets it, so a whole
revolution sweeps every slot.
-/
namespace GenericServer.TimingWheel

variable {w w' : TimingWheel} {e x : EntryId} {s s' : State} {l : Step} {script : List Action}

/-! ## The flag -/

def Disabled (w : TimingWheel) (e : EntryId) : Prop := (w.entries e).mDisabled = true

theorem disabled_disable (w : TimingWheel) (e : EntryId) : Disabled (w.disable e) e := by
  simp [Disabled, disable, setEntry]

namespace Disabled

theorem setEntry (h : Disabled w e) {t : TimerEntry}
    (ht : (w.entries x).mDisabled = true → t.mDisabled = true) : Disabled (w.setEntry x t) e := by
  unfold Disabled TimingWheel.setEntry
  by_cases he : e = x
  · subst he
    simpa only [Function.update_self] using ht h
  · dsimp only
    rw [Function.update_of_ne he]
    exact h

theorem place (h : Disabled w e) (x : EntryId) : Disabled (w.place x) e :=
  h.setEntry (x := x) (t := { w.entries x with mRound := _ }) id

theorem disable (h : Disabled w e) (x : EntryId) : Disabled (w.disable x) e :=
  h.setEntry fun _ => rfl

theorem act (h : Disabled w e) {a : Action} (ha : w.act a = some w') : Disabled w' e := by
  cases a with
  | add x =>
    obtain ⟨-, -, -, rfl⟩ := addEntry_eq_some.mp ha
    exact h.place x
  | disable x =>
    cases ha
    exact h.disable x

theorem scripted (h : Disabled w e) (hs : script.foldlM TimingWheel.act w = some w') :
    Disabled w' e := by
  induction script generalizing w with
  | nil =>
    cases hs
    exact h
  | cons a script ih =>
    rw [List.foldlM_cons] at hs
    obtain ⟨v, hv, hs⟩ := Option.bind_eq_some_iff.mp hs
    exact ih (h.act hv) hs

theorem fire (h : Disabled w e) (hf : w.fire x script = some w') : Disabled w' e := by
  obtain ⟨u, hu, ⟨-, hadd⟩ | ⟨-, rfl⟩⟩ := fire_cases hf
  · obtain ⟨-, -, -, rfl⟩ := addEntry_eq_some.mp hadd
    exact (h.scripted hu).place x
  · exact h.scripted hu

theorem step (h : Disabled s.wheel e) (hs : TimingWheel.step s l = some s') :
    Disabled s'.wheel e ∧ runsOf e s' = runsOf e s := by
  cases l with
  | add x =>
    obtain ⟨-, rfl⟩ := step_add hs
    exact ⟨h.place x, rfl⟩
  | disable x =>
    obtain ⟨-, rfl⟩ := step_disable hs
    exact ⟨h.disable x, rfl⟩
  | tick =>
    obtain ⟨-, rfl⟩ := step_tick hs
    exact ⟨h, rfl⟩
  | visit script =>
    obtain ⟨pos, -, hs⟩ := step_visit_eq_some.mp hs
    rcases visit_cases hs with ⟨-, rfl⟩ | ⟨x, -, ⟨-, rfl⟩ | ⟨-, -, rfl⟩ | ⟨hdis, -, v, hv, rfl⟩⟩
    · exact ⟨h, rfl⟩
    · exact ⟨h, rfl⟩
    · exact ⟨h.setEntry (x := x) (t := { s.wheel.entries x with mRound := _ }) id, rfl⟩
    · have hx : x ≠ e := by
        rintro rfl
        rw [h] at hdis
        cases hdis
      have hfire : Disabled v e := h.fire hv
      exact ⟨hfire, runsOf_append_other s hx _ rfl⟩

end Disabled

/-! ## What a step does to a disabled entry -/

/-- The entry is taken off the wheel, and nothing else happens. -/
structure Dropped (s s' : State) (e : EntryId) : Prop where
  entries : s'.wheel.entries = s.wheel.entries
  others : ∀ i, (s'.wheel.mSlots i).filter (· ≠ e) = (s.wheel.mSlots i).filter (· ≠ e)
  fired : s'.fired = s.fired

theorem filter_eraseIdx {xs : List EntryId} {pos : ℕ} (h : xs[pos]? = some e) :
    (xs.eraseIdx pos).filter (· ≠ e) = xs.filter (· ≠ e) := by
  obtain ⟨hlt, he⟩ := List.getElem?_eq_some_iff.mp h
  have hsplit : xs = xs.take pos ++ e :: xs.drop (pos + 1) := by
    rw [← he, List.getElem_cons_drop, List.take_append_drop]
  conv_rhs => rw [hsplit]
  rw [List.eraseIdx_eq_take_drop_succ, List.filter_append, List.filter_append,
    List.filter_cons_of_neg (by simp)]

theorem dropped_erase {pos : ℕ} (hpos : (s.wheel.mSlots s.wheel.mCur)[pos]? = some e) :
    Dropped s { s with wheel := s.wheel.erase pos } e := by
  refine ⟨rfl, fun i => ?_, rfl⟩
  dsimp only
  rw [erase_slots]
  split_ifs with hi
  · rw [hi]
    exact filter_eraseIdx hpos
  · rfl

structure Leaves (s s' : State) (e : EntryId) : Prop where
  cur : s'.wheel.mCur = s.wheel.mCur
  count : ∀ i, (s'.wheel.mSlots i).count e = (s.wheel.mSlots i).count e
  passed : Passed s' e ↔ Passed s e

theorem leaves_visit {pos : ℕ} (hw : WellFormed s) (hwalk : s.walk = some pos)
    (hpos : (s.wheel.mSlots s.wheel.mCur)[pos]? = some x) (hx : x ≠ e)
    (hadds : e ∉ addedBy s (.visit script)) (hs : visit s pos script = some s') :
    s'.ticks = s.ticks ∧ s'.walk ≠ none ∧ Leaves s s' e := by
  rcases visit_cases hs with ⟨hnone, -⟩ | ⟨y, hy, hcase⟩
  · cases hpos.symm.trans hnone
  · cases hpos.symm.trans hy
    rcases hcase with ⟨-, rfl⟩ | ⟨hdis, hround, rfl⟩ | ⟨hdis, hround, v, hv, rfl⟩
    · exact ⟨rfl, by simp [hwalk], rfl, (Stays.erase hpos hx).count, passed_erase hwalk rfl⟩
    · refine ⟨rfl, Option.some_ne_none _, rfl, fun _ => rfl, ?_⟩
      have htake : (s.wheel.mSlots s.wheel.mCur).take (pos + 1) =
          (s.wheel.mSlots s.wheel.mCur).take pos ++ [x] := by
        rw [List.take_add_one, hpos, Option.toList_some]
      simp [Passed, hwalk, countDown, TimingWheel.setEntry, htake, hx.symm]
    · have hruns : runsCallback s = true := by
        rw [runsCallback_eq hwalk hpos, hdis, decide_eq_true hround]
        rfl
      rw [addedBy, hruns, if_pos rfl] at hadds
      obtain ⟨u, hu, hcase⟩ := fire_cases hv
      have hstays : Stays s.wheel v e := by
        rcases hcase with ⟨-, hadd⟩ | ⟨-, rfl⟩
        · obtain ⟨-, -, -, rfl⟩ := addEntry_eq_some.mp hadd
          exact (Stays.scripted hadds hu).trans (Stays.place u hx)
        · exact Stays.scripted hadds hu
      have hext : Extends (fun _ => True) s.wheel v :=
        extends_fire (fun _ _ => trivial) trivial hv
      have hvpos : (v.mSlots v.mCur)[pos]? = some x := by
        rw [hext.cur]
        exact hext.getElem? hpos
      refine ⟨rfl, by simp [hwalk], hext.cur, ?_, passed_erase hwalk ?_⟩
      · exact (hstays.trans (Stays.erase hvpos hx)).count
      · rw [hext.cur, hext.take (hw.walk pos hwalk)]

theorem visit_end {pos : ℕ} (hpos : (s.wheel.mSlots s.wheel.mCur)[pos]? = none)
    (hs : visit s pos script = some s') : s'.ticks = s.ticks ∧ s'.walk = none ∧
      s'.wheel.mSlots = s.wheel.mSlots ∧ s'.wheel.mCur = (s.wheel.mCur + 1).tmod roundSize := by
  rcases visit_cases hs with ⟨-, rfl⟩ | ⟨y, hy, -⟩
  · exact ⟨rfl, rfl, rfl, rfl⟩
  · cases hpos.symm.trans hy

theorem Disabled.visit {pos : ℕ} (h : Disabled s.wheel e)
    (hpos : (s.wheel.mSlots s.wheel.mCur)[pos]? = some e)
    (hs : TimingWheel.visit s pos script = some s') :
    s' = { s with wheel := s.wheel.erase pos } := by
  rcases visit_cases hs with ⟨hnone, -⟩ | ⟨x, hx, ⟨-, rfl⟩ | ⟨hdis, -⟩ | ⟨hdis, -⟩⟩
  · cases hpos.symm.trans hnone
  · rfl
  · cases hpos.symm.trans hx
    rw [h] at hdis
    cases hdis
  · cases hpos.symm.trans hx
    rw [h] at hdis
    cases hdis

def Clear (w : TimingWheel) (e : EntryId) : Prop :=
  ∀ i, 0 ≤ i → i < roundSize → e ∉ w.mSlots i

theorem Clear.leaves (h : Clear s.wheel e) (hl : Leaves s s' e) : Clear s'.wheel e := by
  intro i h0 h1
  rw [← List.count_eq_zero, hl.count, List.count_eq_zero]
  exact h i h0 h1

theorem Clear.step (h : Clear s.wheel e) (hw : WellFormed s) (hadds : e ∉ addedBy s l)
    (hs : TimingWheel.step s l = some s') : Clear s'.wheel e ∧ runsOf e s' = runsOf e s := by
  cases l with
  | add x =>
    obtain ⟨hwalk, rfl⟩ := step_add hs
    have hx : x ≠ e := fun hx => hadds (hx ▸ List.mem_singleton_self x)
    exact ⟨h.leaves ⟨rfl, (Stays.place s.wheel hx).count, by simp [Passed, hwalk]⟩, rfl⟩
  | disable x =>
    obtain ⟨-, rfl⟩ := step_disable hs
    exact ⟨h, rfl⟩
  | tick =>
    obtain ⟨-, rfl⟩ := step_tick hs
    exact ⟨h, rfl⟩
  | visit script =>
    obtain ⟨pos, hwalk, hs⟩ := step_visit_eq_some.mp hs
    have hfired := (visit_fired hs).2
    cases hpos : (s.wheel.mSlots s.wheel.mCur)[pos]? with
    | none =>
      have hsame : s'.fired = s.fired := by
        rcases hfired with hsame | ⟨x, hx, -⟩
        · exact hsame
        · cases hpos.symm.trans hx
      refine ⟨fun i h0 h1 => ?_, by rw [runsOf, hsame, runsOf]⟩
      rw [(visit_end hpos hs).2.2.1]
      exact h i h0 h1
    | some x =>
      have hx : x ≠ e := by
        rintro rfl
        exact h _ hw.cur_nonneg hw.cur_lt (List.mem_of_getElem? hpos)
      refine ⟨h.leaves (leaves_visit hw hwalk hpos hx hadds hs).2.2, ?_⟩
      rcases hfired with hsame | ⟨y, hy, hone⟩
      · rw [runsOf, hsame, runsOf]
      · cases hpos.symm.trans hy
        exact runsOf_append_other s hx _ hone

/-! ## A revolution -/

/-- The ticks since the slot was walked last, before the slot `cur` is walked. -/
def behind (cur i : ℤ) : ℤ := if i < cur then cur - i else cur - i + roundSize

/-- The ticks that have been started and completed behind the one with number `n`. -/
def completed (n : ℕ) (s : State) : ℤ := s.ticks - n - if s.walk = none then 0 else 1

/-- The slots that have been walked behind the tick with number `n` do not hold `e`. -/
structure Swept (n : ℕ) (s : State) (e : EntryId) : Prop where
  slots : ∀ i, 0 ≤ i → i < roundSize → behind s.wheel.mCur i ≤ completed n s →
    e ∉ s.wheel.mSlots i
  passed : n < s.ticks → ¬ Passed s e

theorem behind_pos {cur i : ℤ} (hi : i < roundSize) (hcur : 0 ≤ cur) : 0 < behind cur i := by
  unfold behind
  split_ifs <;> omega

theorem behind_le {cur i : ℤ} (hi : 0 ≤ i) (hcur : cur < roundSize) :
    behind cur i ≤ roundSize := by
  unfold behind
  split_ifs <;> omega

/-- The slot that has just been walked is one tick behind, and every other one is one tick
older. -/
theorem behind_advance {cur i : ℤ} (hcur : 0 ≤ cur) (hcur' : cur < roundSize) (hi : 0 ≤ i)
    (hi' : i < roundSize) : behind ((cur + 1).tmod roundSize) i =
      if i = cur then 1 else behind cur i + 1 := by
  rw [Int.tmod_eq_emod_of_nonneg (by omega)]
  unfold behind
  rw [roundSize_eq] at *
  split_ifs <;> omega

theorem swept_start (hw : WellFormed s) : Swept s.ticks s e where
  slots i _ hi hbehind := by
    have hpos := behind_pos hi hw.cur_nonneg
    unfold completed at hbehind
    split_ifs at hbehind <;> omega
  passed h := absurd h (Nat.lt_irrefl _)

theorem Swept.leaves {n : ℕ} (h : Swept n s e) (hl : Leaves s s' e)
    (hticks : s'.ticks = s.ticks) (hwalk : s'.walk = none ↔ s.walk = none) : Swept n s' e := by
  have hcompleted : completed n s' = completed n s := by
    unfold completed
    rw [hticks]
    simp only [hwalk]
  refine ⟨fun i h0 h1 hbehind => ?_, fun hn => ?_⟩
  · rw [hl.cur, hcompleted] at hbehind
    rw [← List.count_eq_zero, hl.count, List.count_eq_zero]
    exact h.slots i h0 h1 hbehind
  · rw [hl.passed]
    exact h.passed (hticks ▸ hn)

theorem Swept.visit {n pos : ℕ} (h : Swept n s e) (hw : WellFormed s) (hdis : Disabled s.wheel e)
    (hwalk : s.walk = some pos) (hadds : e ∉ addedBy s (.visit script))
    (hs : TimingWheel.visit s pos script = some s') : Swept n s' e := by
  cases hpos : (s.wheel.mSlots s.wheel.mCur)[pos]? with
  | none =>
    obtain ⟨hticks, hnone, hslots, hcur⟩ := visit_end hpos hs
    refine ⟨fun i h0 h1 hbehind hmem => ?_, fun _ => ?_⟩
    · rw [hcur, behind_advance hw.cur_nonneg hw.cur_lt h0 h1] at hbehind
      rw [hslots] at hmem
      have hcompleted : completed n s' = completed n s + 1 := by
        unfold completed
        rw [hticks, hnone, hwalk]
        simp
      split_ifs at hbehind with hi
      · -- the slot whose walk ends here
        have hn : n < s.ticks := by
          unfold completed at hbehind
          rw [hnone, if_pos rfl, hticks] at hbehind
          omega
        refine h.passed hn ⟨pos, hwalk, ?_⟩
        rw [List.take_of_length_le (List.getElem?_eq_none_iff.mp hpos), ← hi]
        exact hmem
      · exact h.slots i h0 h1 (by omega) hmem
    · rintro ⟨p, hp, -⟩
      rw [hnone] at hp
      cases hp
  | some x =>
    by_cases hx : x = e
    · subst hx
      obtain rfl := hdis.visit hpos hs
      have hsub : ∀ i, x ∈ (s.wheel.erase pos).mSlots i → x ∈ s.wheel.mSlots i := by
        intro i hmem
        rw [erase_slots] at hmem
        split_ifs at hmem with hi
        · rw [hi]
          exact List.mem_of_mem_eraseIdx hmem
        · exact hmem
      refine ⟨fun i h0 h1 hbehind hmem => h.slots i h0 h1 hbehind (hsub i hmem), fun hn => ?_⟩
      rw [passed_erase hwalk rfl]
      exact h.passed hn
    · obtain ⟨hticks, hsome, hleaves⟩ := leaves_visit hw hwalk hpos hx hadds hs
      exact h.leaves hleaves hticks (by simp [hsome, hwalk])

theorem Swept.step {n : ℕ} (h : Swept n s e) (hw : WellFormed s) (hdis : Disabled s.wheel e)
    (hadds : e ∉ addedBy s l) (hs : TimingWheel.step s l = some s') : Swept n s' e := by
  cases l with
  | add x =>
    obtain ⟨hwalk, rfl⟩ := step_add hs
    have hx : x ≠ e := fun hx => hadds (hx ▸ List.mem_singleton_self x)
    exact h.leaves ⟨rfl, (Stays.place s.wheel hx).count, by simp [Passed, hwalk]⟩ rfl Iff.rfl
  | disable x =>
    obtain ⟨hwalk, rfl⟩ := step_disable hs
    exact h.leaves ⟨rfl, fun _ => rfl, Iff.rfl⟩ rfl Iff.rfl
  | tick =>
    obtain ⟨hwalk, rfl⟩ := step_tick hs
    refine ⟨fun i h0 h1 hbehind => h.slots i h0 h1 ?_, fun _ => by simp [Passed]⟩
    simp only [completed, hwalk, if_true, reduceCtorEq, if_false] at hbehind ⊢
    omega
  | visit script =>
    obtain ⟨pos, hwalk, hs⟩ := step_visit_eq_some.mp hs
    exact h.visit hw hdis hwalk hadds hs

theorem Swept.clear {n : ℕ} (h : Swept n s e) (hw : WellFormed s) (hwalk : s.walk = none)
    (hticks : (n : ℤ) + roundSize ≤ s.ticks) : Clear s.wheel e := by
  intro i h0 h1
  refine h.slots i h0 h1 ?_
  have hbehind := behind_le h0 hw.cur_lt
  unfold completed
  rw [if_pos hwalk]
  omega

/-- A pointer to a disabled entry goes only where the walk drops it. -/
theorem Disabled.dropped (h : Disabled s.wheel e)
    (hs : TimingWheel.step s l = some s') {i : ℤ}
    (hless : (s'.wheel.mSlots i).count e < (s.wheel.mSlots i).count e) : Dropped s s' e := by
  cases l with
  | add x =>
    obtain ⟨-, rfl⟩ := step_add hs
    dsimp only at hless
    rw [count_place] at hless
    omega
  | disable x =>
    obtain ⟨-, rfl⟩ := step_disable hs
    exact absurd hless (Nat.lt_irrefl _)
  | tick =>
    obtain ⟨-, rfl⟩ := step_tick hs
    exact absurd hless (Nat.lt_irrefl _)
  | visit script =>
    obtain ⟨pos, hwalk, hs⟩ := step_visit_eq_some.mp hs
    rcases TimingWheel.visit_cases hs with ⟨-, rfl⟩ | ⟨x, hpos, ⟨-, rfl⟩ | ⟨-, -, rfl⟩ |
      ⟨hdis, -, v, hv, rfl⟩⟩
    · exact absurd hless (Nat.lt_irrefl _)
    · by_cases hx : x = e
      · subst hx
        exact dropped_erase hpos
      · exact absurd hless ((Stays.erase hpos hx).count i).not_lt
    · exact absurd hless (Nat.lt_irrefl _)
    · have hx : x ≠ e := by
        rintro rfl
        rw [h] at hdis
        cases hdis
      have hext : Extends (fun _ => True) s.wheel v :=
        extends_fire (fun _ _ => trivial) trivial hv
      have hvpos : (v.mSlots v.mCur)[pos]? = some x := by
        rw [hext.cur]
        exact hext.getElem? hpos
      have hsame : ((v.erase pos).mSlots i).count e = (v.mSlots i).count e :=
        (Stays.erase hvpos hx).count i
      obtain ⟨ys, hys, -⟩ := hext.slots i
      dsimp only at hless
      rw [hsame, hys, List.count_append] at hless
      omega

end GenericServer.TimingWheel
