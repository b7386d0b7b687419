import GenericServer.TransitionRuns
import Mathlib.Logic.Function.Basic
import Mathlib.Tactic.SplitIfs

/-!
# Expiry of idle connections

`src/net/IdleConnections.h` and `IdleConnections.cpp`. Entries are shared objects, so the slots
hold their names; an entry is destroyed with its last pointer, and pointers outside of the slots
are not held between operations. The `clear()` of `tick()` destroys one pointer in a step.
-/
namespace GenericServer.IdleExpiry

open TransitionRuns

abbrev EntryId := ℕ

abbrev ConnectionId := ℕ

def slotSize : ℕ := 60

/-- `IdleConnections` with the heap: `mConn` is the weak pointer of an entry, `gone` the
connections that have been destroyed. `ticking` holds from the advance of `m_cur` to the end of
`clear()`; `destroyed` and `shutdowns` are what the destructors have done. -/
structure IdleConnections where
  mCur : ℕ
  mConns : ℕ → List EntryId
  ticking : Bool
  mConn : EntryId → Option ConnectionId
  gone : ConnectionId → Bool
  destroyed : List EntryId
  shutdowns : List (EntryId × ConnectionId)

def start : IdleConnections where
  mCur := 0
  mConns := fun _ => []
  ticking := false
  mConn := fun _ => none
  gone := fun _ => false
  destroyed := []
  shutdowns := []

namespace IdleConnections

def setSlot (s : IdleConnections) (i : ℕ) (xs : List EntryId) : IdleConnections :=
  { s with mConns := Function.update s.mConns i xs }

def alive (s : IdleConnections) (ent : EntryId) : Bool :=
  (List.range slotSize).any fun i => ent ∈ s.mConns i

/-- `m_conns[m_cur].push_back(ent)`. -/
def pushBack (s : IdleConnections) (ent : EntryId) : IdleConnections :=
  s.setSlot s.mCur (s.mConns s.mCur ++ [ent])

def add (s : IdleConnections) (ent : EntryId) (conn : ConnectionId) : IdleConnections :=
  { s.pushBack ent with mConn := Function.update s.mConn ent (some conn) }

/-- `tick()` up to `clear()`. -/
def tick (s : IdleConnections) : IdleConnections :=
  let cur := s.mCur + 1
  { s with mCur := if slotSize ≤ cur then 0 else cur, ticking := true }

def destroy (s : IdleConnections) (ent : EntryId) : IdleConnections :=
  { s with
    destroyed := s.destroyed ++ [ent]
    shutdowns := match s.mConn ent with
      | some conn => if s.gone conn then s.shutdowns else s.shutdowns ++ [(ent, conn)]
      | none => s.shutdowns }

/-- The next pointer of the slot that `clear()` empties. -/
def release (s : IdleConnections) : IdleConnections :=
  match s.mConns s.mCur with
  | [] => { s with ticking := false }
  | ent :: rest =>
    let s := s.setSlot s.mCur rest
    if s.alive ent then s else s.destroy ent

end IdleConnections

/-- `gone` drops the last reference to a connection. -/
inductive Label
  | add (ent : EntryId) (conn : ConnectionId)
  | update (ent : EntryId)
  | tick
  | release
  | gone (conn : ConnectionId)
  deriving DecidableEq, Repr

def step (s : IdleConnections) : Label → Option IdleConnections
  | .add ent conn =>
    if s.ticking = false ∧ s.mConn ent = none then some (s.add ent conn) else none
  | .update ent =>
    if s.ticking = false ∧ s.alive ent then some (s.pushBack ent) else none
  | .tick => if s.ticking = false then some s.tick else none
  | .release => if s.ticking then some s.release else none
  | .gone conn => some { s with gone := Function.update s.gone conn true }

def Label.idleTicks (ent : EntryId) (n : ℕ) : Label → ℕ
  | .add e _ => if e = ent then 0 else n
  | .update e => if e = ent then 0 else n
  | .tick => n + 1
  | .release => n
  | .gone _ => n

/-- The ticks that a schedule has started since it touched the entry last. -/
def idleTicks (ent : EntryId) (n : ℕ) (ls : List Label) : ℕ :=
  ls.foldl (Label.idleTicks ent) n

/-- The step from `s` to `s'` destroys `ent`, calls `shutdown` on its connection if that exists,
and leaves the pointers to every other entry. -/
structure Expires (s s' : IdleConnections) (ent : EntryId) (conn : ConnectionId) : Prop where
  ticking : s.ticking = true
  before : s.alive ent = true
  after : s'.alive ent = false
  destroyed : s'.destroyed = s.destroyed ++ [ent]
  shutdowns : s'.shutdowns = if s.gone conn then s.shutdowns else s.shutdowns ++ [(ent, conn)]
  others : ∀ e, e ≠ ent → ∀ i, (s'.mConns i).count e = (s.mConns i).count e

/-! ## The slots that hold an entry -/

/-- The ticks since the slot was the current one. -/
def age (cur i : ℕ) : ℕ := if i ≤ cur then cur - i else cur + slotSize - i

/-- The entry will be destroyed in a later tick: a slot of age `n` holds it, and no younger one.
While a tick clears the current slot, pointers may be left over there. -/
structure Kept (s : IdleConnections) (ent : EntryId) (n : ℕ) : Prop where
  young : n < slotSize
  latest : ∃ i < slotSize, ent ∈ s.mConns i ∧ age s.mCur i = n
  oldest : ∀ i < slotSize, ent ∈ s.mConns i → s.ticking = true ∧ i = s.mCur ∨ n ≤ age s.mCur i
  ticked : s.ticking = true → 1 ≤ n

/-- The entry will be destroyed in the running tick. -/
structure Leaving (s : IdleConnections) (ent : EntryId) (n : ℕ) : Prop where
  due : n = slotSize
  ticking : s.ticking = true
  last : ent ∈ s.mConns s.mCur
  only : ∀ i < slotSize, ent ∈ s.mConns i → i = s.mCur

/-- How often the entry has been destroyed, and what its destructor has called. -/
structure Told (s : IdleConnections) (ent : EntryId) (times : ℕ)
    (calls : List (EntryId × ConnectionId)) : Prop where
  destroyed : s.destroyed.count ent = times
  shutdowns : s.shutdowns.filter (·.1 = ent) = calls

structure Unborn (s : IdleConnections) (ent : EntryId) : Prop where
  conn : s.mConn ent = none
  slots : ∀ i, ent ∉ s.mConns i
  told : Told s ent 0 []

/-- The entry lives, with its connection, `n` ticks behind its last touch. -/
structure Standing (s : IdleConnections) (ent : EntryId) (conn : ConnectionId) (n : ℕ) : Prop where
  conn : s.mConn ent = some conn
  told : Told s ent 0 []
  place : Kept s ent n ∨ Leaving s ent n

structure Expired (s : IdleConnections) (ent : EntryId) (conn : ConnectionId)
    (calls : List (EntryId × ConnectionId)) : Prop where
  conn : s.mConn ent = some conn
  slots : ∀ i < slotSize, ent ∉ s.mConns i
  told : Told s ent 1 calls

variable {s s' : IdleConnections} {ent e : EntryId} {conn : ConnectionId} {n : ℕ} {l : Label}

theorem alive_iff : s.alive ent = true ↔ ∃ i < slotSize, ent ∈ s.mConns i := by
  simp [IdleConnections.alive]

theorem not_alive_iff : s.alive ent = false ↔ ∀ i < slotSize, ent ∉ s.mConns i := by
  simp [IdleConnections.alive]

@[simp] theorem age_self (cur : ℕ) : age cur cur = 0 := by simp [age]

theorem Standing.alive (h : Standing s ent conn n) (hcur : s.mCur < slotSize) :
    s.alive ent = true := by
  rw [alive_iff]
  rcases h.place with hkept | hleaving
  · obtain ⟨i, hi, hmem, -⟩ := hkept.latest
    exact ⟨i, hi, hmem⟩
  · exact ⟨s.mCur, hcur, hleaving.last⟩

theorem mem_pushBack {i : ℕ} : ent ∈ (s.pushBack e).mConns i ↔
    ent ∈ s.mConns i ∨ i = s.mCur ∧ ent = e := by
  unfold IdleConnections.pushBack IdleConnections.setSlot
  by_cases hi : i = s.mCur
  · subst hi
    simp
  · simp [hi]

theorem mem_pushBack_of_ne {i : ℕ} (h : e ≠ ent) :
    ent ∈ (s.pushBack e).mConns i ↔ ent ∈ s.mConns i := by
  rw [mem_pushBack]
  simp [h.symm]

theorem Kept.congr (h : Kept s ent n) (hcur : s'.mCur = s.mCur) (hticking : s'.ticking = s.ticking)
    (hmem : ∀ i, ent ∈ s'.mConns i ↔ ent ∈ s.mConns i) : Kept s' ent n := by
  obtain ⟨i, hi, hlatest, hage⟩ := h.latest
  refine ⟨h.young, ⟨i, hi, (hmem i).mpr hlatest, by rw [hcur, hage]⟩, fun k hk hkmem => ?_, ?_⟩
  · rw [hcur, hticking]
    exact h.oldest k hk ((hmem k).mp hkmem)
  · rw [hticking]
    exact h.ticked

theorem Leaving.congr (h : Leaving s ent n) (hcur : s'.mCur = s.mCur)
    (hticking : s'.ticking = s.ticking) (hmem : ∀ i, ent ∈ s'.mConns i ↔ ent ∈ s.mConns i) :
    Leaving s' ent n := by
  refine ⟨h.due, hticking.trans h.ticking, ?_, fun k hk hkmem => ?_⟩
  · rw [hcur, hmem]
    exact h.last
  · rw [hcur]
    exact h.only k hk ((hmem k).mp hkmem)

theorem kept_touch (hcur : s.mCur < slotSize) (hticking : s.ticking = false) :
    Kept (s.pushBack ent) ent 0 := by
  refine ⟨by decide, ⟨s.mCur, hcur, mem_pushBack.mpr (.inr ⟨rfl, rfl⟩), age_self _⟩,
    fun i hi hmem => .inr (Nat.zero_le _), fun h => ?_⟩
  rw [show (s.pushBack ent).ticking = s.ticking from rfl, hticking] at h
  cases h

/-- A tick makes every slot one tick older, except for the oldest one, which becomes the current
slot. -/
theorem age_tick {i : ℕ} (hcur : s.mCur < slotSize) (hi : i < slotSize) :
    i = s.tick.mCur ∧ age s.mCur i = slotSize - 1 ∨
      i ≠ s.tick.mCur ∧ age s.tick.mCur i = age s.mCur i + 1 := by
  unfold IdleConnections.tick age slotSize at *
  dsimp only
  split_ifs <;> omega

theorem age_lt {cur i : ℕ} (hcur : cur < slotSize) (hi : i < slotSize) : age cur i < slotSize := by
  unfold age slotSize at *
  split_ifs <;> omega

theorem Kept.tick (h : Kept s ent n) (hcur : s.mCur < slotSize) (hticking : s.ticking = false) :
    Kept s.tick ent (n + 1) ∨ Leaving s.tick ent (n + 1) := by
  have hyoung := h.young
  have holdest : ∀ i < slotSize, ent ∈ s.mConns i → n ≤ age s.mCur i := by
    intro i hi hmem
    rcases h.oldest i hi hmem with ⟨htrue, -⟩ | hage
    · rw [hticking] at htrue
      cases htrue
    · exact hage
  obtain ⟨k, hk, hlatest, hage⟩ := h.latest
  rcases age_tick hcur hk with ⟨hkcur, hlast⟩ | ⟨-, hnext⟩
  · refine .inr ⟨by omega, rfl, hkcur ▸ hlatest, fun i hi hmem => ?_⟩
    have hlow := holdest i hi hmem
    have hhigh := age_lt hcur hi
    rcases age_tick hcur hi with ⟨hicur, -⟩ | ⟨-, hinext⟩
    · exact hicur
    · have htick : s.tick.mCur < slotSize := by
        rw [← hkcur]
        exact hk
      have := age_lt htick hi
      omega
  · have htick : s.tick.mCur < slotSize := by
      unfold IdleConnections.tick slotSize at *
      dsimp only
      split_ifs <;> omega
    have hlt := age_lt htick hk
    refine .inl ⟨by omega, ⟨k, hk, hlatest, by omega⟩, fun i hi hmem => ?_, fun _ => by omega⟩
    have hlow := holdest i hi hmem
    rcases age_tick hcur hi with ⟨hicur, -⟩ | ⟨-, hinext⟩
    · exact .inl ⟨rfl, hicur⟩
    · exact .inr (by omega)

theorem mCur_tick (hcur : s.mCur < slotSize) : s.tick.mCur < slotSize := by
  unfold IdleConnections.tick slotSize at *
  dsimp only
  split_ifs <;> omega

/-! ## Clearing a slot -/

/-- The next pointer of the current slot goes: nothing, a plain release, or a destruction. -/
theorem release_cases (s : IdleConnections) :
    (s.mConns s.mCur = [] ∧ s.release = { s with ticking := false }) ∨
    ∃ x rest, s.mConns s.mCur = x :: rest ∧
      (((s.setSlot s.mCur rest).alive x = true ∧ s.release = s.setSlot s.mCur rest) ∨
        ((s.setSlot s.mCur rest).alive x = false ∧
          s.release = (s.setSlot s.mCur rest).destroy x)) := by
  unfold IdleConnections.release
  split
  · rename_i hslot
    exact .inl ⟨hslot, rfl⟩
  · rename_i x rest hslot
    refine .inr ⟨x, rest, hslot, ?_⟩
    dsimp only
    split_ifs with halive
    · exact .inl ⟨halive, rfl⟩
    · exact .inr ⟨eq_false_of_ne_true halive, rfl⟩

section Release

variable {x : EntryId} {rest : List EntryId}

theorem setSlot_mConns_self : (s.setSlot s.mCur rest).mConns s.mCur = rest :=
  Function.update_self ..

theorem setSlot_mConns_of_ne {i : ℕ} (hi : i ≠ s.mCur) :
    (s.setSlot s.mCur rest).mConns i = s.mConns i :=
  Function.update_of_ne hi ..

theorem mem_of_mem_setSlot (hslot : s.mConns s.mCur = x :: rest) {i : ℕ}
    (h : ent ∈ (s.setSlot s.mCur rest).mConns i) : ent ∈ s.mConns i := by
  by_cases hi : i = s.mCur
  · subst hi
    rw [setSlot_mConns_self] at h
    rw [hslot]
    exact List.mem_cons_of_mem x h
  · rwa [setSlot_mConns_of_ne hi] at h

theorem Kept.setSlot (h : Kept s ent n) (hticking : s.ticking = true)
    (hslot : s.mConns s.mCur = x :: rest) : Kept (s.setSlot s.mCur rest) ent n := by
  have hpos := h.ticked hticking
  obtain ⟨i, hi, hmem, hage⟩ := h.latest
  have hne : i ≠ s.mCur := by
    rintro rfl
    rw [age_self] at hage
    omega
  refine ⟨h.young, ⟨i, hi, ?_, hage⟩, fun k hk hkmem => ?_, h.ticked⟩
  · rw [setSlot_mConns_of_ne hne]
    exact hmem
  · exact h.oldest k hk (mem_of_mem_setSlot hslot hkmem)

theorem Leaving.setSlot (h : Leaving s ent n) (hslot : s.mConns s.mCur = x :: rest)
    (hrest : ent ∈ rest) : Leaving (s.setSlot s.mCur rest) ent n := by
  refine ⟨h.due, h.ticking, ?_, fun i hi hmem => h.only i hi (mem_of_mem_setSlot hslot hmem)⟩
  rw [show (s.setSlot s.mCur rest).mCur = s.mCur from rfl, setSlot_mConns_self]
  exact hrest

theorem Leaving.not_alive (h : Leaving s ent n) (hslot : s.mConns s.mCur = x :: rest)
    (hrest : ent ∉ rest) : x = ent ∧ (s.setSlot s.mCur rest).alive ent = false := by
  have hlast := h.last
  rw [hslot] at hlast
  refine ⟨((List.mem_cons.mp hlast).resolve_right hrest).symm, not_alive_iff.mpr fun i hi hmem => ?_⟩
  obtain rfl := h.only i hi (mem_of_mem_setSlot hslot hmem)
  rw [setSlot_mConns_self] at hmem
  exact hrest hmem

theorem count_setSlot (hslot : s.mConns s.mCur = x :: rest) (he : e ≠ x) (i : ℕ) :
    ((s.setSlot s.mCur rest).mConns i).count e = (s.mConns i).count e := by
  by_cases hi : i = s.mCur
  · subst hi
    rw [setSlot_mConns_self, hslot, List.count_cons_of_ne he.symm]
  · rw [setSlot_mConns_of_ne hi]

end Release

theorem Told.destroy {times : ℕ} {calls : List (EntryId × ConnectionId)}
    (h : Told s ent times calls) {x : EntryId} (hx : x ≠ ent) :
    Told (s.destroy x) ent times calls := by
  constructor
  · have hnone : [x].count ent = 0 := List.count_eq_zero.mpr (by simpa using hx.symm)
    exact (List.count_append ..).trans (by rw [hnone]; exact h.destroyed)
  · have hshutdowns := h.shutdowns
    unfold IdleConnections.destroy
    split
    · dsimp only
      split_ifs
      · exact hshutdowns
      · rw [List.filter_append, hshutdowns]
        simp [hx]
    · exact hshutdowns

theorem Standing.release (h : Standing s ent conn n) (hcur : s.mCur < slotSize)
    (hticking : s.ticking = true) :
    Standing s.release ent conn n ∨ n = slotSize ∧ Expires s s.release ent conn := by
  rcases release_cases s with ⟨hslot, hrelease⟩ | ⟨x, rest, hslot, hcase⟩
  · rw [hrelease]
    refine .inl ⟨h.conn, ⟨h.told.destroyed, h.told.shutdowns⟩, .inl ?_⟩
    rcases h.place with hkept | hleaving
    · refine ⟨hkept.young, hkept.latest, fun i hi hmem => .inr ?_, fun htrue => by cases htrue⟩
      rcases hkept.oldest i hi hmem with ⟨-, rfl⟩ | hage
      · dsimp only at hmem
        rw [hslot] at hmem
        cases hmem
      · exact hage
    · have hlast := hleaving.last
      rw [hslot] at hlast
      cases hlast
  · have hnext : (Kept (s.setSlot s.mCur rest) ent n ∨ Leaving (s.setSlot s.mCur rest) ent n) ∨
        n = slotSize ∧ x = ent ∧ (s.setSlot s.mCur rest).alive ent = false := by
      rcases h.place with hkept | hleaving
      · exact .inl (.inl (hkept.setSlot hticking hslot))
      · by_cases hrest : ent ∈ rest
        · exact .inl (.inr (hleaving.setSlot hslot hrest))
        · exact .inr ⟨hleaving.due, hleaving.not_alive hslot hrest⟩
    rcases hnext with hplace | ⟨hdue, rfl, hdead⟩
    · have hstanding : Standing (s.setSlot s.mCur rest) ent conn n :=
        ⟨h.conn, ⟨h.told.destroyed, h.told.shutdowns⟩, hplace⟩
      rcases hcase with ⟨-, hrelease⟩ | ⟨hdead, hrelease⟩
      · rw [hrelease]
        exact .inl hstanding
      · have hx : x ≠ ent := by
          rintro rfl
          rw [hstanding.alive hcur] at hdead
          cases hdead
        rw [hrelease]
        refine .inl ⟨h.conn, hstanding.told.destroy hx, hplace.imp ?_ ?_⟩
        · exact fun hkept => hkept.congr rfl rfl fun _ => Iff.rfl
        · exact fun hleaving => hleaving.congr rfl rfl fun _ => Iff.rfl
    · rcases hcase with ⟨halive, -⟩ | ⟨-, hrelease⟩
      · rw [hdead] at halive
        cases halive
      · rw [hrelease]
        refine .inr ⟨hdue, hticking, h.alive hcur, hdead, rfl, ?_, fun e he i => ?_⟩
        · have hconn : (s.setSlot s.mCur rest).mConn x = some conn := h.conn
          unfold IdleConnections.destroy
          rw [hconn]
          rfl
        · exact count_setSlot hslot he i

/-! ## One step -/

theorem ne_of_add {c : ConnectionId} (hconn : s.mConn ent = some conn)
    (hs : step s (.add e c) = some s') : e ≠ ent := by
  simp only [step] at hs
  split_ifs at hs with hok
  rintro rfl
  rw [hok.2] at hconn
  cases hconn

theorem ne_of_update (hdead : s.alive ent = false) (hs : step s (.update e) = some s') :
    e ≠ ent := by
  simp only [step] at hs
  split_ifs at hs with hok
  rintro rfl
  rw [hdead] at hok
  cases hok.2

theorem mCur_step (hcur : s.mCur < slotSize) (hs : step s l = some s') : s'.mCur < slotSize := by
  cases l with
  | add e c =>
    simp only [step] at hs
    split_ifs at hs
    cases hs
    exact hcur
  | update e =>
    simp only [step] at hs
    split_ifs at hs
    cases hs
    exact hcur
  | tick =>
    simp only [step] at hs
    split_ifs at hs
    cases hs
    exact mCur_tick hcur
  | release =>
    simp only [step] at hs
    split_ifs at hs
    cases hs
    rcases release_cases s with ⟨-, hrelease⟩ | ⟨x, rest, -, ⟨-, hrelease⟩ | ⟨-, hrelease⟩⟩
    all_goals
      rw [hrelease]
      exact hcur
  | gone c =>
    cases hs
    exact hcur

/-- A living entry is touched, left alone, brought one tick closer to its end, or destroyed in
the tick that is due. -/
theorem Standing.step (h : Standing s ent conn n) (hcur : s.mCur < slotSize)
    (hs : IdleExpiry.step s l = some s') : Standing s' ent conn (l.idleTicks ent n) ∨
      l = .release ∧ n = slotSize ∧ Expires s s' ent conn := by
  cases l with
  | add e c =>
    have he := ne_of_add h.conn hs
    simp only [IdleExpiry.step] at hs
    split_ifs at hs
    cases hs
    refine .inl ⟨?_, ⟨h.told.destroyed, h.told.shutdowns⟩, ?_⟩
    · exact (Function.update_of_ne he.symm ..).trans h.conn
    · rw [Label.idleTicks, if_neg he]
      exact h.place.imp (fun hkept => hkept.congr rfl rfl fun _ => mem_pushBack_of_ne he)
        fun hleaving => hleaving.congr rfl rfl fun _ => mem_pushBack_of_ne he
  | update e =>
    simp only [IdleExpiry.step] at hs
    split_ifs at hs with hok
    cases hs
    refine .inl ⟨h.conn, ⟨h.told.destroyed, h.told.shutdowns⟩, ?_⟩
    by_cases he : e = ent
    · subst he
      rw [Label.idleTicks, if_pos rfl]
      exact .inl (kept_touch hcur hok.1)
    · rw [Label.idleTicks, if_neg he]
      exact h.place.imp (fun hkept => hkept.congr rfl rfl fun _ => mem_pushBack_of_ne he)
        fun hleaving => hleaving.congr rfl rfl fun _ => mem_pushBack_of_ne he
  | tick =>
    simp only [IdleExpiry.step] at hs
    split_ifs at hs with hticking
    cases hs
    refine .inl ⟨h.conn, ⟨h.told.destroyed, h.told.shutdowns⟩, ?_⟩
    rcases h.place with hkept | hleaving
    · exact hkept.tick hcur hticking
    · rw [hleaving.ticking] at hticking
      cases hticking
  | release =>
    simp only [IdleExpiry.step] at hs
    split_ifs at hs with hticking
    cases hs
    exact (h.release hcur hticking).imp_right fun hexpires => ⟨rfl, hexpires⟩
  | gone c =>
    cases hs
    refine .inl ⟨h.conn, ⟨h.told.destroyed, h.told.shutdowns⟩, h.place.imp ?_ ?_⟩
    · exact fun hkept => hkept.congr rfl rfl fun _ => Iff.rfl
    · exact fun hleaving => hleaving.congr rfl rfl fun _ => Iff.rfl

theorem unborn_start (ent : EntryId) : Unborn start ent :=
  ⟨rfl, fun _ => List.not_mem_nil, rfl, rfl⟩

theorem Unborn.not_alive (h : Unborn s ent) : s.alive ent = false :=
  not_alive_iff.mpr fun i _ => h.slots i

theorem Unborn.step (h : Unborn s ent) (hcur : s.mCur < slotSize)
    (hs : IdleExpiry.step s l = some s') :
    Unborn s' ent ∨ ∃ conn, Standing s' ent conn (l.idleTicks ent n) := by
  cases l with
  | add e c =>
    simp only [IdleExpiry.step] at hs
    split_ifs at hs with hok
    cases hs
    by_cases he : e = ent
    · subst he
      rw [Label.idleTicks, if_pos rfl]
      refine .inr ⟨c, Function.update_self .., ⟨h.told.destroyed, h.told.shutdowns⟩, .inl ?_⟩
      exact (kept_touch hcur hok.1).congr rfl rfl fun _ => Iff.rfl
    · refine .inl ⟨(Function.update_of_ne (Ne.symm he) ..).trans h.conn, fun i hmem => ?_,
        ⟨h.told.destroyed, h.told.shutdowns⟩⟩
      exact h.slots i ((mem_pushBack_of_ne he).mp hmem)
  | update e =>
    have he := ne_of_update h.not_alive hs
    simp only [IdleExpiry.step] at hs
    split_ifs at hs
    cases hs
    exact .inl ⟨h.conn, fun i hmem => h.slots i ((mem_pushBack_of_ne he).mp hmem),
      ⟨h.told.destroyed, h.told.shutdowns⟩⟩
  | tick =>
    simp only [IdleExpiry.step] at hs
    split_ifs at hs
    cases hs
    exact .inl ⟨h.conn, h.slots, h.told.destroyed, h.told.shutdowns⟩
  | release =>
    simp only [IdleExpiry.step] at hs
    split_ifs at hs
    cases hs
    rcases release_cases s with ⟨-, hrelease⟩ | ⟨x, rest, hslot, hcase⟩
    · rw [hrelease]
      exact .inl ⟨h.conn, h.slots, h.told.destroyed, h.told.shutdowns⟩
    · have hslots : ∀ i, ent ∉ (s.setSlot s.mCur rest).mConns i :=
        fun i hmem => h.slots i (mem_of_mem_setSlot hslot hmem)
      have hunborn : Unborn (s.setSlot s.mCur rest) ent :=
        ⟨h.conn, hslots, h.told.destroyed, h.told.shutdowns⟩
      rcases hcase with ⟨-, hrelease⟩ | ⟨-, hrelease⟩
      · rw [hrelease]
        exact .inl hunborn
      · have hx : x ≠ ent := by
          rintro rfl
          exact h.slots s.mCur (hslot ▸ List.mem_cons_self ..)
        rw [hrelease]
        exact .inl ⟨h.conn, hslots, hunborn.told.destroy hx⟩
  | gone c =>
    cases hs
    exact .inl ⟨h.conn, h.slots, h.told.destroyed, h.told.shutdowns⟩

theorem Expired.step {calls : List (EntryId × ConnectionId)} (h : Expired s ent conn calls)
    (hcur : s.mCur < slotSize) (hs : IdleExpiry.step s l = some s') :
    Expired s' ent conn calls := by
  cases l with
  | add e c =>
    have he := ne_of_add h.conn hs
    simp only [IdleExpiry.step] at hs
    split_ifs at hs
    cases hs
    exact ⟨(Function.update_of_ne he.symm ..).trans h.conn,
      fun i hi hmem => h.slots i hi ((mem_pushBack_of_ne he).mp hmem),
      h.told.destroyed, h.told.shutdowns⟩
  | update e =>
    have he := ne_of_update (not_alive_iff.mpr h.slots) hs
    simp only [IdleExpiry.step] at hs
    split_ifs at hs
    cases hs
    exact ⟨h.conn, fun i hi hmem => h.slots i hi ((mem_pushBack_of_ne he).mp hmem),
      h.told.destroyed, h.told.shutdowns⟩
  | tick =>
    simp only [IdleExpiry.step] at hs
    split_ifs at hs
    cases hs
    exact ⟨h.conn, h.slots, h.told.destroyed, h.told.shutdowns⟩
  | release =>
    simp only [IdleExpiry.step] at hs
    split_ifs at hs
    cases hs
    rcases release_cases s with ⟨-, hrelease⟩ | ⟨x, rest, hslot, hcase⟩
    · rw [hrelease]
      exact ⟨h.conn, h.slots, h.told.destroyed, h.told.shutdowns⟩
    · have hslots : ∀ i < slotSize, ent ∉ (s.setSlot s.mCur rest).mConns i :=
        fun i hi hmem => h.slots i hi (mem_of_mem_setSlot hslot hmem)
      have hexpired : Expired (s.setSlot s.mCur rest) ent conn calls :=
        ⟨h.conn, hslots, h.told.destroyed, h.told.shutdowns⟩
      rcases hcase with ⟨-, hrelease⟩ | ⟨-, hrelease⟩
      · rw [hrelease]
        exact hexpired
      · have hx : x ≠ ent := by
          rintro rfl
          exact h.slots s.mCur hcur (hslot ▸ List.mem_cons_self ..)
        rw [hrelease]
        exact ⟨h.conn, hslots, hexpired.told.destroy hx⟩
  | gone c =>
    cases hs
    exact ⟨h.conn, h.slots, h.told.destroyed, h.told.shutdowns⟩

theorem Standing.expired (h : Standing s ent conn n) (hexpires : Expires s s' ent conn)
    (hconn : s'.mConn ent = some conn) :
    Expired s' ent conn (if s.gone conn then [] else [(ent, conn)]) := by
  refine ⟨hconn, not_alive_iff.mp hexpires.after, ?_, ?_⟩
  · rw [hexpires.destroyed, List.count_append, h.told.destroyed, List.count_singleton_self]
  · rw [hexpires.shutdowns]
    split_ifs
    · exact h.told.shutdowns
    · rw [List.filter_append, h.told.shutdowns]
      simp

/-! ## Runs -/

theorem mCur_run {ls : List Label} (hcur : s.mCur < slotSize) (hr : run step s ls = some s') :
    s'.mCur < slotSize :=
  run_invariant (fun _ _ _ => mCur_step) hcur hr

theorem Expired.idleTicks_le {calls : List (EntryId × ConnectionId)}
    (h : Expired s ent conn calls) (hs : IdleExpiry.step s l = some s') (n : ℕ) :
    n ≤ l.idleTicks ent n := by
  cases l with
  | add e c => exact Nat.le_of_eq (if_neg (ne_of_add h.conn hs)).symm
  | update e =>
    have he := ne_of_update (not_alive_iff.mpr h.slots) hs
    exact Nat.le_of_eq (if_neg he).symm
  | tick => exact Nat.le_succ n
  | release | gone => exact Nat.le_refl n

theorem Expired.run {calls : List (EntryId × ConnectionId)} {ls : List Label}
    (h : Expired s ent conn calls) (hcur : s.mCur < slotSize)
    (hr : TransitionRuns.run IdleExpiry.step s ls = some s') :
    n ≤ idleTicks ent n ls ∧ Expired s' ent conn calls := by
  induction ls generalizing s n with
  | nil =>
    cases hr
    exact ⟨Nat.le_refl n, h⟩
  | cons l ls ih =>
    obtain ⟨t, ht, hr⟩ := run_cons_eq_some.mp hr
    obtain ⟨hle, hexpired⟩ := ih (n := l.idleTicks ent n) (h.step hcur ht) (mCur_step hcur ht) hr
    exact ⟨Nat.le_trans (h.idleTicks_le ht n) hle, hexpired⟩

theorem mConn_release (s : IdleConnections) : s.release.mConn = s.mConn := by
  rcases release_cases s with ⟨-, hrelease⟩ | ⟨x, rest, -, ⟨-, hrelease⟩ | ⟨-, hrelease⟩⟩
  all_goals rw [hrelease]
  · rfl
  · rfl

/-- At the end of a schedule `ls` from `s`, `n` ticks behind the last touch: the entry has been
destroyed in between, in the tick with number `slotSize` after the touch. -/
def ExpiredWithin (s : IdleConnections) (n : ℕ) (ls : List Label) (s' : IdleConnections)
    (ent : EntryId) (conn : ConnectionId) : Prop :=
  ∃ ms post u v, ls = ms ++ .release :: post ∧ run step s ms = some u ∧
    step u .release = some v ∧ idleTicks ent n ms = slotSize ∧ Expires u v ent conn ∧
    Expired s' ent conn (if u.gone conn then [] else [(ent, conn)])

theorem ExpiredWithin.cons {t : IdleConnections} {ls : List Label} (ht : step s l = some t)
    (h : ExpiredWithin t (l.idleTicks ent n) ls s' ent conn) :
    ExpiredWithin s n (l :: ls) s' ent conn := by
  obtain ⟨ms, post, u, v, rfl, hu, hrest⟩ := h
  exact ⟨l :: ms, post, u, v, rfl, (run_cons_of ht).trans hu, hrest⟩

theorem Standing.run {ls : List Label} (h : Standing s ent conn n) (hcur : s.mCur < slotSize)
    (hr : TransitionRuns.run IdleExpiry.step s ls = some s') :
    Standing s' ent conn (idleTicks ent n ls) ∨
      slotSize ≤ idleTicks ent n ls ∧ ExpiredWithin s n ls s' ent conn := by
  induction ls generalizing s n with
  | nil =>
    cases hr
    exact .inl h
  | cons l ls ih =>
    obtain ⟨t, ht, hrest⟩ := run_cons_eq_some.mp hr
    have hcur' := mCur_step hcur ht
    rcases h.step hcur ht with hstanding | ⟨rfl, rfl, hexpires⟩
    · exact (ih hstanding hcur' hrest).imp_right fun hwithin => ⟨hwithin.1, hwithin.2.cons ht⟩
    · have hconn : t.mConn ent = some conn := by
        simp only [IdleExpiry.step] at ht
        split_ifs at ht
        cases ht
        rw [mConn_release]
        exact h.conn
      obtain ⟨hle, hexpired⟩ := (h.expired hexpires hconn).run hcur' hrest
      exact .inr ⟨hle, [], ls, s, t, rfl, rfl, ht, rfl, hexpires, hexpired⟩

theorem Unborn.run {ls : List Label} (h : Unborn s ent) (hcur : s.mCur < slotSize)
    (hr : TransitionRuns.run IdleExpiry.step s ls = some s') :
    Unborn s' ent ∨ ∃ conn, Standing s' ent conn (idleTicks ent n ls) ∨
      slotSize ≤ idleTicks ent n ls ∧ ExpiredWithin s n ls s' ent conn := by
  induction ls generalizing s n with
  | nil =>
    cases hr
    exact .inl h
  | cons l ls ih =>
    obtain ⟨t, ht, hr⟩ := run_cons_eq_some.mp hr
    have hcur' := mCur_step hcur ht
    rcases h.step (n := n) hcur ht with hunborn | ⟨conn, hstanding⟩
    · exact (ih hunborn hcur' hr).imp_right fun ⟨conn, hrest⟩ =>
        ⟨conn, hrest.imp_right fun hwithin => ⟨hwithin.1, hwithin.2.cons ht⟩⟩
    · exact .inr ⟨conn, (hstanding.run hcur' hr).imp_right fun hwithin =>
        ⟨hwithin.1, hwithin.2.cons ht⟩⟩

/-- Between two operations an entry that has been added is alive if and only if fewer than
`slotSize` ticks have happened since its last touch. Before that nothing is done to it, and
afterwards it has been destroyed once, in exactly the tick that was due. -/
theorem idle_expiry_exact {ls : List Label} (hr : run step start ls = some s)
    (hbetween : s.ticking = false) (hconn : s.mConn ent = some conn) :
    (s.alive ent = true ↔ idleTicks ent 0 ls < slotSize) ∧
      (s.alive ent = true → Told s ent 0 []) ∧
      (s.alive ent = false → ExpiredWithin start 0 ls s ent conn) := by
  have hcur : start.mCur < slotSize := by decide
  rcases (unborn_start ent).run (n := 0) hcur hr with hunborn | ⟨c, hstanding | ⟨hle, hwithin⟩⟩
  · rw [hunborn.conn] at hconn
    cases hconn
  · have halive := hstanding.alive (mCur_run hcur hr)
    refine ⟨iff_of_true halive ?_, fun _ => hstanding.told, fun hdead => ?_⟩
    · rcases hstanding.place with hkept | hleaving
      · exact hkept.young
      · rw [hleaving.ticking] at hbetween
        cases hbetween
    · rw [halive] at hdead
      cases hdead
  · have hexpired : ∃ calls, Expired s ent c calls := by
      obtain ⟨ms, post, u, v, -, -, -, -, -, hexpired⟩ := hwithin
      exact ⟨_, hexpired⟩
    obtain ⟨calls, hexpired⟩ := hexpired
    have hdead : s.alive ent = false := not_alive_iff.mpr hexpired.slots
    cases hexpired.conn.symm.trans hconn
    refine ⟨iff_of_false ?_ (Nat.not_lt_of_le hle), fun halive => ?_, fun _ => hwithin⟩
    · rw [hdead]
      exact Bool.noConfusion
    · rw [hdead] at halive
      cases halive

theorem release_returns {xs : List EntryId} (hticking : s.ticking = true)
    (hslot : s.mConns s.mCur = xs) :
    ∃ s', run step s (List.replicate (xs.length + 1) .release) = some s' ∧ s'.ticking = false := by
  induction xs generalizing s with
  | nil =>
    refine ⟨s.release, (run_cons_of (if_pos hticking)).trans (run_nil _), ?_⟩
    rcases release_cases s with ⟨-, hrelease⟩ | ⟨x, rest, hcons, -⟩
    · rw [hrelease]
    · cases hslot.symm.trans hcons
  | cons x rest ih =>
    have hnext : s.release.ticking = true ∧ s.release.mConns s.release.mCur = rest := by
      rcases release_cases s with ⟨hnil, -⟩ | ⟨y, ys, hcons, ⟨-, hrelease⟩ | ⟨-, hrelease⟩⟩
      · cases hslot.symm.trans hnil
      · cases hslot.symm.trans hcons
        rw [hrelease]
        exact ⟨hticking, setSlot_mConns_self⟩
      · cases hslot.symm.trans hcons
        rw [hrelease]
        exact ⟨hticking, setSlot_mConns_self (s := s)⟩
    obtain ⟨s', hr, hdone⟩ := ih hnext.1 hnext.2
    exact ⟨s', (run_cons_of (if_pos hticking)).trans hr, hdone⟩

theorem tick_returns (hticking : s.ticking = false) : ∃ k s',
    run step s (.tick :: List.replicate k .release) = some s' ∧ s'.ticking = false := by
  obtain ⟨s', hr, hdone⟩ := release_returns (s := s.tick) rfl rfl
  exact ⟨_, s', (run_cons_of (if_pos hticking)).trans hr, hdone⟩

/-- An entry that is touched behind its first tick: the first pointer goes one tick before the
second one. -/
def touchedOnce : List Label :=
  [.add 4 7, .tick, .release, .update 4] ++ (List.replicate 58 [Label.tick, .release]).flatten ++
    [.tick, .release, .release, .tick, .release, .release]

theorem idle_expiry_exact_touched : ∃ s, run step start touchedOnce = some s ∧
    s.shutdowns = [(4, 7)] ∧ ExpiredWithin start 0 touchedOnce s 4 7 := by
  have heval : (run step start touchedOnce).map
      (fun s => (s.ticking, s.mConn 4, s.alive 4, s.shutdowns)) =
        some (false, some 7, false, [(4, 7)]) := by decide +kernel
  obtain ⟨s, hs, hvalues⟩ := Option.map_eq_some_iff.mp heval
  simp only [Prod.mk.injEq] at hvalues
  obtain ⟨hbetween, hconn, hdead, hcalls⟩ := hvalues
  exact ⟨s, hs, hcalls, (idle_expiry_exact hs hbetween hconn).2.2 hdead⟩

end GenericServer.IdleExpiry
