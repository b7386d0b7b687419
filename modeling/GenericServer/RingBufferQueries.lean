import GenericServer.RingBufferRefinement

/-!
# The queries of the ring against its operations

`full`, `empty`, `data_size` and `avail_size` of `src/log/RingBuffer.h`, each asked just before
an `append` or a `retrive`.
-/
namespace GenericServer.RingBuffer

open TransitionRuns

variable {β : Type*}

/-- The queries agree with each other, and with the calls that come next. -/
structure Agrees (r : RingBuffer β) (data : List β) (n : ℤ) : Prop where
  sizes : r.dataSize + r.availSize = r.mSize - 1
  full : r.full = true ↔ r.availSize = 0
  empty : r.empty = true ↔ r.dataSize = 0
  append : 0 < n → ∃ r', r.append data n = some (r', min n r.availSize)
  retrive : 0 < n → ∃ r' buf, r.retrive n = some (r', min n r.dataSize, buf)

/-- The writer stands at the last cell and the reader at index 0. -/
def FullAtZero (r : RingBuffer β) : Prop := r.mOut = 0 ∧ r.mIn = r.mSize - 1

/-- The reader stands at index 0 and the request reaches the end of the ring. -/
def ReachesEnd (r : RingBuffer β) (n : ℤ) : Prop := 0 < n ∧ r.mOut = 0 ∧ r.mSize - r.mIn ≤ n

variable {r : RingBuffer β} {q data : List β} {n : ℤ}

namespace Represents

theorem full_iff (h : Represents r q) :
    (r.full = true ↔ r.availSize = 0) ↔ ¬ FullAtZero r := by
  have hin := h.in_nonneg
  have hlt := h.in_lt
  have hout := h.out_nonneg
  have houtlt := h.out_lt
  have havail := h.availSize_eq
  unfold FullAtZero
  rw [full, decide_eq_true_iff]
  rcases h.in_cases with ⟨hge, hq⟩ | ⟨hgt, hq⟩
  · have hnot : ¬ r.mIn + 1 = r.mOut := by omega
    rw [iff_false_left hnot]
    omega
  · have hiff : r.mIn + 1 = r.mOut ↔ r.availSize = 0 := by omega
    exact iff_of_true hiff (by omega)

theorem append_iff (h : Represents r q) (hdata : n ≤ data.length) :
    (0 < n → ∃ r', r.append data n = some (r', min n r.availSize)) ↔ ¬ ReachesEnd r n := by
  constructor
  · rintro happend ⟨hn, hzero, hend⟩
    obtain ⟨r', hr'⟩ := happend hn
    have hlt := h.in_lt
    have havail := h.availSize_eq
    rcases append_zero_out h hn hdata hzero hend with hnone | ⟨r₁, hr₁, -, -, hall⟩
    · rw [hnone] at hr'
      cases hr'
    · -- one byte more than there is room for has been accepted
      have heq : n = min n r.availSize := by
        rw [hr₁] at hr'
        exact congrArg Prod.snd (Option.some.inj hr')
      omega
  · intro hnot hn
    obtain ⟨r', hr', -⟩ := append_spec h hn hdata fun hzero => by
      by_contra hend
      exact hnot ⟨hn, hzero, not_lt.mp hend⟩
    exact ⟨r', hr'⟩

theorem agrees_iff (h : Represents r q) (hdata : n ≤ data.length) :
    Agrees r data n ↔ ¬ FullAtZero r ∧ ¬ ReachesEnd r n := by
  have hsize := h.dataSize_eq
  have havail := h.availSize_eq
  constructor
  · intro hagrees
    exact ⟨h.full_iff.mp hagrees.full, (h.append_iff hdata).mp hagrees.append⟩
  · rintro ⟨hfull, hend⟩
    refine ⟨by omega, h.full_iff.mpr hfull, ?_, (h.append_iff hdata).mpr hend, fun hn => ?_⟩
    · rw [h.empty_eq, hsize, Nat.cast_eq_zero, List.length_eq_zero_iff]
    · obtain ⟨r', hr', -⟩ := retrive_spec h hn
      exact ⟨r', _, hsize ▸ hr'⟩

end Represents

theorem exists_sound {size : ℤ} (hsize : 2 ≤ size) {garbage : ℤ → β} {calls : List (Call β)}
    {s : Session β} (hr : run call (start size garbage) calls = some s) : ∃ q, Sound size s q := by
  have hstep : ∀ (t : Session β) c t', (∃ q, Sound size t q) → call t c = some t' →
      ∃ q, Sound size t' q := by
    rintro t c t' ⟨q, hq⟩ ht
    by_cases hfit : AppendFits t c
    · obtain ⟨u, xs, k, hu, hsound, -⟩ := hq.call c hfit
      cases hu.symm.trans ht
      exact ⟨_, hsound⟩
    · exact ⟨[], (hq.call_overflow hfit ht).1⟩
  exact run_invariant hstep ⟨[], sound_start hsize garbage⟩ hr

/-- In every state that calls can reach, the queries agree with the operations exactly when the
ring is not full with its reader at index 0, and the request of `append` does not reach the end of
the ring from there. -/
theorem queries_agree_iff {size : ℤ} (hsize : 2 ≤ size) {garbage : ℤ → β} {calls : List (Call β)}
    {s : Session β} (hr : run call (start size garbage) calls = some s) (hdata : n ≤ data.length) :
    Agrees s.ring data n ↔ ¬ FullAtZero s.ring ∧ ¬ ReachesEnd s.ring n := by
  obtain ⟨q, hq⟩ := exists_sound hsize hr
  exact hq.represents.agrees_iff hdata

/-- Two bytes in a ring of four cells, the reader behind the first one. -/
theorem queries_agree_two_bytes : ∃ s,
    run call (start 4 fun _ => (0 : UInt8)) [.append [1, 2] 2 (by decide), .retrive 1] = some s ∧
    Agrees s.ring [3, 4, 5] 3 := by
  obtain ⟨s, hs⟩ : ∃ s, run call (start 4 fun _ => (0 : UInt8))
      [.append [1, 2] 2 (by decide), .retrive 1] = some s := ⟨_, rfl⟩
  refine ⟨s, hs, (queries_agree_iff (by decide) hs (by decide)).mpr ?_⟩
  cases hs
  exact ⟨fun h => absurd h.1 (by decide), fun h => absurd h.2.1 (by decide)⟩

/-- Three bytes fill a ring of four cells, and `full` says that it is not full. -/
theorem full_ring_not_full : ∃ s,
    run call (start 4 fun _ => (0 : UInt8)) [.append [1, 2, 3] 3 (by decide)] = some s ∧
    s.ring.availSize = 0 ∧ s.ring.full = false ∧ ¬ Agrees s.ring [] 0 := by
  refine ⟨_, rfl, by decide, by decide, fun h => ?_⟩
  exact absurd (h.full.mpr (by decide)) (by decide)

end GenericServer.RingBuffer
