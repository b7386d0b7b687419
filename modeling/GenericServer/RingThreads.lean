import GenericServer.RingBuffer
import GenericServer.TransitionRuns

/-!
# One producer and one consumer on a ring

`RingBuffer::append` and `retrive` cut at their accesses to shared data: a load of the other
thread's index, a block copy and a store of the own index are one step each. A load of the
index that only the thread itself writes belongs to the step that uses it.
-/
namespace GenericServer.RingThreads

open BlockMemory CircularWindows RingBuffer TransitionRuns

variable {β : Type*}

/-- Where the producer stands in `append(data, size)`: before the load of `m_out`, before
and behind the first copy of the branch `m_in >= out`, before and behind its second copy,
before and behind the copy of the other branch, before `return nWritten`. -/
inductive Producer (β : Type*)
  | idle
  | entered (data : List β) (size : ℤ)
  | copying (data : List β) (size out : ℤ)
  | storing (data : List β) (size out len : ℤ)
  | copyingRest (data : List β) (size len len2 : ℤ)
  | storingRest (data : List β) (size len len2 : ℤ)
  | copyingBehind (data : List β) (size len : ℤ)
  | storingBehind (data : List β) (size len : ℤ)
  | done (size nWritten : ℤ)

/-- Where the consumer stands in `retrive(buf, size)`; `buf` is what it has copied out. -/
inductive Consumer (β : Type*)
  | idle
  | entered (size : ℤ)
  | copying (size len : ℤ)
  | storing (size len : ℤ) (buf : List β)
  | copyingWrapped (size input : ℤ)
  | storingWrapped (size input len : ℤ) (buf : List β)
  | copyingRest (size len len2 : ℤ) (buf : List β)
  | storingRest (size len len2 : ℤ) (buf : List β)
  | done (size nRead : ℤ) (buf : List β)

/-- The ring with its history: the bytes ever copied in and out, and the cells that hold a
byte which the consumer has not copied out yet. -/
structure Shared (β : Type*) where
  ring : RingBuffer β
  live : ℤ → Bool
  copied : List β
  fetched : List β

namespace Shared

/-- `memcpy(m_buf + m_in, data + off, len)`. -/
def copyIn (s : Shared β) (data : List β) (off len : ℤ) : Option (Shared β) :=
  (s.ring.copyIn s.ring.mIn data off len).map fun r =>
    { s with ring := r
             live := fun a => s.live a || (decide (s.ring.mIn ≤ a) && decide (a < s.ring.mIn + len))
             copied := s.copied ++ slice data off len }

/-- `memcpy(buf, m_buf + m_out, len)`, with the bytes that it copies. -/
def copyOut (s : Shared β) (len : ℤ) : Option (Shared β × List β) :=
  (s.ring.copyOut s.ring.mOut len).map fun xs =>
    ({ s with live := fun a =>
                s.live a && !(decide (s.ring.mOut ≤ a) && decide (a < s.ring.mOut + len))
              fetched := s.fetched ++ xs }, xs)

def setRing (s : Shared β) (r : RingBuffer β) : Shared β := { s with ring := r }

@[simp] theorem setRing_ring (s : Shared β) (r : RingBuffer β) : (s.setRing r).ring = r := rfl

@[simp] theorem setRing_live (s : Shared β) (r : RingBuffer β) : (s.setRing r).live = s.live := rfl

@[simp] theorem setRing_copied (s : Shared β) (r : RingBuffer β) :
    (s.setRing r).copied = s.copied := rfl

@[simp] theorem setRing_fetched (s : Shared β) (r : RingBuffer β) :
    (s.setRing r).fetched = s.fetched := rfl

end Shared

/-- The next step of `append`. -/
def produce (s : Shared β) : Producer β → Option (Shared β × Producer β)
  | .idle => none
  | .entered data size =>
    if size ≤ 0 then some (s, .done size 0) else
    let out := s.ring.mOut
    if s.ring.mIn ≥ out then some (s, .copying data size out)
    else some (s, .copyingBehind data size (min size (out - s.ring.mIn - 1)))
  | .copying data size out =>
    let left := s.ring.mSize - s.ring.mIn
    let len := min size left
    (s.copyIn data 0 len).map fun s => (s, .storing data size out len)
  | .storing data size out len =>
    let remain := size - len
    some (s.setRing (s.ring.advanceIn len),
      if remain > 0 then .copyingRest data size len (min remain (out - 1)) else .done size len)
  | .copyingRest data size len len2 =>
    (s.copyIn data len len2).map fun s => (s, .storingRest data size len len2)
  | .storingRest _ size len len2 =>
    some (s.setRing (s.ring.advanceIn len2), .done size (len + len2))
  | .copyingBehind data size len =>
    (s.copyIn data 0 len).map fun s => (s, .storingBehind data size len)
  | .storingBehind _ size len =>
    some (s.setRing { s.ring with mIn := s.ring.mIn + len }, .done size len)
  | .done _ _ => none

/-- The next step of `retrive`. -/
def consume (s : Shared β) : Consumer β → Option (Shared β × Consumer β)
  | .idle => none
  | .entered size =>
    if size ≤ 0 then some (s, .done size 0 []) else
    let input := s.ring.mIn
    if input ≥ s.ring.mOut then some (s, .copying size (min size (input - s.ring.mOut)))
    else some (s, .copyingWrapped size input)
  | .copying size len => (s.copyOut len).map fun (s, xs) => (s, .storing size len xs)
  | .storing size len buf =>
    some (s.setRing { s.ring with mOut := s.ring.mOut + len }, .done size len buf)
  | .copyingWrapped size input =>
    let left := s.ring.mSize - s.ring.mOut
    let len := min size left
    (s.copyOut len).map fun (s, xs) => (s, .storingWrapped size input len xs)
  | .storingWrapped size input len buf =>
    let remain := size - len
    some (s.setRing (s.ring.advanceOut len),
      if remain > 0 then .copyingRest size len (min remain input) buf else .done size len buf)
  | .copyingRest size len len2 buf =>
    (s.copyOut len2).map fun (s, xs) => (s, .storingRest size len len2 (buf ++ xs))
  | .storingRest size len len2 buf =>
    some (s.setRing (s.ring.advanceOut len2), .done size (len + len2) buf)
  | .done _ _ _ => none

/-- What a stored `m_in` and the size of the ring leave true while the producer is at a given
step: `q` are the published bytes that have not been released, `pending` those copied and not
published. -/
def Producer.Fits (r : RingBuffer β) (q pending : List β) : Producer β → Prop
  | .idle => pending = []
  | .entered data size => pending = [] ∧ size ≤ data.length
  | .copying data size out => pending = [] ∧ 0 < size ∧ size ≤ data.length ∧ 0 ≤ out ∧
      q.length ≤ r.mIn - out ∧ (out = 0 → size < r.mSize - r.mIn)
  | .storing data size out len => pending = slice data 0 len ∧ len = min size (r.mSize - r.mIn) ∧
      0 < size ∧ size ≤ data.length ∧ 0 ≤ out ∧ q.length ≤ r.mIn - out ∧
      (out = 0 → size < r.mSize - r.mIn)
  | .copyingRest data size len len2 => pending = [] ∧ r.mIn = 0 ∧ 0 ≤ len ∧ 0 ≤ len2 ∧
      len + len2 ≤ size ∧ size ≤ data.length ∧ q.length + len2 < r.mSize
  | .storingRest data size len len2 => pending = slice data len len2 ∧ r.mIn = 0 ∧ 0 ≤ len ∧
      0 ≤ len2 ∧ len + len2 ≤ size ∧ size ≤ data.length ∧ q.length + len2 < r.mSize
  | .copyingBehind data size len => pending = [] ∧ 0 ≤ len ∧ len ≤ size ∧ size ≤ data.length ∧
      q.length + len < r.mSize ∧ r.mIn + len < r.mSize
  | .storingBehind data size len => pending = slice data 0 len ∧ 0 ≤ len ∧ len ≤ size ∧
      size ≤ data.length ∧ r.mIn + len < r.mSize
  | .done _ _ => pending = []

/-- The same for the consumer; `taken` published bytes are copied out and not released. -/
def Consumer.Fits (r : RingBuffer β) (q : List β) (taken : ℕ) : Consumer β → Prop
  | .idle => taken = 0
  | .entered _ => taken = 0
  | .copying _ len => taken = 0 ∧ 0 ≤ len ∧ len ≤ q.length ∧ r.mOut + len < r.mSize
  | .storing _ len _ => taken = len ∧ r.mOut + len < r.mSize
  | .copyingWrapped size input => taken = 0 ∧ 0 < size ∧ 0 ≤ input ∧ input < r.mSize ∧
      r.mSize - r.mOut + input ≤ q.length
  | .storingWrapped size input len _ => taken = len ∧ len = min size (r.mSize - r.mOut) ∧
      0 < size ∧ 0 ≤ input ∧ input < r.mSize ∧ r.mSize - r.mOut + input ≤ q.length
  | .copyingRest _ _ len2 _ => taken = 0 ∧ r.mOut = 0 ∧ 0 ≤ len2 ∧ len2 ≤ q.length ∧
      len2 < r.mSize
  | .storingRest _ _ len2 _ => taken = len2 ∧ r.mOut = 0 ∧ len2 < r.mSize
  | .done _ _ _ => taken = 0

/-- The ring while both threads are at work. `released` are the bytes whose cells the
consumer has given back. -/
structure Good (s : Shared β) (released q pending : List β) (taken : ℕ) : Prop where
  represents : s.ring.Represents q
  room : q.length + pending.length < s.ring.mSize
  window : Window s.ring.mBuf s.ring.mSize s.ring.mOut (q ++ pending)
  copied : s.copied = released ++ (q ++ pending)
  fetched : s.fetched = released ++ q.take taken
  taken_le : taken ≤ q.length
  live : ∀ a, s.live a = true ↔
    ∃ i, taken ≤ i ∧ i < (q ++ pending).length ∧ a = cell s.ring.mSize s.ring.mOut i

variable {s : Shared β} {released q pending : List β} {taken : ℕ}

theorem good_new {size : ℤ} (h : 2 ≤ size) (garbage : ℤ → β) :
    Good ⟨RingBuffer.new size garbage, fun _ => false, [], []⟩ [] [] [] 0 where
  represents := represents_new h garbage
  room := by simp only [RingBuffer.new, List.length_nil]; omega
  window := window_nil _ _ _
  copied := rfl
  fetched := rfl
  taken_le := le_refl 0
  live a := by simp

private theorem cell_behind (h : Good s released q pending taken) {j : ℤ} (hj : 0 ≤ j)
    (hroom : q.length + j ≤ s.ring.mSize) (hend : s.ring.mIn + j < s.ring.mSize) :
    cell s.ring.mSize s.ring.mOut (q.length + j) = s.ring.mIn + j := by
  rw [← cell_cell h.represents.out_lt hj hroom, ← h.represents.in_eq, cell_of_lt hend]

theorem Good.copyIn (h : Good s released q [] taken) (data : List β) {off len : ℤ}
    (hoff : 0 ≤ off) (hlen : 0 ≤ len) (hdata : off + len ≤ data.length)
    (hroom : q.length + len < s.ring.mSize) (hend : s.ring.mIn + len ≤ s.ring.mSize) :
    ∃ s', s.copyIn data off len = some s' ∧ Good s' released q (slice data off len) taken ∧
      s'.ring.mIn = s.ring.mIn ∧ s'.ring.mOut = s.ring.mOut ∧ s'.ring.mSize = s.ring.mSize := by
  have hys := length_slice data hoff hlen hdata
  have hcopy : s.ring.copyIn s.ring.mIn data off len
      = some { s.ring with mBuf := writeBlock s.ring.mBuf s.ring.mIn (slice data off len) } :=
    if_pos ⟨hlen, h.represents.in_nonneg, hend, hoff, hdata⟩
  have hwindow : Window (writeBlock s.ring.mBuf s.ring.mIn (slice data off len)) s.ring.mSize
      s.ring.mOut (q ++ slice data off len) := by
    rw [h.represents.in_eq]
    rw [h.represents.in_eq] at hend
    exact h.represents.window.writeBlock (by omega) (by omega)
  have hstep : s.copyIn data off len = some
      { s with ring := { s.ring with mBuf := writeBlock s.ring.mBuf s.ring.mIn (slice data off len) }
               live := fun a =>
                s.live a || (decide (s.ring.mIn ≤ a) && decide (a < s.ring.mIn + len))
               copied := s.copied ++ slice data off len } := by
    rw [Shared.copyIn, hcopy]
    rfl
  refine ⟨_, hstep, ?_, rfl, rfl, rfl⟩
  constructor
  · exact ⟨h.represents.size, h.represents.out_nonneg, h.represents.out_lt, h.represents.room,
      h.represents.in_eq, hwindow.append_left⟩
  · simp only
    omega
  · exact hwindow
  · simp [h.copied, List.append_assoc]
  · exact h.fetched
  · exact h.taken_le
  · intro a
    simp only [Bool.or_eq_true, Bool.and_eq_true, decide_eq_true_eq, h.live, List.append_nil,
      List.length_append]
    constructor
    · rintro (⟨i, hi, hlt, rfl⟩ | ⟨hge, hlt⟩)
      · exact ⟨i, hi, by omega, rfl⟩
      · refine ⟨q.length + (a - s.ring.mIn).toNat, by have := h.taken_le; omega, by omega, ?_⟩
        rw [Nat.cast_add, cell_behind h (by omega) (by omega) (by omega)]
        omega
    · rintro ⟨i, hi, hlt, rfl⟩
      rcases lt_or_ge i q.length with hq | hq
      · exact .inl ⟨i, hi, hq, rfl⟩
      · right
        have hsplit : (i : ℤ) = q.length + (i - q.length : ℕ) := by omega
        rw [hsplit, cell_behind h (by omega) (by omega) (by omega)]
        omega

theorem Good.publish (h : Good s released q pending taken) :
    Good (s.setRing { s.ring with mIn := cell s.ring.mSize s.ring.mIn pending.length })
      released (q ++ pending) [] taken := by
  have hroom := h.room
  constructor
  · refine ⟨h.represents.size, h.represents.out_nonneg, h.represents.out_lt, ?_, ?_, h.window⟩
    · simpa using hroom
    · simp only [Shared.setRing_ring, List.length_append, Nat.cast_add]
      rw [h.represents.in_eq, cell_cell h.represents.out_lt (by omega) (by omega)]
  · simpa using hroom
  · simpa using h.window
  · simpa using h.copied
  · rw [List.take_append_of_le_length h.taken_le]
    exact h.fetched
  · rw [List.length_append]
    exact h.taken_le.trans (Nat.le_add_right _ _)
  · simpa using h.live

theorem Good.copyOut (h : Good s released q pending 0) {len : ℤ} (hlen : 0 ≤ len)
    (hq : len ≤ q.length) (hend : s.ring.mOut + len ≤ s.ring.mSize) :
    ∃ s', s.copyOut len = some (s', q.take len.toNat) ∧ Good s' released q pending len.toNat ∧
      s'.ring = s.ring ∧ s'.fetched = s.fetched ++ q.take len.toNat := by
  have hcopy : s.ring.copyOut s.ring.mOut len = some (q.take len.toNat) :=
    (h.represents.copyOut len hlen hq hend).1
  have hroom := h.room
  have hstep : s.copyOut len = some
      ({ s with live := fun a =>
                  s.live a && !(decide (s.ring.mOut ≤ a) && decide (a < s.ring.mOut + len))
                fetched := s.fetched ++ q.take len.toNat }, q.take len.toNat) := by
    rw [Shared.copyOut, hcopy]
    rfl
  refine ⟨_, hstep, ?_, rfl, rfl⟩
  refine ⟨h.represents, h.room, h.window, h.copied, ?_, by omega, fun a => ?_⟩
  · simpa using h.fetched
  · simp only [Bool.and_eq_true, Bool.not_eq_true', Bool.and_eq_false_iff, decide_eq_false_iff_not,
      h.live]
    constructor
    · rintro ⟨⟨i, -, hlt, rfl⟩, hout⟩
      refine ⟨i, ?_, hlt, rfl⟩
      by_contra hi
      rw [cell_of_lt (by omega)] at hout
      omega
    · rintro ⟨i, hi, hlt, rfl⟩
      refine ⟨⟨i, Nat.zero_le i, hlt, rfl⟩, ?_⟩
      rw [List.length_append] at hlt
      have := h.represents.out_nonneg
      unfold cell
      split_ifs <;> omega

theorem Good.release (h : Good s released q pending taken) :
    Good (s.setRing { s.ring with mOut := cell s.ring.mSize s.ring.mOut taken })
      (released ++ q.take taken) (q.drop taken) pending 0 := by
  have hroom := h.room
  have htaken := h.taken_le
  have hdrop : (q ++ pending).drop taken = q.drop taken ++ pending :=
    List.drop_append_of_le_length h.taken_le
  constructor
  · exact h.represents.release h.taken_le
  · simp only [Shared.setRing_ring, List.length_drop]
    omega
  · rw [← hdrop]
    exact h.window.drop h.represents.out_lt (by rw [List.length_append]; omega) taken
  · rw [List.append_assoc, ← List.append_assoc (q.take taken), List.take_append_drop]
    exact h.copied
  · simpa using h.fetched
  · exact Nat.zero_le _
  · intro a
    rw [← hdrop, List.length_drop]
    simp only [Shared.setRing_live, Shared.setRing_ring, h.live, List.length_append]
    constructor
    · rintro ⟨i, hi, hlt, rfl⟩
      refine ⟨i - taken, Nat.zero_le _, by omega, ?_⟩
      rw [cell_cell h.represents.out_lt (by omega) (by omega)]
      congr 1
      omega
    · rintro ⟨i, -, hlt, rfl⟩
      refine ⟨taken + i, Nat.le_add_right _ _, by omega, ?_⟩
      rw [cell_cell h.represents.out_lt (by omega) (by omega), Nat.cast_add]

theorem Good.dead (h : Good s released q [] taken) {len a : ℤ}
    (hroom : q.length + len < s.ring.mSize) (hend : s.ring.mIn + len ≤ s.ring.mSize)
    (hge : s.ring.mIn ≤ a) (hlt : a < s.ring.mIn + len) : s.live a = false := by
  by_contra hlive
  obtain ⟨i, -, hi, hcell⟩ := (h.live a).mp (by simpa using hlive)
  rw [List.append_nil] at hi
  have hbehind := cell_behind h (j := a - s.ring.mIn) (by omega) (by omega) (by omega)
  have hsame : cell s.ring.mSize s.ring.mOut i
      = cell s.ring.mSize s.ring.mOut (q.length + (a - s.ring.mIn)) := by
    rw [← hcell, hbehind]
    omega
  exact cell_ne (by omega) (by omega) hsame

/-- The outcome of a step of the producer: some bytes more are published. -/
def Produced (s s' : Shared β) (p : Producer β) (released q : List β) (taken : ℕ) : Prop :=
  ∃ ys pending, Good s' released (q ++ ys) pending taken ∧ p.Fits s'.ring (q ++ ys) pending ∧
    s'.ring.mOut = s.ring.mOut ∧ s'.ring.mSize = s.ring.mSize

/-- The outcome of a step of the consumer: some bytes more are released. -/
def Consumed (s s' : Shared β) (c : Consumer β) (released q pending : List β) : Prop :=
  ∃ k taken, Good s' (released ++ q.take k) (q.drop k) pending taken ∧
    c.Fits s'.ring (q.drop k) taken ∧ s'.ring.mIn = s.ring.mIn ∧ s'.ring.mSize = s.ring.mSize

private theorem produced_local {p : Producer β} (h : Good s released q pending taken)
    (hp : p.Fits s.ring q pending) : Produced s s p released q taken :=
  ⟨[], pending, by simpa using h, by simpa using hp, rfl, rfl⟩

private theorem produced_copy (h : Good s released q [] taken) (data : List β) {off len : ℤ}
    (hoff : 0 ≤ off) (hlen : 0 ≤ len) (hdata : off + len ≤ data.length)
    (hroom : q.length + len < s.ring.mSize) (hend : s.ring.mIn + len ≤ s.ring.mSize)
    {p : Producer β}
    (hp : ∀ r : RingBuffer β, r.mIn = s.ring.mIn → r.mSize = s.ring.mSize →
      p.Fits r q (slice data off len)) :
    ∃ s', (s.copyIn data off len).map (fun s => (s, p)) = some (s', p) ∧
      Produced s s' p released q taken := by
  obtain ⟨s', hs', hgood, hin, hout, hsize⟩ := h.copyIn data hoff hlen hdata hroom hend
  refine ⟨s', by rw [hs']; rfl, [], slice data off len, ?_, ?_, hout, hsize⟩
  · simpa using hgood
  · simpa using hp s'.ring hin hsize

private theorem produced_store (h : Good s released q pending taken) {len : ℤ} {r : RingBuffer β}
    (hpending : (pending.length : ℤ) = len)
    (hr : r = { s.ring with mIn := cell s.ring.mSize s.ring.mIn len }) {p : Producer β}
    (hp : p.Fits r (q ++ pending) []) : Produced s (s.setRing r) p released q taken := by
  subst hpending hr
  exact ⟨pending, [], h.publish, hp, rfl, rfl⟩

theorem advanceIn_eq {r : RingBuffer β} (h : r.Represents q) {len : ℤ} (hlen : 0 ≤ len)
    (hend : r.mIn + len ≤ r.mSize) : r.advanceIn len = { r with mIn := cell r.mSize r.mIn len } := by
  rw [advanceIn, tmod_advance h.in_nonneg hlen hend]

theorem advanceOut_eq {r : RingBuffer β} (h : r.Represents q) {len : ℤ} (hlen : 0 ≤ len)
    (hend : r.mOut + len ≤ r.mSize) :
    r.advanceOut len = { r with mOut := cell r.mSize r.mOut len } := by
  rw [advanceOut, tmod_advance h.out_nonneg hlen hend]

private theorem produce_entered (h : Good s released q pending taken) {data : List β} {size : ℤ}
    (hp : (Producer.entered data size).Fits s.ring q pending)
    (hzero : s.ring.mOut = 0 → size < s.ring.mSize - s.ring.mIn) :
    ∃ s' p', produce s (.entered data size) = some (s', p') ∧ Produced s s' p' released q taken := by
  obtain ⟨rfl, hdata⟩ := hp
  have hout := h.represents.out_lt
  have hin := h.represents.in_nonneg
  simp only [produce]
  split_ifs with hneg hge
  · exact ⟨s, _, rfl, produced_local h rfl⟩
  · refine ⟨s, _, rfl, produced_local h ⟨rfl, by omega, hdata, h.represents.out_nonneg, ?_, hzero⟩⟩
    rcases h.represents.in_cases with ⟨_, hq⟩ | ⟨hlt, _⟩ <;> omega
  · refine ⟨s, _, rfl, produced_local h ⟨rfl, by omega, by omega, hdata, ?_, by omega⟩⟩
    rcases h.represents.in_cases with ⟨hle, _⟩ | ⟨_, hq⟩ <;> omega

private theorem produce_storing (h : Good s released q pending taken) {data : List β}
    {size out len : ℤ} (hp : (Producer.storing data size out len).Fits s.ring q pending) :
    ∃ s' p', produce s (.storing data size out len) = some (s', p') ∧
      Produced s s' p' released q taken := by
  obtain ⟨rfl, hlen, hsize, hdata, hout, hq, hzero⟩ := hp
  have hin := h.represents.in_lt
  have hpos : 0 ≤ len := by omega
  have hlength := length_slice data (le_refl 0) hpos (by omega)
  have hadv := advanceIn_eq h.represents hpos (show s.ring.mIn + len ≤ s.ring.mSize by omega)
  refine ⟨_, _, rfl, produced_store h hlength hadv ?_⟩
  split_ifs with hremain
  · have hwrap : cell s.ring.mSize s.ring.mIn len = 0 := by
      rw [cell_of_le (by omega)]
      omega
    rw [hadv]
    refine ⟨rfl, hwrap, hpos, by omega, by omega, hdata, ?_⟩
    simp only [List.length_append, Nat.cast_add, hlength]
    omega
  · exact rfl

/-- Every step of `append` keeps the ring in order, provided that the load of `m_out` does not
find the reader at index 0 with a request that reaches the end of the ring. -/
theorem Good.produce {p : Producer β} (h : Good s released q pending taken)
    (hp : p.Fits s.ring q pending)
    (hzero : ∀ data size, p = .entered data size → s.ring.mOut = 0 →
      size < s.ring.mSize - s.ring.mIn) :
    (p = .idle ∨ ∃ size n, p = .done size n) ∨
      ∃ s' p', RingThreads.produce s p = some (s', p') ∧ Produced s s' p' released q taken := by
  have hin := h.represents.in_lt
  have hin0 := h.represents.in_nonneg
  cases p with
  | idle => exact .inl (.inl rfl)
  | done size n => exact .inl (.inr ⟨size, n, rfl⟩)
  | entered data size => exact .inr (produce_entered h hp (hzero data size rfl))
  | copying data size out =>
    obtain ⟨rfl, hsize, hdata, hout, hq, hout0⟩ := hp
    obtain ⟨s', hs', hprod⟩ := produced_copy h data (le_refl 0)
      (show 0 ≤ min size (s.ring.mSize - s.ring.mIn) by omega) (by omega) (by omega) (by omega)
      (p := .storing data size out (min size (s.ring.mSize - s.ring.mIn)))
      (fun r hr hm => ⟨rfl, by rw [hr, hm], hsize, hdata, hout, by rw [hr]; exact hq,
        by rw [hr, hm]; exact hout0⟩)
    exact .inr ⟨s', _, hs', hprod⟩
  | storing data size out len => exact .inr (produce_storing h hp)
  | copyingRest data size len len2 =>
    obtain ⟨rfl, hzero, hlen, hlen2, hle, hdata, hroom⟩ := hp
    obtain ⟨s', hs', hprod⟩ := produced_copy h data hlen hlen2 (by omega) hroom (by omega)
      (p := .storingRest data size len len2)
      (fun r hr hm => ⟨rfl, hr.trans hzero, hlen, hlen2, hle, hdata, by rw [hm]; exact hroom⟩)
    exact .inr ⟨s', _, hs', hprod⟩
  | storingRest data size len len2 =>
    obtain ⟨rfl, hzero, hlen, hlen2, hle, hdata, hroom⟩ := hp
    have hlength := length_slice data hlen hlen2 (by omega)
    have hadv := advanceIn_eq h.represents hlen2 (by omega)
    exact .inr ⟨_, _, rfl, produced_store h hlength hadv rfl⟩
  | copyingBehind data size len =>
    obtain ⟨rfl, hlen, hle, hdata, hroom, hend⟩ := hp
    obtain ⟨s', hs', hprod⟩ := produced_copy h data (le_refl 0) hlen (by omega) hroom (by omega)
      (p := .storingBehind data size len)
      (fun r hr hm => ⟨rfl, hlen, hle, hdata, by rw [hr, hm]; exact hend⟩)
    exact .inr ⟨s', _, hs', hprod⟩
  | storingBehind data size len =>
    obtain ⟨rfl, hlen, hle, hdata, hend⟩ := hp
    have hlength := length_slice data (le_refl 0) hlen (by omega)
    have hadv : ({ s.ring with mIn := s.ring.mIn + len } : RingBuffer β)
        = { s.ring with mIn := cell s.ring.mSize s.ring.mIn len } := by
      rw [cell_of_lt hend]
    exact .inr ⟨_, _, rfl, produced_store h hlength hadv rfl⟩

private theorem consumed_local {c : Consumer β} (h : Good s released q pending taken)
    (hc : c.Fits s.ring q taken) : Consumed s s c released q pending :=
  ⟨0, taken, by simpa using h, by simpa using hc, rfl, rfl⟩

private theorem consumed_copy (h : Good s released q pending 0) {len : ℤ} (hlen : 0 ≤ len)
    (hq : len ≤ q.length) (hend : s.ring.mOut + len ≤ s.ring.mSize) {c : List β → Consumer β}
    (hc : ∀ xs, (c xs).Fits s.ring q len.toNat) :
    ∃ s' xs, (s.copyOut len).map (fun (s, xs) => (s, c xs)) = some (s', c xs) ∧
      Consumed s s' (c xs) released q pending := by
  obtain ⟨s', hs', hgood, hring, -⟩ := h.copyOut hlen hq hend
  refine ⟨s', q.take len.toNat, by rw [hs']; rfl, 0, len.toNat, ?_, ?_, by rw [hring], by rw [hring]⟩
  · simpa using hgood
  · rw [hring]
    exact hc _

private theorem consumed_store (h : Good s released q pending taken) {len : ℤ} {r : RingBuffer β}
    (htaken : (taken : ℤ) = len) (hr : r = { s.ring with mOut := cell s.ring.mSize s.ring.mOut len })
    {c : Consumer β} (hc : c.Fits r (q.drop taken) 0) :
    Consumed s (s.setRing r) c released q pending := by
  subst htaken hr
  exact ⟨taken, 0, h.release, hc, rfl, rfl⟩

private theorem consume_entered (h : Good s released q pending taken) {size : ℤ}
    (hc : (Consumer.entered size : Consumer β).Fits s.ring q taken) :
    ∃ s' c', consume s (.entered size) = some (s', c') ∧ Consumed s s' c' released q pending := by
  have hin0 := h.represents.in_nonneg
  have hin := h.represents.in_lt
  have hzero : taken = 0 := hc
  simp only [consume]
  split_ifs with hneg hge
  · exact ⟨s, _, rfl, consumed_local h hzero⟩
  · refine ⟨s, _, rfl, consumed_local h ⟨hzero, by omega, ?_, by omega⟩⟩
    rcases h.represents.in_cases with ⟨_, hq⟩ | ⟨hlt, _⟩ <;> omega
  · refine ⟨s, _, rfl, consumed_local h ⟨hzero, by omega, hin0, hin, ?_⟩⟩
    rcases h.represents.in_cases with ⟨hle, _⟩ | ⟨_, hq⟩ <;> omega

private theorem consume_storing (h : Good s released q pending taken) {size input len : ℤ}
    {buf : List β} (hc : (Consumer.storingWrapped size input len buf).Fits s.ring q taken) :
    ∃ s' c', consume s (.storingWrapped size input len buf) = some (s', c') ∧
      Consumed s s' c' released q pending := by
  obtain ⟨htaken, hlen, hsize, hin, hlt, hq⟩ := hc
  have hout := h.represents.out_lt
  have hadv := advanceOut_eq h.represents (show 0 ≤ len by omega) (by omega)
  refine ⟨_, _, rfl, consumed_store h htaken hadv ?_⟩
  split_ifs with hremain
  · have hwrap : cell s.ring.mSize s.ring.mOut len = 0 := by
      rw [cell_of_le (by omega)]
      omega
    rw [hadv]
    refine ⟨rfl, hwrap, by omega, ?_, ?_⟩
    · rw [List.length_drop]
      omega
    · simp only
      omega
  · exact rfl

theorem Good.consume {c : Consumer β} (h : Good s released q pending taken)
    (hc : c.Fits s.ring q taken) :
    (c = .idle ∨ ∃ size n buf, c = .done size n buf) ∨
      ∃ s' c', RingThreads.consume s c = some (s', c') ∧ Consumed s s' c' released q pending := by
  have hout := h.represents.out_lt
  have hout0 := h.represents.out_nonneg
  cases c with
  | idle => exact .inl (.inl rfl)
  | done size n buf => exact .inl (.inr ⟨size, n, buf, rfl⟩)
  | entered size => exact .inr (consume_entered h hc)
  | copying size len =>
    obtain ⟨rfl, hlen, hq, hend⟩ := hc
    obtain ⟨s', xs, hs', hcons⟩ := consumed_copy h hlen hq hend.le (c := fun xs => .storing size len xs)
      (fun xs => ⟨Int.toNat_of_nonneg hlen, hend⟩)
    exact .inr ⟨s', _, hs', hcons⟩
  | storing size len buf =>
    obtain ⟨htaken, hend⟩ := hc
    have hadv : ({ s.ring with mOut := s.ring.mOut + len } : RingBuffer β)
        = { s.ring with mOut := cell s.ring.mSize s.ring.mOut len } := by
      rw [cell_of_lt hend]
    exact .inr ⟨_, _, rfl, consumed_store h htaken hadv rfl⟩
  | copyingWrapped size input =>
    obtain ⟨rfl, hsize, hin, hlt, hq⟩ := hc
    obtain ⟨s', xs, hs', hcons⟩ := consumed_copy h
      (show 0 ≤ min size (s.ring.mSize - s.ring.mOut) by omega) (by omega) (by omega)
      (c := fun xs => .storingWrapped size input (min size (s.ring.mSize - s.ring.mOut)) xs)
      (fun xs => ⟨Int.toNat_of_nonneg (by omega), rfl, hsize, hin, hlt, hq⟩)
    exact .inr ⟨s', _, hs', hcons⟩
  | storingWrapped size input len buf => exact .inr (consume_storing h hc)
  | copyingRest size len len2 buf =>
    obtain ⟨rfl, hzero, hlen2, hq, hlt⟩ := hc
    obtain ⟨s', xs, hs', hcons⟩ := consumed_copy h hlen2 hq (by omega)
      (c := fun xs => .storingRest size len len2 (buf ++ xs))
      (fun xs => ⟨Int.toNat_of_nonneg hlen2, hzero, hlt⟩)
    exact .inr ⟨s', _, hs', hcons⟩
  | storingRest size len len2 buf =>
    obtain ⟨htaken, hzero, hlt⟩ := hc
    have hadv := advanceOut_eq h.represents (show 0 ≤ len2 by omega) (by omega)
    exact .inr ⟨_, _, rfl, consumed_store h htaken hadv rfl⟩

theorem Producer.Fits.mono {p : Producer β} {r r' : RingBuffer β} {q' : List β}
    (h : p.Fits r q pending) (hin : r'.mIn = r.mIn) (hsize : r'.mSize = r.mSize)
    (hq : q'.length ≤ q.length) : p.Fits r' q' pending := by
  have hq' : (q'.length : ℤ) ≤ q.length := by exact_mod_cast hq
  cases p with
  | idle => exact h
  | entered data size => exact h
  | done size n => exact h
  | copying data size out =>
    obtain ⟨hpending, hpos, hdata, hout, hle, hzero⟩ := h
    exact ⟨hpending, hpos, hdata, hout, by omega, by rwa [hin, hsize]⟩
  | storing data size out len =>
    obtain ⟨hpending, hlen, hpos, hdata, hout, hle, hzero⟩ := h
    exact ⟨hpending, by rwa [hin, hsize], hpos, hdata, hout, by omega, by rwa [hin, hsize]⟩
  | copyingRest data size len len2 =>
    obtain ⟨hpending, hzero, hlen, hlen2, hle, hdata, hroom⟩ := h
    exact ⟨hpending, hin.trans hzero, hlen, hlen2, hle, hdata, by omega⟩
  | storingRest data size len len2 =>
    obtain ⟨hpending, hzero, hlen, hlen2, hle, hdata, hroom⟩ := h
    exact ⟨hpending, hin.trans hzero, hlen, hlen2, hle, hdata, by omega⟩
  | copyingBehind data size len =>
    obtain ⟨hpending, hlen, hle, hdata, hroom, hend⟩ := h
    exact ⟨hpending, hlen, hle, hdata, by omega, by omega⟩
  | storingBehind data size len =>
    obtain ⟨hpending, hlen, hle, hdata, hend⟩ := h
    exact ⟨hpending, hlen, hle, hdata, by omega⟩

theorem Consumer.Fits.mono {c : Consumer β} {r r' : RingBuffer β} {q' : List β}
    (h : c.Fits r q taken) (hout : r'.mOut = r.mOut) (hsize : r'.mSize = r.mSize)
    (hq : q.length ≤ q'.length) : c.Fits r' q' taken := by
  have hq' : (q.length : ℤ) ≤ q'.length := by exact_mod_cast hq
  cases c <;> simp only [Consumer.Fits, hout, hsize] at h ⊢ <;> omega

theorem copyIn_eq {s : Shared β} {data : List β} {off len : ℤ} {r : RingBuffer β}
    (h : s.ring.copyIn s.ring.mIn data off len = some r) :
    ∃ s', s.copyIn data off len = some s' ∧ s'.ring = r := by
  rw [Shared.copyIn, h]
  exact ⟨_, rfl, rfl⟩

theorem copyOut_eq {s : Shared β} {len : ℤ} {xs : List β}
    (h : s.ring.copyOut s.ring.mOut len = some xs) :
    ∃ s', s.copyOut len = some (s', xs) ∧ s'.ring = s.ring := by
  rw [Shared.copyOut, h]
  exact ⟨_, rfl, rfl⟩

/-- `append` with nothing in between its steps is the call of the sequential model. -/
theorem append_alone {s : Shared β} {data : List β} {size n : ℤ} {r : RingBuffer β}
    (h : s.ring.append data size = some (r, n)) :
    ∃ k s', run (fun (x : Shared β × Producer β) (_ : Unit) => produce x.1 x.2)
      (s, .entered data size) (List.replicate k ()) = some (s', .done size n) ∧ s'.ring = r := by
  simp only [RingBuffer.append, Option.bind_eq_bind] at h
  split_ifs at h with hneg hge hremain
  · cases h
    refine ⟨1, s, ?_, rfl⟩
    simp only [List.replicate, run, produce, if_pos hneg, Option.bind_some]
  · obtain ⟨r₁, hcopy, h⟩ := Option.bind_eq_some_iff.mp h
    obtain ⟨s₁, hs₁, rfl⟩ := copyIn_eq hcopy
    obtain ⟨r₂, hcopy₂, h⟩ := Option.bind_eq_some_iff.mp h
    obtain ⟨s₂, hs₂, rfl⟩ := @copyIn_eq _ (s₁.setRing (s₁.ring.advanceIn _)) _ _ _ _ hcopy₂
    cases h
    refine ⟨5, s₂.setRing (s₂.ring.advanceIn _), ?_, rfl⟩
    simp only [List.replicate, run, produce, if_neg hneg, if_pos hge, Option.bind_some, hs₁,
      Option.map_some, if_pos hremain, hs₂]
  · obtain ⟨r₁, hcopy, h⟩ := Option.bind_eq_some_iff.mp h
    obtain ⟨s₁, hs₁, rfl⟩ := copyIn_eq hcopy
    cases h
    refine ⟨3, s₁.setRing (s₁.ring.advanceIn _), ?_, rfl⟩
    simp only [List.replicate, run, produce, if_neg hneg, if_pos hge, Option.bind_some, hs₁,
      Option.map_some, if_neg hremain]
  · obtain ⟨r₁, hcopy, h⟩ := Option.bind_eq_some_iff.mp h
    obtain ⟨s₁, hs₁, rfl⟩ := copyIn_eq hcopy
    cases h
    refine ⟨3, s₁.setRing _, ?_, rfl⟩
    simp only [List.replicate, run, produce, if_neg hneg, if_neg hge, Option.bind_some, hs₁,
      Option.map_some]

theorem retrive_alone {s : Shared β} {size n : ℤ} {r : RingBuffer β} {buf : List β}
    (h : s.ring.retrive size = some (r, n, buf)) :
    ∃ k s', run (fun (x : Shared β × Consumer β) (_ : Unit) => consume x.1 x.2)
      (s, .entered size) (List.replicate k ()) = some (s', .done size n buf) ∧ s'.ring = r := by
  simp only [RingBuffer.retrive, Option.bind_eq_bind] at h
  split_ifs at h with hneg hge hremain
  · cases h
    refine ⟨1, s, ?_, rfl⟩
    simp only [List.replicate, run, consume, if_pos hneg, Option.bind_some]
  · obtain ⟨xs, hcopy, h⟩ := Option.bind_eq_some_iff.mp h
    obtain ⟨s₁, hs₁, hring⟩ := copyOut_eq hcopy
    cases h
    refine ⟨3, s₁.setRing { s₁.ring with mOut := s₁.ring.mOut + _ }, ?_, by rw [hring]; rfl⟩
    simp only [List.replicate, run, consume, if_neg hneg, if_pos hge, Option.bind_some, hs₁,
      Option.map_some]
  · obtain ⟨xs, hcopy, h⟩ := Option.bind_eq_some_iff.mp h
    obtain ⟨s₁, hs₁, hring⟩ := copyOut_eq hcopy
    rw [← hring] at h
    obtain ⟨ys, hcopy₂, h⟩ := Option.bind_eq_some_iff.mp h
    obtain ⟨s₂, hs₂, hring₂⟩ := @copyOut_eq _ (s₁.setRing (s₁.ring.advanceOut _)) _ _ hcopy₂
    cases h
    refine ⟨5, s₂.setRing (s₂.ring.advanceOut _), ?_, by rw [hring₂]; rfl⟩
    rw [hring] at hs₂
    simp only [List.replicate, run, consume, if_neg hneg, if_neg hge, Option.bind_some, hs₁,
      Option.map_some, if_pos hremain, hring, hs₂]
  · obtain ⟨xs, hcopy, h⟩ := Option.bind_eq_some_iff.mp h
    obtain ⟨s₁, hs₁, hring⟩ := copyOut_eq hcopy
    cases h
    refine ⟨3, s₁.setRing (s₁.ring.advanceOut _), ?_, by rw [hring]; rfl⟩
    simp only [List.replicate, run, consume, if_neg hneg, if_neg hge, Option.bind_some, hs₁,
      Option.map_some, if_neg hremain]

end GenericServer.RingThreads
