import GenericServer.RingBufferRefinement

/-!
# One record on its way into the ring

`AsyncLogger::append` of `src/log/Log.cpp` over a bounded first-in first-out ring whose
`append` may accept any prefix. What the consumer takes out between two ring appends and
how much each of them accepts is chosen by the run.
-/
namespace GenericServer.AsyncLogger

open FifoQueues

variable {β : Type*}

/-- What happens around one `buffer->append(data, size)`: the consumer's `retrive` calls
before it, and the number of bytes it accepts. -/
structure Attempt where
  drains : List ℕ
  accepted : ℕ
  deriving DecidableEq, Repr

/-- One ring append: at most `size` bytes, at most as many as there is room for. -/
def ringAppend (capacity : ℕ) (f : Fifo β) (data : List β) (size : ℤ) (a : Attempt) :
    Option (Fifo β × ℤ) :=
  let f := a.drains.foldl Fifo.release f
  if a.accepted ≤ size ∧ f.stored.length + a.accepted ≤ capacity then
    some (f.accept (data.take a.accepted), a.accepted)
  else none

/-- `while (remain > 0) { n = buffer->append(data, size); remain -= n; }`; `none` while the
loop has not been left when the attempts are used up. -/
def retry (capacity : ℕ) (data : List β) (size remain : ℤ) (f : Fifo β) :
    List Attempt → Option (Fifo β)
  | [] => if remain > 0 then none else some f
  | a :: as => if remain > 0 then
      (ringAppend capacity f data size a).bind fun (f, n) =>
        retry capacity data size (remain - n) f as
    else none

/-- The part of `AsyncLogger::append` that works on the ring of the calling thread. -/
def push (capacity : ℕ) (f : Fifo β) (data : List β) (size : ℤ) :
    List Attempt → Option (Fifo β)
  | [] => none
  | a :: as => (ringAppend capacity f data size a).bind fun (f, n) =>
      retry capacity data size (size - n) f as

/-- `m_bufferMap`: the rings by thread id. -/
abbrev BufferMap (β : Type*) := ℤ → Option (Fifo β)

/-- `ASYNCLOGGER_BUFFER_SIZE` less the cell that a ring keeps free. -/
def ringCapacity : ℕ := 32767

/-- `AsyncLogger::append` on thread `tid`, which gets an empty ring at its first record. -/
def append (m : BufferMap β) (tid : ℤ) (data : List β) (size : ℤ) (as : List Attempt) :
    Option (BufferMap β) :=
  (push ringCapacity ((m tid).getD .empty) data size as).map fun f =>
    Function.update m tid (some f)

/-- The bytes that thread `tid` has pushed into its ring so far. -/
def pushed (m : BufferMap β) (tid : ℤ) : List β := ((m tid).getD .empty).accepted

/-- Every ring append that accepts `n > 0` bytes when `done > 0` bytes of the record are
already in the ring stays within the record, and the prefix it takes from the start of
`data` happens to equal the bytes that are due. -/
def Harmless (data : List β) (size : ℤ) : ℕ → List Attempt → Prop
  | _, [] => True
  | done, a :: as =>
    (done = 0 ∨ a.accepted = 0 ∨ (done + a.accepted ≤ size ∧
      (data.drop done).take a.accepted = data.take a.accepted)) ∧
    Harmless data size (done + a.accepted) as

theorem foldl_release_accepted (f : Fifo β) (ks : List ℕ) :
    (ks.foldl Fifo.release f).accepted = f.accepted := by
  induction ks generalizing f with
  | nil => rfl
  | cons k ks ih => simp [ih]

theorem ringAppend_spec {capacity : ℕ} {f f' : Fifo β} {data : List β} {size n : ℤ} {a : Attempt}
    (h : ringAppend capacity f data size a = some (f', n)) :
    n = a.accepted ∧ (a.accepted : ℤ) ≤ size ∧
      f'.accepted = f.accepted ++ data.take a.accepted := by
  simp only [ringAppend] at h
  split_ifs at h with hfit
  cases h
  exact ⟨rfl, hfit.1, by simp [foldl_release_accepted]⟩

/-- The ring of the source is such a queue: its `append` accepts one of the prefixes that
`ringAppend` allows, as long as the reader at index 0 is not asked to be passed. -/
theorem ringAppend_of_append {capacity : ℕ} {r : RingBuffer β} {f : Fifo β} {data : List β}
    {size : ℤ} (hr : r.Represents f.stored) (hm : r.mSize = capacity + 1) (hsize : 0 < size)
    (hdata : size ≤ data.length) (hzero : r.mOut = 0 → size < r.mSize - r.mIn) :
    ∃ r' f' a, r.append data size = some (r', (a.accepted : ℤ)) ∧ r'.mSize = r.mSize ∧
      ringAppend capacity f data size a = some (f', (a.accepted : ℤ)) ∧
      r'.Represents f'.stored := by
  obtain ⟨r', happ, hsame, hrep⟩ := RingBuffer.append_spec hr hsize hdata hzero
  have hroom := hr.room
  have havail := hr.availSize_eq
  refine ⟨r', f.accept (data.take (min size r.availSize).toNat), ⟨[], (min size r.availSize).toNat⟩,
    ?_, hsame, ?_, hrep⟩
  · rw [happ, Int.toNat_of_nonneg (by omega)]
  · exact if_pos ⟨by simp only; omega, by simp only [List.foldl]; omega⟩

def sent (data : List β) (as : List Attempt) : List β :=
  (as.map fun a => data.take a.accepted).flatten

theorem retry_accepted {capacity : ℕ} {f f' : Fifo β} {data : List β} {size remain : ℤ}
    {as : List Attempt} (h : retry capacity data size remain f as = some f') :
    f'.accepted = f.accepted ++ sent data as := by
  induction as generalizing f remain with
  | nil =>
    simp only [retry] at h
    split_ifs at h
    cases h
    simp [sent]
  | cons a as ih =>
    simp only [retry] at h
    split_ifs at h
    obtain ⟨⟨g, n⟩, hg, h⟩ := Option.bind_eq_some_iff.mp h
    obtain ⟨-, -, hacc⟩ := ringAppend_spec hg
    rw [ih h, hacc, List.append_assoc]
    rfl

private theorem prefix_due {data : List β} {size done n : ℕ} (rest : List β)
    (hdata : size ≤ data.length) (hdone : done ≤ size) (hn : n ≤ size) :
    data.take n ++ rest = (data.take size).drop done ↔
      (done + n ≤ size ∧ (data.drop done).take n = data.take n) ∧
        rest = (data.take size).drop (done + n) := by
  have hlen : (data.take n).length = n := by simp; omega
  constructor
  · intro h
    have hle := congrArg List.length h
    simp only [List.length_append, List.length_drop, List.length_take] at hle
    have htake := congrArg (List.take n) h
    have hdrop := congrArg (List.drop n) h
    rw [List.take_left' hlen, List.drop_take, List.take_take] at htake
    rw [List.drop_left' hlen, List.drop_drop] at hdrop
    refine ⟨⟨by omega, ?_⟩, hdrop⟩
    rw [htake, Nat.min_eq_left (by omega)]
  · rintro ⟨⟨hle, hpre⟩, rfl⟩
    rw [← hpre, ← List.drop_drop, List.drop_take]
    have hcut : (data.drop done).take n = ((data.drop done).take (size - done)).take n := by
      rw [List.take_take, Nat.min_eq_left (by omega)]
    rw [hcut, List.take_append_drop]

/-- The loop pushes exactly the bytes that are due when it is entered, or some attempt of
it is harmful. -/
theorem retry_exact_iff {capacity : ℕ} {f f' : Fifo β} {data : List β} {size done : ℕ}
    {as : List Attempt} (hdata : size ≤ data.length)
    (h : retry capacity data size (size - done) f as = some f') :
    sent data as = (data.take size).drop done ↔ Harmless data size done as := by
  induction as generalizing f done with
  | nil =>
    simp only [retry] at h
    split_ifs at h with hleft
    have hnil : (data.take size).drop done = [] :=
      List.drop_eq_nil_of_le (by simp only [List.length_take]; omega)
    simp [hnil, sent, Harmless]
  | cons a as ih =>
    simp only [retry] at h
    split_ifs at h with hleft
    obtain ⟨⟨g, n⟩, hg, h⟩ := Option.bind_eq_some_iff.mp h
    obtain ⟨rfl, hsize, -⟩ := ringAppend_spec hg
    have hremain : (size : ℤ) - done - a.accepted = size - (done + a.accepted : ℕ) := by omega
    rw [hremain] at h
    have hsent : sent data (a :: as) = data.take a.accepted ++ sent data as := rfl
    rw [hsent, prefix_due _ hdata (by omega) (by omega), ih h, Harmless]
    refine and_congr_left' ⟨fun hpre => .inr (.inr ⟨by omega, hpre.2⟩), ?_⟩
    rintro (rfl | hzero | hpre)
    · exact ⟨by omega, by simp⟩
    · rw [hzero]
      exact ⟨by omega, by simp⟩
    · exact ⟨by omega, hpre.2⟩

/-- `append` pushes every byte of the record once and in order exactly when each of its
ring appends is harmless. -/
theorem append_exact_iff {m m' : BufferMap β} {tid : ℤ} {data : List β} {size : ℕ}
    {as : List Attempt} (hdata : size ≤ data.length)
    (h : append m tid data size as = some m') :
    pushed m' tid = pushed m tid ++ data.take size ↔ Harmless data size 0 as := by
  obtain ⟨f, hf, rfl⟩ := Option.map_eq_some_iff.mp h
  cases as with
  | nil => cases hf
  | cons a as =>
    obtain ⟨⟨g, n⟩, hg, hretry⟩ := Option.bind_eq_some_iff.mp hf
    obtain ⟨rfl, hsize, hacc⟩ := ringAppend_spec hg
    have hpushed : pushed (Function.update m tid (some f)) tid
        = pushed m tid ++ (data.take a.accepted ++ sent data as) := by
      simp [pushed, retry_accepted hretry, hacc]
    rw [hpushed, List.append_right_inj, ← List.drop_zero (l := data.take size),
      prefix_due _ hdata (by omega) (by omega), Nat.zero_add, retry_exact_iff hdata hretry]
    simp [Harmless]
    omega

def holding (n : ℕ) : BufferMap UInt8 :=
  fun tid => if tid = 7 then some (Fifo.empty.accept (List.replicate n 0)) else none

theorem holding_eq (n : ℕ) : ∃ ring, holding n 7 = some ring ∧ ring.stored.length = n := by
  refine ⟨_, if_pos rfl, ?_⟩
  rw [Fifo.accept_stored, List.length_append, List.length_replicate]
  exact Nat.zero_add n

/-- A full ring takes nothing, and the whole record once the consumer has made room. -/
theorem append_exact_second_attempt :
    ∃ m', append (holding 32767) 7 [1, 2, 3] 3 [⟨[], 0⟩, ⟨[100], 3⟩] = some m' ∧
      pushed m' 7 = pushed (holding 32767) 7 ++ [1, 2, 3] := by
  obtain ⟨ring, hring, hlen⟩ := holding_eq 32767
  have hfirst : ringAppend ringCapacity ring [1, 2, 3] 3 ⟨[], 0⟩ = some (ring.accept [], 0) :=
    if_pos ⟨by decide, by
      rw [List.foldl, hlen]
      decide⟩
  have hretry : ringAppend ringCapacity (ring.accept []) [1, 2, 3] 3 ⟨[100], 3⟩ =
      some (((ring.accept []).release 100).accept [1, 2, 3], 3) :=
    if_pos ⟨by decide, by
      simp only [List.foldl, Fifo.release_stored, List.length_drop, Fifo.accept_stored,
        List.append_nil, hlen]
      decide⟩
  have happend : append (holding 32767) 7 [1, 2, 3] 3 [⟨[], 0⟩, ⟨[100], 3⟩] = some (Function.update
      (holding 32767) 7 (some (((ring.accept []).release 100).accept [1, 2, 3]))) := by
    simp [append, hring, push, hfirst, retry, hretry]
  refine ⟨_, happend, ?_⟩
  exact (append_exact_iff (le_refl 3) happend).mpr ⟨.inl rfl, .inl rfl, trivial⟩

/-- The ring takes two of three bytes; once the consumer has made room, the retry starts
from the first byte again. -/
theorem append_repeats_prefix :
    ∃ m', append (holding 32765) 7 [1, 2, 3] 3 [⟨[], 2⟩, ⟨[100], 3⟩] = some m' ∧
      pushed m' 7 = pushed (holding 32765) 7 ++ [1, 2, 1, 2, 3] ∧
      pushed m' 7 ≠ pushed (holding 32765) 7 ++ [1, 2, 3] := by
  obtain ⟨ring, hring, hlen⟩ := holding_eq 32765
  let first := ring.accept [1, 2]
  have hfirst : ringAppend ringCapacity ring [1, 2, 3] 3 ⟨[], 2⟩ = some (first, 2) :=
    if_pos ⟨by decide, by
      rw [List.foldl, hlen]
      decide⟩
  have hretry : ringAppend ringCapacity first [1, 2, 3] 3 ⟨[100], 3⟩ =
      some ((first.release 100).accept [1, 2, 3], 3) :=
    if_pos ⟨by decide, by
      simp only [List.foldl, Fifo.release_stored, List.length_drop, first, Fifo.accept_stored,
        List.length_append, hlen]
      decide⟩
  have hpush : push ringCapacity ring [1, 2, 3] 3 [⟨[], 2⟩, ⟨[100], 3⟩] =
      some ((first.release 100).accept [1, 2, 3]) := by
    simp [push, hfirst, retry, hretry]
  refine ⟨Function.update (holding 32765) 7 (some ((first.release 100).accept [1, 2, 3])), ?_, ?_, ?_⟩
  · simp [append, hring, hpush]
  · simp [pushed, hring, first]
  · simp [pushed, hring, first]

end GenericServer.AsyncLogger
