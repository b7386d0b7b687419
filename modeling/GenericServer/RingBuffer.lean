import GenericServer.CircularWindows

/-!
# The per-thread ring of the asynchronous logger

`src/log/RingBuffer.h` and `RingBuffer.cpp`, one call at a time. The code never
inspects a byte, so the byte type is a parameter. `int` is `ℤ`: every value computed
here stays within `[-1, 2 * m_size)`.
-/
namespace GenericServer

open BlockMemory CircularWindows

/-- `class RingBuffer`; only the cells `[0, m_size)` of `m_buf` exist. -/
structure RingBuffer (β : Type*) where
  mSize : ℤ
  mBuf : ℤ → β
  mIn : ℤ
  mOut : ℤ

namespace RingBuffer

variable {β : Type*}

/-- The constructor; `garbage` is the indeterminate content of `new char[size]`. -/
def new (size : ℤ) (garbage : ℤ → β) : RingBuffer β := ⟨size, garbage, 0, 0⟩

def full (r : RingBuffer β) : Bool := decide (r.mIn + 1 = r.mOut)

def empty (r : RingBuffer β) : Bool := decide (r.mIn = r.mOut)

def dataSize (r : RingBuffer β) : ℤ :=
  if r.mIn ≥ r.mOut then r.mIn - r.mOut else r.mSize - r.mOut + r.mIn

def availSize (r : RingBuffer β) : ℤ :=
  if r.mIn ≥ r.mOut then r.mOut - 1 + r.mSize - r.mIn else r.mOut - r.mIn - 1

/-- The bytes `data[off .. off + len)`. -/
def slice (data : List β) (off len : ℤ) : List β := (data.drop off.toNat).take len.toNat

/-- `memcpy(m_buf + dst, data + off, len)`. A negative length or a range that leaves one
of the two arrays is undefined behaviour: `none`. -/
def copyIn (r : RingBuffer β) (dst : ℤ) (data : List β) (off len : ℤ) : Option (RingBuffer β) :=
  if 0 ≤ len ∧ 0 ≤ dst ∧ dst + len ≤ r.mSize ∧ 0 ≤ off ∧ off + len ≤ data.length then
    some { r with mBuf := writeBlock r.mBuf dst (slice data off len) }
  else none

/-- The bytes that `memcpy(buf, m_buf + src, len)` copies out. -/
def copyOut (r : RingBuffer β) (src len : ℤ) : Option (List β) :=
  if 0 ≤ len ∧ 0 ≤ src ∧ src + len ≤ r.mSize then some (readBlock r.mBuf src len.toNat) else none

/-- `m_in = (m_in + len) % m_size`. -/
def advanceIn (r : RingBuffer β) (len : ℤ) : RingBuffer β :=
  { r with mIn := (r.mIn + len).tmod r.mSize }

/-- `m_out = (m_out + len) % m_size`. -/
def advanceOut (r : RingBuffer β) (len : ℤ) : RingBuffer β :=
  { r with mOut := (r.mOut + len).tmod r.mSize }

/-- `RingBuffer::append`: the ring afterwards and the number of accepted bytes. -/
def append (r : RingBuffer β) (data : List β) (size : ℤ) : Option (RingBuffer β × ℤ) :=
  if size ≤ 0 then some (r, 0) else
  let out := r.mOut
  if r.mIn ≥ out then do
    let left := r.mSize - r.mIn
    let len := min size left
    let r ← r.copyIn r.mIn data 0 len
    let r := r.advanceIn len
    let remain := size - len
    if remain > 0 then do
      let len2 := min remain (out - 1)
      let r ← r.copyIn r.mIn data len len2
      return (r.advanceIn len2, len + len2)
    else return (r, len)
  else do
    let len := min size (out - r.mIn - 1)
    let r ← r.copyIn r.mIn data 0 len
    return ({ r with mIn := r.mIn + len }, len)

/-- `RingBuffer::retrive`: the ring afterwards, the returned count and the bytes that
stand in `buf[0..nRead)`. -/
def retrive (r : RingBuffer β) (size : ℤ) : Option (RingBuffer β × ℤ × List β) :=
  if size ≤ 0 then some (r, 0, []) else
  let input := r.mIn
  if input ≥ r.mOut then do
    let len := min size (input - r.mOut)
    let buf ← r.copyOut r.mOut len
    return ({ r with mOut := r.mOut + len }, len, buf)
  else do
    let left := r.mSize - r.mOut
    let len := min size left
    let buf ← r.copyOut r.mOut len
    let r := r.advanceOut len
    let remain := size - len
    if remain > 0 then do
      let len2 := min remain input
      let buf2 ← r.copyOut r.mOut len2
      return (r.advanceOut len2, len + len2, buf ++ buf2)
    else return (r, len, buf)

theorem tmod_advance {m i len : ℤ} (hi : 0 ≤ i) (hlen : 0 ≤ len) (hend : i + len ≤ m) : (i + len).tmod m = cell m i len := by
  rcases lt_or_eq_of_le hend with h | h
  · rw [Int.tmod_eq_of_lt (by omega) h, cell_of_lt h]
  · rw [h, Int.tmod_self, cell_of_le (by omega)]
    omega

/-- The ring stores the queue `q`: one cell always stays free, which separates the
empty ring from the full one. -/
structure Represents (r : RingBuffer β) (q : List β) : Prop where
  size : 2 ≤ r.mSize
  out_nonneg : 0 ≤ r.mOut
  out_lt : r.mOut < r.mSize
  room : q.length < r.mSize
  in_eq : r.mIn = cell r.mSize r.mOut q.length
  window : Window r.mBuf r.mSize r.mOut q

theorem represents_new {size : ℤ} (h : 2 ≤ size) (garbage : ℤ → β) :
    Represents (new size garbage) [] where
  size := h
  out_nonneg := le_refl _
  out_lt := by simp only [new]; omega
  room := by simp only [new, List.length_nil]; omega
  in_eq := by
    simp only [new, List.length_nil]
    rw [cell_of_lt (by omega)]
    rfl
  window := window_nil _ _ _

namespace Represents

variable {r : RingBuffer β} {q : List β}

theorem in_nonneg (h : Represents r q) : 0 ≤ r.mIn := by
  have := h.room
  rw [h.in_eq]
  exact cell_nonneg h.out_nonneg (by omega)

theorem in_lt (h : Represents r q) : r.mIn < r.mSize := by
  have := h.room
  rw [h.in_eq]
  exact cell_lt h.out_lt (by omega)

/-- The reader is at most one lap behind: the two shapes the stored bytes can have. -/
theorem in_cases (h : Represents r q) :
    (r.mOut ≤ r.mIn ∧ (q.length : ℤ) = r.mIn - r.mOut) ∨
      (r.mIn < r.mOut ∧ (q.length : ℤ) = r.mSize - r.mOut + r.mIn) := by
  have hroom := h.room
  have hin := h.in_eq
  unfold cell at hin
  split_ifs at hin <;> omega

theorem dataSize_eq (h : Represents r q) : r.dataSize = q.length := by
  unfold dataSize
  rcases h.in_cases with ⟨_, _⟩ | ⟨_, _⟩ <;> split_ifs <;> omega

theorem availSize_eq (h : Represents r q) : r.availSize = r.mSize - 1 - q.length := by
  unfold availSize
  rcases h.in_cases with ⟨_, _⟩ | ⟨_, _⟩ <;> split_ifs <;> omega

theorem empty_eq (h : Represents r q) : r.empty = true ↔ q = [] := by
  rw [← List.length_eq_zero_iff, empty, decide_eq_true_iff]
  have hin := h.in_nonneg
  have hout := h.out_lt
  rcases h.in_cases with ⟨_, _⟩ | ⟨_, _⟩ <;> constructor <;> omega

theorem publish (h : Represents r q) (ys : List β) (hroom : q.length + ys.length < r.mSize)
    (hend : r.mIn + ys.length ≤ r.mSize) :
    Represents { r with mBuf := writeBlock r.mBuf r.mIn ys,
                        mIn := cell r.mSize r.mIn ys.length } (q ++ ys) where
  size := h.size
  out_nonneg := h.out_nonneg
  out_lt := h.out_lt
  room := by simpa using hroom
  in_eq := by
    simp only [List.length_append, Nat.cast_add]
    rw [← cell_cell h.out_lt (by omega) (by omega), ← h.in_eq]
  window := by
    have hend' := hend
    rw [h.in_eq] at hend'
    rw [h.in_eq]
    exact h.window.writeBlock (by omega) hend'

theorem release (h : Represents r q) {k : ℕ} (hk : k ≤ q.length) :
    Represents { r with mOut := cell r.mSize r.mOut k } (q.drop k) where
  size := h.size
  out_nonneg := cell_nonneg h.out_nonneg (by omega)
  out_lt := cell_lt h.out_lt (by have := h.room; omega)
  room := by
    have := h.room
    simp only [List.length_drop]
    omega
  in_eq := by
    have := h.room
    have hsplit : ((q.drop k).length : ℤ) = q.length - k := by simp [hk]
    rw [hsplit, cell_cell h.out_lt (by omega) (by omega), h.in_eq]
    congr 1
    omega
  window := h.window.drop h.out_lt (by have := h.room; omega) k

end Represents

theorem length_slice (data : List β) {off len : ℤ} (hoff : 0 ≤ off) (hlen : 0 ≤ len)
    (h : off + len ≤ data.length) : ((slice data off len).length : ℤ) = len := by
  simp only [slice, List.length_take, List.length_drop]
  omega

theorem take_append_slice (data : List β) {m n : ℤ} (hm : 0 ≤ m) (hn : 0 ≤ n) :
    data.take m.toNat ++ slice data m n = data.take (m + n).toNat := by
  have hadd : (m + n).toNat = m.toNat + n.toNat := by omega
  rw [slice, hadd, List.take_add]

variable {r : RingBuffer β} {q data : List β} {off len size : ℤ}

theorem Represents.copyIn (h : Represents r q) (data : List β) (off len : ℤ) (hoff : 0 ≤ off) (hlen : 0 ≤ len)
    (hdata : off + len ≤ data.length) (hroom : q.length + len < r.mSize)
    (hend : r.mIn + len ≤ r.mSize) :
    ∃ r', r.copyIn r.mIn data off len = some r' ∧ r'.mIn = r.mIn ∧ r'.mOut = r.mOut ∧
      r'.mSize = r.mSize ∧ Represents (r'.advanceIn len) (q ++ slice data off len) := by
  have hys := length_slice data hoff hlen hdata
  refine ⟨_, if_pos ⟨hlen, h.in_nonneg, hend, hoff, hdata⟩, rfl, rfl, rfl, ?_⟩
  have hpub := h.publish (slice data off len) (by omega) (by omega)
  rw [hys] at hpub
  simpa only [advanceIn, tmod_advance h.in_nonneg hlen hend] using hpub

private theorem append_straight (h : Represents r q) (hsize : 0 < size)
    (hdata : size ≤ data.length) (hge : r.mOut ≤ r.mIn) (hleft : size ≤ r.mSize - r.mIn)
    (hroom : q.length + size < r.mSize) :
    ∃ r', r.append data size = some (r', size) ∧ r'.mSize = r.mSize ∧
      Represents r' (q ++ data.take size.toNat) := by
  obtain ⟨r₁, hcopy, -, -, hm, hrep⟩ :=
    h.copyIn data 0 size (by omega) (by omega) (by omega)
      hroom (by omega)
  refine ⟨r₁.advanceIn size, ?_, hm, by simpa [slice] using hrep⟩
  simp [append, not_le.mpr hsize, hge, hleft, hcopy]

/-- The request crosses the end of the ring: two copies and two stores of `m_in`. -/
private theorem append_wrap (h : Represents r q) (hdata : size ≤ data.length)
    (hge : r.mOut ≤ r.mIn) (hleft : r.mSize - r.mIn < size) (hout : 0 < r.mOut) :
    ∃ r', r.append data size = some (r', min size r.availSize) ∧ r'.mSize = r.mSize ∧
      Represents r' (q ++ data.take (min size r.availSize).toNat) := by
  have hlt := h.in_lt
  have hq : (q.length : ℤ) = r.mIn - r.mOut := by
    rcases h.in_cases with ⟨_, hq⟩ | ⟨hgt, _⟩
    · exact hq
    · omega
  obtain ⟨r₁, hcopy, hin₁, hout₁, hm₁, hrep₁⟩ :=
    h.copyIn data 0 (r.mSize - r.mIn) (by omega) (by omega) (by omega) (by omega) (by omega)
  have hzero : (r₁.advanceIn (r.mSize - r.mIn)).mIn = 0 := by
    simp only [advanceIn, hin₁, hm₁]
    rw [tmod_advance h.in_nonneg (by omega) (by omega), cell_of_le (by omega)]
    omega
  have hlen₁ := length_slice data (show (0 : ℤ) ≤ 0 by omega) (show 0 ≤ r.mSize - r.mIn by omega)
    (by omega)
  -- the second block starts at index 0 and stays below the reader
  let len2 := min (size - (r.mSize - r.mIn)) (r.mOut - 1)
  obtain ⟨r₂, hcopy₂, -, -, hm₂, hrep₂⟩ :=
    hrep₁.copyIn data (r.mSize - r.mIn) len2 (by omega) (by omega) (by omega)
      (by simp only [List.length_append, advanceIn]; omega)
      (by rw [hzero]; simp only [advanceIn]; omega)
  have hn : min size r.availSize = r.mSize - r.mIn + len2 := by
    rw [h.availSize_eq]
    omega
  refine ⟨r₂.advanceIn len2, ?_, hm₂.trans hm₁, ?_⟩
  · have hmin : min size (r.mSize - r.mIn) = r.mSize - r.mIn := by omega
    have hremain : 0 < size - (r.mSize - r.mIn) := by omega
    rw [hn]
    simp only [append, not_le.mpr (show 0 < size by omega), ge_iff_le, hge, hmin, hcopy, gt_iff_lt,
      hremain, if_true, if_false, Option.bind_eq_bind, Option.bind_some]
    rw [show (min (size - (r.mSize - r.mIn)) (r.mOut - 1)) = len2 from rfl, hcopy₂]
    rfl
  · rw [hn, ← take_append_slice data (by omega) (by omega), ← List.append_assoc]
    simpa [slice] using hrep₂

private theorem append_behind (h : Represents r q) (hsize : 0 < size)
    (hdata : size ≤ data.length) (hgt : r.mIn < r.mOut) :
    ∃ r', r.append data size = some (r', min size r.availSize) ∧ r'.mSize = r.mSize ∧
      Represents r' (q ++ data.take (min size r.availSize).toNat) := by
  have hlt := h.out_lt
  have hq : (q.length : ℤ) = r.mSize - r.mOut + r.mIn := by
    rcases h.in_cases with ⟨hge, _⟩ | ⟨_, hq⟩
    · omega
    · exact hq
  let len := min size (r.mOut - r.mIn - 1)
  obtain ⟨r₁, hcopy, hin, -, hm, hrep⟩ :=
    h.copyIn data 0 len (by omega) (by omega) (by omega) (by omega) (by omega)
  have hadv : r₁.advanceIn len = { r₁ with mIn := r₁.mIn + len } := by
    have := h.in_nonneg
    rw [advanceIn, Int.tmod_eq_of_lt (by omega) (by omega)]
  have hn : min size r.availSize = len := by
    rw [h.availSize_eq]
    omega
  refine ⟨r₁.advanceIn len, ?_, hm, by simpa [slice, hn] using hrep⟩
  rw [hadv, hn]
  simp only [append, not_le.mpr hsize, ge_iff_le, not_le.mpr hgt, if_false, Option.bind_eq_bind]
  rw [show (min size (r.mOut - r.mIn - 1)) = len from rfl, hcopy]
  rfl

/-- `append` accepts what there is room for and stores it behind the queue, unless the
reader stands at index 0 and the request reaches the end of the ring. -/
theorem append_spec (h : Represents r q) (hsize : 0 < size) (hdata : size ≤ data.length)
    (hzero : r.mOut = 0 → size < r.mSize - r.mIn) :
    ∃ r', r.append data size = some (r', min size r.availSize) ∧ r'.mSize = r.mSize ∧
      Represents r' (q ++ data.take (min size r.availSize).toNat) := by
  have hout := h.out_nonneg
  rcases h.in_cases with ⟨hge, hq⟩ | ⟨hgt, -⟩
  · by_cases hleft : size ≤ r.mSize - r.mIn
    · have hfit : min size r.availSize = size := by
        rw [h.availSize_eq]
        omega
      rw [hfit]
      exact append_straight h hsize hdata hge hleft (by omega)
    · exact append_wrap h hdata hge (by omega) (by omega)
  · exact append_behind h hsize hdata hgt

theorem Represents.copyOut (h : Represents r q) (len : ℤ) (hlen : 0 ≤ len) (hq : len ≤ q.length)
    (hend : r.mOut + len ≤ r.mSize) :
    r.copyOut r.mOut len = some (q.take len.toNat) ∧
      Represents (r.advanceOut len) (q.drop len.toNat) := by
  constructor
  · rw [RingBuffer.copyOut, if_pos ⟨hlen, h.out_nonneg, hend⟩,
      h.window.readBlock (by omega) (by omega)]
  · have hrel := h.release (k := len.toNat) (by omega)
    rw [Int.toNat_of_nonneg hlen] at hrel
    simpa only [advanceOut, tmod_advance h.out_nonneg hlen hend] using hrel

private theorem retrive_straight (h : Represents r q) (hsize : 0 < size)
    (hge : r.mOut ≤ r.mIn) (hq : (q.length : ℤ) = r.mIn - r.mOut) :
    ∃ r', r.retrive size = some (r', min size q.length, q.take size.toNat) ∧
      r'.mSize = r.mSize ∧ Represents r' (q.drop size.toNat) := by
  have hlt := h.in_lt
  let len := min size (r.mIn - r.mOut)
  obtain ⟨hcopy, hrep⟩ := h.copyOut len (by omega) (by omega) (by omega)
  have hadv : r.advanceOut len = { r with mOut := r.mOut + len } := by
    have := h.out_nonneg
    rw [advanceOut, Int.tmod_eq_of_lt (by omega) (by omega)]
  have htake : q.take len.toNat = q.take size.toNat := List.take_eq_take_iff.mpr (by omega)
  have hdrop : q.drop len.toNat = q.drop size.toNat := by
    rcases le_total size (r.mIn - r.mOut) with hle | hle
    · congr 1; omega
    · rw [List.drop_eq_nil_of_le (by omega), List.drop_eq_nil_of_le (by omega)]
  refine ⟨r.advanceOut len, ?_, rfl, hdrop ▸ hrep⟩
  have hn : min size q.length = len := by omega
  rw [hadv, hn, ← htake]
  simp only [retrive, not_le.mpr hsize, ge_iff_le, hge, if_true, if_false, Option.bind_eq_bind]
  rw [show min size (r.mIn - r.mOut) = len from rfl, hcopy]
  rfl

private theorem retrive_wrap (h : Represents r q) (hsize : 0 < size) (hgt : r.mIn < r.mOut)
    (hq : (q.length : ℤ) = r.mSize - r.mOut + r.mIn) :
    ∃ r', r.retrive size = some (r', min size q.length, q.take size.toNat) ∧
      r'.mSize = r.mSize ∧ Represents r' (q.drop size.toNat) := by
  have hin := h.in_nonneg
  have hout := h.out_lt
  by_cases hleft : size ≤ r.mSize - r.mOut
  · obtain ⟨hcopy, hrep⟩ := h.copyOut size (by omega) (by omega) (by omega)
    have hn : min size (q.length : ℤ) = size := by omega
    refine ⟨r.advanceOut size, ?_, rfl, hrep⟩
    simp [retrive, not_le.mpr hsize, not_le.mpr hgt, hleft, hcopy, hn]
  · -- the tail of the ring first, then the part that starts at index 0
    obtain ⟨hcopy, hrep⟩ := h.copyOut (r.mSize - r.mOut) (by omega) (by omega) (by omega)
    let r₁ := r.advanceOut (r.mSize - r.mOut)
    have hzero : r₁.mOut = 0 := by
      simp only [r₁, advanceOut]
      rw [tmod_advance h.out_nonneg (by omega) (by omega), cell_of_le (by omega)]
      omega
    let len2 := min (size - (r.mSize - r.mOut)) r.mIn
    obtain ⟨hcopy₂, hrep₂⟩ := hrep.copyOut len2 (by omega)
      (by simp only [List.length_drop]; omega) (by rw [hzero]; simp only [advanceOut]; omega)
    have hmin : min size (r.mSize - r.mOut) = r.mSize - r.mOut := by omega
    have hremain : 0 < size - (r.mSize - r.mOut) := by omega
    have hn : min size (q.length : ℤ) = r.mSize - r.mOut + len2 := by omega
    have htake : q.take (r.mSize - r.mOut).toNat ++ (q.drop (r.mSize - r.mOut).toNat).take len2.toNat
        = q.take size.toNat := by
      rw [← List.take_add]
      exact List.take_eq_take_iff.mpr (by omega)
    have hdrop : (q.drop (r.mSize - r.mOut).toNat).drop len2.toNat = q.drop size.toNat := by
      rw [List.drop_drop]
      rcases le_total (size - (r.mSize - r.mOut)) r.mIn with hle | hle
      · congr 1; omega
      · rw [List.drop_eq_nil_of_le (by omega), List.drop_eq_nil_of_le (by omega)]
    refine ⟨r₁.advanceOut len2, ?_, rfl, hdrop ▸ hrep₂⟩
    rw [hn, ← htake]
    simp only [retrive, not_le.mpr hsize, ge_iff_le, not_le.mpr hgt, if_false, hmin, hcopy,
      gt_iff_lt, hremain, if_true, Option.bind_eq_bind, Option.bind_some]
    rw [show min (size - (r.mSize - r.mOut)) r.mIn = len2 from rfl, hcopy₂]
    rfl

/-- `retrive` hands out the oldest stored bytes and releases exactly these. -/
theorem retrive_spec (h : Represents r q) (hsize : 0 < size) :
    ∃ r', r.retrive size = some (r', min size q.length, q.take size.toNat) ∧
      r'.mSize = r.mSize ∧ Represents r' (q.drop size.toNat) := by
  rcases h.in_cases with ⟨hge, hq⟩ | ⟨hgt, hq⟩
  · exact retrive_straight h hsize hge hq
  · exact retrive_wrap h hsize hgt hq

/-- The defect of `append`: with the reader at index 0, a request that reaches the end of
the ring makes the stored bytes vanish, and one that goes beyond it hands a negative
length to `memcpy`. -/
theorem append_zero_out (h : Represents r q) (hsize : 0 < size) (hdata : size ≤ data.length)
    (hzero : r.mOut = 0) (hover : r.mSize - r.mIn ≤ size) :
    r.append data size = none ∨
      ∃ r', r.append data size = some (r', size) ∧ r'.mSize = r.mSize ∧ Represents r' [] ∧
        size + q.length = r.mSize := by
  have hin := h.in_nonneg
  have hlt := h.in_lt
  have hq : (q.length : ℤ) = r.mIn := by
    rcases h.in_cases with ⟨_, hq⟩ | ⟨hgt, _⟩ <;> omega
  have hcopy : r.copyIn r.mIn data 0 (r.mSize - r.mIn) = some
      { r with mBuf := writeBlock r.mBuf r.mIn (slice data 0 (r.mSize - r.mIn)) } :=
    if_pos ⟨by omega, hin, by omega, le_refl _, by omega⟩
  have hmin : min size (r.mSize - r.mIn) = r.mSize - r.mIn := by omega
  have hwrap : (r.mIn + (r.mSize - r.mIn)).tmod r.mSize = 0 := by
    rw [tmod_advance hin (by omega) (by omega), cell_of_le (by omega)]
    omega
  rcases lt_or_eq_of_le hover with hlt | heq
  · left
    have hneg : min (size - (r.mSize - r.mIn)) (r.mOut - 1) = -1 := by omega
    have hremain : 0 < size - (r.mSize - r.mIn) := by omega
    simp only [append, not_le.mpr hsize, ge_iff_le, hzero, hin, hmin, hcopy, gt_iff_lt, hremain,
      if_true, if_false, Option.bind_eq_bind, Option.bind_some]
    rw [← hzero, hneg]
    rfl
  · right
    refine ⟨({ r with mBuf := writeBlock r.mBuf r.mIn (slice data 0 (r.mSize - r.mIn)) } :
      RingBuffer β).advanceIn (r.mSize - r.mIn), ?_, rfl, ?_, by omega⟩
    · simp only [append, not_le.mpr hsize, ge_iff_le, hzero, hin, hmin, hcopy, gt_iff_lt,
        if_true, if_false, Option.bind_eq_bind, Option.bind_some]
      rw [if_neg (by omega), ← heq]
      rfl
    · have hrep := represents_new h.size (writeBlock r.mBuf r.mIn (slice data 0 (r.mSize - r.mIn)))
      simpa only [advanceIn, hwrap, new, hzero] using hrep

end RingBuffer

end GenericServer
