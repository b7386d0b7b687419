import GenericServer.BlockMemory
import Mathlib.Tactic.Linarith

/-!
# The linear byte buffer

`BufferBase` of `src/Buffer.h` and `Buffer.cpp`. Pointers are integer addresses into one
memory, of which the cells `[m_data, m_end)` belong to the buffer.
-/
namespace GenericServer

open BlockMemory

structure BufferBase (β : Type*) where
  mem : ℤ → β
  mData : ℤ
  mWptr : ℤ
  mRptr : ℤ
  mEnd : ℤ

namespace BufferBase

variable {β : Type*}

/-- The constructor for an allocation of `size` indeterminate bytes at `data`. -/
def new (mem : ℤ → β) (data size : ℤ) : BufferBase β := ⟨mem, data, data, data, data + size⟩

def dataSize (b : BufferBase β) : ℤ := b.mWptr - b.mRptr

def empty (b : BufferBase β) : Bool := decide (b.mWptr = b.mRptr)

def remainSize (b : BufferBase β) : ℤ := b.mEnd - b.mWptr

def clear (b : BufferBase β) : BufferBase β := { b with mWptr := b.mData, mRptr := b.mData }

/-- `append(buf, len)`: the buffer afterwards and the number of accepted bytes. -/
def append (b : BufferBase β) (buf : List β) (len : ℤ) : BufferBase β × ℤ :=
  if len ≤ 0 then (b, 0) else
  let n := b.remainSize
  if len ≤ n then
    ({ b with mem := writeBlock b.mem b.mWptr (buf.take len.toNat), mWptr := b.mWptr + len }, len)
  else
    ({ b with mem := writeBlock b.mem b.mWptr (buf.take n.toNat), mWptr := b.mEnd }, n)

def appendChar (b : BufferBase β) (c : β) : BufferBase β × ℤ :=
  if b.mEnd - b.mWptr > 0 then
    ({ b with mem := writeBlock b.mem b.mWptr [c], mWptr := b.mWptr + 1 }, 1)
  else (b, 0)

/-- `write_out(fd)` when `::write` returns `n`: the buffer afterwards, the result and the
bytes that have gone to the kernel. -/
def writeOut (b : BufferBase β) (n : ℤ) : BufferBase β × ℤ × List β :=
  if b.dataSize ≤ 0 then (b, 0, []) else
  if n ≥ 0 then
    let out := readBlock b.mem b.mRptr n.toNat
    let b := { b with mRptr := b.mRptr + n }
    (if b.empty then b.clear else b, n, out)
  else (b, n, [])

/-- `read_in(fd)` when `::read` has stored the bytes of `.ok`, or has failed: the buffer
afterwards and the result. -/
def readIn (b : BufferBase β) (r : Except ℤ (List β)) : BufferBase β × ℤ :=
  match r with
  | .ok ys =>
    ({ b with mem := writeBlock b.mem b.mWptr ys, mWptr := b.mWptr + ys.length }, ys.length)
  | .error _ => (b, -1)

/-- The pointers are in order, inside the allocation. -/
structure Ordered (b : BufferBase β) : Prop where
  data_le : b.mData ≤ b.mRptr
  rptr_le : b.mRptr ≤ b.mWptr
  wptr_le : b.mWptr ≤ b.mEnd

/-- The bytes between the read and the write pointer. -/
def unread (b : BufferBase β) : List β := readBlock b.mem b.mRptr b.dataSize.toNat

variable {b : BufferBase β}

theorem ordered_new (mem : ℤ → β) (data : ℤ) (size : ℕ) : (new mem data size).Ordered where
  data_le := le_refl _
  rptr_le := le_refl _
  wptr_le := by simp only [new]; omega

theorem unread_new (mem : ℤ → β) (data size : ℤ) : (new mem data size).unread = [] := by
  simp [unread, dataSize, new]

theorem Ordered.clear (h : b.Ordered) : b.clear.Ordered where
  data_le := le_refl _
  rptr_le := le_refl _
  wptr_le := h.data_le.trans (h.rptr_le.trans h.wptr_le)

theorem unread_clear (b : BufferBase β) : b.clear.unread = [] := by
  simp [unread, dataSize, BufferBase.clear]

theorem Ordered.push (h : b.Ordered) (ys : List β) (hroom : b.mWptr + ys.length ≤ b.mEnd) :
    Ordered { b with mem := writeBlock b.mem b.mWptr ys, mWptr := b.mWptr + ys.length } ∧
      unread { b with mem := writeBlock b.mem b.mWptr ys, mWptr := b.mWptr + ys.length }
        = b.unread ++ ys := by
  have hle := h.rptr_le
  refine ⟨⟨h.data_le, by simp only; omega, hroom⟩, ?_⟩
  have hsize : (b.mWptr + ys.length - b.mRptr).toNat = (b.mWptr - b.mRptr).toNat + ys.length := by
    omega
  have hold : b.mRptr + ((b.mWptr - b.mRptr).toNat : ℤ) = b.mWptr := by omega
  simp only [unread, dataSize, hsize, readBlock_add, hold]
  rw [readBlock_writeBlock_of_le (by omega), readBlock_writeBlock_self]

theorem append_eq (b : BufferBase β) (buf : List β) {len : ℤ} (hlen : 0 < len) :
    b.append buf len = ({ b with
        mem := writeBlock b.mem b.mWptr (buf.take (min len b.remainSize).toNat)
        mWptr := b.mWptr + min len b.remainSize }, min len b.remainSize) := by
  rcases le_or_gt len b.remainSize with hfit | hfull
  · rw [min_eq_left hfit]
    simp [append, not_le.mpr hlen, hfit]
  · have hend : b.mWptr + b.remainSize = b.mEnd := by
      rw [remainSize]
      omega
    rw [min_eq_right hfull.le, hend]
    simp [append, not_le.mpr hlen, not_le.mpr hfull]

theorem append_spec (h : b.Ordered) {buf : List β} {len : ℤ} (hlen : len ≤ buf.length) :
    (b.append buf len).1.Ordered ∧
      (b.append buf len).1.unread = b.unread ++ buf.take (b.append buf len).2.toNat ∧
      0 ≤ (b.append buf len).2 ∧ (b.append buf len).2 ≤ max len 0 := by
  rcases le_or_gt len 0 with hneg | hpos
  · have hnone : b.append buf len = (b, 0) := by simp [append, hneg]
    rw [hnone]
    exact ⟨h, by simp, le_refl _, le_max_right _ _⟩
  · have hroom : 0 ≤ b.remainSize := by
      have := h.wptr_le
      rw [remainSize]
      omega
    have htake : ((buf.take (min len b.remainSize).toNat).length : ℤ) = min len b.remainSize := by
      simp only [List.length_take]
      omega
    obtain ⟨hord, hun⟩ := h.push (buf.take (min len b.remainSize).toNat) (by
      rw [htake, remainSize]
      omega)
    rw [htake] at hord hun
    rw [append_eq b buf hpos]
    exact ⟨hord, hun, by simp only; omega, by simp only; omega⟩

theorem appendChar_eq (h : b.Ordered) (c : β) : b.appendChar c = b.append [c] 1 := by
  have hroom := h.wptr_le
  rw [append_eq b [c] Int.one_pos]
  unfold appendChar remainSize
  split_ifs with hfull
  · rw [min_eq_left (by omega)]
    rfl
  · rw [min_eq_right (by omega), show b.mEnd - b.mWptr = 0 by omega, Int.toNat_zero, List.take_zero,
      writeBlock_nil, add_zero]

theorem append_ends (b : BufferBase β) (buf : List β) (len : ℤ) :
    (b.append buf len).1.mData = b.mData ∧ (b.append buf len).1.mEnd = b.mEnd := by
  rcases le_or_gt len 0 with hneg | hpos
  · rw [append, if_pos hneg]
    exact ⟨rfl, rfl⟩
  · rw [append_eq b buf hpos]
    exact ⟨rfl, rfl⟩

theorem writeOut_ends (b : BufferBase β) (n : ℤ) :
    (b.writeOut n).1.mData = b.mData ∧ (b.writeOut n).1.mEnd = b.mEnd := by
  simp only [writeOut]
  split_ifs <;> exact ⟨rfl, rfl⟩

theorem writeOut_result (b : BufferBase β) (hsize : 0 < b.dataSize) (n : ℤ) :
    (b.writeOut n).2.1 = n := by
  simp only [writeOut, not_le.mpr hsize, if_false]
  split_ifs <;> rfl

theorem writeOut_failed (b : BufferBase β) (hsize : 0 < b.dataSize) {n : ℤ} (hn : n < 0) :
    b.writeOut n = (b, n, []) := by
  simp [writeOut, not_le.mpr hsize, not_le.mpr hn]

theorem writeOut_complete (b : BufferBase β) (hsize : 0 < b.dataSize) :
    b.writeOut b.dataSize = (b.clear, b.dataSize, b.unread) := by
  have hall : b.mWptr = b.mRptr + b.dataSize := by
    rw [dataSize]
    omega
  simp [writeOut, not_le.mpr hsize, hsize.le, empty, ← hall, unread, BufferBase.clear]

/-- A short `::write` leaves a hole at the front. -/
theorem writeOut_short (b : BufferBase β) {n : ℤ} (hpos : 0 ≤ n) (hn : n < b.dataSize) :
    b.writeOut n = ({ b with mRptr := b.mRptr + n }, n, readBlock b.mem b.mRptr n.toNat) := by
  have hleft : b.mWptr ≠ b.mRptr + n := by
    rw [dataSize] at hn
    omega
  simp [writeOut, not_le.mpr (hpos.trans_lt hn), hpos, empty, hleft]

theorem writeOut_spec (h : b.Ordered) (hsize : 0 < b.dataSize) {n : ℤ} (hn : n ≤ b.dataSize) :
    (b.writeOut n).1.Ordered ∧ (b.writeOut n).2.2 ++ (b.writeOut n).1.unread = b.unread ∧
      (n = b.dataSize → (b.writeOut n).1.unread = []) := by
  rcases lt_or_ge n 0 with hneg | hpos
  · rw [writeOut_failed b hsize hneg]
    exact ⟨h, rfl, fun hfull => absurd hfull (by omega)⟩
  · rcases lt_or_eq_of_le hn with hshort | rfl
    · rw [writeOut_short b hpos hshort]
      have hle := h.data_le
      rw [dataSize] at hshort
      refine ⟨⟨?_, ?_, h.wptr_le⟩, ?_, fun hfull => absurd hfull (by rw [dataSize]; omega)⟩
      · simp only
        omega
      · simp only
        omega
      · have hsplit : (b.mWptr - b.mRptr).toNat
            = n.toNat + (b.mWptr - (b.mRptr + n)).toNat := by omega
        simp only [unread, dataSize, hsplit, readBlock_add, Int.toNat_of_nonneg hpos]
    · rw [writeOut_complete b hsize]
      exact ⟨h.clear, by rw [unread_clear, List.append_nil], fun _ => unread_clear b⟩

end BufferBase

end GenericServer
