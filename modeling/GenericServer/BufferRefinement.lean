import GenericServer.Buffer
import GenericServer.LinearQueues

/-!
# Calls on a byte buffer against a bounded queue

All of `BufferBase` (`src/Buffer.h` and `Buffer.cpp`): the queries, the overloads of `append`,
and the transfers from and to the kernel, with every result that `::read` and `::write` can have.
-/
namespace GenericServer.BufferBase

open BlockMemory LinearQueues

variable {β : Type*}

def totalSize (b : BufferBase β) : ℤ := b.mEnd - b.mData

def full (b : BufferBase β) : Bool := decide (b.mWptr = b.mEnd)

def toString (b : BufferBase β) : List β := readBlock b.mem b.mRptr b.dataSize.toNat

def appendBuffer (b buf : BufferBase β) : BufferBase β × ℤ := b.append buf.unread buf.dataSize

/-- The length of a string, converted to `int`. -/
def intLength (str : List β) : ℤ := (BitVec.ofNat 32 str.length).toInt

def appendString (b : BufferBase β) (str : List β) : BufferBase β :=
  (b.append str (intLength str)).1

def bzero [Zero β] (b : BufferBase β) : BufferBase β :=
  { b.clear with
    mem := writeBlock b.mem b.mData (List.replicate (b.mEnd - b.mData).toNat 0) }

/-- One call. `arrived` are the bytes that the kernel would like to store, and `taken` is the
number of bytes that it would like to take; `none` is a failure. -/
inductive Call (β : Type*)
  | append (buf : List β) (len : ℤ) (fits : len ≤ buf.length)
  | appendChar (c : β)
  | appendBuffer (buf : BufferBase β) (ordered : buf.Ordered)
  | appendSelf
  | appendString (str : List β)
  | readIn (arrived : Option (List β))
  | writeOut (taken : Option ℕ)
  | clear
  | bzero
  | dataSize
  | totalSize
  | remainSize
  | empty
  | full
  | toString

/-- What the caller of a function sees, and what `::write` sees. -/
inductive Answer (β : Type*)
  | nothing
  | number (n : ℤ)
  | flag (b : Bool)
  | bytes (xs : List β)
  | sent (n : ℤ) (xs : List β)

/-- `::read` stores no more than it is asked for, and `::write` takes no more than it is given. -/
def call [Zero β] (b : BufferBase β) : Call β → BufferBase β × Answer β
  | .append buf len _ => ((b.append buf len).1, .number (b.append buf len).2)
  | .appendChar c => ((b.appendChar c).1, .number (b.appendChar c).2)
  | .appendBuffer buf _ => ((b.appendBuffer buf).1, .number (b.appendBuffer buf).2)
  | .appendSelf => ((b.appendBuffer b).1, .number (b.appendBuffer b).2)
  | .appendString str => (b.appendString str, .nothing)
  | .readIn none => ((b.readIn (.error (-1))).1, .number (b.readIn (.error (-1))).2)
  | .readIn (some ys) =>
    let r := b.readIn (.ok (ys.take b.remainSize.toNat))
    (r.1, .number r.2)
  | .writeOut none => ((b.writeOut (-1)).1, .sent (b.writeOut (-1)).2.1 (b.writeOut (-1)).2.2)
  | .writeOut (some k) =>
    let r := b.writeOut (min (k : ℤ) b.dataSize)
    (r.1, .sent r.2.1 r.2.2)
  | .clear => (b.clear, .nothing)
  | .bzero => (b.bzero, .nothing)
  | .dataSize => (b, .number b.dataSize)
  | .totalSize => (b, .number b.totalSize)
  | .remainSize => (b, .number b.remainSize)
  | .empty => (b, .flag b.empty)
  | .full => (b, .flag b.full)
  | .toString => (b, .bytes b.toString)

variable {cap : ℕ}

/-- The same call on a queue: the bytes put in and the answer. -/
def offer (q : LinearQueue β cap) (xs : List β) : LinearQueue β cap × Answer β :=
  (q.push xs, .number (min xs.length q.room : ℕ))

/-- What the calls are for. -/
def queueCall (q : LinearQueue β cap) : Call β → LinearQueue β cap × Answer β
  | .append buf len _ => offer q (buf.take len.toNat)
  | .appendChar c => offer q [c]
  | .appendBuffer buf _ => offer q buf.unread
  | .appendSelf => offer q q.stored
  | .appendString str => (q.push (str.take (intLength str).toNat), .nothing)
  | .readIn none => (q, .number (-1))
  | .readIn (some ys) => offer q ys
  | .writeOut none => (q, if q.stored = [] then .sent 0 [] else .sent (-1) [])
  | .writeOut (some k) => (q.pop k, .sent (min k q.stored.length : ℕ) (q.stored.take k))
  | .clear => (.empty, .nothing)
  | .bzero => (.empty, .nothing)
  | .dataSize => (q, .number q.stored.length)
  | .totalSize => (q, .number cap)
  | .remainSize => (q, .number q.room)
  | .empty => (q, .flag q.stored.isEmpty)
  | .full => (q, .flag (decide (q.hole + q.stored.length = cap)))
  | .toString => (q, .bytes q.stored)

theorem intLength_le (str : List β) : intLength str ≤ str.length := by
  rw [intLength, BitVec.toInt_ofNat', Int.bmod_def]
  omega

/-- The buffer stores what the queue stores, in the same cells. -/
structure Represents (b : BufferBase β) (q : LinearQueue β cap) : Prop where
  ordered : b.Ordered
  hole : b.mRptr = b.mData + q.hole
  stored : b.unread = q.stored
  size : b.mEnd = b.mData + cap

variable {b : BufferBase β} {q : LinearQueue β cap}

namespace Represents

theorem new (mem : ℤ → β) (data : ℤ) (cap : ℕ) :
    Represents (BufferBase.new mem data cap) (LinearQueue.empty : LinearQueue β cap) where
  ordered := ordered_new mem data cap
  hole := by simp [BufferBase.new, LinearQueue.empty]
  stored := unread_new mem data cap
  size := rfl

theorem dataSize_eq (h : Represents b q) : b.dataSize = q.stored.length := by
  have hle := h.ordered.rptr_le
  rw [← h.stored, unread, length_readBlock, dataSize]
  omega

theorem remainSize_eq (h : Represents b q) : b.remainSize = q.room := by
  have hdata := h.dataSize_eq
  have hwithin := q.within
  have hsize := h.size
  have hhole := h.hole
  rw [dataSize] at hdata
  rw [remainSize, LinearQueue.room]
  omega

theorem push (h : Represents b q) (xs : List β) :
    Represents { b with
      mem := writeBlock b.mem b.mWptr (xs.take q.room)
      mWptr := b.mWptr + (xs.take q.room).length } (q.push xs) := by
  have hroom := h.remainSize_eq
  rw [remainSize] at hroom
  obtain ⟨hordered, hunread⟩ := h.ordered.push (xs.take q.room) (by
    rw [List.length_take]
    omega)
  refine ⟨hordered, h.hole, ?_, h.size⟩
  rw [hunread, h.stored]
  rfl

theorem append (h : Represents b q) {buf : List β} {len : ℤ} (fits : len ≤ buf.length) :
    Represents (b.append buf len).1 (q.push (buf.take len.toNat)) ∧
      (b.append buf len).2 = (min (buf.take len.toNat).length q.room : ℕ) := by
  rcases le_or_gt len 0 with hneg | hpos
  · rw [BufferBase.append, if_pos hneg, Int.toNat_of_nonpos hneg, List.take_zero, q.push_nil]
    exact ⟨h, by simp⟩
  · have hroom := h.remainSize_eq
    have hmin : (min len b.remainSize).toNat = min q.room len.toNat := by omega
    have hcut : (buf.take len.toNat).take q.room = buf.take (min q.room len.toNat) :=
      List.take_take
    have hlength : ((buf.take (min q.room len.toNat)).length : ℤ) = min len b.remainSize := by
      rw [List.length_take]
      omega
    have hpush := h.push (buf.take len.toNat)
    rw [hcut, hlength] at hpush
    rw [append_eq b buf hpos, hmin]
    refine ⟨hpush, ?_⟩
    rw [List.length_take]
    omega

theorem appendChar (h : Represents b q) (c : β) :
    Represents (b.appendChar c).1 (q.push [c]) ∧
      (b.appendChar c).2 = (min 1 q.room : ℕ) := by
  rw [appendChar_eq h.ordered]
  exact h.append (le_refl _)

theorem appendBuffer (h : Represents b q) {buf : BufferBase β} (hbuf : buf.Ordered) :
    Represents (b.appendBuffer buf).1 (q.push buf.unread) ∧
      (b.appendBuffer buf).2 = (min buf.unread.length q.room : ℕ) := by
  have hle := hbuf.rptr_le
  have hlength : buf.dataSize = buf.unread.length := by
    rw [unread, length_readBlock, dataSize]
    omega
  have happ := h.append hlength.le
  rwa [hlength, Int.toNat_natCast, List.take_length, ← hlength] at happ

theorem appendString (h : Represents b q) (str : List β) :
    Represents (b.appendString str)
      (q.push (str.take (intLength str).toNat)) :=
  (h.append (intLength_le str)).1

theorem readIn (h : Represents b q) (ys : List β) :
    Represents (b.readIn (.ok (ys.take b.remainSize.toNat))).1 (q.push ys) ∧
      (b.readIn (.ok (ys.take b.remainSize.toNat))).2 = (min ys.length q.room : ℕ) := by
  rw [h.remainSize_eq, Int.toNat_natCast]
  refine ⟨h.push ys, ?_⟩
  rw [BufferBase.readIn, List.length_take, min_comm]

theorem clear (h : Represents b q) : Represents b.clear (LinearQueue.empty : LinearQueue β cap) where
  ordered := h.ordered.clear
  hole := by simp [BufferBase.clear, LinearQueue.empty]
  stored := unread_clear b
  size := h.size

theorem bzero [Zero β] (h : Represents b q) :
    Represents b.bzero (LinearQueue.empty : LinearQueue β cap) where
  ordered := ⟨h.clear.ordered.data_le, h.clear.ordered.rptr_le, h.clear.ordered.wptr_le⟩
  hole := h.clear.hole
  stored := by simp [unread, dataSize, BufferBase.bzero, BufferBase.clear, LinearQueue.empty]
  size := h.size

theorem writeOut (h : Represents b q) (k : ℕ) :
    Represents (b.writeOut (min (k : ℤ) b.dataSize)).1 (q.pop k) ∧
      (b.writeOut (min (k : ℤ) b.dataSize)).2 =
        (((min k q.stored.length : ℕ) : ℤ), q.stored.take k) := by
  have hdata := h.dataSize_eq
  rcases Nat.lt_or_ge k q.stored.length with hshort | hall
  · -- a short write leaves a hole
    obtain ⟨hhole, hstored⟩ := LinearQueue.pop_of_lt hshort
    have hn : min (k : ℤ) b.dataSize = k := by omega
    obtain ⟨hordered, hsplit, -⟩ := writeOut_spec h.ordered (n := k) (by omega) (by omega)
    rw [hn]
    rw [writeOut_short b (Int.natCast_nonneg k) (by omega)] at hordered hsplit ⊢
    simp only [Int.toNat_natCast] at hsplit
    have hlength : (readBlock b.mem b.mRptr k).length = k := length_readBlock ..
    rw [h.stored] at hsplit
    have htake : q.stored.take k = readBlock b.mem b.mRptr k := by
      rw [← hsplit, List.take_left' hlength]
    refine ⟨⟨hordered, ?_, ?_, h.size⟩, ?_⟩
    · have hold := h.hole
      simp only [hhole]
      omega
    · rw [hstored, ← hsplit, List.drop_left' hlength]
    · rw [htake, Int.toNat_natCast, Nat.min_eq_left hshort.le]
  · rw [LinearQueue.pop_of_le hall, List.take_of_length_le hall, Nat.min_eq_right hall]
    have hn : min (k : ℤ) b.dataSize = b.dataSize := by omega
    rw [hn]
    by_cases hnil : q.stored = []
    · -- nothing to write: there is no call of `::write`
      rw [LinearQueue.eq_empty hnil] at h hdata
      have hnone : b.dataSize ≤ 0 := by
        rw [hdata]
        exact le_refl _
      rw [BufferBase.writeOut, if_pos hnone, hnil]
      exact ⟨h, rfl⟩
    · have hpos : 0 < b.dataSize := by
        have hlength := List.length_pos_iff.mpr hnil
        omega
      rw [writeOut_complete b hpos, h.stored, hdata]
      exact ⟨h.clear, rfl⟩

theorem empty_eq (h : Represents b q) : b.empty = q.stored.isEmpty := by
  have hdata := h.dataSize_eq
  rw [dataSize] at hdata
  rw [BufferBase.empty, Bool.eq_iff_iff, decide_eq_true_iff, List.isEmpty_iff_length_eq_zero]
  omega

theorem full_eq (h : Represents b q) :
    b.full = decide (q.hole + q.stored.length = cap) := by
  have hdata := h.dataSize_eq
  have hhole := h.hole
  have hsize := h.size
  rw [dataSize] at hdata
  exact decide_eq_decide.mpr (by omega)

/-- A call has the answer that the queue gives, and both go on alike. -/
theorem call [Zero β] (h : Represents b q) (c : Call β) :
    (b.call c).2 = (queueCall q c).2 ∧ Represents (b.call c).1 (queueCall q c).1 := by
  cases c with
  | append buf len fits =>
    obtain ⟨hnext, hn⟩ := h.append fits
    exact ⟨congrArg Answer.number hn, hnext⟩
  | appendChar c =>
    obtain ⟨hnext, hn⟩ := h.appendChar c
    exact ⟨congrArg Answer.number hn, hnext⟩
  | appendBuffer buf ordered =>
    obtain ⟨hnext, hn⟩ := h.appendBuffer ordered
    exact ⟨congrArg Answer.number hn, hnext⟩
  | appendSelf =>
    obtain ⟨hnext, hn⟩ := h.appendBuffer h.ordered
    rw [h.stored] at hnext hn
    exact ⟨congrArg Answer.number hn, hnext⟩
  | appendString str => exact ⟨rfl, h.appendString str⟩
  | readIn arrived =>
    cases arrived with
    | none => exact ⟨rfl, h⟩
    | some ys =>
      obtain ⟨hnext, hn⟩ := h.readIn ys
      exact ⟨congrArg Answer.number hn, hnext⟩
  | writeOut taken =>
    cases taken with
    | none =>
      have hdata := h.dataSize_eq
      by_cases hnil : q.stored = []
      · have hnone : b.dataSize ≤ 0 := by
          rw [hdata, hnil]
          exact le_refl _
        simp only [BufferBase.call, queueCall, BufferBase.writeOut, if_pos hnone, if_pos hnil]
        exact ⟨trivial, h⟩
      · have hpos : 0 < b.dataSize := by
          have hlength := List.length_pos_iff.mpr hnil
          omega
        simp only [BufferBase.call, queueCall, writeOut_failed b hpos (by decide : (-1 : ℤ) < 0),
          if_neg hnil]
        exact ⟨trivial, h⟩
    | some k =>
      obtain ⟨hnext, hn⟩ := h.writeOut k
      refine ⟨?_, hnext⟩
      simp only [BufferBase.call, queueCall, hn]
  | clear => exact ⟨rfl, h.clear⟩
  | bzero => exact ⟨rfl, h.bzero⟩
  | dataSize => exact ⟨congrArg Answer.number h.dataSize_eq, h⟩
  | totalSize =>
    refine ⟨congrArg Answer.number ?_, h⟩
    have hsize := h.size
    rw [BufferBase.totalSize]
    omega
  | remainSize => exact ⟨congrArg Answer.number h.remainSize_eq, h⟩
  | empty => exact ⟨congrArg Answer.flag h.empty_eq, h⟩
  | full => exact ⟨congrArg Answer.flag h.full_eq, h⟩
  | toString => exact ⟨congrArg Answer.bytes h.stored, h⟩

end Represents

/-- A buffer of any size gives to every list of calls the answers of a bounded queue, and is in
the end in the state of the queue. -/
theorem buffer_answers [Zero β] (mem : ℤ → β) (data : ℤ) (cap : ℕ) (cs : List (Call β)) :
    answers call (new mem data cap) cs = answers queueCall (LinearQueue.empty : LinearQueue β cap) cs ∧
      Represents (after call (new mem data cap) cs)
        (after queueCall (LinearQueue.empty : LinearQueue β cap) cs) :=
  simulation (fun _ _ c h => h.call c) (Represents.new mem data cap) cs

end GenericServer.BufferBase
