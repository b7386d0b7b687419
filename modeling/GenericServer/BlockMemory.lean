import Mathlib.Data.Int.Notation
import Mathlib.Data.List.Basic
import Mathlib.Tactic.SplitIfs

/-!
# Memory addressed by integers, with block reads and block writes

The effect of `memcpy` on a memory `ℤ → β`: a block write replaces the cells
`[dst, dst + n)`, a block read lists the cells `[src, src + n)`.
-/
namespace GenericServer.BlockMemory

variable {β : Type*}

/-- Overwrite the cells from `dst` on with `xs`. -/
def writeBlock (mem : ℤ → β) (dst : ℤ) (xs : List β) : ℤ → β := fun a =>
  if h : dst ≤ a ∧ (a - dst).toNat < xs.length then xs[(a - dst).toNat] else mem a

/-- The `n` cells from `src` on. -/
def readBlock (mem : ℤ → β) (src : ℤ) (n : ℕ) : List β :=
  (List.range n).map (fun i : ℕ => mem (src + i))

@[simp] theorem length_readBlock (mem : ℤ → β) (src : ℤ) (n : ℕ) :
    (readBlock mem src n).length = n := by simp [readBlock]

@[simp] theorem getElem_readBlock (mem : ℤ → β) (src : ℤ) (n i : ℕ)
    (h : i < (readBlock mem src n).length) : (readBlock mem src n)[i] = mem (src + i) := by
  simp [readBlock]

@[simp] theorem readBlock_zero (mem : ℤ → β) (src : ℤ) : readBlock mem src 0 = [] := rfl

theorem readBlock_add (mem : ℤ → β) (src : ℤ) (m n : ℕ) :
    readBlock mem src (m + n) = readBlock mem src m ++ readBlock mem (src + m) n := by
  apply List.ext_getElem
  · simp
  · intro i hi hj
    by_cases h : i < m
    · simp [h]
    · have hi : src + (m : ℤ) + ((i - m : ℕ) : ℤ) = src + i := by omega
      simp [List.getElem_append, h, hi]

theorem readBlock_eq_of_forall {mem : ℤ → β} {src : ℤ} {xs : List β}
    (h : ∀ i, (hi : i < xs.length) → mem (src + i) = xs[i]) : readBlock mem src xs.length = xs := by
  apply List.ext_getElem
  · simp
  · intro i _ hi
    simpa using h i hi

theorem writeBlock_of_lt {mem : ℤ → β} {dst a : ℤ} {xs : List β} (h : a < dst) :
    writeBlock mem dst xs a = mem a := by
  rw [writeBlock, dif_neg]
  omega

theorem writeBlock_of_le {mem : ℤ → β} {dst a : ℤ} {xs : List β} (h : dst + xs.length ≤ a) :
    writeBlock mem dst xs a = mem a := by
  rw [writeBlock, dif_neg]
  omega

theorem writeBlock_add {mem : ℤ → β} {dst : ℤ} {xs : List β} (i : ℕ) (hi : i < xs.length) :
    writeBlock mem dst xs (dst + i) = xs[i] := by
  have h : dst ≤ dst + (i : ℤ) ∧ (dst + (i : ℤ) - dst).toNat < xs.length := by omega
  have hidx : (dst + (i : ℤ) - dst).toNat = i := by omega
  rw [writeBlock, dif_pos h]
  simp only [hidx]

theorem writeBlock_nil (mem : ℤ → β) (dst : ℤ) : writeBlock mem dst [] = mem :=
  funext fun _ => dif_neg fun h => Nat.not_lt_zero _ h.2

theorem readBlock_writeBlock_of_le {mem : ℤ → β} {src dst : ℤ} {n : ℕ} {xs : List β}
    (h : src + n ≤ dst) : readBlock (writeBlock mem dst xs) src n = readBlock mem src n := by
  apply List.ext_getElem
  · simp
  · intro i hi _
    simp only [length_readBlock] at hi
    simpa using writeBlock_of_lt (by omega)

theorem readBlock_writeBlock_self (mem : ℤ → β) (dst : ℤ) (xs : List β) :
    readBlock (writeBlock mem dst xs) dst xs.length = xs :=
  readBlock_eq_of_forall (fun i hi => writeBlock_add i hi)

theorem writeBlock_append (mem : ℤ → β) (dst : ℤ) (xs ys : List β) :
    writeBlock (writeBlock mem dst xs) (dst + xs.length) ys = writeBlock mem dst (xs ++ ys) := by
  funext a
  by_cases hlt : a < dst + xs.length
  · rw [writeBlock_of_lt hlt]
    by_cases hle : dst ≤ a
    · obtain ⟨i, rfl⟩ := Int.le.dest hle
      rw [writeBlock_add i (by omega), writeBlock_add i (by rw [List.length_append]; omega),
        List.getElem_append_left]
    · rw [writeBlock_of_lt (by omega), writeBlock_of_lt (by omega)]
  · obtain ⟨i, rfl⟩ := Int.le.dest (Int.not_lt.mp hlt)
    by_cases hi : i < ys.length
    · have hcell : dst + (xs.length : ℤ) + (i : ℤ) = dst + ((xs.length + i : ℕ) : ℤ) := by omega
      rw [writeBlock_add i hi, hcell,
        writeBlock_add (xs.length + i) (by rw [List.length_append]; omega),
        List.getElem_append_right (by omega)]
      simp
    · rw [writeBlock_of_le (by omega), writeBlock_of_le (by omega),
        writeBlock_of_le (by rw [List.length_append]; omega)]

theorem writeBlock_front (mem : ℤ → β) (dst : ℤ) {xs ys : List β} (zs : List β)
    (h : xs.length = ys.length) :
    writeBlock (writeBlock mem dst (xs ++ zs)) dst ys = writeBlock mem dst (ys ++ zs) := by
  funext a
  by_cases hlt : a < dst
  · rw [writeBlock_of_lt hlt, writeBlock_of_lt hlt, writeBlock_of_lt hlt]
  · obtain ⟨i, rfl⟩ := Int.le.dest (Int.not_lt.mp hlt)
    by_cases hys : i < ys.length
    · rw [writeBlock_add i hys, writeBlock_add i (by rw [List.length_append]; omega),
        List.getElem_append_left]
    · rw [writeBlock_of_le (by omega)]
      by_cases hzs : i < ys.length + zs.length
      · rw [writeBlock_add i (by rw [List.length_append]; omega),
          writeBlock_add i (by rw [List.length_append]; omega),
          List.getElem_append_right (by omega), List.getElem_append_right (by omega)]
        simp only [h]
      · rw [writeBlock_of_le (by rw [List.length_append]; omega),
          writeBlock_of_le (by rw [List.length_append]; omega)]

end GenericServer.BlockMemory
