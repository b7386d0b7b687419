import Mathlib.Data.Int.Notation
import Mathlib.Data.List.Basic
import Mathlib.Tactic.SplitIfs

/-!
# Words and comparisons of bytes

The number that bytes in little-endian order stand for, and `memcmp`.
-/
namespace GenericServer.ByteWords

def word : List UInt8 → ℕ
  | [] => 0
  | b :: bs => b.toNat + 256 * word bs

/-- Negative, zero or positive, as the first byte that differs. -/
def memcmp : List UInt8 → List UInt8 → ℤ
  | a :: as, b :: bs => if a = b then memcmp as bs else (a.toNat : ℤ) - b.toNat
  | _, _ => 0

theorem word_inj {xs ys : List UInt8} (h : xs.length = ys.length) : word xs = word ys ↔ xs = ys := by
  refine ⟨fun heq => ?_, congrArg word⟩
  induction xs generalizing ys with
  | nil => exact (List.length_eq_zero_iff.mp h.symm).symm
  | cons x xs ih =>
    cases ys with
    | nil => cases h
    | cons y ys =>
      have hx := x.toNat_lt
      have hy := y.toNat_lt
      simp only [word] at heq
      have hhead : x = y := UInt8.toNat_inj.mp (by omega)
      have htail : xs = ys := ih (Nat.succ.inj h) (by omega)
      rw [hhead, htail]

theorem memcmp_eq_zero {xs ys : List UInt8} (h : xs.length = ys.length) :
    memcmp xs ys = 0 ↔ xs = ys := by
  induction xs generalizing ys with
  | nil =>
    obtain rfl := List.length_eq_zero_iff.mp h.symm
    exact iff_of_true rfl rfl
  | cons x xs ih =>
    cases ys with
    | nil => cases h
    | cons y ys =>
      rw [memcmp, List.cons.injEq]
      split_ifs with heq
      · rw [ih (Nat.succ.inj h), and_iff_right heq]
      · refine iff_of_false (fun hzero => heq (UInt8.toNat_inj.mp (by omega))) fun hboth => ?_
        exact heq hboth.1

end GenericServer.ByteWords
