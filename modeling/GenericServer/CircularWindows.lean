import GenericServer.BlockMemory
import Mathlib.Tactic.Linarith

/-!
# A list stored in a circular window of a memory

`Window mem m out xs` says that the `m` cells `[0, m)` of `mem`, read as a circle
from position `out` on, start with `xs`. Positions wrap at most once, so every
index fact is linear arithmetic.
-/
namespace GenericServer.CircularWindows

open BlockMemory

variable {β : Type*}

/-- The position `i` cells after `out` on a circle of `m` cells. -/
def cell (m out i : ℤ) : ℤ := if out + i < m then out + i else out + i - m

theorem cell_of_lt {m out i : ℤ} (h : out + i < m) : cell m out i = out + i := if_pos h

theorem cell_of_le {m out i : ℤ} (h : m ≤ out + i) : cell m out i = out + i - m :=
  if_neg (by omega)

theorem cell_nonneg {m out i : ℤ} (ho : 0 ≤ out) (hi : 0 ≤ i) : 0 ≤ cell m out i := by
  unfold cell
  split_ifs <;> omega

theorem cell_lt {m out i : ℤ} (ho : out < m) (hi : i ≤ m) : cell m out i < m := by
  unfold cell
  split_ifs <;> omega

theorem cell_cell {m out i j : ℤ} (ho : out < m) (hj : 0 ≤ j) (h : i + j ≤ m) :
    cell m (cell m out i) j = cell m out (i + j) := by
  unfold cell
  split_ifs <;> omega

theorem cell_ne {m out i j : ℤ} (hij : i < j) (hj : j < m + i) :
    cell m out i ≠ cell m out j := by
  unfold cell
  split_ifs <;> omega

/-- The cells of the circle from `out` on hold `xs`. -/
def Window (mem : ℤ → β) (m out : ℤ) (xs : List β) : Prop :=
  ∀ i, (hi : i < xs.length) → mem (cell m out i) = xs[i]

theorem window_nil (mem : ℤ → β) (m out : ℤ) : Window mem m out [] := by
  intro i hi
  simp at hi

variable {mem : ℤ → β} {m out : ℤ} {xs ys : List β}

theorem Window.append_left (h : Window mem m out (xs ++ ys)) : Window mem m out xs := by
  intro i hi
  rw [h i (by simp; omega), List.getElem_append_left hi]

theorem Window.drop (h : Window mem m out xs) (ho : out < m) (hm : xs.length ≤ m) (k : ℕ) :
    Window mem m (cell m out k) (xs.drop k) := by
  intro i hi
  have hlen : k + i < xs.length := by
    rw [List.length_drop] at hi
    omega
  rw [cell_cell ho (by omega) (by omega), List.getElem_drop]
  simpa using h (k + i) hlen

theorem Window.writeBlock (h : Window mem m out xs)
    (hlen : xs.length + ys.length ≤ m)
    (hend : cell m out xs.length + ys.length ≤ m) :
    Window (BlockMemory.writeBlock mem (cell m out xs.length) ys) m out (xs ++ ys) := by
  intro i hi
  rw [List.length_append] at hi
  by_cases hix : i < xs.length
  · rw [List.getElem_append_left hix, ← h i hix]
    by_cases hlt : cell m out i < cell m out xs.length
    · exact writeBlock_of_lt hlt
    · -- the window has wrapped, so the old element lies behind the written block
      apply writeBlock_of_le
      unfold cell at *
      split_ifs at * <;> omega
  · have hcell : cell m out i = cell m out xs.length + ((i - xs.length : ℕ) : ℤ) := by
      unfold cell at *
      split_ifs at * <;> omega
    rw [hcell, writeBlock_add (i - xs.length) (by omega), List.getElem_append_right (by omega)]

theorem Window.readBlock (h : Window mem m out xs) {k : ℕ} (hk : k ≤ xs.length)
    (hend : out + k ≤ m) : BlockMemory.readBlock mem out k = xs.take k := by
  have hlen : (xs.take k).length = k := by simp [hk]
  have hread : BlockMemory.readBlock mem out (xs.take k).length = xs.take k := by
    apply readBlock_eq_of_forall
    intro i hi
    rw [List.getElem_take, ← h i (by omega), cell_of_lt (by omega)]
  rwa [hlen] at hread

end GenericServer.CircularWindows
