import Mathlib.Algebra.Group.Nat.Defs
import Mathlib.Data.Int.Notation
import Mathlib.Data.List.Basic
import Mathlib.Tactic.SplitIfs

/-!
# Decimal numerals

The canonical decimal text of an integer, over the digits of `Nat.toDigits`.
-/
namespace GenericServer.Decimals

def decimal (v : ℤ) : List Char :=
  if v < 0 then '-' :: Nat.toDigits 10 v.natAbs else Nat.toDigits 10 v.natAbs

def valueOf (cs : List Char) : ℤ :=
  if cs.head? = some '-' then -(Nat.ofDigitChars 10 cs.tail 0 : ℤ) else Nat.ofDigitChars 10 cs 0

/-- A sign where `v` is negative, then digits, of which the first is a zero only where it is the
only one. -/
def Canonical (v : ℤ) (cs : List Char) : Prop :=
  ∃ ds, cs = (if v < 0 then '-' :: ds else ds) ∧ ds ≠ [] ∧ (∀ c ∈ ds, c.isDigit = true) ∧
    (ds.head? = some '0' → ds = ['0'])

theorem head?_toDigits {n : ℕ} (hn : n ≠ 0) : (Nat.toDigits 10 n).head? ≠ some '0' := by
  induction n using Nat.strongRecOn with
  | ind n ih =>
    rw [Nat.toDigits_eq_if (by decide)]
    split_ifs with hlt
    · simpa using hn
    · have hdiv : n / 10 ≠ 0 := by omega
      rw [List.head?_append_of_ne_nil _ Nat.toDigits_ne_nil]
      exact ih (n / 10) (by omega) hdiv

theorem canonical_decimal (v : ℤ) : Canonical v (decimal v) := by
  refine ⟨Nat.toDigits 10 v.natAbs, rfl, Nat.toDigits_ne_nil,
    fun c hc => Nat.isDigit_of_mem_toDigits (by decide) (by decide) hc, fun hhead => ?_⟩
  by_cases hv : v.natAbs = 0
  · rw [hv, Nat.toDigits_zero]
  · exact absurd hhead (head?_toDigits hv)

theorem valueOf_decimal (v : ℤ) : valueOf (decimal v) = v := by
  unfold valueOf decimal
  split_ifs with hneg hsign hsign
  · rw [List.tail_cons, Nat.ofDigitChars_ten_toDigits]
    omega
  · exact absurd rfl hsign
  · have hdigit := Nat.isDigit_of_mem_toDigits (b := 10) (by decide) (by decide)
      (List.mem_of_mem_head? hsign)
    exact absurd hdigit (by decide)
  · rw [Nat.ofDigitChars_ten_toDigits]
    omega

theorem isDigit_of_mem_decimal {v : ℤ} {c : Char} (h : c ∈ decimal v) :
    c = '-' ∨ c.isDigit = true := by
  have hdigit : c ∈ Nat.toDigits 10 v.natAbs → c.isDigit = true :=
    Nat.isDigit_of_mem_toDigits (by decide) (by decide)
  unfold decimal at h
  split_ifs at h
  · exact (List.mem_cons.mp h).imp_right hdigit
  · exact .inr (hdigit h)

theorem length_decimal_le {v : ℤ} {k : ℕ} (hk : 0 < k) (hv : v.natAbs < 10 ^ k) :
    (decimal v).length ≤ k + if v < 0 then 1 else 0 := by
  have hdigits := (Nat.length_toDigits_le_iff (b := 10) (by decide) hk).mpr hv
  unfold decimal
  split_ifs
  · exact Nat.succ_le_succ hdigits
  · exact hdigits

/-- The digits from the last one on, as a repeated division by ten produces them. -/
theorem reverse_toDigits (n : ℕ) : (Nat.toDigits 10 n).reverse =
    Nat.digitChar (n % 10) :: if n / 10 = 0 then [] else (Nat.toDigits 10 (n / 10)).reverse := by
  rw [Nat.toDigits_eq_if (by decide)]
  split_ifs with hlt hdiv hdiv
  · rw [Nat.mod_eq_of_lt hlt]
    rfl
  · omega
  · omega
  · rw [List.reverse_append]
    rfl

end GenericServer.Decimals
