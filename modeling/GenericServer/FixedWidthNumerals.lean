import Mathlib.Algebra.Group.Nat.Defs
import Mathlib.Data.List.Basic
import Mathlib.Tactic.SplitIfs

/-!
# Decimal numerals of a fixed width

Texts of the same length are compared place by place, so that numerals with leading zeros are in
the order of their numbers.
-/
namespace GenericServer.FixedWidthNumerals

/-! ## Concatenations in lexicographic order -/

section Append

variable {α : Type*} {xs ys as bs : List α}

theorem append_lt_append_iff [LT α] (h : xs.length = ys.length) :
    xs ++ as < ys ++ bs ↔ xs < ys ∨ xs = ys ∧ as < bs := by
  induction xs generalizing ys with
  | nil =>
    obtain rfl := List.length_eq_zero_iff.mp h.symm
    simp
  | cons x xs ih =>
    cases ys with
    | nil => cases h
    | cons y ys =>
      rw [List.cons_append, List.cons_append, List.cons_lt_cons_iff, List.cons_lt_cons_iff,
        ih (Nat.succ.inj h), List.cons.injEq]
      constructor
      · rintro (hlt | ⟨heq, hlt | ⟨hxs, has⟩⟩)
        · exact .inl (.inl hlt)
        · exact .inl (.inr ⟨heq, hlt⟩)
        · exact .inr ⟨⟨heq, hxs⟩, has⟩
      · rintro ((hlt | ⟨heq, hlt⟩) | ⟨⟨heq, hxs⟩, has⟩)
        · exact .inl hlt
        · exact .inr ⟨heq, .inl hlt⟩
        · exact .inr ⟨heq, .inr ⟨hxs, has⟩⟩

theorem append_eq_append_iff (h : xs.length = ys.length) :
    xs ++ as = ys ++ bs ↔ xs = ys ∧ as = bs := by
  constructor
  · intro heq
    exact List.append_inj heq h
  · rintro ⟨rfl, rfl⟩
    rfl

end Append

/-! ## Numerals -/

/-- The last `w` digits of `n`. -/
def numeral : ℕ → ℕ → List Char
  | 0, _ => []
  | w + 1, n => numeral w (n / 10) ++ [Nat.digitChar (n % 10)]

theorem length_numeral (w n : ℕ) : (numeral w n).length = w := by
  induction w generalizing n with
  | zero => rfl
  | succ w ih => rw [numeral, List.length_append, ih, List.length_singleton]

theorem digitChar_lt_iff : ∀ m < 10, ∀ n < 10, Nat.digitChar m < Nat.digitChar n ↔ m < n := by
  decide

theorem digitChar_inj_iff : ∀ m < 10, ∀ n < 10, Nat.digitChar m = Nat.digitChar n ↔ m = n := by
  decide

theorem numeral_cases {w m n : ℕ} (hm : m < 10 ^ w) (hn : n < 10 ^ w) :
    (numeral w m < numeral w n ↔ m < n) ∧ (numeral w m = numeral w n ↔ m = n) := by
  induction w generalizing m n with
  | zero =>
    rw [Nat.pow_zero] at hm hn
    obtain rfl : m = 0 := by omega
    obtain rfl : n = 0 := by omega
    simp [numeral]
  | succ w ih =>
    rw [Nat.pow_succ] at hm hn
    obtain ⟨hlt, heq⟩ := ih (m := m / 10) (n := n / 10) (by omega) (by omega)
    have hlength : (numeral w (m / 10)).length = (numeral w (n / 10)).length := by
      rw [length_numeral, length_numeral]
    have hm' := Nat.mod_lt m (show 0 < 10 by decide)
    have hn' := Nat.mod_lt n (show 0 < 10 by decide)
    have hdigit := digitChar_lt_iff _ hm' _ hn'
    have hsame := digitChar_inj_iff _ hm' _ hn'
    rw [numeral, numeral, append_lt_append_iff hlength, append_eq_append_iff hlength,
      List.cons_lt_cons_iff, List.singleton_inj, hlt, heq, hdigit, hsame]
    constructor
    · simp only [List.not_lt_nil, and_false, or_false]
      omega
    · omega

/-- A numeral in a text, in front of the same number of characters or more. -/
theorem numeral_append_lt_iff {w m n : ℕ} (hm : m < 10 ^ w) (hn : n < 10 ^ w) (as bs : List Char) :
    numeral w m ++ as < numeral w n ++ bs ↔ m < n ∨ m = n ∧ as < bs := by
  rw [append_lt_append_iff (by rw [length_numeral, length_numeral]), (numeral_cases hm hn).1,
    (numeral_cases hm hn).2]

theorem numeral_append_eq_iff {w m n : ℕ} (hm : m < 10 ^ w) (hn : n < 10 ^ w)
    (as bs : List Char) : numeral w m ++ as = numeral w n ++ bs ↔ m = n ∧ as = bs := by
  rw [append_eq_append_iff (by rw [length_numeral, length_numeral]), (numeral_cases hm hn).2]

theorem numeral_zero (w : ℕ) : numeral w 0 = List.replicate w '0' := by
  induction w with
  | zero => rfl
  | succ w ih =>
    rw [numeral, Nat.zero_div, ih, List.replicate_succ']
    rfl

theorem leftpad_toDigits {w n : ℕ} (hn : n < 10 ^ (w + 1)) :
    (Nat.toDigits 10 n).leftpad (w + 1) '0' = numeral (w + 1) n := by
  induction w generalizing n with
  | zero =>
    have hlt : n < 10 := by simpa using hn
    rw [Nat.toDigits_eq_if (by decide), if_pos hlt, numeral, Nat.mod_eq_of_lt hlt]
    rfl
  | succ w ih =>
    rw [Nat.toDigits_eq_if (by decide), numeral]
    split_ifs with hlt
    · rw [Nat.div_eq_of_lt hlt, numeral_zero, Nat.mod_eq_of_lt hlt]
      rfl
    · have hdiv : n / 10 < 10 ^ (w + 1) := by
        rw [Nat.pow_succ] at hn
        omega
      rw [← ih hdiv, List.leftpad, List.leftpad, List.append_assoc, List.length_append,
        List.length_singleton, Nat.add_sub_add_right]

end GenericServer.FixedWidthNumerals
