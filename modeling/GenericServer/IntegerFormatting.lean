import GenericServer.BlockMemory
import GenericServer.Decimals
import Mathlib.Algebra.Group.Int.Defs

/-!
# Integer formatting

`convert` of `src/Util.cpp`, for the two's complement integer types of any width.
-/
namespace GenericServer.IntegerFormatting

open BlockMemory Decimals

structure IntType where
  signed : Bool
  width : ℕ
  le_width : 8 ≤ width

def IntType.InRange (T : IntType) (v : ℤ) : Prop :=
  if T.signed = true then -2 ^ (T.width - 1) ≤ v ∧ v < 2 ^ (T.width - 1)
  else 0 ≤ v ∧ v < 2 ^ T.width

instance decidableInRange (T : IntType) (v : ℤ) : Decidable (T.InRange v) :=
  inferInstanceAs (Decidable (if T.signed = true then _ else _))

/-- A value of the type `T`, unless it overflows. -/
def IntType.checked (T : IntType) (v : ℤ) : Option ℤ := if T.InRange v then some v else none

def int : IntType := ⟨true, 32, by decide⟩

def NUL : Char := Char.ofNat 0

def digits : List Char :=
  ['9', '8', '7', '6', '5', '4', '3', '2', '1', '0', '1', '2', '3', '4', '5', '6', '7', '8', '9']

/-- `zero[lsd]`, where `zero` points to the middle of the table. -/
def zero (lsd : ℤ) : Option Char := if 0 ≤ lsd + 9 then digits[(lsd + 9).toNat]? else none

/-- The loop of `convert`: the memory and the pointer behind the last digit. -/
def loop (T : IntType) : ℕ → (ℤ → Char) → ℤ → ℤ → Option ((ℤ → Char) × ℤ)
  | 0, _, _, _ => none
  | fuel + 1, mem, p, i => do
    let lsd ← int.checked (← T.checked (i.tmod 10))
    let i ← T.checked (i.tdiv 10)
    let mem := writeBlock mem p [← zero lsd]
    if i = 0 then some (mem, p + 1) else loop T fuel mem (p + 1) i

/-- The memory after `convert` and its result. There is none where the fuel runs out, where a
value does not fit its type, or outside of the table. -/
def convert (T : IntType) (fuel : ℕ) (mem : ℤ → Char) (buf value : ℤ) :
    Option ((ℤ → Char) × ℤ) := do
  let (mem, p) ← loop T fuel mem buf value
  let (mem, p) := if value < 0 then (writeBlock mem p ['-'], p + 1) else (mem, p)
  let mem := writeBlock mem p [NUL]
  let mem := writeBlock mem buf (readBlock mem buf (p - buf).toNat).reverse
  some (mem, p - buf)

/-- `[buf, buf + n)` holds the text of `v`, which is canonical and denotes `v`, and ends with a
`NUL`; nothing else has been written. -/
structure Formatted (mem mem' : ℤ → Char) (buf : ℤ) (n : ℕ) (v : ℤ) : Prop where
  text : readBlock mem' buf n = decimal v
  canonical : Canonical v (readBlock mem' buf n)
  value : valueOf (readBlock mem' buf n) = v
  terminated : mem' (buf + n) = NUL
  frame : ∀ a, a < buf ∨ buf + n < a → mem' a = mem a

variable {T : IntType} {i v : ℤ} {fuel : ℕ}

theorem IntType.InRange.natAbs_lt (h : T.InRange v) :
    v.natAbs < 10 ^ T.width ∧ (v < 0 → v.natAbs < 10 ^ (T.width - 1)) := by
  have hwidth := T.le_width
  have hsucc : 2 ^ T.width = 2 * 2 ^ (T.width - 1) := by
    rw [← Nat.pow_succ', Nat.succ_eq_add_one, Nat.sub_add_cancel (by omega)]
  have hall : 2 ^ T.width < 10 ^ T.width := Nat.pow_lt_pow_left (by decide) (by omega)
  have hneg : 2 ^ (T.width - 1) < 10 ^ (T.width - 1) := Nat.pow_lt_pow_left (by decide) (by omega)
  have hcast : ∀ k, (2 : ℤ) ^ k = (2 ^ k : ℕ) := fun k => (Int.natCast_pow 2 k).symm
  unfold IntType.InRange at h
  rw [hcast, hcast] at h
  generalize 2 ^ T.width = a at *
  generalize 2 ^ (T.width - 1) = b at *
  split_ifs at h <;> omega

theorem IntType.InRange.tdiv (h : T.InRange i) : T.InRange (i.tdiv 10) := by
  have hle := Int.natAbs_tdiv_le_natAbs i 10
  rcases Int.le_total 0 i with hi | hi
  · have hsign := Int.tdiv_nonneg hi (by decide : (0 : ℤ) ≤ 10)
    unfold IntType.InRange at h ⊢
    split_ifs at h ⊢ <;> omega
  · have hsign := Int.tdiv_nonneg (Int.neg_nonneg_of_nonpos hi) (by decide : (0 : ℤ) ≤ 10)
    rw [Int.neg_tdiv] at hsign
    unfold IntType.InRange at h ⊢
    split_ifs at h ⊢ <;> omega

theorem IntType.InRange.of_digit {d : ℤ} (hd : d.natAbs < 10) (hsign : T.signed = false → 0 ≤ d) :
    T.InRange d := by
  have hwidth := T.le_width
  have hsmall : (2 : ℤ) ^ 7 ≤ 2 ^ (T.width - 1) := by
    exact_mod_cast Nat.pow_le_pow_right (by decide : 0 < 2) (by omega : 7 ≤ T.width - 1)
  have hlarge : (2 : ℤ) ^ 7 ≤ 2 ^ T.width := by
    exact_mod_cast Nat.pow_le_pow_right (by decide : 0 < 2) (by omega : 7 ≤ T.width)
  unfold IntType.InRange
  split_ifs with hsigned
  · omega
  · have := hsign ((Bool.not_eq_true _).mp hsigned)
    omega

/-- The table is the same on both sides of its middle. -/
theorem zero_eq {lsd : ℤ} (h : lsd.natAbs < 10) : zero lsd = some (Nat.digitChar lsd.natAbs) := by
  have htable : ∀ k < 10, zero (k : ℕ) = some (Nat.digitChar k) ∧
      zero (-(k : ℕ)) = some (Nat.digitChar k) := by decide
  rcases Int.natAbs_eq lsd with heq | heq
  · rw [heq, Int.natAbs_natCast]
    exact (htable _ h).1
  · rw [heq, Int.natAbs_neg, Int.natAbs_natCast]
    exact (htable _ h).2

theorem loop_succ (h : T.InRange i) (mem : ℤ → Char) (p : ℤ) : loop T (fuel + 1) mem p i =
    let mem := writeBlock mem p [Nat.digitChar (i.natAbs % 10)]
    if i.natAbs / 10 = 0 then some (mem, p + 1) else loop T fuel mem (p + 1) (i.tdiv 10) := by
  have habs : (i.tmod 10).natAbs = i.natAbs % 10 := Int.natAbs_tmod i 10
  have hdigit : (i.tmod 10).natAbs < 10 := by omega
  have hmod : T.checked (i.tmod 10) = some (i.tmod 10) := by
    refine if_pos (.of_digit hdigit fun hunsigned => Int.tmod_nonneg 10 ?_)
    rw [IntType.InRange, hunsigned] at h
    exact h.1
  have hint : int.checked (i.tmod 10) = some (i.tmod 10) := if_pos (.of_digit hdigit nofun)
  have hdiv : T.checked (i.tdiv 10) = some (i.tdiv 10) := if_pos h.tdiv
  have hzero : i.tdiv 10 = 0 ↔ i.natAbs / 10 = 0 := by
    rw [← Int.natAbs_eq_zero, Int.natAbs_tdiv]
    rfl
  simp only [loop, hmod, hint, hdiv, zero_eq hdigit, habs, Option.bind_eq_bind, Option.bind_some,
    hzero]

/-- The loop writes the digits from the last one on. -/
theorem loop_eq (h : T.InRange i) (hfuel : (Nat.toDigits 10 i.natAbs).length ≤ fuel)
    (mem : ℤ → Char) (p : ℤ) : loop T fuel mem p i =
      some (writeBlock mem p (Nat.toDigits 10 i.natAbs).reverse,
        p + (Nat.toDigits 10 i.natAbs).length) := by
  induction fuel generalizing i mem p with
  | zero => exact absurd hfuel (Nat.not_le.mpr Nat.length_toDigits_pos)
  | succ fuel ih =>
    have hrev := reverse_toDigits i.natAbs
    have hlen := congrArg List.length hrev
    have hnext : (i.tdiv 10).natAbs = i.natAbs / 10 := Int.natAbs_tdiv i 10
    rw [loop_succ h, hrev]
    dsimp only
    split_ifs at hlen ⊢ with hlast
    · rw [List.length_reverse] at hlen
      rw [hlen]
      rfl
    · rw [List.length_reverse, List.length_cons, List.length_reverse] at hlen
      rw [ih h.tdiv (by rw [hnext]; omega), hnext, hlen]
      have happ := writeBlock_append mem p [Nat.digitChar (i.natAbs % 10)]
        (Nat.toDigits 10 (i.natAbs / 10)).reverse
      have hend : p + 1 + (Nat.toDigits 10 (i.natAbs / 10)).length =
          p + ((Nat.toDigits 10 (i.natAbs / 10)).length + 1 : ℕ) := by
        omega
      rw [List.length_singleton, List.singleton_append] at happ
      rw [← happ, hend]
      rfl

/-- The sign and the `NUL` follow, and the text before the `NUL` is reversed. -/
theorem convert_eq (h : T.InRange v) (hfuel : T.width ≤ fuel) (mem : ℤ → Char) (buf : ℤ) :
    convert T fuel mem buf v =
      some (writeBlock mem buf (decimal v ++ [NUL]), ((decimal v).length : ℤ)) := by
  have hwidth := T.le_width
  have hlen : (Nat.toDigits 10 v.natAbs).length ≤ fuel :=
    Nat.le_trans ((Nat.length_toDigits_le_iff (by decide) (by omega)).mpr h.natAbs_lt.1) hfuel
  have hsigned : ∀ mem' p, p = buf + (Nat.toDigits 10 v.natAbs).length →
      mem' = writeBlock mem buf (Nat.toDigits 10 v.natAbs).reverse →
      (if v < 0 then (writeBlock mem' p ['-'], p + 1) else (mem', p)) =
        (writeBlock mem buf (decimal v).reverse, buf + (decimal v).length) := by
    rintro _ _ rfl rfl
    unfold decimal
    split_ifs
    · have happ := writeBlock_append mem buf (Nat.toDigits 10 v.natAbs).reverse ['-']
      rw [List.length_reverse] at happ
      rw [happ, List.reverse_cons, List.length_cons]
      push_cast
      rw [Int.add_assoc]
    · rfl
  unfold convert
  rw [loop_eq h hlen]
  simp only [Option.bind_eq_bind, Option.bind_some, hsigned _ _ rfl rfl]
  have hsize : (buf + ((decimal v).length : ℤ) - buf).toNat = (decimal v).reverse.length := by
    rw [List.length_reverse]
    omega
  have hnul : writeBlock (writeBlock mem buf (decimal v).reverse) (buf + (decimal v).length) [NUL] =
      writeBlock mem buf ((decimal v).reverse ++ [NUL]) := by
    rw [← writeBlock_append, List.length_reverse]
  rw [hsize, readBlock_writeBlock_of_le (Int.le_of_eq (by rw [List.length_reverse])),
    readBlock_writeBlock_self,
    List.reverse_reverse, hnul, writeBlock_front mem buf [NUL] List.length_reverse]
  congr 2
  omega

theorem length_decimal_le_width (h : T.InRange v) : (decimal v).length ≤ T.width := by
  have hwidth := T.le_width
  by_cases hneg : v < 0
  · have hle := length_decimal_le (by omega) (h.natAbs_lt.2 hneg)
    rw [if_pos hneg] at hle
    omega
  · have hle := length_decimal_le (by omega) h.natAbs_lt.1
    rw [if_neg hneg] at hle
    exact hle

/-- `convert` formats every value of every type. The length of the text is at most the width of
the type, so that it fits in the `int` that is returned. -/
theorem convert_formats (T : IntType) {v : ℤ} (h : T.InRange v) (mem : ℤ → Char) (buf : ℤ) :
    ∃ (mem' : ℤ → Char) (n : ℕ),
      (∀ fuel, T.width ≤ fuel → convert T fuel mem buf v = some (mem', (n : ℤ))) ∧
      Formatted mem mem' buf n v ∧ n ≤ T.width := by
  refine ⟨_, _, fun fuel hfuel => convert_eq h hfuel mem buf, ?_, length_decimal_le_width h⟩
  have htext : readBlock (writeBlock mem buf (decimal v ++ [NUL])) buf (decimal v).length =
      decimal v := by
    rw [← writeBlock_append, readBlock_writeBlock_of_le (Int.le_refl _), readBlock_writeBlock_self]
  refine ⟨htext, ?_, ?_, ?_, fun a ha => ?_⟩
  · rw [htext]
    exact canonical_decimal v
  · rw [htext]
    exact valueOf_decimal v
  · rw [writeBlock_add _ (by rw [List.length_append, List.length_singleton]; omega),
      List.getElem_append_right (Nat.le_refl _)]
    simp
  · rcases ha with ha | ha
    · exact writeBlock_of_lt ha
    · exact writeBlock_of_le (by rw [List.length_append, List.length_singleton]; omega)

/-- The most negative value of the narrowest type. -/
theorem convert_formats_least : ∃ (mem' : ℤ → Char) (n : ℕ),
    (∀ fuel, 8 ≤ fuel →
      convert ⟨true, 8, by decide⟩ fuel (fun _ => ' ') 0 (-128) = some (mem', (n : ℤ))) ∧
      Formatted (fun _ => ' ') mem' 0 n (-128) ∧ n ≤ 8 :=
  convert_formats ⟨true, 8, by decide⟩ (by decide) (fun _ => ' ') 0

end GenericServer.IntegerFormatting
