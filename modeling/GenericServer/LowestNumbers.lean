import Mathlib.Data.Finset.Max
import Mathlib.Data.Finset.Range

/-!
# Numbers that are handed out lowest first

Where always the lowest number is taken that is not in use, numbers stay small: those that have
been taken while fewer than `N` were in use are at most `N`. Some numbers are never free.
-/
namespace GenericServer.LowestNumbers

variable (reserved : ℤ → Prop) [DecidablePred reserved] {N : ℕ} {k n : ℤ}

/-- The numbers below `n` that can be handed out. -/
def below (n : ℤ) : Finset ℤ :=
  ((Finset.range n.toNat).image Int.ofNat).filter fun k => ¬ reserved k

variable {reserved}

theorem mem_below : k ∈ below reserved n ↔ (0 ≤ k ∧ k < n) ∧ ¬ reserved k := by
  rw [below, Finset.mem_filter, Finset.mem_image]
  refine and_congr_left fun _ => ⟨?_, fun hk => ⟨k.toNat, ?_, Int.toNat_of_nonneg hk.1⟩⟩
  · rintro ⟨a, ha, rfl⟩
    have hless := Finset.mem_range.mp ha
    change 0 ≤ (a : ℤ) ∧ (a : ℤ) < n
    omega
  · rw [Finset.mem_range]
    omega

variable (reserved)

theorem card_below_succ (n : ℤ) :
    (below reserved (n + 1)).card ≤ (below reserved n).card + 1 := by
  have hsub : below reserved (n + 1) ⊆ insert n (below reserved n) := by
    intro k hk
    obtain ⟨⟨hpos, hless⟩, hfree⟩ := mem_below.mp hk
    rw [Finset.mem_insert]
    rcases (Int.lt_add_one_iff.mp hless).eq_or_lt with rfl | hlt
    · exact .inl rfl
    · exact .inr (mem_below.mpr ⟨⟨hpos, hlt⟩, hfree⟩)
  exact (Finset.card_le_card hsub).trans (Finset.card_insert_le _ _)

/-- Numbers that have each been taken as one of the first `N`. -/
theorem card_le_of_low {keys : Finset ℤ}
    (h : ∀ k ∈ keys, 0 ≤ k ∧ ¬ reserved k ∧ (below reserved (k + 1)).card ≤ N) :
    keys.card ≤ N := by
  rcases keys.eq_empty_or_nonempty with rfl | hne
  · exact Nat.zero_le N
  · have hmax := Finset.max'_mem keys hne
    have hsub : keys ⊆ below reserved (keys.max' hne + 1) := by
      intro k hk
      obtain ⟨hpos, hfree, -⟩ := h k hk
      exact mem_below.mpr ⟨⟨hpos, Int.lt_add_one_iff.mpr (Finset.le_max' keys k hk)⟩, hfree⟩
    exact (Finset.card_le_card hsub).trans (h _ hmax).2.2

end GenericServer.LowestNumbers
