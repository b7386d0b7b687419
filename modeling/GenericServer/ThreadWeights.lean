import GenericServer.TransitionRuns
import Mathlib.Algebra.BigOperators.Group.Finset.Piecewise
import Mathlib.Algebra.GroupWithZero.Nat

/-!
# Weights of places

A weight for every place of a program bounds how far the threads can go: the sum over the threads
that are on their way gets smaller with every step of one of them.
-/
namespace GenericServer.ThreadWeights

open Function TransitionRuns

section Measure

variable {σ ℓ : Type*} {step : σ → ℓ → Option σ}

/-- A schedule whose steps all lower a measure is no longer than the measure at its beginning. -/
theorem run_length_le {Inv : σ → Prop} {ok : ℓ → Prop} {μ : σ → ℕ}
    (hstep : ∀ s l s', Inv s → ok l → step s l = some s' → Inv s' ∧ μ s' < μ s)
    {s s' : σ} {ls : List ℓ} (h : Inv s) (hok : ∀ l ∈ ls, ok l) (hr : run step s ls = some s') :
    ls.length + μ s' ≤ μ s := by
  induction ls generalizing s with
  | nil =>
    cases hr
    exact Nat.le_of_eq (Nat.zero_add _)
  | cons l ls ih =>
    obtain ⟨t, ht, hr⟩ := run_cons_eq_some.mp hr
    obtain ⟨hinv, hless⟩ := hstep s l t h (hok l (List.mem_cons_self ..)) ht
    have hrest := ih hinv (fun m hm => hok m (List.mem_cons_of_mem _ hm)) hr
    rw [List.length_cons]
    omega

/-- A schedule in which the measure grows by at most `charge l` with the step `l`, and gets smaller
with the steps that `own` tells apart. -/
theorem run_countP_le {Inv : σ → Prop} {own : ℓ → Bool} {charge : ℓ → ℕ} {μ : σ → ℕ}
    (hstep : ∀ s l s', Inv s → step s l = some s' →
      Inv s' ∧ (if own l then 1 else 0) + μ s' ≤ μ s + charge l)
    {s s' : σ} {ls : List ℓ} (h : Inv s) (hr : run step s ls = some s') :
    ls.countP own + μ s' ≤ μ s + (ls.map charge).sum := by
  induction ls generalizing s with
  | nil =>
    cases hr
    exact Nat.le_of_eq (Nat.zero_add _)
  | cons l ls ih =>
    obtain ⟨t, ht, hr⟩ := run_cons_eq_some.mp hr
    obtain ⟨hinv, hone⟩ := hstep s l t h ht
    have hrest := ih hinv hr
    rw [List.countP_cons, List.map_cons, List.sum_cons]
    omega

end Measure

variable {τ P : Type*} [DecidableEq τ]

def total (weight : P → ℕ) (ts : Finset τ) (pc : τ → P) : ℕ := ∑ t ∈ ts, weight (pc t)

variable {weight : P → ℕ} {ts : Finset τ} {pc : τ → P} {t : τ} {p : P}

theorem total_update (weight : P → ℕ) (pc : τ → P) (p : P) (ht : t ∈ ts) :
    total weight ts (update pc t p) + weight (pc t) = total weight ts pc + weight p := by
  have hupdate : (fun u => weight (update pc t p u)) =
      update (fun u => weight (pc u)) t (weight p) := by
    funext u
    by_cases hu : u = t
    · subst hu
      simp only [update_self]
    · simp only [update_of_ne hu]
  have hold := Finset.add_sum_erase ts (fun u => weight (pc u)) ht
  unfold total
  rw [hupdate, Finset.sum_update_of_mem ht, Finset.sdiff_singleton_eq_erase]
  omega

theorem total_insert (weight : P → ℕ) (pc : τ → P) (p : P) (ht : t ∉ ts) :
    total weight (insert t ts) (update pc t p) = total weight ts pc + weight p := by
  have hsame : ∀ u ∈ ts, weight (update pc t p u) = weight (pc u) := by
    intro u hu
    have hne : u ≠ t := by
      rintro rfl
      exact ht hu
    rw [update_of_ne hne]
  unfold total
  rw [Finset.sum_insert ht, Finset.sum_congr rfl hsame, update_self, Nat.add_comm]

theorem total_lt (ht : t ∈ ts) (hp : weight p < weight (pc t)) :
    total weight ts (update pc t p) < total weight ts pc := by
  have := total_update weight pc p ht
  omega

/-- All threads but finitely many are at the place `p`. -/
def AllBut (ts : Finset τ) (p : P) (pc : τ → P) : Prop := ∀ t ∉ ts, pc t = p

theorem AllBut.mem {q : P} (h : AllBut ts p pc) (ht : pc t = q) (hq : q ≠ p) : t ∈ ts := by
  by_contra hnot
  exact hq (ht.symm.trans (h t hnot))

theorem AllBut.update {q : P} (h : AllBut ts p pc) : AllBut (insert t ts) p (update pc t q) := by
  intro u hu
  rw [Finset.mem_insert, not_or] at hu
  rw [update_of_ne hu.1]
  exact h u hu.2

theorem AllBut.update_mem {q : P} (h : AllBut ts p pc) (ht : t ∈ ts) :
    AllBut ts p (Function.update pc t q) := by
  have hnext : AllBut (insert t ts) p (Function.update pc t q) := h.update
  rwa [Finset.insert_eq_of_mem ht] at hnext

end GenericServer.ThreadWeights
