import Mathlib.Data.Finset.Card
import Mathlib.Logic.Function.Basic

/-!
# Threads and their places in the code

Any number of threads, each at a place of a program: mutual exclusion, and how many threads are
at places of a kind.
-/
namespace GenericServer.ThreadPlaces

open Function

variable {τ P : Type*} {pc : τ → P} {t : τ} {p : P}

/-- The owner of the mutex is the thread inside, if there is one. -/
def Owns (inside : P → Prop) (mutex : Option τ) (pc : τ → P) : Prop :=
  ∀ t, mutex = some t ↔ inside (pc t)

/-- Some `k` threads or more are there. -/
def AtLeast (k : ℕ) (there : P → Prop) (pc : τ → P) : Prop :=
  ∃ ts : Finset τ, k ≤ ts.card ∧ ∀ t ∈ ts, there (pc t)

variable {inside there : P → Prop} {mutex : Option τ} {k : ℕ}

theorem Owns.eq (h : Owns inside mutex pc) {u : τ} (ht : inside (pc t)) (hu : inside (pc u)) :
    u = t :=
  Option.some.inj (((h u).mpr hu).symm.trans ((h t).mpr ht))

theorem atLeast_zero (there : P → Prop) (pc : τ → P) : AtLeast 0 there pc :=
  ⟨∅, Nat.zero_le _, fun _ ht => absurd ht (Finset.notMem_empty _)⟩

theorem AtLeast.mono {m : ℕ} (h : AtLeast k there pc) (hm : m ≤ k) : AtLeast m there pc := by
  obtain ⟨ts, hcard, hts⟩ := h
  exact ⟨ts, hm.trans hcard, hts⟩

/-! ## A thread moves -/

variable [DecidableEq τ]

theorem Owns.move (h : Owns inside mutex pc) (hp : inside (pc t) ↔ inside p) :
    Owns inside mutex (update pc t p) := by
  intro u
  by_cases hu : u = t
  · subst hu
    rw [update_self, ← hp]
    exact h u
  · rw [update_of_ne hu]
    exact h u

theorem Owns.lock (h : Owns inside none pc) (hp : inside p) :
    Owns inside (some t) (update pc t p) := by
  intro u
  by_cases hu : u = t
  · subst hu
    rw [update_self]
    exact iff_of_true rfl hp
  · rw [update_of_ne hu, ← h u]
    exact iff_of_false (fun heq => hu (Option.some.inj heq).symm) (fun heq => by cases heq)

theorem Owns.unlock (h : Owns inside mutex pc) (ht : inside (pc t)) (hp : ¬ inside p) :
    Owns inside none (update pc t p) := by
  intro u
  refine iff_of_false (fun heq => by cases heq) fun hu => ?_
  by_cases heq : u = t
  · subst heq
    rw [update_self] at hu
    exact hp hu
  · rw [update_of_ne heq, ← h u, (h t).mpr ht] at hu
    exact heq (Option.some.inj hu).symm

theorem AtLeast.move (h : AtLeast k there pc) (ht : ¬ there (pc t)) :
    AtLeast k there (update pc t p) := by
  obtain ⟨ts, hcard, hts⟩ := h
  refine ⟨ts, hcard, fun u hu => ?_⟩
  have hne : u ≠ t := fun heq => ht (heq ▸ hts u hu)
  rw [update_of_ne hne]
  exact hts u hu

theorem AtLeast.enter (h : AtLeast k there pc) (ht : ¬ there (pc t)) (hp : there p) :
    AtLeast (k + 1) there (update pc t p) := by
  obtain ⟨ts, hcard, hts⟩ := h
  have hfresh : t ∉ ts := fun hmem => ht (hts t hmem)
  refine ⟨insert t ts, ?_, fun u hu => ?_⟩
  · rw [Finset.card_insert_of_notMem hfresh]
    exact Nat.succ_le_succ hcard
  · rcases Finset.mem_insert.mp hu with rfl | hmem
    · rw [update_self]
      exact hp
    · have hne : u ≠ t := by
        rintro rfl
        exact hfresh hmem
      rw [update_of_ne hne]
      exact hts u hmem

theorem AtLeast.leave (h : AtLeast k there pc) : AtLeast (k - 1) there (update pc t p) := by
  obtain ⟨ts, hcard, hts⟩ := h
  refine ⟨ts.erase t, ?_, fun u hu => ?_⟩
  · have hle := Finset.pred_card_le_card_erase (s := ts) (a := t)
    omega
  · obtain ⟨hne, hmem⟩ := Finset.mem_erase.mp hu
    rw [update_of_ne hne]
    exact hts u hmem

end GenericServer.ThreadPlaces
