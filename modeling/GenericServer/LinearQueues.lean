import Mathlib.Data.List.Basic

/-!
# Bounded queues that are not moved to the front

A queue in `cap` cells whose consumed cells are won back only when it runs empty. The bound is
part of the type. Two machines that answer calls are compared by a relation between their states.
-/
namespace GenericServer.LinearQueues

variable {α : Type*} {cap : ℕ}

/-- The first `hole` cells have been consumed, the next ones store the elements. There is no hole
in front of nothing. -/
structure LinearQueue (α : Type*) (cap : ℕ) where
  hole : ℕ
  stored : List α
  within : hole + stored.length ≤ cap
  front : stored = [] → hole = 0

namespace LinearQueue

def empty : LinearQueue α cap := ⟨0, [], Nat.zero_le _, fun _ => rfl⟩

/-- The cells behind the stored elements. -/
def room (q : LinearQueue α cap) : ℕ := cap - (q.hole + q.stored.length)

def push (q : LinearQueue α cap) (xs : List α) : LinearQueue α cap where
  hole := q.hole
  stored := q.stored ++ xs.take q.room
  within := by
    have hwithin := q.within
    rw [List.length_append, List.length_take, room]
    omega
  front h := q.front (List.append_eq_nil_iff.mp h).1

/-- Dequeue the `k` oldest elements. Only a queue that runs empty starts at the front again. -/
def pop (q : LinearQueue α cap) (k : ℕ) : LinearQueue α cap :=
  if h : k < q.stored.length then
    { hole := q.hole + k
      stored := q.stored.drop k
      within := by
        have hwithin := q.within
        rw [List.length_drop]
        omega
      front := fun hnil => absurd (List.drop_eq_nil_iff.mp hnil) (Nat.not_le.mpr h) }
  else empty

variable {q : LinearQueue α cap}

theorem eq_empty (h : q.stored = []) : q = empty := by
  obtain ⟨hole, stored, within, front⟩ := q
  obtain rfl : stored = [] := h
  obtain rfl := front rfl
  rfl

theorem push_nil (q : LinearQueue α cap) : q.push [] = q := by
  cases q
  simp [push]

theorem pop_of_lt {k : ℕ} (h : k < q.stored.length) :
    (q.pop k).hole = q.hole + k ∧ (q.pop k).stored = q.stored.drop k := by
  rw [pop, dif_pos h]
  exact ⟨rfl, rfl⟩

theorem pop_of_le {k : ℕ} (h : q.stored.length ≤ k) : q.pop k = empty := by
  rw [pop, dif_neg (Nat.not_lt.mpr h)]

end LinearQueue

/-! ## Machines that answer calls -/

variable {σ τ ι ο : Type*}

def after (f : σ → ι → σ × ο) (s : σ) (cs : List ι) : σ := cs.foldl (fun s c => (f s c).1) s

def answers (f : σ → ι → σ × ο) (s : σ) : List ι → List ο
  | [] => []
  | c :: cs => (f s c).2 :: answers f (f s c).1 cs

/-- A relation under which every call has the same answer on both sides, and that every call
keeps, gives the same answers to all lists of calls. -/
theorem simulation {f : σ → ι → σ × ο} {g : τ → ι → τ × ο} {R : σ → τ → Prop}
    (hcall : ∀ s t c, R s t → (f s c).2 = (g t c).2 ∧ R (f s c).1 (g t c).1) {s : σ} {t : τ}
    (h : R s t) (cs : List ι) :
    answers f s cs = answers g t cs ∧ R (after f s cs) (after g t cs) := by
  induction cs generalizing s t with
  | nil => exact ⟨rfl, h⟩
  | cons c cs ih =>
    obtain ⟨hanswer, hnext⟩ := hcall s t c h
    obtain ⟨hrest, hend⟩ := ih hnext
    refine ⟨?_, hend⟩
    rw [answers, answers, hanswer, hrest]

end GenericServer.LinearQueues
