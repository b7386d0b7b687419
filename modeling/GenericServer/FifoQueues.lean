import Mathlib.Data.List.Basic

/-!
# First-in first-out queues with their history

A queue together with everything it ever accepted and everything it ever returned.
The conservation law is part of the type, so a refinement proof that exhibits a `Fifo`
has shown that no element is lost, duplicated or reordered.
-/
namespace GenericServer.FifoQueues

variable {α : Type*}

structure Fifo (α : Type*) where
  accepted : List α
  returned : List α
  stored : List α
  conserved : returned ++ stored = accepted

namespace Fifo

def empty : Fifo α := ⟨[], [], [], rfl⟩

/-- Enqueue a block behind the stored elements. -/
def accept (f : Fifo α) (xs : List α) : Fifo α where
  accepted := f.accepted ++ xs
  returned := f.returned
  stored := f.stored ++ xs
  conserved := by rw [← f.conserved, List.append_assoc]

/-- Dequeue the `k` oldest elements, or all of them when fewer are stored. -/
def release (f : Fifo α) (k : ℕ) : Fifo α where
  accepted := f.accepted
  returned := f.returned ++ f.stored.take k
  stored := f.stored.drop k
  conserved := by rw [← f.conserved, List.append_assoc, List.take_append_drop]

@[simp] theorem accept_accepted (f : Fifo α) (xs : List α) :
    (f.accept xs).accepted = f.accepted ++ xs := rfl

@[simp] theorem accept_returned (f : Fifo α) (xs : List α) :
    (f.accept xs).returned = f.returned := rfl

@[simp] theorem accept_stored (f : Fifo α) (xs : List α) :
    (f.accept xs).stored = f.stored ++ xs := rfl

@[simp] theorem release_accepted (f : Fifo α) (k : ℕ) :
    (f.release k).accepted = f.accepted := rfl

@[simp] theorem release_returned (f : Fifo α) (k : ℕ) :
    (f.release k).returned = f.returned ++ f.stored.take k := rfl

@[simp] theorem release_stored (f : Fifo α) (k : ℕ) :
    (f.release k).stored = f.stored.drop k := rfl

theorem length_returned_add_stored (f : Fifo α) :
    f.returned.length + f.stored.length = f.accepted.length := by
  rw [← f.conserved, List.length_append]

end Fifo

end GenericServer.FifoQueues
