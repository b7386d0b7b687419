import Mathlib.Data.Nat.Notation
import Mathlib.Logic.Function.Basic
import Mathlib.Tactic.SplitIfs

/-!
# Descriptor tables with epoll sets

The numbers of a process, free or given to a file, and epoll sets that keep data for a number.
A registration goes with the file: it ends when the number is closed, and a number that is given
out again is in no set. No file has two numbers.
-/
namespace GenericServer.DescriptorTables

variable {φ κ δ : Type*}

/-- `file` gives the files of the open numbers, and `data` what a set reports for a number. -/
structure Kernel (φ κ δ : Type*) where
  file : ℕ → Option φ
  data : κ → ℕ → Option δ

namespace Kernel

/-- A call that gives out the number `n`. -/
def give (k : Kernel φ κ δ) (n : ℕ) (f : φ) : Kernel φ κ δ :=
  { k with file := Function.update k.file n (some f) }

/-- `close` takes the number out of all sets; a number that is not open is `EBADF`. -/
def close (k : Kernel φ κ δ) (n : ℕ) : Kernel φ κ δ where
  file := Function.update k.file n none
  data p := Function.update (k.data p) n none

variable [DecidableEq κ]

def setData (k : Kernel φ κ δ) (p : κ) (n : ℕ) (x : Option δ) : Kernel φ κ δ :=
  { k with data := Function.update k.data p (Function.update (k.data p) n x) }

/-- `EPOLL_CTL_ADD`, with `EBADF` and `EEXIST`. -/
def add (k : Kernel φ κ δ) (p : κ) (n : ℕ) (d : δ) : Kernel φ κ δ :=
  if (k.file n).isSome ∧ (k.data p n).isNone then k.setData p n (some d) else k

/-- `EPOLL_CTL_MOD`, with `ENOENT`. -/
def modify (k : Kernel φ κ δ) (p : κ) (n : ℕ) (d : δ) : Kernel φ κ δ :=
  if (k.data p n).isSome then k.setData p n (some d) else k

def remove (k : Kernel φ κ δ) (p : κ) (n : ℕ) : Kernel φ κ δ := k.setData p n none

end Kernel

/-- What the sets report is in line with the files of the numbers. -/
def Aligned (R : κ → ℕ → φ → δ → Prop) (k : Kernel φ κ δ) : Prop :=
  ∀ p n d, k.data p n = some d → ∃ f, k.file n = some f ∧ R p n f d

variable {k : Kernel φ κ δ} {R R' : κ → ℕ → φ → δ → Prop} {p q : κ} {m n : ℕ} {d : δ} {f : φ}

@[simp] theorem close_file_self : (k.close n).file n = none := Function.update_self ..

theorem close_file_of_ne (h : m ≠ n) : (k.close n).file m = k.file m :=
  Function.update_of_ne h ..

@[simp] theorem give_file_self (f : φ) : (k.give n f).file n = some f := Function.update_self ..

theorem give_file_of_ne (h : m ≠ n) (f : φ) : (k.give n f).file m = k.file m :=
  Function.update_of_ne h ..

theorem close_data_self : (k.close n).data p n = none := Function.update_self ..

theorem close_data_of_ne (h : m ≠ n) : (k.close n).data p m = k.data p m :=
  Function.update_of_ne h ..

theorem close_file_eq_some : (k.close n).file m = some f ↔ m ≠ n ∧ k.file m = some f := by
  by_cases h : m = n
  · subst h
    rw [close_file_self]
    exact iff_of_false nofun fun hm => hm.1 rfl
  · rw [close_file_of_ne h]
    exact (and_iff_right h).symm

theorem close_data_eq_some : (k.close n).data p m = some d ↔ m ≠ n ∧ k.data p m = some d := by
  by_cases h : m = n
  · subst h
    rw [close_data_self]
    exact iff_of_false nofun fun hm => hm.1 rfl
  · rw [close_data_of_ne h]
    exact (and_iff_right h).symm

theorem Aligned.imp (h : Aligned R k)
    (himp : ∀ p n f d, k.data p n = some d → k.file n = some f → R p n f d → R' p n f d) :
    Aligned R' k := by
  intro p n d hd
  obtain ⟨f, hf, hR⟩ := h p n d hd
  exact ⟨f, hf, himp p n f d hd hf hR⟩

theorem Aligned.data_eq_none (h : Aligned R k) (hfree : k.file n = none) (p : κ) :
    k.data p n = none := by
  cases hd : k.data p n with
  | none => rfl
  | some d =>
    obtain ⟨f, hf, -⟩ := h p n d hd
    rw [hfree] at hf
    cases hf

theorem Aligned.give (h : Aligned R k) (hfree : k.file n = none) (f : φ) :
    Aligned R (k.give n f) := by
  intro p m d hd
  have hne : m ≠ n := by
    rintro rfl
    cases (h.data_eq_none hfree p).symm.trans hd
  rw [give_file_of_ne hne]
  exact h p m d hd

theorem Aligned.close (h : Aligned R k) (n : ℕ) : Aligned R (k.close n) := by
  intro p m d hd
  obtain ⟨hne, hd⟩ := close_data_eq_some.mp hd
  rw [close_file_of_ne hne]
  exact h p m d hd

section EpollSets
variable [DecidableEq κ]

@[simp] theorem setData_self (k : Kernel φ κ δ) (p : κ) (n : ℕ) (x : Option δ) :
    (k.setData p n x).data p n = x := by
  change Function.update k.data p (Function.update (k.data p) n x) p n = x
  rw [Function.update_self, Function.update_self]

theorem setData_of_ne (h : ¬ (q = p ∧ m = n)) (x : Option δ) :
    (k.setData p n x).data q m = k.data q m := by
  change Function.update k.data p (Function.update (k.data p) n x) q m = k.data q m
  by_cases hq : q = p
  · subst hq
    rw [Function.update_self, Function.update_of_ne fun hm => h ⟨rfl, hm⟩]
  · rw [Function.update_of_ne hq]

/-- After the registration has been taken out, the number is closed as before. -/
theorem close_remove : (k.remove p n).close n = k.close n := by
  have hdata : ((k.remove p n).close n).data = (k.close n).data := by
    funext q m
    by_cases hm : m = n
    · subst hm
      rw [close_data_self, close_data_self]
    · rw [close_data_of_ne hm, close_data_of_ne hm]
      exact setData_of_ne (fun hat => hm hat.2) none
  rw [Kernel.close, Kernel.mk.injEq]
  exact ⟨rfl, hdata⟩

theorem Aligned.setData (h : Aligned R k) (hfile : k.file n = some f) (hR : R p n f d) :
    Aligned R (k.setData p n (some d)) := by
  intro q m e he
  by_cases hat : q = p ∧ m = n
  · obtain ⟨rfl, rfl⟩ := hat
    rw [setData_self] at he
    cases he
    exact ⟨f, hfile, hR⟩
  · rw [setData_of_ne hat] at he
    exact h q m e he

theorem Aligned.add (h : Aligned R k) (hfile : k.file n = some f) (hR : R p n f d) :
    Aligned R (k.add p n d) := by
  rw [Kernel.add]
  split_ifs
  · exact h.setData hfile hR
  · exact h

theorem Aligned.modify (h : Aligned R k) (hfile : k.file n = some f) (hR : R p n f d) :
    Aligned R (k.modify p n d) := by
  rw [Kernel.modify]
  split_ifs
  · exact h.setData hfile hR
  · exact h

theorem add_file (k : Kernel φ κ δ) (p : κ) (n : ℕ) (d : δ) : (k.add p n d).file = k.file := by
  rw [Kernel.add]
  split_ifs <;> rfl

theorem modify_file (k : Kernel φ κ δ) (p : κ) (n : ℕ) (d : δ) :
    (k.modify p n d).file = k.file := by
  rw [Kernel.modify]
  split_ifs <;> rfl

end EpollSets

end GenericServer.DescriptorTables
