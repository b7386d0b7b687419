import Mathlib.Data.List.Basic
import Mathlib.Logic.Function.Basic

/-!
# Files that are written at an offset

A block written at an offset replaces what the file has there and extends the file as far as
necessary. Nothing is lost exactly when the offset is the end of the file.
-/
namespace GenericServer.FileContents

variable {α : Type*}

/-- The content behind a write of `xs` at `off`, which is not past the end of `c`. -/
def writeAt (c : List α) (off : ℕ) (xs : List α) : List α :=
  c.take off ++ xs ++ c.drop (off + xs.length)

variable {c xs : List α} {off : ℕ}

@[simp] theorem writeAt_nil (c : List α) (off : ℕ) : writeAt c off [] = c := by
  simp [writeAt]

theorem writeAt_end (c xs : List α) : writeAt c c.length xs = c ++ xs := by
  simp [writeAt]

theorem length_writeAt (h : off ≤ c.length) (xs : List α) :
    (writeAt c off xs).length = max c.length (off + xs.length) := by
  simp only [writeAt, List.length_append, List.length_take, List.length_drop]
  omega

theorem take_writeAt (h : off ≤ c.length) (xs : List α) :
    (writeAt c off xs).take (off + xs.length) = c.take off ++ xs := by
  rw [writeAt]
  exact List.take_left' (by simp only [List.length_append, List.length_take]; omega)

theorem writeAt_eq_append_iff (h : off ≤ c.length) :
    writeAt c off xs = c ++ xs ↔ xs = [] ∨ off = c.length := by
  constructor
  · intro heq
    have hlen := congrArg List.length heq
    rw [length_writeAt h, List.length_append] at hlen
    rw [← List.length_eq_zero_iff]
    omega
  · rintro (rfl | rfl)
    · rw [writeAt_nil, List.append_nil]
    · exact writeAt_end c xs

abbrev Files (α : Type*) := String → Option (List α)

def Files.content (files : Files α) (name : String) : List α := (files name).getD []

/-- Give a file another content, or create it. -/
def Files.put (files : Files α) (name : String) (c : List α) : Files α :=
  Function.update files name (some c)

@[simp] theorem Files.content_put_self (files : Files α) (name : String) (c : List α) :
    (files.put name c).content name = c := by
  simp [content, put]

theorem Files.content_put_of_ne (files : Files α) {name other : String} (h : other ≠ name)
    (c : List α) : (files.put name c).content other = files.content other := by
  simp [content, put, h]

/-- `O_CREAT` without `O_TRUNC`. -/
def Files.create (files : Files α) (name : String) : Files α := files.put name (files.content name)

@[simp] theorem Files.content_create (files : Files α) (name other : String) :
    (files.create name).content other = files.content other := by
  rcases eq_or_ne other name with rfl | h
  · exact files.content_put_self other _
  · exact files.content_put_of_ne h _

end GenericServer.FileContents
