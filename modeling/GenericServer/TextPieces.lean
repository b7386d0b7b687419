import Mathlib.Data.List.Basic

/-!
# Pieces of a text

Concatenations that are cut at a fixed length, and texts that are split into lines.
-/
namespace GenericServer.TextPieces

variable {α β : Type*}

/-! ## Truncation -/

theorem take_take_append (n : ℕ) (xs ys : List α) : (xs.take n ++ ys).take n = (xs ++ ys).take n := by
  rw [List.take_append, List.take_append, List.take_take, Nat.min_self, List.length_take]
  congr 2
  omega

/-- A sink with room for `n` elements holds the first `n` of all that it has been given. -/
theorem foldl_take_append (n : ℕ) (f : β → List α) (xs : List β) (acc : List α) :
    xs.foldl (fun acc x => (acc ++ f x).take n) (acc.take n) = (acc ++ xs.flatMap f).take n := by
  induction xs generalizing acc with
  | nil => rw [List.foldl_nil, List.flatMap_nil, List.append_nil]
  | cons x xs ih =>
    rw [List.foldl_cons, take_take_append, ih, List.flatMap_cons, List.append_assoc]

/-- Pieces may be cut on their own first, where their limits are no less. -/
theorem take_flatMap_of_take {n : ℕ} {f g : β → List α} {xs : List β}
    (h : ∀ x ∈ xs, ∃ k, n ≤ k ∧ f x = (g x).take k) :
    (xs.flatMap f).take n = (xs.flatMap g).take n := by
  induction xs generalizing n with
  | nil => rfl
  | cons x xs ih =>
    obtain ⟨k, hk, hfx⟩ := h x List.mem_cons_self
    have htail : (xs.flatMap f).take (n - (g x).length) = (xs.flatMap g).take (n - (g x).length) := by
      refine ih fun y hy => ?_
      obtain ⟨k, hk, hfy⟩ := h y (List.mem_cons_of_mem x hy)
      exact ⟨k, by omega, hfy⟩
    have hlen : n - ((g x).take k).length = n - (g x).length := by
      rw [List.length_take]
      omega
    rw [List.flatMap_cons, List.flatMap_cons, List.take_append, List.take_append, hfx, hlen, htail,
      List.take_take, Nat.min_eq_left hk]

/-! ## Lines -/

/-- The separator occurs once, at the end. -/
def OneLine (sep : α) (line : List α) : Prop := ∃ body, sep ∉ body ∧ line = body ++ [sep]

/-- The lines of a text, each with the separator at its end, where `line` has been read of the
first. -/
def splitLines [DecidableEq α] (sep : α) : List α → List α → List (List α)
  | line, [] => if line = [] then [] else [line]
  | line, x :: xs =>
    if x = sep then (line ++ [x]) :: splitLines sep [] xs else splitLines sep (line ++ [x]) xs

variable {sep : α} {body : List α}

theorem splitLines_append [DecidableEq α] (h : sep ∉ body) (line xs : List α) :
    splitLines sep line (body ++ xs) = splitLines sep (line ++ body) xs := by
  induction body generalizing line with
  | nil => rw [List.nil_append, List.append_nil]
  | cons x body ih =>
    have hx : x ≠ sep := fun heq => h (heq ▸ List.mem_cons_self)
    have hbody : sep ∉ body := fun hmem => h (List.mem_cons_of_mem x hmem)
    rw [List.cons_append, splitLines, if_neg hx, ih hbody, List.append_assoc, List.singleton_append]

theorem splitLines_flatten [DecidableEq α] {lines : List (List α)}
    (h : ∀ line ∈ lines, OneLine sep line) : splitLines sep [] lines.flatten = lines := by
  induction lines with
  | nil => rfl
  | cons line lines ih =>
    obtain ⟨body, hbody, rfl⟩ := h line List.mem_cons_self
    have htail := ih fun line hline => h line (List.mem_cons_of_mem _ hline)
    rw [List.flatten_cons, List.append_assoc, splitLines_append hbody, List.nil_append,
      List.singleton_append, splitLines, if_pos rfl, htail]

theorem oneLine_take_iff (h : sep ∉ body) (n : ℕ) :
    OneLine sep ((body ++ [sep]).take n) ↔ (body ++ [sep]).length ≤ n := by
  constructor
  · rintro ⟨cut, -, hcut⟩
    by_contra hlong
    rw [List.length_append, List.length_singleton] at hlong
    have hmem : sep ∈ body.take n := by
      rw [List.take_append_of_le_length (by omega)] at hcut
      rw [hcut]
      exact List.mem_append_right cut (List.mem_singleton_self sep)
    exact h (List.mem_of_mem_take hmem)
  · intro hle
    exact ⟨body, h, List.take_of_length_le hle⟩

end GenericServer.TextPieces
