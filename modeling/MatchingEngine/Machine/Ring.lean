import Mathlib.Data.Nat.ModEq
import Mathlib.Order.Bounds.Basic
import Mathlib.Tactic.Common

/-!
# Histories in a ring of cells

A ring keeps the end of a history: the item of number `j` stands in cell
`j % cells.size`, and stays there until the item one revolution later takes its
place. `Holds` says so of every item of the last revolution and of nothing else, so
cells that were never written, or that an earlier history left behind, may hold
anything.

A ring of a power of two of cells takes its remainders by a bit mask.
-/

namespace Machine

namespace Ring

variable {α : Type} {cells : Array α} {history : List α} {x : α} {i j k n : Nat}

/-- The last `cells.size` items of the history are in their cells. -/
def Holds (cells : Array α) (history : List α) : Prop :=
  ∀ j < history.length, history.length ≤ j + cells.size →
    cells[j % cells.size]? = history[j]?

/-- Two numbers less than a revolution apart have different cells. -/
theorem mod_ne_of_lt (hij : i < j) (hj : j < i + k) : i % k ≠ j % k := by
  intro heq
  have hdvd : k ∣ j - i := (Nat.modEq_iff_dvd' (Nat.le_of_lt hij)).mp heq
  have hle := Nat.le_of_dvd (Nat.sub_pos_of_lt hij) hdvd
  omega

theorem Holds.nil (cells : Array α) : Holds cells [] :=
  fun _ hj => absurd hj (Nat.not_lt_zero _)

/-- The next item overwrites the one that leaves the window. -/
theorem Holds.push (h : Holds cells history) (hpos : 0 < cells.size) (x : α) :
    Holds (cells.setIfInBounds (history.length % cells.size) x) (history ++ [x]) := by
  intro j hj hwindow
  rw [List.length_append, List.length_singleton] at hj hwindow
  rw [Array.size_setIfInBounds] at hwindow ⊢
  rcases Nat.lt_succ_iff_lt_or_eq.mp hj with hlt | rfl
  · have hne : history.length % cells.size ≠ j % cells.size :=
      (mod_ne_of_lt hlt (by omega)).symm
    rw [Array.getElem?_setIfInBounds_ne hne, List.getElem?_append_left hlt]
    apply h j hlt
    omega
  · rw [Array.getElem?_setIfInBounds_self_of_lt (Nat.mod_lt _ hpos)]
    exact List.getElem?_concat_length.symm

/-- Where the window of the last `min n k` items begins. -/
theorem Holds.read (h : Holds cells history)
    (hi : i < min history.length cells.size) :
    cells[(history.length - min history.length cells.size + i) % cells.size]? =
      history[history.length - min history.length cells.size + i]? := by
  apply h
  · omega
  · omega

/-- `2 ^ Nat.log2 n` is the largest power of two that does not exceed `n`. -/
theorem isGreatest_two_pow_log2 (hn : n ≠ 0) :
    IsGreatest {p | (∃ m, p = 2 ^ m) ∧ p ≤ n} (2 ^ n.log2) := by
  refine ⟨⟨⟨n.log2, rfl⟩, Nat.log2_self_le hn⟩, ?_⟩
  rintro p ⟨⟨m, rfl⟩, hle⟩
  exact Nat.pow_le_pow_right Nat.two_pos ((Nat.le_log2 hn).mpr hle)

end Ring

end Machine
