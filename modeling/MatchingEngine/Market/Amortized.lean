import MatchingEngine.Market.Capacity
import MatchingEngine.Market.Service

/-!
# What matching costs

One taker may be served by very many makers, but each of these, except for the last, has
come with a request of its own and is gone for good. The open orders are the potential: an
accepted order pays for one deal or one cancel, now or later.
-/

namespace Hft

open Machine

variable {ι π : Type}

/-- The deals a request has led to, and the order it has cancelled. -/
def Request.spent (request : Request ι π) (a : Answer ι π) : Nat :=
  match request with
  | .order .. => a.deals.length
  | .cancel _ => if a.reason = .Accepted then 1 else 0

/-- An accepted order pays for one. -/
def Request.paid (request : Request ι π) (a : Answer ι π) : Nat :=
  match request with
  | .order .. => if a.reason = .Accepted then 1 else 0
  | .cancel _ => 0

namespace Market

variable [DecidableEq ι] [LinearOrder π] {limits : Limits ι π} {M : Market ι π}
variable {side : Side} {id : ι} {n : Nat} {limit : Option π}

omit [DecidableEq ι] in
/-- A taker that is left with something has used up all it was served by. -/
theorem execute_paid (h : M.InTurn) :
    (M.execute limits id side limit n).1.deals.length + (M.execute limits id side limit n).2.size ≤
      M.size + (if (M.execute limits id side limit n).1.reason = .Accepted then 1 else 0) := by
  have hsize : (M.take side limit n).size + (M.makers side limit).length = M.size +
      (Greedy.rest OpenOrder.quantity OpenOrder.shrink (M.makers side limit) n).length := take_size
  have hone : (Greedy.fills OpenOrder.quantity (M.makers side limit) n).length +
      (Greedy.rest OpenOrder.quantity OpenOrder.shrink (M.makers side limit) n).length ≤
        (M.makers side limit).length + 1 := Greedy.length_fills_add_rest _ _
  rw [execute_deals, List.length_map]
  unfold execute
  cases limit with
  | none =>
      simp only [if_true]
      omega
  | some price =>
      by_cases hleft : n - Greedy.total OpenOrder.quantity (M.makers side (some price)) = 0
      · simp only [hleft, if_true]
        omega
      · have hpos : ∀ o ∈ M.makers side (some price), 0 < o.quantity :=
          fun o ho => h.quantity_pos _ o (List.mem_of_mem_filter ho)
        have hrest : Greedy.rest OpenOrder.quantity OpenOrder.shrink
            (M.makers side (some price)) n = [] :=
          (Greedy.rest_eq_nil_iff hpos).mpr (by omega)
        have hall : (Greedy.fills OpenOrder.quantity (M.makers side (some price)) n).length ≤
            (M.makers side (some price)).length := Greedy.length_fills_le _ _
        rw [hrest, List.length_nil] at hsize
        simp only [hleft, if_false]
        split
        · simp only [post_size, if_true]
          omega
        · simp only [reduceCtorEq, if_false]
          omega

omit [LinearOrder π] in
theorem withdraw_size_lt (h : M.holds id = true) : (M.withdraw id).size + 1 ≤ M.size := by
  obtain ⟨side, o, ho, hid⟩ := holds_eq_true_iff.mp h
  have hless : ((M.withdraw id).orders side).length < (M.orders side).length :=
    List.length_filter_lt_length_iff_exists.mpr ⟨o, ho, by simp [hid]⟩
  have hother : ((M.withdraw id).orders side.opposite).length ≤
      (M.orders side.opposite).length := List.length_filter_le _ _
  rw [size_eq_side side, size_eq_side side]
  omega

/-- What a request spends is paid for by it or by an order that is no longer open. -/
theorem step_paid (h : M.InTurn) (request : Request ι π) :
    request.spent (M.step limits request).1 + (M.step limits request).2.size ≤
      M.size + request.paid (M.step limits request).1 := by
  cases request with
  | order id side limit n =>
      change (M.order limits id side limit n).1.deals.length +
        (M.order limits id side limit n).2.size ≤
          M.size + (if (M.order limits id side limit n).1.reason = .Accepted then 1 else 0)
      rcases order_cases M limits id side limit n with ⟨reason, -, -, he⟩ | ⟨-, -, -, -, -, he⟩
      · rw [he, refuse, List.length_nil, Nat.zero_add]
        exact Nat.le_add_right _ _
      · rw [he]
        exact execute_paid h
  | cancel id =>
      change (if (M.cancel limits id).1.reason = .Accepted then 1 else 0) +
        (M.cancel limits id).2.size ≤ M.size + 0
      rcases cancel_cases M limits id with ⟨reason, hreason, -, he⟩ | ⟨-, hholds, he⟩
      · rw [he, refuse, if_neg hreason, Nat.zero_add, Nat.add_zero]
      · rw [he, if_pos rfl, Nat.add_comm]
        exact withdraw_size_lt hholds

end Market

end Hft
