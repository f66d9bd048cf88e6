import MatchingEngine.Market.Liquidity
import Mathlib.Data.List.Perm.Subperm

/-!
# Room for every id

Where there is room for as many orders as there are ids, no order is refused for want of
room: an order that is new and within the limits is accepted, and what is left of it rests.
-/

namespace Hft

open Machine

variable {ι π : Type}

/-- There is room for one order of every id. -/
def Limits.Roomy (limits : Limits ι π) : Prop :=
  ∃ ids : List ι, (∀ id, limits.id id = true → id ∈ ids) ∧ ids.length ≤ limits.room

/-- A request that the limits have no objection to. -/
def Request.Within (limits : Limits ι π) : Request ι π → Prop
  | .order id _ limit quantity =>
      quantity ≠ 0 ∧ limits.id id = true ∧ limit.all limits.price = true
  | .cancel id => limits.id id = true

/-- Acceptance, or a refusal that is due to the orders in the market. -/
def RejectReason.Circumstantial (reason : RejectReason) : Prop :=
  reason = .Accepted ∨ reason = .DuplicateOrderId ∨ reason = .MarketOnEmptyBook ∨
    reason = .CancelFailed

namespace Market

variable [DecidableEq ι] [LinearOrder π] {limits : Limits ι π} {M : Market ι π}
variable {side : Side} {id : ι} {n : Nat} {limit : Option π} {price : π}

omit [LinearOrder π] in
/-- As long as an id is unused there is room for it. -/
theorem Sound.size_lt_room (h : Sound limits M) (roomy : limits.Roomy)
    (hid : limits.id id = true) (hnew : M.holds id = false) : M.size < limits.room := by
  obtain ⟨ids, hall, hlength⟩ := roomy
  have hmem : ∀ o ∈ M.all, ∃ side, o ∈ M.orders side := by
    intro o ho
    rcases List.mem_append.mp ho with ho | ho
    · exact ⟨.Buy, ho⟩
    · exact ⟨.Sell, ho⟩
  have hnodup : (id :: M.all.map OpenOrder.id).Nodup := by
    refine List.nodup_cons.mpr ⟨fun hused => ?_, h.ids⟩
    obtain ⟨o, ho, rfl⟩ := List.mem_map.mp hused
    obtain ⟨side, ho⟩ := hmem o ho
    rw [holds_eq_true_iff.mpr ⟨side, o, ho, rfl⟩] at hnew
    cases hnew
  have hsubset : id :: M.all.map OpenOrder.id ⊆ ids := by
    refine List.cons_subset.mpr ⟨hall id hid, fun used hused => ?_⟩
    obtain ⟨o, ho, rfl⟩ := List.mem_map.mp hused
    obtain ⟨side, ho⟩ := hmem o ho
    exact hall o.id (h.admitted side o ho).1
  have hcount := (List.subperm_of_subset hnodup hsubset).length_le
  rw [List.length_cons, List.length_map, all, List.length_append] at hcount
  exact Nat.lt_of_lt_of_le hcount hlength

omit [DecidableEq ι] in
/-- Serving a taker uses up makers and leaves everyone else. -/
theorem take_size : (M.take side limit n).size + (M.makers side limit).length = M.size +
    (Greedy.rest OpenOrder.quantity OpenOrder.shrink (M.makers side limit) n).length := by
  have hsplit := (M.orders side.opposite).length_eq_length_filter_add
    (fun o => accepts side limit o.price)
  rw [size_eq_side side, size_eq_side side, take, set_of_opposite, set_self, List.length_append]
  rw [makers] at *
  omega

omit [DecidableEq ι] in
theorem take_size_le : (M.take side limit n).size ≤ M.size := by
  have hsize : (M.take side limit n).size + (M.makers side limit).length = M.size +
      (Greedy.rest OpenOrder.quantity OpenOrder.shrink (M.makers side limit) n).length := take_size
  have hrest : (Greedy.rest OpenOrder.quantity OpenOrder.shrink (M.makers side limit) n).length ≤
      (M.makers side limit).length := Greedy.length_rest_le _ _
  omega

variable (side n limit) in
/-- A new order that is let through to the matching is accepted, and rests unless it is
filled. -/
theorem execute_roomy (h : Sound limits M) (roomy : limits.Roomy) (hid : limits.id id = true)
    (hnew : M.holds id = false) : (M.execute limits id side limit n).1.reason = .Accepted ∧
      (limit ≠ none → ((M.execute limits id side limit n).2.holds id = true ↔
        (M.execute limits id side limit n).1.filled < n)) := by
  have hgone : (M.take side limit n).holds id = false := take_holds hnew
  have hroom : (M.take side limit n).size < limits.room :=
    Nat.lt_of_le_of_lt take_size_le (h.size_lt_room roomy hid hnew)
  cases limit with
  | none => exact ⟨rfl, fun e => absurd rfl e⟩
  | some price =>
      by_cases hleft : n - Greedy.total OpenOrder.quantity (M.makers side (some price)) = 0
      · simp only [execute, if_pos hleft]
        refine ⟨trivial, fun _ => iff_of_false (by simp [hgone]) ?_⟩
        rw [hleft, Nat.sub_zero]
        exact Nat.lt_irrefl n
      · simp only [execute, if_neg hleft, if_pos hroom]
        refine ⟨trivial, fun _ => iff_of_true ?_ ?_⟩
        · exact post_holds (o := ⟨id, price, _⟩)
        · exact Nat.sub_lt_self (Nat.pos_of_ne_zero hleft) (Nat.sub_le _ _)

theorem order_of_within (hn : n ≠ 0) (hid : limits.id id = true) (hnew : M.holds id = false)
    (hprice : limit.all limits.price = true) (hopposite : limit = none →
      M.orders side.opposite ≠ []) :
    M.order limits id side limit n = M.execute limits id side limit n := by
  have hany : limit.any (fun p => !limits.price p) = false := by
    cases limit with
    | none => rfl
    | some p => simpa using hprice
  unfold order
  rw [if_neg hn, if_neg (not_not.mpr hid), if_neg (by simp [hnew]), if_neg (by simp [hany]),
    if_neg (fun e => hopposite e.1 e.2)]

/-- Where there is room for every id, a request within the limits is refused only on account
of the orders in the market. -/
theorem step_circumstantial (h : Sound limits M) (roomy : limits.Roomy) {request : Request ι π}
    (within : request.Within limits) : (M.step limits request).1.reason.Circumstantial := by
  cases request with
  | order id side limit n =>
      obtain ⟨hn, hid, hprice⟩ := within
      change (M.order limits id side limit n).1.reason.Circumstantial
      by_cases hnew : M.holds id = false
      · by_cases hempty : limit = none ∧ M.orders side.opposite = []
        · obtain ⟨rfl, hempty⟩ := hempty
          simp [order, hn, hid, hnew, hempty, refuse, RejectReason.Circumstantial]
        · rw [order_of_within hn hid hnew hprice (fun e he => hempty ⟨e, he⟩)]
          exact Or.inl (execute_roomy side n limit h roomy hid hnew).1
      · simp [order, hn, hid, hnew, refuse, RejectReason.Circumstantial]
  | cancel id =>
      have hid : limits.id id = true := within
      change (M.cancel limits id).1.reason.Circumstantial
      unfold cancel
      rw [if_neg (not_not.mpr hid)]
      split
      · exact Or.inr (Or.inr (Or.inr rfl))
      · exact Or.inl rfl

/-- No request meets a lack of room. -/
theorem step_not_exhausted (h : Sound limits M) (roomy : limits.Roomy) (request : Request ι π) :
    (M.step limits request).1.reason ≠ .PoolExhausted := by
  cases request with
  | order id side limit n =>
      change (M.order limits id side limit n).1.reason ≠ .PoolExhausted
      rcases order_cases M limits id side limit n with
        ⟨reason, -, hreason, he⟩ | ⟨-, hid, hnew, -, -, he⟩
      · rw [he]
        exact hreason
      · rw [he, (execute_roomy side n limit h roomy hid hnew).1]
        decide
  | cancel id =>
      change (M.cancel limits id).1.reason ≠ .PoolExhausted
      rcases cancel_cases M limits id with ⟨reason, -, hreason, he⟩ | ⟨-, -, he⟩
      · rw [he]
        exact hreason
      · rw [he]
        exact fun e => by cases e

end Market

end Hft
