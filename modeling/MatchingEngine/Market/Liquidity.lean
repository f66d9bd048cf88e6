import MatchingEngine.Market.Renaming
import Mathlib.Data.List.Nodup

/-!
# Taking and withdrawing liquidity

An order without a limit is one at the worst price of its side that is cancelled at
once. Cancels withdraw what they name, in whatever order they come.
-/

namespace Hft

open Machine

namespace Market

variable {ι π : Type} [DecidableEq ι] [LinearOrder π] {limits : Limits ι π} {M : Market ι π}
variable {side : Side} {id : ι} {n : Nat} {o : OpenOrder ι π} {os : List (OpenOrder ι π)}

/-- The open orders of both sides. -/
def all (M : Market ι π) : List (OpenOrder ι π) := M.orders .Buy ++ M.orders .Sell

/-- What holds of the market of an engine between two requests. -/
structure Sound (limits : Limits ι π) (M : Market ι π) : Prop where
  admitted : M.Admitted limits
  quantity_pos : ∀ side, ∀ o ∈ M.orders side, 0 < o.quantity
  ids : (M.all.map OpenOrder.id).Nodup
  room : M.size ≤ limits.room

omit [LinearOrder π] [DecidableEq ι] in
theorem size_eq_side (side : Side) :
    M.size = (M.orders side).length + (M.orders side.opposite).length := by
  cases side
  · rfl
  · exact Nat.add_comm _ _

omit [LinearOrder π] in
theorem holds_eq_true_iff : M.holds id = true ↔ ∃ side, ∃ o ∈ M.orders side, o.id = id := by
  have hany : ∀ side, (M.orders side).any (fun o => decide (o.id = id)) = true ↔
      ∃ o ∈ M.orders side, o.id = id := by simp
  rw [holds, Bool.or_eq_true, hany, hany]
  constructor
  · rintro (h | h)
    · exact ⟨.Buy, h⟩
    · exact ⟨.Sell, h⟩
  · rintro ⟨side, h⟩
    cases side
    · exact Or.inl h
    · exact Or.inr h

theorem filter_queueUp (os : List (OpenOrder ι π)) (hnew : ∀ o' ∈ os, o'.id ≠ o.id) :
    (queueUp side o os).filter (fun o' => decide (o'.id ≠ o.id)) = os := by
  induction os with
  | nil => simp [queueUp]
  | cons m os ih =>
      have hm := hnew m List.mem_cons_self
      have hrest : ∀ o' ∈ os, o'.id ≠ o.id := fun o' ho' => hnew o' (List.mem_cons_of_mem m ho')
      unfold queueUp
      split
      · rw [List.filter_cons_of_neg (by simp), List.filter_eq_self.mpr]
        intro o' ho'
        exact decide_eq_true (hnew o' ho')
      · rw [List.filter_cons_of_pos (by simpa using hm), ih hrest]

/-- Withdrawing what has just been posted. -/
theorem post_withdraw (hnew : M.holds o.id = false) : (M.post side o).withdraw o.id = M := by
  have hfresh : ∀ s, ∀ o' ∈ M.orders s, o'.id ≠ o.id := by
    intro s o' ho' heq
    rw [holds_eq_true_iff.mpr ⟨s, o', ho', heq⟩] at hnew
    cases hnew
  refine ext_side side ?_ ?_
  · simp only [withdraw, Market.post, set_self]
    exact filter_queueUp _ (hfresh side)
  · simp only [withdraw, Market.post, set_opposite]
    exact List.filter_eq_self.mpr (fun o' ho' => decide_eq_true (hfresh _ o' ho'))

theorem post_holds : (M.post side o).holds o.id = true := by
  refine holds_eq_true_iff.mpr ⟨side, o, ?_, rfl⟩
  rw [Market.post, set_self]
  exact mem_queueUp.mpr (Or.inl rfl)

theorem take_holds {limit : Option π} (h : M.holds id = false) :
    (M.take side limit n).holds id = false := by
  rw [← Bool.not_eq_true, holds_eq_true_iff] at h ⊢
  rintro ⟨s, o, ho, hid⟩
  refine h ?_
  by_cases hs : s = side.opposite
  · subst hs
    rw [take, set_self] at ho
    rcases List.mem_append.mp ho with ho | ho
    · obtain ⟨o', ho', hid', -⟩ := mem_rest ho
      exact ⟨_, o', List.mem_of_mem_filter ho', hid' ▸ hid⟩
    · exact ⟨_, o, List.mem_of_mem_filter ho, hid⟩
  · rw [take, set_of_ne hs] at ho
    exact ⟨s, o, ho, hid⟩

omit [DecidableEq ι] in
/-- A taker fills what it asks for, or all that it agrees to. -/
theorem execute_filled {limit : Option π} :
    (M.execute limits id side limit n).1.filled =
      min n (Greedy.total OpenOrder.quantity (M.makers side limit)) := by
  have hmin : n - (n - Greedy.total OpenOrder.quantity (M.makers side limit)) =
      min n (Greedy.total OpenOrder.quantity (M.makers side limit)) := by omega
  rw [← hmin]
  unfold execute
  cases limit with
  | none => rfl
  | some price =>
      simp only
      split
      · rfl
      · split <;> rfl

omit [DecidableEq ι] in
theorem execute_deals : (M.execute limits id side limit n).1.deals =
    (Greedy.fills OpenOrder.quantity (M.makers side limit) n).map (OpenOrder.deal id) := by
  unfold execute
  cases limit with
  | none => rfl
  | some price =>
      simp only
      split
      · rfl
      · split <;> rfl

/-- An order is refused, and the market left alone, or it is executed. -/
theorem order_cases (M : Market ι π) (limits : Limits ι π) (id : ι) (side : Side)
    (limit : Option π) (n : Nat) :
    (∃ reason, reason ≠ .Accepted ∧ reason ≠ .PoolExhausted ∧
      M.order limits id side limit n = M.refuse reason) ∨
    (n ≠ 0 ∧ limits.id id = true ∧ M.holds id = false ∧ limit.all limits.price = true ∧
      (limit = none → M.orders side.opposite ≠ []) ∧
      M.order limits id side limit n = M.execute limits id side limit n) := by
  unfold order
  by_cases hzero : n = 0
  · exact Or.inl ⟨.InvalidQuantity, by decide, by decide, if_pos hzero⟩
  rw [if_neg hzero]
  by_cases hid : limits.id id = true
  · rw [if_neg (not_not.mpr hid)]
    by_cases hholds : M.holds id = true
    · exact Or.inl ⟨.DuplicateOrderId, by decide, by decide, if_pos hholds⟩
    rw [if_neg hholds]
    by_cases hprice : limit.any (fun p => !limits.price p) = true
    · exact Or.inl ⟨.OutOfBoundsPrice, by decide, by decide, if_pos hprice⟩
    rw [if_neg hprice]
    by_cases hempty : limit = none ∧ M.orders side.opposite = []
    · exact Or.inl ⟨.MarketOnEmptyBook, by decide, by decide, if_pos hempty⟩
    rw [if_neg hempty]
    refine Or.inr ⟨hzero, hid, Bool.eq_false_of_not_eq_true hholds, ?_,
      fun e he => hempty ⟨e, he⟩, rfl⟩
    cases limit with
    | none => rfl
    | some p => simpa using hprice
  · exact Or.inl ⟨.OutOfBoundsOrderId, by decide, by decide, if_pos hid⟩

omit [LinearOrder π] in
theorem cancel_cases (M : Market ι π) (limits : Limits ι π) (id : ι) :
    (∃ reason, reason ≠ .Accepted ∧ reason ≠ .PoolExhausted ∧
      M.cancel limits id = M.refuse reason) ∨
    (limits.id id = true ∧ M.holds id = true ∧
      M.cancel limits id = (⟨.Accepted, 0, []⟩, M.withdraw id)) := by
  unfold cancel
  by_cases hid : limits.id id = true
  · rw [if_neg (not_not.mpr hid)]
    by_cases hholds : M.holds id = true
    · exact Or.inr ⟨hid, hholds, if_neg (not_not.mpr hholds)⟩
    · exact Or.inl ⟨.CancelFailed, by decide, by decide, if_pos hholds⟩
  · exact Or.inl ⟨.OutOfBoundsOrderId, by decide, by decide, if_pos hid⟩

/-! ## No limit, or the worst one -/

section Worst

variable {worst : π} (worst_of : ∀ p, limits.price p = true → accepts side (some worst) p = true)
include worst_of

omit [DecidableEq ι] in
theorem makers_worst (h : M.Admitted limits) :
    M.makers side (some worst) = M.orders side.opposite :=
  List.filter_eq_self.mpr (fun o ho => worst_of _ (h _ o ho).2)

omit [DecidableEq ι] worst_of in
theorem makers_none : M.makers side none = M.orders side.opposite :=
  List.filter_eq_self.mpr (fun _ _ => rfl)

omit [DecidableEq ι] in
theorem take_worst (h : M.Admitted limits) :
    M.take side (some worst) n = M.take side none n := by
  have hkept : (M.orders side.opposite).filter (fun o => !accepts side (some worst) o.price) =
      (M.orders side.opposite).filter (fun o => !accepts side (none : Option π) o.price) := by
    refine List.filter_congr (fun o ho => ?_)
    rw [worst_of _ (h _ o ho).2]
    rfl
  rw [take, take, makers_worst worst_of h, makers_none, hkept]

omit [DecidableEq ι] worst_of in
/-- A taker that agrees to every price and is not served in full has emptied the other side. -/
theorem take_none_size (h : Sound limits M) (hne : M.orders side.opposite ≠ [])
    (hleft : Greedy.total OpenOrder.quantity (M.orders side.opposite) < n) :
    (M.take side none n).size < limits.room := by
  have hempty : (M.take side none n).orders side.opposite = [] := by
    rw [take, set_self, makers_none, List.append_eq_nil_iff]
    refine ⟨(Greedy.rest_eq_nil_iff (h.quantity_pos _)).mpr (Nat.le_of_lt hleft), ?_⟩
    exact List.filter_eq_nil_iff.mpr (fun o _ => by simp [accepts])
  have hown : (M.take side none n).orders side = M.orders side := by
    rw [take, set_of_opposite]
  have hpos := List.length_pos_iff.mpr hne
  refine Nat.lt_of_lt_of_le ?_ h.room
  cases side
  · rw [size, size, hown, show (M.take .Buy none n).orders .Sell = [] from hempty]
    exact Nat.add_lt_add_left hpos _
  · rw [size, size, hown, show (M.take .Sell none n).orders .Buy = [] from hempty]
    exact Nat.add_lt_add_right hpos _

/-- An order without a limit that is accepted is one with the worst limit, cancelled at once. -/
theorem order_none_eq (h : Sound limits M) (hprice : limits.price worst = true)
    (haccepted : (M.order limits id side none n).1.reason = .Accepted) :
    (M.order limits id side (some worst) n).1 = (M.order limits id side none n).1 ∧
      (M.order limits id side (some worst) n).2.cancel limits id =
        (⟨if (M.order limits id side none n).1.filled < n then .Accepted else .CancelFailed, 0, []⟩,
          (M.order limits id side none n).2) := by
  by_cases hzero : n = 0
  · simp only [order, if_pos hzero, refuse] at haccepted
    cases haccepted
  by_cases hid : limits.id id = true
  · by_cases hholds : M.holds id = true
    · simp only [order, if_neg hzero, if_neg (not_not.mpr hid), if_pos hholds, refuse] at haccepted
      cases haccepted
    by_cases hempty : M.orders side.opposite = []
    · simp only [order, if_neg hzero, if_neg (not_not.mpr hid), if_neg hholds, hempty, refuse,
        Option.any_none, Bool.false_eq_true, if_false, and_self, if_true] at haccepted
      cases haccepted
    have hnone : M.order limits id side none n = M.execute limits id side none n := by
      simp [order, hzero, hid, hholds, hempty]
    have hworst : M.order limits id side (some worst) n =
        M.execute limits id side (some worst) n := by
      simp [order, hzero, hid, hholds, hprice]
    have hfilled : (M.execute limits id side none n).1.filled =
        min n (Greedy.total OpenOrder.quantity (M.orders side.opposite)) := by
      rw [execute_filled, makers_none]
    have hgone : (M.take side none n).holds id = false :=
      take_holds (Bool.eq_false_of_not_eq_true hholds)
    rw [hnone, hworst, hfilled]
    simp only [execute, makers_worst worst_of h.admitted, makers_none,
      take_worst worst_of h.admitted]
    by_cases hleft : n - Greedy.total OpenOrder.quantity (M.orders side.opposite) = 0
    · rw [if_pos hleft]
      refine ⟨rfl, ?_⟩
      rw [cancel, if_neg (not_not.mpr hid), if_pos (by simp [hgone]), if_neg (by omega)]
      rfl
    · have hroom := take_none_size h hempty (Nat.lt_of_sub_ne_zero hleft)
      rw [if_neg hleft, if_pos hroom]
      refine ⟨rfl, ?_⟩
      rw [cancel, if_neg (not_not.mpr hid), if_neg (not_not.mpr post_holds), if_pos (by omega)]
      exact Prod.ext rfl (post_withdraw (o := ⟨id, worst, _⟩) hgone)
  · simp only [order, if_neg hzero, if_pos hid, refuse] at haccepted
    cases haccepted

end Worst

/-! ## Cancels -/

def withdrawAll (M : Market ι π) (ids : List ι) : Market ι π :=
  ⟨fun side => (M.orders side).filter (fun o => decide (o.id ∉ ids))⟩

omit [LinearOrder π] in
theorem withdrawAll_cons (M : Market ι π) (id : ι) (ids : List ι) :
    (M.withdraw id).withdrawAll ids = M.withdrawAll (id :: ids) := by
  refine Market.ext (funext (fun side => ?_))
  simp only [withdrawAll, withdraw, List.filter_filter]
  refine List.filter_congr (fun o _ => ?_)
  rw [Bool.eq_iff_iff]
  simp [and_comm]

omit [LinearOrder π] in
theorem Sound.withdraw (h : Sound limits M) (id : ι) : Sound limits (M.withdraw id) where
  admitted := h.admitted.withdraw
  quantity_pos := fun side o ho => h.quantity_pos side o (List.mem_of_mem_filter ho)
  ids := by
    refine h.ids.sublist (List.Sublist.map _ ?_)
    exact List.Sublist.append List.filter_sublist List.filter_sublist
  room := by
    refine Nat.le_trans (Nat.add_le_add ?_ ?_) h.room
    · exact List.length_filter_le _ _
    · exact List.length_filter_le _ _

omit [LinearOrder π] in
/-- Withdrawing takes out one order, if one has the id. -/
theorem withdraw_size (h : Sound limits M) (id : ι) :
    (M.withdraw id).size + (if M.holds id then 1 else 0) = M.size := by
  have hsize : ∀ N : Market ι π, N.size = N.all.length := fun N => List.length_append.symm
  have hfilter : (M.withdraw id).all = M.all.filter (fun o => decide (o.id ≠ id)) :=
    (List.filter_append _ _).symm
  have hholds : M.holds id = true ↔ id ∈ M.all.map OpenOrder.id := by
    simp [holds, all]
  have hcount : M.all.countP (fun o => decide (o.id = id)) = (M.all.map OpenOrder.id).count id := by
    rw [List.count, List.countP_map]
    exact List.countP_congr (fun o _ => by simp)
  have hsplit := M.all.length_eq_countP_add_countP (fun o => decide (o.id = id))
  rw [hsize, hsize, hfilter, ← List.countP_eq_length_filter, hsplit, hcount, Nat.add_comm]
  refine congrArg₂ _ ?_ (List.countP_congr (fun o _ => by simp))
  by_cases hmem : id ∈ M.all.map OpenOrder.id
  · rw [if_pos (hholds.mpr hmem), List.count_eq_one_of_mem h.ids hmem]
  · rw [if_neg (fun e => hmem (hholds.mp e)), List.count_eq_zero_of_not_mem hmem]

omit [LinearOrder π] in
/-- A cancel withdraws its id, and is accepted if there was an order to withdraw. -/
theorem cancel_eq (h : M.Admitted limits) (id : ι) :
    (M.cancel limits id).2 = M.withdraw id ∧
      ((M.cancel limits id).1.reason = .Accepted ↔ M.holds id = true) := by
  have hgone : ¬M.holds id = true → M.withdraw id = M := by
    intro hnone
    refine Market.ext (funext (fun side => List.filter_eq_self.mpr (fun o ho => ?_)))
    exact decide_eq_true (fun heq => hnone (holds_eq_true_iff.mpr ⟨side, o, ho, heq⟩))
  unfold cancel
  by_cases hid : limits.id id = true
  · rw [if_neg (not_not.mpr hid)]
    by_cases hholds : M.holds id = true
    · rw [if_neg (not_not.mpr hholds)]
      exact ⟨rfl, iff_of_true rfl hholds⟩
    · rw [if_pos hholds]
      exact ⟨(hgone hholds).symm, iff_of_false (fun e => by cases e) hholds⟩
  · have hholds : ¬M.holds id = true := by
      intro e
      obtain ⟨side, o, ho, rfl⟩ := holds_eq_true_iff.mp e
      exact hid (h side o ho).1
    rw [if_pos hid]
    exact ⟨(hgone hholds).symm, iff_of_false (fun e => by cases e) hholds⟩

/-- Cancels in any order, repeated or of ids that are not there: what they name is withdrawn,
and as many are accepted as there were orders to withdraw. -/
theorem run_cancels (h : Sound limits M) (ids : List ι) :
    (M.run limits (ids.map .cancel)).2 = M.withdrawAll ids ∧
      (M.run limits (ids.map .cancel)).1.countP (fun a => decide (a.reason = .Accepted)) +
        (M.withdrawAll ids).size = M.size := by
  induction ids generalizing M with
  | nil =>
      have hall : M.withdrawAll [] = M :=
        Market.ext (funext (fun side => List.filter_eq_self.mpr (fun _ _ => by simp)))
      rw [hall]
      exact ⟨rfl, Nat.zero_add _⟩
  | cons id ids ih =>
      obtain ⟨hcancel, haccepted⟩ := cancel_eq h.admitted id
      obtain ⟨hrest, hcount⟩ := ih (h.withdraw id)
      have hsize := withdraw_size h id
      have hrun : M.run limits ((id :: ids).map .cancel) =
          ((M.cancel limits id).1 :: ((M.withdraw id).run limits (ids.map .cancel)).1,
            ((M.withdraw id).run limits (ids.map .cancel)).2) := by
        rw [← hcancel]
        rfl
      rw [hrun, List.countP_cons, ← withdrawAll_cons]
      refine ⟨hrest, ?_⟩
      simp only [haccepted, decide_eq_true_eq]
      omega

end Market

end Hft
