import MatchingEngine.Market.Service

/-!
# Orders that never trade

An order that is never served takes part in nothing: the answers to everyone else are
those of a market it was not sent to.
-/

namespace Hft

open Machine

variable {ι π : Type}

def Request.id : Request ι π → ι
  | .order id _ _ _ => id
  | .cancel id => id

/-- No deal names any of the ids. -/
def Answer.Spares (ids : List ι) (a : Answer ι π) : Prop :=
  ∀ d ∈ a.deals, d.maker ∉ ids ∧ d.taker ∉ ids

namespace Market

variable [DecidableEq ι] [LinearOrder π] {limits : Limits ι π} {M : Market ι π}
variable {side : Side} {id : ι} {n : Nat} {limit : Option π} {o : OpenOrder ι π}
variable {os : List (OpenOrder ι π)} {ids : List ι}

/-! ## A market without some orders -/

omit [LinearOrder π] [DecidableEq ι] in
theorem size_le {N : Market ι π} (h : ∀ side, (N.orders side).Sublist (M.orders side)) :
    N.size ≤ M.size :=
  Nat.add_le_add (h .Buy).length_le (h .Sell).length_le

omit [LinearOrder π] in
theorem withdrawAll_orders : (M.withdrawAll ids).orders side =
    (M.orders side).filter (fun o => decide (o.id ∉ ids)) := rfl

omit [LinearOrder π] in
theorem withdrawAll_size_le : (M.withdrawAll ids).size ≤ M.size :=
  size_le (fun _ => List.filter_sublist)

omit [LinearOrder π] in
theorem withdrawAll_holds (hid : id ∉ ids) : (M.withdrawAll ids).holds id = M.holds id := by
  rw [Bool.eq_iff_iff, holds_eq_true_iff, holds_eq_true_iff]
  refine exists_congr (fun side => exists_congr (fun o => ?_))
  rw [withdrawAll, List.mem_filter, decide_eq_true_iff, and_assoc]
  refine and_congr_right (fun _ => and_iff_right_of_imp ?_)
  rintro rfl
  exact hid

omit [LinearOrder π] in
theorem withdraw_withdrawAll : (M.withdraw id).withdrawAll ids = (M.withdrawAll ids).withdraw id :=
  Market.ext (funext (fun _ => List.filter_comm _ _ _))

omit [LinearOrder π] in
theorem withdraw_withdrawAll_of_mem (hid : id ∈ ids) :
    (M.withdraw id).withdrawAll ids = M.withdrawAll ids := by
  refine Market.ext (funext (fun side => ?_))
  simp only [withdrawAll, withdraw, List.filter_filter]
  refine List.filter_congr (fun o _ => ?_)
  rw [Bool.and_eq_left_iff_imp, decide_eq_true_iff, decide_eq_true_iff]
  exact fun hkept heq => hkept (heq ▸ hid)

theorem withdrawAll_makers : (M.withdrawAll ids).makers side limit =
    (M.makers side limit).filter (fun o => decide (o.id ∉ ids)) :=
  List.filter_comm _ _ _

omit [DecidableEq ι] in
theorem queueUp_filter {keep : OpenOrder ι π → Bool} (ho : keep o = true)
    (served : os.Pairwise (fun o o' => ¬Ahead side o'.price o.price)) :
    queueUp side o (os.filter keep) = (queueUp side o os).filter keep := by
  induction served with
  | nil => simp [queueUp, ho]
  | @cons m os hm hos ih =>
      by_cases hahead : Ahead side o.price m.price
      · have hall : ∀ m' ∈ (m :: os).filter keep, Ahead side o.price m'.price := by
          intro m' hm'
          rcases List.mem_cons.mp (List.mem_of_mem_filter hm') with rfl | hm'
          · exact hahead
          · exact hahead.of_not_ahead (hm m' hm')
        rw [queueUp_of_ahead hall, queueUp, if_pos hahead, List.filter_cons_of_pos ho]
      · rw [queueUp, if_neg hahead]
        cases hkeep : keep m with
        | true =>
            rw [List.filter_cons_of_pos hkeep, List.filter_cons_of_pos hkeep, queueUp,
              if_neg hahead, ih]
        | false =>
            have hnot : ¬keep m = true := by simp [hkeep]
            rw [List.filter_cons_of_neg hnot, List.filter_cons_of_neg hnot, ih]

theorem withdrawAll_post (h : M.InTurn) (ho : o.id ∉ ids) :
    (M.withdrawAll ids).post side o = (M.post side o).withdrawAll ids := by
  refine ext_side side ?_ ?_
  · simp only [post, set_self, withdrawAll]
    exact queueUp_filter (decide_eq_true ho) (h.served side)
  · simp only [post, set_opposite, withdrawAll]

theorem withdrawAll_take (h : M.InTurn)
    (giving : ∀ f ∈ Greedy.fills OpenOrder.quantity (M.makers side limit) n, f.1.id ∉ ids) :
    (M.withdrawAll ids).take side limit n = (M.take side limit n).withdrawAll ids := by
  refine ext_side side ?_ ?_
  · simp only [take, set_of_opposite, withdrawAll]
  · have hpos : ∀ o ∈ M.makers side limit, 0 < o.quantity :=
      fun o ho => h.quantity_pos _ o (List.mem_of_mem_filter ho)
    have hrest : Greedy.rest OpenOrder.quantity OpenOrder.shrink
        ((M.makers side limit).filter (fun o => decide (o.id ∉ ids))) n =
          (Greedy.rest OpenOrder.quantity OpenOrder.shrink (M.makers side limit) n).filter
            (fun o => decide (o.id ∉ ids)) :=
      Greedy.rest_filter (fun f hf => decide_eq_true (giving f hf)) hpos (fun _ => rfl)
        (fun _ _ => rfl)
    rw [take, set_self, withdrawAll_makers, hrest]
    simp only [take, set_self, withdrawAll, List.filter_append]
    exact congrArg _ (List.filter_comm _ _ _)

/-! ## Requests of others -/

omit [DecidableEq ι] in
theorem fills_spared (spares : (M.execute limits id side limit n).1.Spares ids) :
    ∀ f ∈ Greedy.fills OpenOrder.quantity (M.makers side limit) n, f.1.id ∉ ids ∧ id ∉ ids := by
  intro f hf
  rw [Answer.Spares, execute_deals] at spares
  exact spares _ (List.mem_map_of_mem hf)

theorem withdrawAll_execute (h : M.InTurn) (hid : id ∉ ids)
    (spares : (M.execute limits id side limit n).1.Spares ids)
    (room : (M.execute limits id side limit n).1.reason ≠ .PoolExhausted) :
    (M.withdrawAll ids).execute limits id side limit n =
      ((M.execute limits id side limit n).1,
        (M.execute limits id side limit n).2.withdrawAll ids) := by
  have hfills := fills_spared spares
  have giving : ∀ f ∈ Greedy.fills OpenOrder.quantity (M.makers side limit) n,
      decide (f.1.id ∉ ids) = true := fun f hf => decide_eq_true (hfills f hf).1
  unfold execute at room ⊢
  rw [withdrawAll_makers, Greedy.fills_filter giving, Greedy.sub_total_filter giving,
    withdrawAll_take h (fun f hf => (hfills f hf).1)]
  cases limit with
  | none => rfl
  | some price =>
      simp only at room ⊢
      split
      · rfl
      · rename_i hleft
        rw [if_neg hleft] at room
        by_cases hroom : (M.take side (some price) n).size < limits.room
        · rw [if_pos hroom, if_pos (Nat.lt_of_le_of_lt withdrawAll_size_le hroom)]
          exact Prod.ext rfl (withdrawAll_post h.take hid)
        · rw [if_neg hroom] at room
          exact absurd rfl room

/-- A taker that agrees to every price leaves nobody out unless it is served by others. -/
theorem others_left (hn : n ≠ 0) (hne : M.orders side.opposite ≠ [])
    (spares : (M.execute limits id side none n).1.Spares ids) :
    (M.withdrawAll ids).orders side.opposite ≠ [] := by
  have hfills := fills_spared spares
  rw [makers_none] at hfills
  cases horders : M.orders side.opposite with
  | nil => exact absurd horders hne
  | cons o os =>
      rw [horders, Greedy.fills, if_neg hn] at hfills
      have ho : o.id ∉ ids := (hfills _ List.mem_cons_self).1
      rw [withdrawAll_orders, horders, List.filter_cons, if_pos (decide_eq_true ho)]
      exact List.cons_ne_nil _ _

theorem withdrawAll_order (h : M.InTurn) (hid : id ∉ ids)
    (spares : (M.order limits id side limit n).1.Spares ids)
    (room : (M.order limits id side limit n).1.reason ≠ .PoolExhausted) :
    (M.withdrawAll ids).order limits id side limit n =
      ((M.order limits id side limit n).1, (M.order limits id side limit n).2.withdrawAll ids) := by
  unfold order at spares room ⊢
  rw [withdrawAll_holds hid]
  by_cases hzero : n = 0
  · rw [if_pos hzero, if_pos hzero]
    rfl
  rw [if_neg hzero] at spares room
  rw [if_neg hzero, if_neg hzero]
  by_cases hlimits : ¬limits.id id = true
  · rw [if_pos hlimits, if_pos hlimits]
    rfl
  rw [if_neg hlimits] at spares room
  rw [if_neg hlimits, if_neg hlimits]
  by_cases hholds : M.holds id = true
  · rw [if_pos hholds, if_pos hholds]
    rfl
  rw [if_neg hholds] at spares room
  rw [if_neg hholds, if_neg hholds]
  by_cases hprice : limit.any (fun p => !limits.price p) = true
  · rw [if_pos hprice, if_pos hprice]
    rfl
  rw [if_neg hprice] at spares room
  rw [if_neg hprice, if_neg hprice]
  by_cases hempty : limit = none ∧ M.orders side.opposite = []
  · have hempty' : limit = none ∧ (M.withdrawAll ids).orders side.opposite = [] := by
      refine ⟨hempty.1, ?_⟩
      rw [withdrawAll_orders, hempty.2, List.filter_nil]
    rw [if_pos hempty, if_pos hempty']
    rfl
  · rw [if_neg hempty] at spares room
    have hleft : ¬(limit = none ∧ (M.withdrawAll ids).orders side.opposite = []) := by
      rintro ⟨rfl, hnone⟩
      exact others_left hzero (fun e => hempty ⟨rfl, e⟩) spares hnone
    rw [if_neg hempty, if_neg hleft]
    exact withdrawAll_execute h hid spares room

omit [LinearOrder π] in
theorem withdrawAll_cancel (hid : id ∉ ids) : (M.withdrawAll ids).cancel limits id =
    ((M.cancel limits id).1, (M.cancel limits id).2.withdrawAll ids) := by
  unfold cancel
  rw [withdrawAll_holds hid]
  split
  · rfl
  · split
    · rfl
    · exact Prod.ext rfl withdraw_withdrawAll.symm

theorem step_withdrawAll (h : M.InTurn) {request : Request ι π} (hid : request.id ∉ ids)
    (spares : (M.step limits request).1.Spares ids)
    (room : (M.step limits request).1.reason ≠ .PoolExhausted) :
    (M.withdrawAll ids).step limits request =
      ((M.step limits request).1, (M.step limits request).2.withdrawAll ids) := by
  cases request with
  | order id side limit n => exact withdrawAll_order h hid spares room
  | cancel id => exact withdrawAll_cancel hid

/-! ## Requests of those who never trade -/

omit [DecidableEq ι] in
theorem makers_of_no_fills (hn : n ≠ 0)
    (h : Greedy.fills OpenOrder.quantity (M.makers side limit) n = []) :
    M.makers side limit = [] := by
  cases hm : M.makers side limit with
  | nil => rfl
  | cons o os =>
      rw [hm, Greedy.fills, if_neg hn] at h
      cases h

theorem post_withdrawAll_of_mem (ho : o.id ∈ ids) :
    (M.post side o).withdrawAll ids = M.withdrawAll ids := by
  have hqueue : ∀ os : List (OpenOrder ι π),
      (queueUp side o os).filter (fun o' => decide (o'.id ∉ ids)) =
        os.filter (fun o' => decide (o'.id ∉ ids)) := by
    intro os
    have hnot : ¬decide (o.id ∉ ids) = true := by simp [ho]
    induction os with
    | nil => exact List.filter_cons_of_neg hnot
    | cons m os ih =>
        unfold queueUp
        split
        · exact List.filter_cons_of_neg hnot
        · rw [List.filter_cons, List.filter_cons, ih]
  refine ext_side side ?_ ?_
  · simp only [post, set_self, withdrawAll]
    exact hqueue _
  · simp only [post, set_opposite, withdrawAll]

theorem execute_bystander (hn : n ≠ 0) (hid : id ∈ ids)
    (spares : (M.execute limits id side limit n).1.Spares ids) :
    (M.execute limits id side limit n).2.withdrawAll ids = M.withdrawAll ids := by
  have hnobody : Greedy.fills OpenOrder.quantity (M.makers side limit) n = [] := by
    refine List.eq_nil_iff_forall_not_mem.mpr (fun f hf => ?_)
    exact (fills_spared spares f hf).2 hid
  unfold execute
  rw [take_of_nobody (makers_of_no_fills hn hnobody)]
  cases limit with
  | none => rfl
  | some price =>
      simp only
      split
      · rfl
      · split
        · exact post_withdrawAll_of_mem (o := ⟨id, price, _⟩) hid
        · rfl

theorem step_bystander {request : Request ι π} (hid : request.id ∈ ids)
    (spares : (M.step limits request).1.Spares ids) :
    (M.step limits request).2.withdrawAll ids = M.withdrawAll ids := by
  cases request with
  | order id side limit n =>
      change (M.order limits id side limit n).1.Spares ids at spares
      change (M.order limits id side limit n).2.withdrawAll ids = _
      rcases order_cases M limits id side limit n with ⟨reason, -, -, h⟩ | ⟨hn, -, -, -, -, h⟩
      · rw [h]
        rfl
      · rw [h] at spares ⊢
        exact execute_bystander hn hid spares
  | cancel id =>
      change (M.cancel limits id).2.withdrawAll ids = _
      rcases cancel_cases M limits id with ⟨reason, -, -, h⟩ | ⟨-, -, h⟩
      · rw [h]
        rfl
      · rw [h]
        exact withdraw_withdrawAll_of_mem hid

/-! ## Runs -/

/-- Leave out the requests of some ids that never trade: everyone else gets the same answers. -/
theorem run_without (h : M.InTurn) (requests : List (Request ι π))
    (room : ∀ p ∈ requests.zip (M.run limits requests).1, p.1.id ∉ ids →
      p.2.reason ≠ .PoolExhausted)
    (spares : ∀ answer ∈ (M.run limits requests).1, answer.Spares ids) :
    (M.withdrawAll ids).run limits (requests.filter (fun r => decide (r.id ∉ ids))) =
      (((requests.zip (M.run limits requests).1).filter (fun p => decide (p.1.id ∉ ids))).map
        Prod.snd, (M.run limits requests).2.withdrawAll ids) := by
  have hrun : ((M.withdrawAll ids).run limits
      (requests.filter (fun r => decide (r.id ∉ ids)))).1 =
        ((requests.zip (M.run limits requests).1).filter (fun p => decide (p.1.id ∉ ids))).map
          Prod.snd ∧
      ((M.run limits requests).2.InTurn ∧
        ((M.withdrawAll ids).run limits (requests.filter (fun r => decide (r.id ∉ ids)))).2 =
          (M.run limits requests).2.withdrawAll ids) := by
    refine runs_filter (R := fun (M N : Market ι π) => M.InTurn ∧ N = M.withdrawAll ids)
      (C := fun (request : Request ι π) (answer : Answer ι π) => answer.Spares ids ∧
        (request.id ∉ ids → answer.reason ≠ .PoolExhausted)) ⟨h, rfl⟩ ?_ ?_ ?_
    · rintro N _ request ⟨hN, rfl⟩ hkeep ⟨hspares, hroom⟩
      have hid : request.id ∉ ids := of_decide_eq_true hkeep
      have hstep := step_withdrawAll hN hid hspares (hroom hid)
      refine ⟨?_, step_inTurn hN request, ?_⟩
      · rw [hstep]
      · rw [hstep]
    · rintro N _ request ⟨hN, rfl⟩ hdrop ⟨hspares, -⟩
      have hid : request.id ∈ ids := not_not.mp (of_decide_eq_false hdrop)
      exact ⟨step_inTurn hN request, (step_bystander hid hspares).symm⟩
    · exact fun p hp => ⟨spares _ (List.of_mem_zip hp).2, room p hp⟩
  exact Prod.ext hrun.1 hrun.2.2

end Market

end Hft
