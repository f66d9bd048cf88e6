import MatchingEngine.Market.Capacity
import MatchingEngine.Market.Service

/-!
# A market from its open orders

The open orders of a market, sent one by one to an empty one in the order of service, are
taken on without a deal and end up where they were.
-/

namespace Hft

open Machine

variable {ι π : Type}

def OpenOrder.request (side : Side) (o : OpenOrder ι π) : Request ι π :=
  .order o.id side (some o.price) o.quantity

/-- The requests that bring a market back, bids first. -/
def Market.snapshot (M : Market ι π) : List (Request ι π) :=
  (M.orders .Buy).map (OpenOrder.request .Buy) ++ (M.orders .Sell).map (OpenOrder.request .Sell)

namespace Market

variable [DecidableEq ι] [LinearOrder π] {limits : Limits ι π} {M N : Market ι π}
variable {side : Side} {o : OpenOrder ι π} {ds os : List (OpenOrder ι π)}

/-- An order that nobody agrees to queues up as it is. -/
theorem order_posts (hn : 0 < o.quantity) (hid : limits.id o.id = true)
    (hnew : M.holds o.id = false) (hprice : limits.price o.price = true)
    (hmakers : M.makers side (some o.price) = []) (hroom : M.size < limits.room) :
    M.step limits (o.request side) = (⟨.Accepted, 0, []⟩, M.post side o) := by
  have hle : o.quantity ≠ 0 := Nat.ne_of_gt hn
  have horder : M.step limits (o.request side) =
      M.execute limits o.id side (some o.price) o.quantity :=
    order_of_within hle hid hnew hprice (fun e => by cases e)
  have htake : M.take side (some o.price) o.quantity = M := take_of_nobody hmakers
  rw [horder, execute, htake, hmakers]
  simp only [Greedy.total_nil, Nat.sub_zero, Nat.sub_self, hle, hroom, if_false, if_true]
  rfl

/-- The orders may come, in this order, behind those of their side. -/
structure Follows (limits : Limits ι π) (M : Market ι π) (side : Side)
    (os : List (OpenOrder ι π)) : Prop where
  quantity_pos : ∀ o ∈ os, 0 < o.quantity
  admitted : ∀ o ∈ os, limits.id o.id = true ∧ limits.price o.price = true
  apart : ∀ o ∈ os, ∀ o' ∈ M.orders side.opposite, accepts side (some o.price) o'.price = false
  served : (M.orders side ++ os).Pairwise (fun o o' => ¬Ahead side o'.price o.price)
  ids : (os.map OpenOrder.id).Nodup
  fresh : ∀ o ∈ os, M.holds o.id = false
  room : M.size + os.length ≤ limits.room

omit [DecidableEq ι] in
theorem post_last (h : ∀ m ∈ M.orders side, ¬Ahead side o.price m.price) :
    M.post side o = M.set side (M.orders side ++ [o]) := by
  have hqueue : queueUp side o (M.orders side ++ []) = M.orders side ++ queueUp side o [] :=
    queueUp_append h
  rw [List.append_nil] at hqueue
  rw [post, hqueue]
  rfl

omit [LinearOrder π] [DecidableEq ι] in
theorem set_set (M : Market ι π) (side : Side) (os os' : List (OpenOrder ι π)) :
    (M.set side os).set side os' = M.set side os' := by
  refine ext_side side ?_ ?_
  · rw [set_self, set_self]
  · rw [set_opposite, set_opposite, set_opposite]

theorem Follows.step (h : Follows limits M side (o :: os)) :
    M.step limits (o.request side) =
        (⟨.Accepted, 0, []⟩, M.set side (M.orders side ++ [o])) ∧
      Follows limits (M.set side (M.orders side ++ [o])) side os := by
  obtain ⟨hid, hprice⟩ := h.admitted o List.mem_cons_self
  obtain ⟨-, hserved, hbehind⟩ := List.pairwise_append.mp h.served
  obtain ⟨hother, hids⟩ := List.nodup_cons.mp h.ids
  have hroom := h.room
  rw [List.length_cons] at hroom
  have hmakers : M.makers side (some o.price) = [] := by
    refine List.filter_eq_nil_iff.mpr (fun o' ho' => ?_)
    rw [h.apart o List.mem_cons_self o' ho']
    exact Bool.false_ne_true
  have hlast : M.post side o = M.set side (M.orders side ++ [o]) :=
    post_last (fun m hm => hbehind m hm o List.mem_cons_self)
  rw [← hlast]
  refine ⟨order_posts (h.quantity_pos o List.mem_cons_self) hid
    (h.fresh o List.mem_cons_self) hprice hmakers (by omega), ?_⟩
  refine ⟨fun o' ho' => h.quantity_pos o' (List.mem_cons_of_mem o ho'),
    fun o' ho' => h.admitted o' (List.mem_cons_of_mem o ho'), fun o' ho' => ?_, ?_, hids,
    fun o' ho' => ?_, ?_⟩
  · rw [hlast, set_opposite]
    exact h.apart o' (List.mem_cons_of_mem o ho')
  · rw [hlast, set_self, List.append_assoc]
    exact h.served
  · have hne : o'.id ≠ o.id := fun e => hother (e ▸ List.mem_map_of_mem ho')
    rw [post_holds_of_ne hne]
    exact h.fresh o' (List.mem_cons_of_mem o ho')
  · rw [post_size]
    omega

/-- Orders that may come are taken on one after the other, without a deal. -/
theorem Follows.run (h : Follows limits M side os) :
    M.run limits (os.map (OpenOrder.request side)) =
      (os.map (fun _ => ⟨.Accepted, 0, []⟩), M.set side (M.orders side ++ os)) := by
  induction os generalizing M with
  | nil =>
      refine Prod.ext rfl (ext_side side ?_ ?_)
      · rw [set_self, List.append_nil]
        rfl
      · rw [set_opposite]
        rfl
  | cons o os ih =>
      obtain ⟨hstep, hrest⟩ := h.step
      have hnext := ih hrest
      rw [set_self, set_set, List.append_assoc] at hnext
      simp only [Market.run, runs, List.map_cons] at hnext ⊢
      rw [hstep, hnext]
      rfl

/-- A market is what its open orders, sent to an empty one, make of it. -/
theorem run_snapshot (h : Sound limits M) (turn : M.InTurn) (uncrossed : M.Uncrossed) :
    empty.run limits M.snapshot = (M.snapshot.map (fun _ => ⟨.Accepted, 0, []⟩), M) := by
  have hids : ((M.orders .Buy ++ M.orders .Sell).map OpenOrder.id).Nodup := h.ids
  rw [List.map_append, List.nodup_append] at hids
  obtain ⟨hbids, hasks, hdisjoint⟩ := hids
  have hroom : (M.orders .Buy).length + (M.orders .Sell).length ≤ limits.room := h.room
  have hfirst : Follows limits empty .Buy (M.orders .Buy) := by
    refine ⟨h.quantity_pos .Buy, h.admitted .Buy, fun _ _ _ ho' => absurd ho' List.not_mem_nil,
      turn.served .Buy, hbids, fun _ _ => rfl, ?_⟩
    change 0 + _ ≤ _
    omega
  have hsecond : Follows limits (empty.set .Buy (M.orders .Buy)) .Sell (M.orders .Sell) := by
    refine ⟨h.quantity_pos .Sell, h.admitted .Sell, ?_, turn.served .Sell, hasks, ?_, ?_⟩
    · exact (uncrossed_iff .Sell).mp uncrossed
    · intro o ho
      rw [← Bool.not_eq_true, holds_eq_true_iff]
      rintro ⟨side, o', ho', hid⟩
      cases side
      · exact hdisjoint _ (List.mem_map_of_mem ho') _ (List.mem_map_of_mem ho) hid
      · exact absurd ho' List.not_mem_nil
    · exact hroom
  have hbuys := hfirst.run
  have hsells := hsecond.run
  change runs _ _ _ = (_, empty.set .Buy (M.orders .Buy)) at hbuys
  change runs _ _ _ = (_, (empty.set .Buy (M.orders .Buy)).set .Sell (M.orders .Sell)) at hsells
  rw [Market.run, snapshot, runs_append, hbuys]
  simp only [hsells, List.map_append, List.map_map]
  refine Prod.ext rfl (ext_side .Sell ?_ ?_)
  · rw [set_self]
  · rw [set_opposite]
    exact set_self

end Market

end Hft
