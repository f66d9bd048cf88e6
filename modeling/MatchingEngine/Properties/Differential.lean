import MatchingEngine.Verification.Observation
import MatchingEngine.Verification.StdOrderBook

/-!
# Engine and reference in lock-step

Both books are fed the same calls. Each stands for the same ledger after each call, so
their replies and everything one can ask them agree. The engine tells an id out of
bounds from one that names no order, also in a cancel; the reference does not.
-/

namespace Hft

open Machine Machine.Checked

/-- Both books take the same call. -/
def lockstep (env : Env) (books : OrderBook × StdOrderBook) (call : Call) :
    Checked ((Reply × Reply) × (OrderBook × StdOrderBook)) := do
  let (reply, b) ← books.1.step env call
  let (stdReply, s) ← books.2.step call
  return ((reply, stdReply), (b, s))

/-- What can be asked of both books has one answer. -/
structure SameView (b : OrderBook) (s : StdOrderBook) : Prop where
  activeOrderCount : b.activeOrderCount = s.activeOrderCount
  orderExists : ∀ id, b.orderExists id = .ok (s.orderExists id)
  priceLevelCount : ∀ side, b.priceLevelCount side = s.priceLevelCount side
  queue : ∀ side price, b.minPrice ≤ price → price ≤ b.maxPrice →
    b.queue side (price - b.minPrice) = s.queue side price ∧
      ∃ orders, s.queue side price = .ok orders
  beyond : ∀ side price, price < b.minPrice ∨ price > b.maxPrice → s.queue side price = .ok []
  sideMapSize : s.sideMapSize = b.activeOrderCount

/-- Both books stand for one ledger. -/
def Twins (env : Env) (g : Geometry) (books : OrderBook × StdOrderBook) : Prop :=
  ∃ addr L, OrderBook.Ready env g books.1 L ∧ StdOrderBook.Keeps g addr books.2 L

variable {env : Env} {args : Args} {g : Geometry} {b b₀ : OrderBook} {s : StdOrderBook}

theorem Twins.sameView (h : Twins env g (b, s)) : SameView b s := by
  obtain ⟨addr, L, hready, hkeeps⟩ := h
  have store := hready.represents.store
  have hactive : b.activeOrderCount = (L.resting g).length := store.active
  refine
    { activeOrderCount := hactive.trans hkeeps.activeOrderCount_eq.symm
      orderExists := fun id => ?_
      priceLevelCount := fun side => ?_
      queue := fun side price hmin hmax => ?_
      beyond := fun side price hbeyond => ?_
      sideMapSize := hkeeps.sideMapSize_eq.trans hactive.symm }
  · rw [hkeeps.orderExists_eq]
    exact OrderBook.orderExists_eq store id
  · rw [hkeeps.priceLevelCount_eq]
    exact OrderBook.priceLevelCount_eq hready.represents side
  · rw [store.minPrice] at hmin ⊢
    rw [store.maxPrice] at hmax
    have hprice : g.price (price - g.minPrice) = price := Nat.add_sub_cancel' hmin
    have hi : price - g.minPrice < g.range := by
      have hrange := g.minPrice_add_range
      omega
    have hlist := hkeeps.queue_eq side (price - g.minPrice)
    rw [hprice] at hlist
    exact ⟨(OrderBook.queue_eq store side hi).trans hlist.symm, _, hlist⟩
  · rw [store.minPrice, store.maxPrice] at hbeyond
    exact hkeeps.queue_beyond side hbeyond

/-- One call on both books. -/
theorem Twins.step (h : Twins env g (b, s)) (call : Call) : (lockstep env (b, s) call).Returns
    (fun ((reply, stdReply), (b', s')) => Twins env g (b', s') ∧
      if StdOrderBook.StrayCancel g.maxOrderId call then
        reply = ⟨.OutOfBoundsOrderId, 0, []⟩ ∧ stdReply = ⟨.CancelFailed, 0, []⟩ ∧
          b' = { b with journal := b'.journal } ∧ s' = s
      else reply = stdReply) := by
  obtain ⟨addr, L, hready, hkeeps⟩ := h
  refine (OrderBook.step_spec hready call).bind ?_
  rintro ⟨reply, b'⟩ ⟨rfl, hfollows⟩
  refine (StdOrderBook.step_spec hkeeps call).bind ?_
  rintro ⟨stdReply, s'⟩ ⟨⟨addr', hkeeps'⟩, hreply⟩
  refine ⟨⟨addr', _, hready.follows hfollows, hkeeps'⟩, ?_⟩
  by_cases hstray : StdOrderBook.StrayCancel g.maxOrderId call
  · rw [if_pos hstray] at hreply ⊢
    have hrefused : (L.step g call).reply = ⟨.OutOfBoundsOrderId, 0, []⟩ := by
      have hcancel : ∀ id, id = 0 ∨ id > g.maxOrderId →
          (L.cancel g id).reply = ⟨.OutOfBoundsOrderId, 0, []⟩ := by
        intro id hid
        rw [Ledger.cancel, if_pos hid, Ledger.refuse]
      cases call with
      | cancelOrder id => exact hcancel id.toNat hstray
      | addOrder id type price quantity side =>
          obtain ⟨rfl, hid⟩ := hstray
          exact hcancel id.toNat hid
    have hne : (L.step g call).reply.reason ≠ .Accepted := by
      rw [hrefused]
      decide
    refine ⟨hrefused, hreply.1, ?_, hreply.2⟩
    rw [hfollows.refused hne]
    rfl
  · rw [if_neg hstray] at hreply ⊢
    exact hreply.symm

/-- After any calls both books give one view, and to any further call one reply; only a
cancel with an id out of bounds is refused for two reasons, and changes neither book. -/
theorem lockstep_agrees (h : OrderBook.construct env args = .ok b₀) (calls : List Call) :
    (checkedRuns (lockstep env) (b₀, StdOrderBook.construct args) calls).Returns
      (fun (_, (b, s)) => SameView b s ∧ ∀ call, (lockstep env (b, s) call).Returns
        (fun ((reply, stdReply), (b', s')) => SameView b' s' ∧
          if StdOrderBook.StrayCancel args.maxOrderId.toNat call then
            reply = ⟨.OutOfBoundsOrderId, 0, []⟩ ∧ stdReply = ⟨.CancelFailed, 0, []⟩ ∧
              b' = { b with journal := b'.journal } ∧ s' = s
          else reply = stdReply)) := by
  have accepted := OrderBook.accepted_of_construct h
  have hnew := OrderBook.construct_spec env accepted
  rw [h, returns_ok] at hnew
  have hstart : Twins env (args.geometry accepted) (b₀, StdOrderBook.construct args) :=
    ⟨fun n => n, _, hnew.1, StdOrderBook.construct_keeps accepted⟩
  have hrun : (checkedRuns (lockstep env) (b₀, StdOrderBook.construct args) calls).Returns
      (fun (_, books) => Twins env (args.geometry accepted) books) :=
    checkedRuns_invariant hstart (fun _ call htwins =>
      (htwins.step call).mono (fun _ hstep => hstep.1))
  refine hrun.mono (fun outcome htwins => ⟨htwins.sameView, fun call => ?_⟩)
  exact (htwins.step call).mono (fun _ hstep => ⟨hstep.1.sameView, hstep.2⟩)

theorem lockstep_agrees_small : ∃ b₀, OrderBook.construct .release .small = .ok b₀ ∧
    ∀ calls, (checkedRuns (lockstep .release) (b₀, StdOrderBook.construct .small) calls).Returns
      (fun (_, (b, s)) => SameView b s ∧ ∀ call, (lockstep .release (b, s) call).Returns
        (fun ((reply, stdReply), (b', s')) => SameView b' s' ∧
          if StdOrderBook.StrayCancel Args.small.maxOrderId.toNat call then
            reply = ⟨.OutOfBoundsOrderId, 0, []⟩ ∧ stdReply = ⟨.CancelFailed, 0, []⟩ ∧
              b' = { b with journal := b'.journal } ∧ s' = s
          else reply = stdReply)) := by
  obtain ⟨b₀, h⟩ := OrderBook.construct_small .release
  exact ⟨b₀, h, lockstep_agrees h⟩

end Hft
