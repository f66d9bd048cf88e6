import MatchingEngine.Market.Snapshot
import MatchingEngine.Properties.Liquidity

/-!
# A book from its open orders

The open orders of a book, read off best price first and sent to a new book, bring it back.
The new book may be of another build, and wider.
-/

namespace Hft

open Machine Machine.Checked

namespace OpenOrder

/-- The call that sends an open order as a new one. -/
def call (side : Side) (o : OpenOrder Nat Nat) : Call :=
  .addOrder (.ofNat o.id) .Limit (.ofNat o.price) (.ofNat o.quantity) side

theorem call_request {side : Side} {o : OpenOrder Nat Nat} (hid : o.id < 2 ^ 32)
    (hprice : o.price < 2 ^ 32) (hquantity : o.quantity < 2 ^ 32) :
    (o.call side).request = o.request side := by
  rw [call, Call.request, if_neg (by decide), UInt32.toNat_ofNat_of_lt' hid,
    UInt32.toNat_ofNat_of_lt' hprice, UInt32.toNat_ofNat_of_lt' hquantity]
  rfl

end OpenOrder

namespace OrderBook

variable {env env' : Env} {g : Geometry} {args args' : Args} {b b₀ : OrderBook}
variable {M : Market Nat Nat} {side : Side}

/-- The calls that bring a book back, bids first. -/
def snapshot (b : OrderBook) : Checked (List Call) := do
  let bids ← b.openOrders .Buy
  let asks ← b.openOrders .Sell
  return bids.map (OpenOrder.call .Buy) ++ asks.map (OpenOrder.call .Sell)

theorem Shows.quantity_lt (h : Shows env g b M) :
    ∀ o ∈ M.orders side, o.quantity < 2 ^ 32 := by
  obtain ⟨L, hready, rfl⟩ := h
  intro o ho
  obtain ⟨p, hp, rfl⟩ := List.mem_map.mp ho
  exact hready.represents.wellFormed.quantity_lt p
    (Ledger.mem_resting_of_lots Ledger.priority_lt hp)

theorem Shows.call_requests {accepted : args.Accepted}
    (h : Shows env (args.geometry accepted) b M) :
    ((M.orders side).map (OpenOrder.call side)).map Call.request =
      (M.orders side).map (OpenOrder.request side) := by
  rw [List.map_map]
  refine List.map_congr_left (fun o ho => OpenOrder.call_request ?_ ?_ (h.quantity_lt o ho))
  · have hid := of_decide_eq_true (h.sound.admitted side o ho).1
    have hle : o.id ≤ args.maxOrderId.toNat := hid.2
    have hmax := accepted.ids_le
    simp only [kMaxOrderIds] at hmax
    omega
  · have hprice := of_decide_eq_true (h.sound.admitted side o ho).2
    have hle : o.price ≤ args.maxPrice.toNat := hprice.2
    have hmax := accepted.max_lt
    omega

/-- Send the open orders of a book to a new one, of any build and at least as wide: all are
accepted without a trade, and the new book has the same open orders. -/
theorem snapshot_restores (hb : Reachable env args b) (h : construct env' args' = .ok b₀)
    (wider : args.limits.Within args'.limits) :
    b.snapshot.Returns (fun calls => (b₀.run env' calls).Returns (fun (replies, b') =>
      (∀ reply ∈ replies, reply = ⟨.Accepted, 0, []⟩) ∧
      ∀ side, ∃ orders, b.openOrders side = .ok orders ∧ b'.openOrders side = .ok orders)) := by
  obtain ⟨accepted, M, hM, hturn, huncrossed⟩ := hb.shows_invariant
    (P := fun M => M.InTurn ∧ M.Uncrossed)
    ⟨Market.empty_inTurn Nat Nat, Market.empty_uncrossed⟩ (fun M _ request hM =>
      ⟨Market.step_inTurn hM.1 request, Market.step_uncrossed hM.1 hM.2 request⟩)
  have hrestored : Market.empty.run args.limits M.snapshot =
      (M.snapshot.map (fun _ => ⟨.Accepted, 0, []⟩), M) :=
    Market.run_snapshot hM.sound hturn huncrossed
  have hrun : Market.empty.run args'.limits M.snapshot =
      Market.empty.run args.limits M.snapshot := by
    refine Market.run_widened wider _ (fun answer hanswer => ?_)
    rw [hrestored] at hanswer
    obtain ⟨request, -, rfl⟩ := List.mem_map.mp hanswer
    simp [RejectReason.Limiting]
  rw [snapshot, hM.openOrders, hM.openOrders, ok_bind, ok_bind]
  refine (run_shows (construct_shows h) _).mono ?_
  rintro ⟨replies, b'⟩ ⟨rfl, hb'⟩
  rw [List.map_append, hM.call_requests, hM.call_requests] at hb' ⊢
  change Shows env' _ b' (Market.empty.run args'.limits M.snapshot).2 at hb'
  change (∀ reply ∈ (Market.empty.run args'.limits M.snapshot).1.map Answer.reply, _) ∧ _
  rw [hrun, hrestored] at hb' ⊢
  refine ⟨fun reply hreply => ?_, fun side => ⟨_, hM.openOrders side, hb'.openOrders side⟩⟩
  rw [List.map_map] at hreply
  obtain ⟨request, -, rfl⟩ := List.mem_map.mp hreply
  rfl

theorem snapshot_restores_small : ∃ b b₀ replies c,
    construct .instrumented .small = .ok b ∧ construct .release ⟨9, 5, 0, 200⟩ = .ok b₀ ∧
    b.run .instrumented [.addOrder 1 .Limit 101 5 .Buy, .addOrder 2 .Limit 101 7 .Buy] =
      .ok (replies, c) ∧
    c.snapshot.Returns (fun calls => (b₀.run .release calls).Returns (fun (replies, c') =>
      (∀ reply ∈ replies, reply = ⟨.Accepted, 0, []⟩) ∧
      ∀ side, ∃ orders, c.openOrders side = .ok orders ∧ c'.openOrders side = .ok orders)) := by
  obtain ⟨b, hb⟩ := construct_small .instrumented
  have haccepted : Args.Accepted ⟨9, 5, 0, 200⟩ := by constructor <;> decide
  obtain ⟨b₀, h, -⟩ := returns_iff.mp (construct_spec .release haccepted)
  obtain ⟨⟨replies, c⟩, hrun, -⟩ := returns_iff.mp (run_shows (construct_shows hb)
    [.addOrder 1 .Limit 101 5 .Buy, .addOrder 2 .Limit 101 7 .Buy])
  have hc : Reachable .instrumented .small c := ⟨b, _, replies, hb, hrun⟩
  exact ⟨b, b₀, replies, c, hb, h, hrun, snapshot_restores hc h Args.small_within⟩

end OrderBook

end Hft
