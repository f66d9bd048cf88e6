import MatchingEngine.Market.Amortized
import MatchingEngine.Properties.Liquidity

/-!
# What a run costs

A single call may trade with every order of the other side. Over a run this is paid for: no
more trades are made than orders were accepted or open before.
-/

namespace Hft

open Machine Machine.Checked

/-- The call cancels an order. -/
def Call.cancels : Call → Bool
  | .addOrder _ type _ _ _ => decide (type = .Cancel)
  | .cancelOrder _ => true

/-- The trades of a call, and the order it has cancelled. -/
def Call.spent (call : Call) (reply : Reply) : Nat :=
  reply.trades.length + (if call.cancels = true ∧ reply.reason = .Accepted then 1 else 0)

/-- The orders a call has brought. -/
def Call.paid (call : Call) (reply : Reply) : Nat :=
  if call.cancels = false ∧ reply.reason = .Accepted then 1 else 0

namespace Market

variable {limits : Limits Nat Nat} {M : Market Nat Nat}

theorem cancel_deals (id : Nat) : (M.cancel limits id).1.deals = [] := by
  rcases cancel_cases M limits id with ⟨reason, -, -, h⟩ | ⟨-, -, h⟩
  · rw [h]
    rfl
  · rw [h]

/-- What a call spends and pays is what its request does. -/
theorem call_spent_paid (call : Call) :
    call.spent (M.call limits call).1 = call.request.spent (M.step limits call.request).1 ∧
      call.paid (M.call limits call).1 = call.request.paid (M.step limits call.request).1 := by
  have hcancel : ∀ call : Call, call.cancels = true → ∀ id, call.request = .cancel id →
      call.spent (M.call limits call).1 = call.request.spent (M.step limits call.request).1 ∧
        call.paid (M.call limits call).1 = call.request.paid (M.step limits call.request).1 := by
    intro call hcancels id hrequest
    have hdeals : (M.cancel limits id).1.deals = [] := cancel_deals id
    simp only [Call.spent, Call.paid, Market.call, hrequest, hcancels, Market.step,
      Request.spent, Request.paid, Prod.map_fst, Answer.reply, hdeals]
    simp
  cases call with
  | addOrder id type price quantity side =>
      by_cases htype : type = .Cancel
      · exact hcancel _ (decide_eq_true htype) id.toNat (if_pos htype)
      · have hrequest : (Call.addOrder id type price quantity side).request =
            .order id.toNat side (type.limit price.toNat) quantity.toNat := if_neg htype
        simp only [Call.spent, Call.paid, Market.call, hrequest, Call.cancels, htype,
          Request.spent, Request.paid, Prod.map_fst, Answer.reply]
        simp
  | cancelOrder id => exact hcancel _ rfl id.toNat rfl

theorem call_paid (h : M.InTurn) (call : Call) :
    call.spent (M.call limits call).1 + (M.call limits call).2.size ≤
      M.size + call.paid (M.call limits call).1 := by
  obtain ⟨hspent, hpaid⟩ := call_spent_paid (M := M) call
  rw [hspent, hpaid]
  exact step_paid h call.request

end Market

namespace OrderBook

variable {env : Env} {args : Args} {b : OrderBook}

/-- Over any run, trades and cancels are at most as many as the orders that were accepted
during the run or open before it, less those still open after it. -/
theorem trades_amortized (hb : Reachable env args b) (calls : List Call) :
    (b.run env calls).Returns (fun (replies, b') =>
      ((calls.zip replies).map (fun p => p.1.spent p.2)).sum + b'.activeOrderCount ≤
        b.activeOrderCount + ((calls.zip replies).map (fun p => p.1.paid p.2)).sum) := by
  obtain ⟨accepted, M, hM, hturn⟩ := hb.shows_invariant (P := Market.InTurn)
    (Market.empty_inTurn Nat Nat) (fun _ _ request hM => Market.step_inTurn hM request)
  refine ((step_shows env _).runs hM).mono ?_
  rintro ⟨replies, b'⟩ ⟨rfl, hb'⟩
  simp only [hM.activeOrderCount, hb'.activeOrderCount]
  exact runs_paid hturn (fun M call h => Market.step_inTurn h call.request)
    (fun M call h => Market.call_paid h call)

theorem trades_amortized_small : ∃ b₀, construct .release .small = .ok b₀ ∧
    (b₀.run .release [.addOrder 1 .Limit 101 5 .Buy, .addOrder 2 .Market 0 3 .Sell,
        .cancelOrder 1]).Returns (fun (replies, b) =>
      (([Call.addOrder 1 .Limit 101 5 .Buy, .addOrder 2 .Market 0 3 .Sell, .cancelOrder 1].zip
          replies).map (fun p => p.1.spent p.2)).sum + b.activeOrderCount ≤
        b₀.activeOrderCount + (([Call.addOrder 1 .Limit 101 5 .Buy, .addOrder 2 .Market 0 3 .Sell,
          .cancelOrder 1].zip replies).map (fun p => p.1.paid p.2)).sum) := by
  obtain ⟨b₀, h⟩ := construct_small .release
  exact ⟨b₀, h, trades_amortized ⟨b₀, [], [], h, rfl⟩ _⟩

end OrderBook

end Hft
