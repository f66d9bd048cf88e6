import MatchingEngine.Market.Bystanders
import MatchingEngine.Properties.Clock
import MatchingEngine.Properties.Market

/-!
# Orders that never trade leave no trace

Take the calls of some ids out of a run. If none of them ever trades, every other call gets
the reply it got before, and the open orders are the same but for theirs.
-/

namespace Hft

open Machine Machine.Checked

theorem Call.request_id (call : Call) : call.request.id = call.id := by
  cases call with
  | addOrder id type price quantity side =>
      rw [Call.request]
      split <;> rfl
  | cancelOrder id => rfl

theorem Call.filter_requests (ids : List Nat) (calls : List Call) :
    (calls.map Call.request).filter (fun r => decide (r.id ∉ ids)) =
      (calls.filter (fun call => decide (call.id ∉ ids))).map Call.request := by
  rw [List.filter_map]
  refine congrArg _ (List.filter_congr (fun call _ => ?_))
  rw [Function.comp_apply, Call.request_id]

/-- No trade names any of the ids. -/
def Reply.Spares (ids : List Nat) (reply : Reply) : Prop :=
  ∀ trade ∈ reply.trades, trade.makerId ∉ ids ∧ trade.takerId ∉ ids

theorem Answer.Spares.of_reply {ids : List Nat} {a : Answer Nat Nat}
    (h : a.reply.Spares ids) : a.Spares ids :=
  fun d hd => h d.trade (List.mem_map_of_mem hd)

namespace OrderBook

variable {env env' : Env} {args args' : Args} {b b' b₀ : OrderBook} {ids : List Nat}

/-- The second book has the open orders of the first, but for those of some ids. -/
def Without (ids : List Nat) (b b' : OrderBook) : Prop :=
  ∀ side, ∃ orders, b.openOrders side = .ok orders ∧
    b'.openOrders side = .ok (orders.filter (fun o => decide (o.id ∉ ids)))

theorem Shows.withdrawAll_eq {g g' : Geometry} {M M' : Market Nat Nat} (h : Shows env g b M)
    (h' : Shows env' g' b' M') (without : Without ids b b') : M' = M.withdrawAll ids := by
  refine Market.ext (funext (fun side => ?_))
  obtain ⟨orders, horders, hothers⟩ := without side
  rw [h.openOrders, Except.ok.injEq] at horders
  rw [h'.openOrders, Except.ok.injEq, ← horders] at hothers
  exact hothers

/-- Leave out of a run the calls of some ids whose orders never trade: every other call gets
the same reply, and the open orders are the same but for theirs. -/
theorem bystanders_leave_no_trace (hb : Reachable env args b) (hb' : Reachable env' args' b')
    (limits : args'.limits = args.limits) (without : Without ids b b') (calls : List Call) :
    (b.run env calls).Returns (fun (replies, c) =>
      (∀ reply ∈ replies, reply.Spares ids) →
      (∀ p ∈ calls.zip replies, p.1.id ∉ ids → p.2.reason ≠ .PoolExhausted) →
      (b'.run env' (calls.filter (fun call => decide (call.id ∉ ids)))).Returns
        (fun (replies', c') =>
          replies' = ((calls.zip replies).filter (fun p => decide (p.1.id ∉ ids))).map Prod.snd ∧
            Without ids c c')) := by
  obtain ⟨accepted, M, hM, hturn⟩ := hb.shows_invariant (P := Market.InTurn)
    (Market.empty_inTurn Nat Nat) (fun _ _ request hM => Market.step_inTurn hM request)
  obtain ⟨accepted', M', hM'⟩ := hb'.shows
  obtain rfl := hM.withdrawAll_eq hM' without
  refine (run_shows hM calls).mono ?_
  rintro ⟨replies, c⟩ ⟨rfl, hc⟩ spares room
  change Shows env _ c (M.run args.limits (calls.map Call.request)).2 at hc
  have hrun : (M.withdrawAll ids).run args.limits
      ((calls.map Call.request).filter (fun r => decide (r.id ∉ ids))) =
        ((((calls.map Call.request).zip (M.run args.limits (calls.map Call.request)).1).filter
          (fun p => decide (p.1.id ∉ ids))).map Prod.snd,
          (M.run args.limits (calls.map Call.request)).2.withdrawAll ids) := by
    refine Market.run_without hturn _ (fun p hp hid => ?_) (fun answer hanswer => ?_)
    · rw [List.zip_map_left] at hp
      obtain ⟨⟨call, answer⟩, hmem, rfl⟩ := List.mem_map.mp hp
      have hreply : (call, answer.reply) ∈
          calls.zip ((M.run args.limits (calls.map Call.request)).1.map Answer.reply) := by
        rw [List.zip_map_right]
        exact List.mem_map_of_mem hmem
      exact room _ hreply (fun e => hid (call.request_id.symm ▸ e))
    · exact Answer.Spares.of_reply (spares _ (List.mem_map_of_mem hanswer))
  refine (run_shows hM' _).mono ?_
  rintro ⟨replies', c'⟩ ⟨rfl, hc'⟩
  rw [← Call.filter_requests] at hc' ⊢
  change Shows env' _ c' ((M.withdrawAll ids).run args'.limits _).2 at hc'
  change ((M.withdrawAll ids).run args'.limits _).1.map Answer.reply = _ ∧ _
  rw [limits, hrun] at hc' ⊢
  have hreplies : ((calls.zip ((M.run args.limits (calls.map Call.request)).1.map
      Answer.reply)).filter (fun p => decide (p.1.id ∉ ids))).map Prod.snd =
        ((((calls.map Call.request).zip (M.run args.limits (calls.map Call.request)).1).filter
          (fun p => decide (p.1.id ∉ ids))).map Prod.snd).map Answer.reply :=
    zip_filter_map (fun call : Call => decide (call.id ∉ ids))
      (fun r : Request Nat Nat => decide (r.id ∉ ids)) (fun call => by rw [Call.request_id]) _ _
  exact ⟨hreplies.symm, fun side => ⟨_, hc.openOrders side, hc'.openOrders side⟩⟩

theorem bystanders_leave_no_trace_small : ∃ b₀, construct .release .small = .ok b₀ ∧
    (b₀.run .release [.addOrder 1 .Limit 101 5 .Buy, .addOrder 2 .Limit 100 7 .Buy,
        .addOrder 3 .Market 0 3 .Sell, .cancelOrder 2]).Returns (fun (replies, c) =>
      (∀ reply ∈ replies, reply.Spares [2]) →
      (∀ p ∈ [Call.addOrder 1 .Limit 101 5 .Buy, .addOrder 2 .Limit 100 7 .Buy,
        .addOrder 3 .Market 0 3 .Sell, .cancelOrder 2].zip replies, p.1.id ∉ [2] →
          p.2.reason ≠ .PoolExhausted) →
      (b₀.run .release [.addOrder 1 .Limit 101 5 .Buy, .addOrder 3 .Market 0 3 .Sell]).Returns
        (fun (replies', c') => replies' = (([Call.addOrder 1 .Limit 101 5 .Buy,
          .addOrder 2 .Limit 100 7 .Buy, .addOrder 3 .Market 0 3 .Sell, .cancelOrder 2].zip
            replies).filter (fun p => decide (p.1.id ∉ [2]))).map Prod.snd ∧
              Without [2] c c')) := by
  obtain ⟨b₀, h⟩ := construct_small .release
  have hb : Reachable .release .small b₀ := ⟨b₀, [], [], h, rfl⟩
  have hempty : Without [2] b₀ b₀ := by
    intro side
    have horders := (construct_shows h).openOrders side
    exact ⟨[], horders, horders⟩
  exact ⟨b₀, h, bystanders_leave_no_trace hb hb rfl hempty _⟩

end OrderBook

end Hft
