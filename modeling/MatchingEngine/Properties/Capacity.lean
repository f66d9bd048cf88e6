import MatchingEngine.Market.Capacity
import MatchingEngine.Properties.Liquidity
import MatchingEngine.Properties.Refusal

/-!
# Books whose pool cannot run out

A pool with a slot for every id is never exhausted: the ids run out before the slots do.
This is what the convenience constructor builds.
-/

namespace Hft

open Machine Machine.Checked

namespace Args

variable {args : Args}

theorem Accepted.roomy (h : args.Accepted)
    (slots : args.maxOrderId.toNat ≤ args.maxActiveOrders.toNat) :
    (args.geometry h).limits.Roomy := by
  refine ⟨List.range' 1 args.maxOrderId.toNat, fun id hid => ?_, ?_⟩
  · have hid : id ≠ 0 ∧ id ≤ args.maxOrderId.toNat := of_decide_eq_true hid
    exact List.mem_range'_1.mpr ⟨Nat.pos_of_ne_zero hid.1, by omega⟩
  · rw [List.length_range']
    exact Nat.le_min.mpr ⟨slots, h.ids_le⟩

end Args

namespace OrderBook

variable {env : Env} {g : Geometry} {args : Args} {b b₀ : OrderBook} {M : Market Nat Nat}

/-- What one step of the market answers wherever it is sound is what runs of the book answer. -/
theorem Shows.run_outputs (h : Shows env g b M) {Q : RejectReason → Prop} (calls : List Call)
    (hstep : ∀ M : Market Nat Nat, Market.Sound g.limits M → ∀ call ∈ calls,
      Q (M.step g.limits call.request).1.reason) :
    (b.run env calls).Returns (fun (replies, b') =>
      (∀ reply ∈ replies, Q reply.reason) ∧ ∃ M', Shows env g b' M') := by
  refine checkedRuns_outputs (P := fun c => ∃ N, Shows env g c N) ⟨M, h⟩ ?_
  rintro c ⟨N, hN⟩ call hcall
  refine (step_shows env g c N call hN).mono ?_
  rintro ⟨reply, c'⟩ ⟨rfl, hc'⟩
  exact ⟨hstep N hN.sound call hcall, _, hc'⟩

theorem ValidLimit.within (hM : Shows env g b M) {id price quantity : UInt32}
    (h : b.ValidLimit id price quantity) (side : Side) :
    Request.Within g.limits (.order id.toNat side (some price.toNat) quantity.toNat) ∧
      M.holds id.toNat = false := by
  have hfresh := h.fresh
  rw [hM.orderExists, Except.ok.injEq] at hfresh
  obtain ⟨L, hready, rfl⟩ := hM
  have store := hready.represents.store
  refine ⟨⟨Nat.ne_of_gt h.quantity_pos, ?_, ?_⟩, ?_⟩
  · exact decide_eq_true ⟨Nat.ne_of_gt h.id_pos, store.maxOrderId ▸ h.id_le⟩
  · exact decide_eq_true ⟨store.minPrice ▸ h.min_le, store.maxPrice ▸ h.le_max⟩
  · exact hfresh

/-- Where the pool has room for every id, a valid Limit order is accepted, and rests unless it
is filled. -/
theorem step_roomy (roomy : g.limits.Roomy) (hM : Shows env g b M) {id price quantity : UInt32}
    (hvalid : b.ValidLimit id price quantity) (side : Side) :
    (b.step env (.addOrder id .Limit price quantity side)).Returns (fun (reply, b') =>
      reply.reason = .Accepted ∧
      b'.orderExists id.toNat = .ok (decide (reply.filledOut < quantity.toNat))) := by
  obtain ⟨⟨hquantity, hid, hprice⟩, hnew⟩ := hvalid.within hM side
  have hstep : M.step g.limits (Call.addOrder id .Limit price quantity side).request =
      M.execute g.limits id.toNat side (some price.toNat) quantity.toNat :=
    Market.order_of_within hquantity hid hnew hprice (fun e => by cases e)
  obtain ⟨hreason, hrests⟩ := Market.execute_roomy side quantity.toNat (some price.toNat)
    hM.sound roomy hid hnew
  refine (step_shows env g b M _ hM).mono ?_
  rintro ⟨reply, b'⟩ ⟨rfl, hb'⟩
  simp only [Market.call, hstep] at hb' ⊢
  refine ⟨hreason, ?_⟩
  rw [hb'.orderExists, Except.ok.injEq]
  exact Bool.eq_iff_iff.mpr ((hrests (by simp)).trans decide_eq_true_iff.symm)

/-- Calls within the limits, on a new book with a slot for every id, are refused only on
account of the orders at rest. -/
theorem run_circumstantial (h : construct env args = .ok b₀)
    (slots : args.maxOrderId.toNat ≤ args.maxActiveOrders.toNat) {calls : List Call}
    (within : ∀ call ∈ calls, call.request.Within args.limits) :
    (b₀.run env calls).Returns (fun (replies, _) =>
      ∀ reply ∈ replies, reply.reason.Circumstantial) := by
  have hroomy := (accepted_of_construct h).roomy slots
  have hrun := (construct_shows h).run_outputs (Q := RejectReason.Circumstantial) calls
    (fun _ hM call hcall => Market.step_circumstantial hM hroomy (within call hcall))
  exact hrun.mono (fun _ houtputs => houtputs.1)

/-- A book built for a maximal number of orders never reports an exhausted pool. After any
calls it accepts every valid Limit order, and the order rests unless it is filled. -/
theorem own_pool_suffices {maxOrders : UInt64} {minPrice maxPrice : UInt32}
    (h : constructMaxOrders env maxOrders minPrice maxPrice = .ok b₀) (calls : List Call) :
    (b₀.run env calls).Returns (fun (replies, b) =>
      (∀ reply ∈ replies, reply.reason ≠ .PoolExhausted) ∧
      ∀ id price quantity side, b.ValidLimit id price quantity →
        (b.step env (.addOrder id .Limit price quantity side)).Returns (fun (reply, b') =>
          reply.reason = .Accepted ∧
          b'.orderExists id.toNat = .ok (decide (reply.filledOut < quantity.toNat)))) := by
  have hroomy := (accepted_of_construct h).roomy (Nat.le_refl _)
  have hrun := (construct_shows h).run_outputs (Q := (· ≠ .PoolExhausted)) calls
    (fun _ hM call _ => Market.step_not_exhausted hM hroomy call.request)
  refine hrun.mono ?_
  rintro ⟨replies, b⟩ ⟨hreplies, M, hM⟩
  exact ⟨hreplies, fun id price quantity side hvalid => step_roomy hroomy hM hvalid side⟩

theorem own_pool_suffices_small : ∃ b₀, constructMaxOrders .release 4 100 103 = .ok b₀ ∧
    ∀ calls, (b₀.run .release calls).Returns (fun (replies, b) =>
      (∀ reply ∈ replies, reply.reason ≠ .PoolExhausted) ∧
      ∀ id price quantity side, b.ValidLimit id price quantity →
        (b.step .release (.addOrder id .Limit price quantity side)).Returns (fun (reply, b') =>
          reply.reason = .Accepted ∧
          b'.orderExists id.toNat = .ok (decide (reply.filledOut < quantity.toNat)))) := by
  have haccepted : Args.Accepted ⟨4, 4, 100, 103⟩ := by constructor <;> decide
  obtain ⟨b₀, h, -⟩ := returns_iff.mp (construct_spec .release haccepted)
  exact ⟨b₀, h, own_pool_suffices h⟩

end OrderBook

end Hft
