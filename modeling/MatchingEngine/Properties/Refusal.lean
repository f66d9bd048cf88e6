import MatchingEngine.Properties.Invariant

/-!
# Refused calls

A call that does not return `Accepted` has traded nothing and left the book as it
was, journal apart. The pool is consulted after matching, but a taker that met an
order and still has a remainder has freed a slot before it needs one.
-/

namespace Hft

open Machine Machine.Checked

namespace Ledger

variable {g : Geometry} {L : Ledger} {side : Side} {id price quantity : Nat} {type : OrderType}

/-- What a refusal says: nothing traded, nothing changed. -/
def Outcome.RefusedIsNothing (L : Ledger) (o : Outcome) : Prop :=
  o.reply.reason ≠ .Accepted → o.reply.trades = [] ∧ o.reply.filledOut = 0 ∧ o.ledger = L

theorem cancel_refused (h : L.WellFormed g) (id : Nat) :
    (L.cancel g id).RefusedIsNothing L :=
  cancel_cases (P := fun o => o.RefusedIsNothing L) h (fun _ _ _ => ⟨rfl, rfl, rfl⟩)
    (fun _ _ _ hne => absurd rfl hne)

theorem step_refused (h : L.WellFormed g) (call : Call) : (L.step g call).RefusedIsNothing L := by
  cases call with
  | cancelOrder id => exact cancel_refused h id.toNat
  | addOrder id type price quantity side =>
      refine add_cases (P := fun o => o.RefusedIsNothing L) (fun _ => cancel_refused h id.toNat)
        (fun _ _ _ _ _ => ⟨rfl, rfl, rfl⟩) (fun hvalid => ?_)
      exact execute_cases (P := fun o => o.RefusedIsNothing L) hvalid
        (fun _ _ _ _ => ⟨rfl, rfl, rfl⟩) (fun _ _ _ _ _ _ _ hne => absurd rfl hne)
        (fun _ _ _ hne => absurd rfl hne)

/-- A valid Limit order finds no slot exactly if none is free and nothing to match. -/
theorem execute_exhausted_iff (hvalid : Valid g L id .Limit price quantity side) :
    (L.execute g id .Limit price quantity side).reply.reason = .PoolExhausted ↔
      L.free = [] ∧ ∀ j ∈ g.matchable side price, L.queue side.opposite j = [] := by
  refine execute_cases (P := fun o => o.reply.reason = .PoolExhausted ↔ L.free = [] ∧
    ∀ j ∈ g.matchable side price, L.queue side.opposite j = []) hvalid ?_ ?_ ?_
  · exact fun _ hfree hidle => iff_of_true rfl ⟨hfree, hidle⟩
  · rintro s slot free rfl - - hfree
    refine iff_of_false (by decide : RejectReason.Accepted ≠ .PoolExhausted) ?_
    rintro ⟨hnil, hidle⟩
    rw [sweep_idle hidle] at hfree
    exact List.cons_ne_nil slot free (hfree.symm.trans hnil)
  · rintro s rfl hdone
    refine iff_of_false (by decide : RejectReason.Accepted ≠ .PoolExhausted) ?_
    rintro ⟨-, hidle⟩
    rw [OrderBook.resolvePrice_limit, sweep_idle hidle] at hdone
    rcases hdone with hzero | hmarket
    · exact absurd hzero (Nat.ne_of_gt hvalid.quantity_pos)
    · cases hmarket

end Ledger

namespace OrderBook

variable {env : Env} {args : Args} {b : OrderBook}

/-- What `add_order` checks of a Limit order. -/
structure ValidLimit (b : OrderBook) (id price quantity : UInt32) : Prop where
  quantity_pos : 0 < quantity.toNat
  id_pos : 0 < id.toNat
  id_le : id.toNat ≤ b.maxOrderId
  fresh : b.orderExists id.toNat = .ok false
  min_le : b.minPrice ≤ price.toNat
  le_max : price.toNat ≤ b.maxPrice

/-- The taker accepts no price at which an opposite order rests. -/
def CrossesNothing (b : OrderBook) (side : Side) (price : Nat) : Prop :=
  ∀ j, b.Occupied side.opposite j → Exec.crosses side price (b.minPrice + j) = false

theorem Store.crossesNothing_iff {g : Geometry} {L : Ledger} {side : Side} {price : Nat}
    (store : Store env g b L) : b.CrossesNothing side price ↔
      ∀ j ∈ g.matchable side price, L.queue side.opposite j = [] := by
  unfold CrossesNothing
  simp only [store.occupied_iff, store.minPrice]
  constructor
  · intro h j hj
    by_contra hne
    have hcross := (Geometry.mem_matchable.mp hj).2
    exact absurd (hcross.symm.trans (h j hne)) (by decide)
  · intro h j hj
    rw [← Bool.not_eq_true]
    intro hcross
    have hlt : j < g.range := by
      by_contra hge
      exact hj (store.wellFormed.outside _ _ (Nat.le_of_not_lt hge))
    exact hj (h j (Geometry.mem_matchable.mpr ⟨hlt, hcross⟩))

theorem Store.full_iff {g : Geometry} {L : Ledger} (store : Store env g b L) :
    b.activeOrderCount = g.capacity ↔ L.free = [] := by
  have hcount := store.wellFormed.count_add_free
  have hactive : b.activeOrderCount = (L.resting g).length := store.active
  rw [hactive, ← List.length_eq_zero_iff]
  omega

/-- Refused calls are atomic, and an order is refused for want of a slot exactly if it
crosses nothing and as many orders rest as the pool has slots. -/
theorem refusal (h : Reachable env args b) :
    (∀ call, (b.step env call).Returns (fun (reply, b') => reply.reason ≠ .Accepted →
      reply.trades = [] ∧ reply.filledOut = 0 ∧ b' = { b with journal := b'.journal })) ∧
    (∀ id price quantity side, b.ValidLimit id price quantity →
      (b.step env (.addOrder id .Limit price quantity side)).Returns (fun (reply, _) =>
        reply.reason = .PoolExhausted ↔ b.CrossesNothing side price.toNat ∧
          b.activeOrderCount = min args.maxActiveOrders.toNat 0xFFFFFFFE)) := by
  obtain ⟨accepted, L, hready⟩ := h.ready
  have hL := hready.represents.wellFormed
  have store := hready.represents.store
  refine ⟨fun call => ?_, fun id price quantity side hvalid => ?_⟩
  · refine (step_spec hready call).mono ?_
    rintro ⟨reply, b'⟩ ⟨rfl, hfollows⟩ hne
    obtain ⟨htrades, hfilledOut, -⟩ := Ledger.step_refused hL call hne
    refine ⟨htrades, hfilledOut, ?_⟩
    rw [hfollows.refused hne]
    rfl
  · refine (step_spec hready _).mono ?_
    rintro ⟨reply, b'⟩ ⟨rfl, -⟩
    have hv : Ledger.Valid (args.geometry accepted) L id.toNat .Limit price.toNat quantity.toNat
        side := {
      not_cancel := by decide
      quantity_pos := hvalid.quantity_pos
      id_pos := hvalid.id_pos
      id_le := store.maxOrderId ▸ hvalid.id_le
      fresh := fresh_of_orderExists store hvalid.fresh
      price_mem := fun _ => ⟨store.minPrice ▸ hvalid.min_le, store.maxPrice ▸ hvalid.le_max⟩
      opposite := fun h => by cases h }
    change (L.add _ _ _ _ _ _).reply.reason = _ ↔ _
    rw [Ledger.add_of_valid hv, Ledger.execute_exhausted_iff hv, and_comm,
      store.crossesNothing_iff]
    exact and_congr_right' store.full_iff.symm

/-- Two orders fill the pool; a third one that crosses nothing finds no slot. -/
theorem refusal_small : ∃ b₀ replies b, construct .release .small = .ok b₀ ∧
    b₀.run .release [.addOrder 1 .Limit 101 5 .Buy, .addOrder 2 .Limit 103 7 .Sell] =
      .ok (replies, b) ∧
    (∃ b', b.step .release (.addOrder 3 .Limit 102 9 .Buy) = .ok (⟨.PoolExhausted, 0, []⟩, b')) ∧
    ((∀ call, (b.step .release call).Returns (fun (reply, b') => reply.reason ≠ .Accepted →
      reply.trades = [] ∧ reply.filledOut = 0 ∧ b' = { b with journal := b'.journal })) ∧
    (∀ id price quantity side, b.ValidLimit id price quantity →
      (b.step .release (.addOrder id .Limit price quantity side)).Returns (fun (reply, _) =>
        reply.reason = .PoolExhausted ↔ b.CrossesNothing side price.toNat ∧
          b.activeOrderCount = min Args.small.maxActiveOrders.toNat 0xFFFFFFFE))) := by
  obtain ⟨b₀, h⟩ := construct_small .release
  obtain ⟨⟨replies, b⟩, hrun, -, htracks⟩ := returns_iff.mp (run_small h
    [.addOrder 1 .Limit 101 5 .Buy, .addOrder 2 .Limit 103 7 .Sell])
  obtain ⟨⟨reply, b'⟩, hstep, hreply, -⟩ :=
    returns_iff.mp (step_spec htracks.1 (.addOrder 3 .Limit 102 9 .Buy))
  have hexhausted : reply = ⟨.PoolExhausted, 0, []⟩ := hreply.trans (by decide)
  subst hexhausted
  exact ⟨b₀, replies, b, h, hrun, ⟨b', hstep⟩, refusal ⟨b₀, _, replies, h, hrun⟩⟩

end OrderBook

end Hft
