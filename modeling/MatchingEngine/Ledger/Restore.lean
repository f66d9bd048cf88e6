import MatchingEngine.Ledger.Step

/-!
# Posting and removing are inverse

An order that trades with nobody is posted as it is, and taking it out again
leaves the ledger it found.
-/

namespace Hft.Ledger

open Machine

variable {g : Geometry} {L : Ledger} {side : Side} {id i n slot taker quantity price : Nat}
variable {free is : List Nat}

theorem append_remove (hfree : L.free = slot :: free)
    (hfresh : ∀ p ∈ L.resting g, p.order.id ≠ id) (hi : i < g.range) :
    (L.append side i ⟨slot, id, n⟩ free).remove ⟨side, i, ⟨slot, id, n⟩⟩ = L := by
  have hothers : (L.queue side i).filter (fun r => r.id != id) = L.queue side i := by
    refine List.filter_eq_self.mpr ?_
    intro r hr
    simpa using hfresh ⟨side, i, r⟩ (mem_resting.mpr ⟨hi, hr⟩)
  simp only [remove, append, set_queue_self, set_free, set_set, List.filter_append, hothers,
    List.filter_cons_of_neg (p := fun r : Resting => r.id != id) (a := ⟨slot, id, n⟩) (by simp),
    List.filter_nil, List.append_nil, ← hfree, set_self]

/-- Cancelling the order just posted is accepted and leaves the ledger it found. -/
theorem append_cancel (h : (L.append side i ⟨slot, id, n⟩ free).WellFormed g)
    (hfree : L.free = slot :: free) (hfresh : ∀ p ∈ L.resting g, p.order.id ≠ id)
    (hpos : 0 < id) (hle : id ≤ g.maxOrderId) (hi : i < g.range) :
    (L.append side i ⟨slot, id, n⟩ free).cancel g id = ⟨⟨.Accepted, 0, []⟩,
      [⟨.OrderSubmitted, id, 0, 0, Side.Buy.toByte, 0⟩,
        ⟨.OrderCancelled, id, g.price i, 0, side.toByte, 0⟩], L⟩ := by
  have hbounds : ¬(id = 0 ∨ id > g.maxOrderId) := by omega
  have hfind : find g (L.append side i ⟨slot, id, n⟩ free) id = some ⟨side, i, ⟨slot, id, n⟩⟩ :=
    (find_eq_some_iff h).mpr ⟨h.mem (by simp [append]), rfl⟩
  simp only [cancel, if_neg hbounds, hfind, append_remove hfree hfresh hi]

/-- A taker with a quantity trades wherever it is accepted. -/
theorem idle_of_no_trades (g : Geometry) (taker : Nat) (hn : 0 < n)
    (hnone : (sweep g side taker is n L).trades = []) : ∀ j ∈ is, L.queue side.opposite j = [] := by
  induction is with
  | nil => exact fun j hj => absurd hj List.not_mem_nil
  | cons i is ih =>
      have hempty : L.queue side.opposite i = [] := by
        by_contra hne
        have hskip : ¬(n = 0 ∨ L.queue side.opposite i = []) := by
          rw [not_or]
          exact ⟨Nat.ne_of_gt hn, hne⟩
        rw [sweep, if_neg hskip] at hnone
        obtain ⟨r, q, hq⟩ := List.exists_cons_of_ne_nil hne
        have hfirst := (List.append_eq_nil_iff.mp hnone).1
        simp only [takeLevel, hq, List.map_eq_nil_iff] at hfirst
        rw [Greedy.fills, if_neg (Nat.ne_of_gt hn)] at hfirst
        exact List.cons_ne_nil _ _ hfirst
      rw [sweep_skip (Or.inr hempty)] at hnone
      intro j hj
      rcases List.mem_cons.mp hj with rfl | hj
      · exact hempty
      · exact ih hnone j hj

/-- A Limit order that is accepted and trades with nobody is posted whole. -/
theorem add_rests (haccepted : (L.add g id .Limit price quantity side).reply.reason = .Accepted)
    (hnone : (L.add g id .Limit price quantity side).reply.trades = []) :
    Valid g L id .Limit price quantity side ∧
      (∀ j ∈ g.matchable side price, L.queue side.opposite j = []) ∧
      ∃ slot free, L.free = slot :: free ∧ (L.add g id .Limit price quantity side).ledger =
        L.append side (price - g.minPrice) ⟨slot, id, quantity⟩ free := by
  have hvalid := valid_of_add (by decide) (Or.inl haccepted)
  have hresolve := OrderBook.resolvePrice_limit side price
  rw [add_of_valid hvalid] at haccepted hnone ⊢
  have hidle : ∀ j ∈ g.matchable side price, L.queue side.opposite j = [] := by
    refine idle_of_no_trades g id hvalid.quantity_pos ?_
    rw [← hnone, execute, hresolve]
    simp only
    split <;> rfl
  refine ⟨hvalid, hidle, ?_⟩
  have hpost : quantity > 0 ∧ OrderType.Limit ≠ .Market := ⟨hvalid.quantity_pos, by decide⟩
  simp only [execute, hresolve, sweep_idle hidle, if_pos hpost, Ledger.post] at haccepted ⊢
  cases hfree : L.free with
  | nil =>
      rw [hfree] at haccepted
      cases haccepted
  | cons slot free => exact ⟨slot, free, rfl, rfl⟩

end Hft.Ledger
