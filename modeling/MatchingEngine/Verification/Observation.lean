import MatchingEngine.Verification.Construction

/-!
# What can be observed of a book

The introspection of the engine, and the queue of a level read slot by slot, all
in terms of the ledger the book represents.
-/

namespace Hft

open Machine Machine.Checked

/-- What others can know of a resting order. -/
def Resting.entry (r : Resting) : Nat × Nat := (r.id, r.quantity)

/-- The number of occupied prices of a side. -/
def Ledger.levelCount (g : Geometry) (L : Ledger) (side : Side) : Nat :=
  (List.range g.range).countP (fun i => !(L.queue side i).isEmpty)

namespace OrderBook

variable {env : Env} {g : Geometry} {b : OrderBook} {L : Ledger} {side : Side} {i id fuel : Nat}

/-- The orders on the way from a slot along `next`. -/
def walk (pool : Array Order) : (fuel : Nat) → (idx : Nat) → Checked (List Order)
  | 0, _ => .error .unfinished
  | fuel + 1, idx =>
      if idx = INVALID_INDEX then .ok []
      else do
        let order ← readOrder pool idx
        let orders ← walk pool fuel order.next
        return order :: orders

/-- Ids and quantities of the queue at index `i`, front first. -/
def queue (b : OrderBook) (side : Side) (i : Nat) : Checked (List (Nat × Nat)) := do
  let level ← b.level side i
  let orders ← walk b.orderPool.pool (b.orderPool.capacity + 1) level.head
  return orders.map (fun order => (order.id, order.quantity))

theorem walk_spec {pool : Array Order} {q : List Resting} {start : Nat}
    (hpath : Path (nextOf pool) start (q.map Resting.slot) INVALID_INDEX)
    (hvalid : ∀ r ∈ q, r.slot ≠ INVALID_INDEX)
    (hholds : ∀ r ∈ q, Holds g pool ⟨side, i, r⟩) (hfuel : q.length < fuel) :
    (walk pool fuel start).Returns (fun orders =>
      orders.map (fun order => (order.id, order.quantity)) = q.map Resting.entry) := by
  induction q generalizing start fuel with
  | nil =>
      obtain ⟨fuel, rfl⟩ := Nat.exists_eq_add_one.mpr hfuel
      have hend : start = INVALID_INDEX := hpath
      rw [walk, if_pos hend]
      exact rfl
  | cons r q ih =>
      obtain ⟨fuel, rfl⟩ := Nat.exists_eq_add_one.mpr (Nat.zero_lt_of_lt hfuel)
      obtain ⟨rfl, next, hnext, hrest⟩ := hpath
      obtain ⟨o, ho, hw, hid, -, hquantity, -⟩ := hholds r List.mem_cons_self
      rw [nextOf_eq ho, Option.some.injEq] at hnext
      rw [walk, if_neg (hvalid r List.mem_cons_self), readOrder_eq ho hw, ok_bind, hnext]
      refine (ih hrest (fun r' hr' => hvalid r' (List.mem_cons_of_mem r hr'))
        (fun r' hr' => hholds r' (List.mem_cons_of_mem r hr'))
        (Nat.lt_of_succ_lt_succ hfuel)).bind ?_
      intro orders horders
      simp only [pure_eq_ok, returns_ok, List.map_cons, horders, hid, hquantity, Resting.entry]

theorem queue_eq (store : Store env g b L) (side : Side) (hi : i < g.range) :
    b.queue side i = .ok ((L.queue side i).map Resting.entry) := by
  obtain ⟨level, -, hread, hrep⟩ := store.level_eq side hi
  have hlength : (L.queue side i).length < b.orderPool.capacity + 1 := by
    have := store.wellFormed.count_queue_le side i
    have := store.active
    have := store.activeCount_le
    have := store.capacity
    omega
  have hspec : (walk b.orderPool.pool (b.orderPool.capacity + 1) level.head).Returns _ :=
    walk_spec hrep.queue.forward
    (fun r hr => store.slot_ne_invalid (store.wellFormed.mem hr))
    (fun r hr => store.holds _ (store.wellFormed.mem hr)) hlength
  obtain ⟨orders, heq, horders⟩ := returns_iff.mp hspec
  rw [queue, hread, ok_bind, heq, ok_bind, horders, pure_eq_ok]

theorem orderExists_eq (store : Store env g b L) (id : Nat) :
    b.orderExists id = .ok (L.find g id).isSome := by
  unfold orderExists
  by_cases hid : id ≠ 0 ∧ id ≤ b.maxOrderId
  · rw [if_pos hid, vecRead_eq (store.orderMap_eq (store.maxOrderId ▸ hid.2)), ok_bind, pure_eq_ok]
    cases hfind : L.find g id with
    | none => rfl
    | some p =>
        have hp := ((Ledger.find_eq_some_iff store.wellFormed).mp hfind).1
        have := store.slot_ne_invalid hp
        simp [this]
  · rw [if_neg hid, pure_eq_ok]
    have hnone : L.find g id = none := by
      refine Ledger.find_eq_none_iff.mpr ?_
      rintro p hp rfl
      have hle := store.wellFormed.id_le p hp
      rw [← store.maxOrderId] at hle
      exact hid ⟨Nat.ne_of_gt (store.wellFormed.id_pos p hp), hle⟩
    rw [hnone]
    rfl

theorem fresh_of_orderExists (store : Store env g b L) (h : b.orderExists id = .ok false) :
    ∀ p ∈ L.resting g, p.order.id ≠ id := by
  rw [orderExists_eq store, Except.ok.injEq] at h
  apply Ledger.find_eq_none_iff.mp
  exact Option.isNone_iff_eq_none.mp (Option.isSome_eq_false_iff.mp h)

theorem priceLevelCount_eq (h : Represents env g b L) (side : Side) :
    b.priceLevelCount side = L.levelCount g side := by
  have hindex := h.index side
  have hsum : b.priceLevelCount side =
      (List.range (64 * (b.side side).bitset.size)).countP (bitAt (b.side side).bitset) := by
    have := sum_countP_words (b.side side).bitset.toList
    rw [Array.length_toList] at this
    rw [← this, priceLevelCount, ← Array.foldl_toList, List.sum_eq_foldl, List.foldl_map]
    rfl
  obtain ⟨pad, hpad⟩ : ∃ pad, 64 * (b.side side).bitset.size = g.range + pad := by
    refine Nat.exists_eq_add_of_le ?_
    have := hindex.bitsetSize
    omega
  have hmem : ∀ j, bitAt (b.side side).bitset j = !(L.queue side j).isEmpty := by
    intro j
    rw [Bool.eq_iff_iff, hindex.tiers.member]
    simp [Ledger.occupied]
  rw [hsum, hpad, List.range_add, List.countP_append, List.countP_map, Ledger.levelCount]
  have hzero : (List.range pad).countP (bitAt (b.side side).bitset ∘ (g.range + ·)) = 0 := by
    refine List.countP_eq_zero.mpr ?_
    intro k _
    simp [hmem, h.wellFormed.outside side (g.range + k) (Nat.le_add_right _ _)]
  rw [hzero, Nat.add_zero]
  exact List.countP_congr (fun j _ => by rw [hmem])

end OrderBook

end Hft
