import MatchingEngine.Verification.Cancelling

/-!
# Posting

The remainder of a Limit order takes the first free slot and goes to the end of
its queue. A queue that was empty gains its bit, and a price better than all
others becomes the best one. Without a free slot nothing but the journal changes.
-/

namespace Hft

open Machine Machine.Checked

namespace OrderBook

variable {env : Env} {g : Geometry} {b b' : OrderBook} {L : Ledger} {side : Side}
variable {i id n slot : Nat} {free : List Nat} {s : BookSide}

/-- The order as its slot is filled in. -/
def posted (g : Geometry) (side : Side) (i id n : Nat) : Order :=
  { id, price := g.price i, quantity := n, side := side.toByte
    next := INVALID_INDEX, prev := INVALID_INDEX, written := true }

/-- The slot has been filled in, counted and entered in the map; it is in no queue yet. -/
structure Filed (env : Env) (b b' : OrderBook) (id slot : Nat) (order : Order)
    (free : List Nat) : Prop where
  frame : b' = { b with
    orderPool := b'.orderPool
    orderMap := b.orderMap.setIfInBounds id slot
    activeCount := b.activeCount + 1 }
  pool : b'.orderPool.Represents env free
  capacity : b'.orderPool.capacity = b.orderPool.capacity
  reports : b'.orderPool.reports = b.orderPool.reports
  outside : ∀ s, s ≠ slot → b'.orderPool.pool[s]? = b.orderPool.pool[s]?
  filled : b'.orderPool.pool[slot]? = some order

/-- The order has joined its queue; the index does not show it yet. -/
structure Queued (b b' : OrderBook) (L : Ledger) (side : Side) (i slot n : Nat)
    (order : Order) : Prop where
  relinked : Relinked b.orderPool.pool b'.orderPool.pool
    ((L.queue side i).map Resting.slot ++ [slot])
  pool : b'.orderPool = { b.orderPool with pool := b'.orderPool.pool }
  filled : ∃ o, b'.orderPool.pool[slot]? = some o ∧ o.payload = order.payload
  level : ∃ level, b' = ({ b with orderPool := b'.orderPool } : OrderBook).setSide side
      { b.side side with levels := (b.side side).levels.setIfInBounds i level } ∧
    level.Represents b'.orderPool.pool ((L.queue side i).map Resting.slot ++ [slot])
      (Greedy.total Resting.quantity (L.queue side i) + n)

theorem Filed.side_eq {order : Order} (h : Filed env b b' id slot order free) (t : Side) :
    b'.side t = b.side t := by
  rw [h.frame]
  cases t <;> rfl

/-- The store after a post: one order more, in the slot that headed the free ones. -/
theorem Store.posted {b₁ b₂ : OrderBook} (store : Store env g b L) (hi : i < g.range)
    (hfree : L.free = slot :: free) (hfresh : ∀ p ∈ L.resting g, p.order.id ≠ id)
    (hle : id ≤ g.maxOrderId) (hM : (L.append side i ⟨slot, id, n⟩ free).WellFormed g)
    (h₁ : Filed env b b₁ id slot (OrderBook.posted g side i id n) free)
    (h₂ : Queued b₁ b₂ L side i slot n (OrderBook.posted g side i id n)) :
    Store env g b₂ (L.append side i ⟨slot, id, n⟩ free) := by
  obtain ⟨level, hframe, hlevel⟩ := h₂.level
  obtain ⟨o, ho, hpayload⟩ := h₂.filled
  have hmem : slot ∈ L.free := hfree ▸ List.mem_cons_self
  have hnotMem : slot ∉ free := (List.nodup_cons.mp (hfree ▸ store.wellFormed.free_nodup)).1
  have slotNe : ∀ r ∈ L.queue side i, r.slot ≠ slot := fun r hr e =>
    store.wellFormed.slot_notMem_free hr (e ▸ hmem)
  have idNe : ∀ r ∈ L.queue side i, r.id ≠ id := fun r hr =>
    hfresh _ (store.wellFormed.mem hr)
  have hsize : id < b.orderMap.size := by
    rw [store.mapSize]
    omega
  have hmap : b₂.orderMap = b.orderMap.setIfInBounds id slot := by
    rw [hframe, setSide_orderMap, h₁.frame]
  have hactive : b₂.activeCount = b.activeCount + 1 := by
    rw [hframe, setSide_activeCount, h₁.frame]
  refine store.replace hi hM ?_
  exact {
    minPrice := by rw [hframe, setSide_minPrice, h₁.frame]
    maxPrice := by rw [hframe, setSide_maxPrice, h₁.frame]
    maxOrderId := by rw [hframe, setSide_maxOrderId, h₁.frame]
    capacity := by rw [h₂.pool, h₁.capacity]
    pool := by
      rw [h₂.pool]
      refine h₁.pool.setPool h₂.relinked.size ?_
      intro s hs
      refine nextOf_congr (h₂.relinked.outside s ?_)
      rw [List.mem_append, List.mem_singleton, not_or]
      refine ⟨?_, fun e => hnotMem (e ▸ hs)⟩
      exact store.wellFormed.notMem_slots_of_free (hfree ▸ List.mem_cons_of_mem slot hs)
    reports := by rw [h₂.pool, h₁.reports]
    level := by
      refine ⟨level, by rw [hframe, side_setSide_self, h₁.side_eq], ?_⟩
      rw [LevelHolds, List.map_append, Greedy.total_append]
      exact hlevel
    levelsOpposite := by
      rw [hframe, side_setSide_opposite, ← h₁.side_eq]
      cases side <;> rfl
    outside := by
      intro s hs hfreeS
      have hne : s ≠ slot := fun e => hfreeS (e ▸ hmem)
      rw [h₂.relinked.outside, h₁.outside s hne]
      rw [List.mem_append, List.mem_singleton, not_or]
      refine ⟨?_, hne⟩
      intro e
      obtain ⟨r, hr, hslot⟩ := List.mem_map.mp e
      exact hs r hr hslot
    inside := by
      intro r hr
      rcases List.mem_append.mp hr with hr | hr
      · exact ((store.holds _ (store.wellFormed.mem hr)).congr
          (h₁.outside _ (slotNe r hr))).relinked h₂.relinked
      · rw [List.mem_singleton.mp hr]
        simp only [Order.payload, OrderBook.posted, Order.mk.injEq, true_and] at hpayload
        obtain ⟨hid, hprice, hquantity, hside, hw⟩ := hpayload
        exact ⟨o, ho, hw, hid, hprice, hquantity, hside⟩
    mapSize := by rw [hmap, Array.size_setIfInBounds]
    mapOutside := by
      intro id' _ hnew
      rw [hmap]
      exact Array.getElem?_setIfInBounds_ne (hnew ⟨slot, id, n⟩ (by simp))
    mapped := by
      intro r hr
      rw [hmap]
      rcases List.mem_append.mp hr with hr | hr
      · rw [Array.getElem?_setIfInBounds_ne (idNe r hr).symm]
        exact store.mapped _ (store.wellFormed.mem hr)
      · rw [List.mem_singleton.mp hr]
        exact Array.getElem?_setIfInBounds_self_of_lt hsize
    cleared := by
      intro r hr hnone
      exact absurd rfl (hnone r (List.mem_append_left _ hr))
    active := by
      rw [hactive, List.length_append, List.length_singleton]
      omega }

/-- The cached best price decides what the ledger's best price decides. -/
theorem improves_iff {S : Set Nat} (h : Index g side S (L.best g side) (b.side side)) :
    b.improves side (g.price i) = true ↔ L.Improves g side i := by
  have hhas := h.has
  have hbest := h.best
  unfold Ledger.Improves
  cases side
  · change b.bids.has = _ at hhas
    change b.bids.best = _ at hbest
    rw [improves, hhas, hbest]
    cases L.best g .Buy with
    | none => simp
    | some k => simp [Geometry.bestPrice, Geometry.price, Side.Better]
  · change b.asks.has = _ at hhas
    change b.asks.best = _ at hbest
    rw [improves, hhas, hbest]
    cases L.best g .Sell with
    | none => simp
    | some k => simp [Geometry.bestPrice, Geometry.price, Side.Better]

/-- The bit of a queue that an order joins. -/
theorem showQueued_spec {S : Set Nat} {o : Option Nat} (h : Index g side S o (b.side side))
    (hS : S = L.occupied side) (hi : i < g.range) :
    ∃ s, (if (L.queue side i).isEmpty then b.setLevelBit side i else pure b) =
        .ok (b.setSide side s) ∧ s.levels = (b.side side).levels ∧
      Index g side (insert i S) o s := by
  by_cases hq : L.queue side i = []
  · obtain ⟨b', heq, s, rfl, hlevels, hs⟩ := returns_iff.mp (setLevelBit_spec h hi)
    exact ⟨s, by simp [hq, heq], hlevels, hs⟩
  · refine ⟨b.side side, by simp [hq], rfl, ?_⟩
    rw [Set.insert_eq_of_mem (show i ∈ S from hS ▸ hq)]
    exact h

section Steps

variable {α : Type} {Q : α → Prop} {k : OrderBook → Checked α}

/-- A fresh slot is filled in, counted and entered in the map. -/
theorem file_spec {pool : MemoryPool} (store : Store env g b L) (hfree : L.free = slot :: free)
    (hid : id ≤ g.maxOrderId) (hpool : pool.Represents env free)
    (outside : b.orderPool.SameOutside pool [slot])
    (next : ∀ b', Filed env b b' id slot (OrderBook.posted g side i id n) free →
      (k b').Returns Q) :
    (do
      let b ← ({ b with orderPool := pool } : OrderBook).modifySlot slot
        (fun _ => OrderBook.posted g side i id n)
      let activeCount ← checkedAdd 64 b.activeCount 1
      let b ← { b with activeCount }.setOrderMap id slot
      k b).Returns Q := by
  have hmem : slot ∈ L.free := hfree ▸ List.mem_cons_self
  have hnotMem : slot ∉ free := (List.nodup_cons.mp (hfree ▸ store.wellFormed.free_nodup)).1
  have hslot : slot < pool.capacity := by
    rw [outside.capacity, store.capacity]
    exact store.wellFormed.free_lt hmem
  obtain ⟨o, ho⟩ := hpool.getElem? hslot
  have hcount : b.activeCount + 1 < 2 ^ 64 := by
    have := store.activeCount_le
    have := g.capacity_le
    simp only [kMaxPoolCapacity] at this
    omega
  have hsize : id < b.orderMap.size := by
    rw [store.mapSize]
    omega
  rw [modifySlot_eq (b := { b with orderPool := pool }) ho, ok_bind]
  simp only [checkedAdd, if_pos hcount, ok_bind, setOrderMap, vecWrite_eq hsize, pure_eq_ok]
  refine next _ ⟨rfl, ?_, outside.capacity, outside.reports, ?_, ?_⟩
  · refine hpool.setPool Array.size_setIfInBounds ?_
    intro s hs
    refine nextOf_congr (Array.getElem?_setIfInBounds_ne ?_)
    exact fun e => hnotMem (e ▸ hs)
  · intro s hs
    rw [← outside.slots s (by simpa using hs)]
    exact Array.getElem?_setIfInBounds_ne hs.symm
  · exact Array.getElem?_setIfInBounds_self_of_lt (lt_size_of_getElem? ho)

/-- The filed order joins its queue. -/
theorem enqueue_spec {k : Bool → Nat → OrderBook → Checked α} {b₀ : OrderBook}
    (store : Store env g b₀ L) (hi : i < g.range) (hslot : slot ∈ L.free) (hn : n < 2 ^ 32)
    (h : Filed env b₀ b id slot (OrderBook.posted g side i id n) free)
    (next : ∀ b', Queued b b' L side i slot n (OrderBook.posted g side i id n) →
      (k (L.queue side i).isEmpty i b').Returns Q) :
    (do
      let order ← b.order slot
      let bitIdx ← checkedSub order.price b.minPrice
      let level ← b.level side bitIdx
      let wasEmpty := level.isEmpty
      let (level, pool) ← level.appendOrder slot b.orderPool.pool
      let b := { b with orderPool := { b.orderPool with pool } }
      let b ← b.setLevel side bitIdx level
      k wasEmpty bitIdx b).Returns Q := by
  have hread : b.order slot = .ok (OrderBook.posted g side i id n) := readOrder_eq h.filled rfl
  have hmin : b.minPrice = g.minPrice := by rw [h.frame, store.minPrice]
  have hsub : checkedSub (g.price i) b.minPrice = .ok i := by
    simp [checkedSub, hmin, Geometry.price]
  obtain ⟨level, hlevel, -, hrep⟩ := store.level_eq side hi
  have slotNe : ∀ r ∈ L.queue side i, r.slot ≠ slot := fun r hr e =>
    store.wellFormed.slot_notMem_free hr (e ▸ hslot)
  have hrep : LevelHolds b.orderPool.pool level (L.queue side i) := by
    refine hrep.congr ?_
    intro s hs
    obtain ⟨r, hr, rfl⟩ := List.mem_map.mp hs
    exact h.outside _ (slotNe r hr)
  have hlevel : (b.side side).levels[i]? = some level := by rw [h.side_eq, hlevel]
  have hempty : level.isEmpty = (L.queue side i).isEmpty := by
    rw [Bool.eq_iff_iff, hrep.isEmpty_iff, List.map_eq_nil_iff, List.isEmpty_iff]
  have htotal := store.wellFormed.total_lt side i
  have hcount : ((L.queue side i).map Resting.slot).length + 1 < 2 ^ 32 := by
    have := store.wellFormed.count_queue_le side i
    have := store.wellFormed.count_add_free
    have := g.capacity_le
    simp only [kMaxPoolCapacity] at this
    rw [List.length_map]
    omega
  have hnotMem : slot ∉ (L.queue side i).map Resting.slot := by
    intro e
    obtain ⟨r, hr, hrs⟩ := List.mem_map.mp e
    exact slotNe r hr hrs
  have hvalid : slot ≠ INVALID_INDEX := by
    refine Nat.ne_of_lt (store.pool.lt_invalid ?_)
    rw [store.capacity]
    exact store.wellFormed.free_lt hslot
  rw [hread, ok_bind]
  simp only [OrderBook.posted, hsub, OrderBook.level, vecRead_eq hlevel, ok_bind, hempty]
  refine (PriceLevel.appendOrder_spec hrep h.filled rfl hnotMem hvalid ?_ hcount).bind ?_
  · simp only [OrderBook.posted]
    omega
  rintro ⟨level', pool⟩ ⟨hrep', hrelinked⟩
  have hside : ∀ t, ({ b with orderPool := { b.orderPool with pool } } : OrderBook).side t =
      b.side t := by
    intro t
    cases t <;> rfl
  generalize h₁ : ({ b with orderPool := { b.orderPool with pool } } : OrderBook) = b₁ at hside ⊢
  have hsize : i < (b₁.side side).levels.size := by
    rw [hside]
    exact lt_size_of_getElem? hlevel
  simp only [setLevel_eq hsize, ok_bind]
  have hpool : (b₁.setSide side { b₁.side side with
      levels := (b₁.side side).levels.setIfInBounds i level' }).orderPool =
      { b.orderPool with pool } := by
    rw [setSide_orderPool, ← h₁]
  refine next _ ⟨?_, ?_, ?_, ⟨level', ?_, ?_⟩⟩
  · rw [hpool]
    exact hrelinked
  · rw [hpool]
  · rw [hpool]
    exact hrelinked.payload slot _ h.filled
  · rw [hpool, h₁, hside]
  · rw [hpool]
    exact hrep'

end Steps

/-- The index catches up with the queue that an order has joined. -/
theorem announce_spec {b₁ : OrderBook} {order : Order} (h : Represents env g b L) (hi : i < g.range)
    (store : Store env g b₁ (L.append side i ⟨slot, id, n⟩ free))
    (sides : ∀ t, ∃ levels, b₁.side t = { b.side t with levels })
    (horder : b₁.order slot = .ok order) (hprice : order.price = g.price i) :
    (b₁.announce env side id (g.price i) n slot i (L.queue side i).isEmpty).Returns (fun b' =>
      Represents env g b' (L.append side i ⟨slot, id, n⟩ free) ∧
      Kept env b₁ b' ((if L.Improves g side i then
        [⟨bestChanged side, 0, g.price i, 0, side.toByte, 0⟩] else []) ++
        [⟨.OrderRested, id, g.price i, n, side.toByte, 0⟩])) := by
  have hM := store.wellFormed
  have hocc : (L.append side i ⟨slot, id, n⟩ free).occupied side = insert i (L.occupied side) :=
    Ledger.occupied_set (by simp)
  have hindex : ∀ t, Index g t (L.occupied t) (L.best g t) (b₁.side t) := by
    intro t
    obtain ⟨levels, hlevels⟩ := sides t
    rw [hlevels]
    exact (h.index t).withLevels levels
  obtain ⟨s, hset, hlevels, hs⟩ := showQueued_spec (hindex side) rfl hi
  rw [announce, hset, ok_bind]
  have horder' : (b₁.setSide side s).order slot = .ok order := by
    rw [OrderBook.order, setSide_orderPool]
    exact horder
  have himproves : (b₁.setSide side s).improves side (g.price i) = true ↔ L.Improves g side i := by
    refine improves_iff (S := insert i (L.occupied side)) ?_
    rwa [side_setSide_self]
  have store₁ := store.congr (SameStore.setSide hlevels)
  have hopposite : Index g side.opposite (L.occupied side.opposite) (L.best g side.opposite)
      (b₁.side side.opposite) := hindex side.opposite
  have same : ∀ j, (L.append side i ⟨slot, id, n⟩ free).queue side.opposite j =
      L.queue side.opposite j := fun _ => Ledger.set_queue_opposite
  simp only [horder', ok_bind, hprice, record_eq, pure_eq_ok, returns_ok]
  by_cases hbetter : L.Improves g side i
  · simp only [himproves.mpr hbetter, if_true, if_pos hbetter, logged_logged, setSide_setSide,
      side_setSide_self]
    have store₂ := store.congr (SameStore.setSide (s := s.withBest g side (some i)) hlevels)
    refine ⟨(represents_of_side store₂ side same ?_ ?_).logged _, Kept.setSide_logged _ _ _ _⟩
    · rw [Ledger.best_append h.wellFormed hM, if_pos hbetter, side_setSide_self, hocc]
      exact hs.withBest (some i)
    · rw [side_setSide_opposite]
      exact hopposite
  · have hfalse : (b₁.setSide side s).improves side (g.price i) = false :=
      Bool.eq_false_iff.mpr (mt himproves.mp hbetter)
    simp only [hfalse, Bool.false_eq_true, if_false, if_neg hbetter, List.nil_append]
    refine ⟨(represents_of_side store₁ side same ?_ ?_).logged _, Kept.setSide_logged _ _ _ _⟩
    · rw [Ledger.best_append h.wellFormed hM, if_neg hbetter, side_setSide_self, hocc]
      exact hs
    · rw [side_setSide_opposite]
      exact hopposite

theorem postOrder_spec (h : Represents env g b L) (hi : i < g.range)
    (hfresh : ∀ p ∈ L.resting g, p.order.id ≠ id) (hpos : 0 < id) (hle : id ≤ g.maxOrderId)
    (hn : 0 < n) (hlt : n < 2 ^ 32) :
    (b.postOrder env side id (g.price i) n).Returns (fun (reason, b') =>
      reason = (L.post g side id i n).1 ∧
      Represents env g b' (L.post g side id i n).2.2 ∧
      Kept env b b' (L.post g side id i n).2.1 ∧
      (reason ≠ .Accepted → b' = b.logged env (L.post g side id i n).2.1)) := by
  cases hfree : L.free with
  | nil =>
      have hrep := h.store.pool
      rw [hfree] at hrep
      simp only [postOrder, MemoryPool.allocate_exhausted hrep.toLinks, ok_bind, if_true, record_eq,
        pure_eq_ok, returns_ok, Ledger.post, hfree, true_and]
      exact ⟨h.logged _, Kept.logged env b _, fun _ => trivial⟩
  | cons front free =>
      have hrep := h.store.pool
      rw [hfree] at hrep
      obtain ⟨⟨slot, pool⟩, halloc, rfl, hpool, houtside⟩ :=
        returns_iff.mp (MemoryPool.allocate_spec hrep)
      have hvalid := Nat.ne_of_lt (hrep.lt_invalid (hrep.bound _ List.mem_cons_self))
      have hmem : slot ∈ L.free := hfree ▸ List.mem_cons_self
      have hM : (L.append side i ⟨slot, id, n⟩ free).WellFormed g :=
        h.wellFormed.append hi hfree hfresh hpos hle hn hlt
      simp only [postOrder, halloc, ok_bind, if_neg hvalid]
      refine file_spec h.store hfree hle hpool houtside ?_
      intro b₁ h₁
      refine enqueue_spec (k := fun wasEmpty bitIdx b => do
          let b ← b.announce env side id (g.price i) n slot bitIdx wasEmpty
          return (RejectReason.Accepted, b)) h.store hi hmem hlt h₁ ?_
      intro b₂ h₂
      obtain ⟨order, horder, hpayload⟩ := h₂.filled
      obtain ⟨level, hframe, -⟩ := h₂.level
      simp only [Order.payload, posted, Order.mk.injEq, true_and] at hpayload
      have sides : ∀ t, ∃ levels, b₂.side t = { b.side t with levels } := by
        refine forall_side side ⟨(b₂.side side).levels, ?_⟩ ⟨(b₂.side side.opposite).levels, ?_⟩
        · rw [hframe, side_setSide_self, h₁.side_eq]
        · rw [hframe, side_setSide_opposite, ← h₁.side_eq]
          cases side <;> rfl
      refine (announce_spec h hi (h.store.posted hi hfree hfresh hle hM h₁ h₂) sides
        (readOrder_eq horder hpayload.2.2.2.2) hpayload.2.1).bind ?_
      rintro b' ⟨hrep', hkept⟩
      simp only [Ledger.post, hfree]
      refine ⟨rfl, hrep', ⟨?_, ?_, ?_⟩, fun hne => absurd rfl hne⟩
      · rw [hkept.journal, hframe, setSide_journal, h₁.frame]
      · rw [hkept.inPublicEntry, hframe, setSide_inPublicEntry, h₁.frame]
      · rw [hkept.ownerThread, hframe, setSide_ownerThread, h₁.frame]

end OrderBook

end Hft
