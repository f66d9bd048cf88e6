import MatchingEngine.Verification.Observation

/-!
# The representation invariant

`Consistent` says of the members of a book, and of nothing else, how levels,
links, slots, order map, bits, best prices, free list and counters agree. The
parameters are what the two kinds of walks visit: the slots of each level, front
first, and the slots of the free list.
-/

namespace Hft

open Machine Machine.Checked

namespace OrderBook

/-- The level at index `i` exists and is not empty. -/
def Occupied (b : OrderBook) (side : Side) (i : Nat) : Prop :=
  ∃ level, (b.side side).levels[i]? = some level ∧ level.isEmpty = false

/-- The walk of the level at index `i` meets slot `s`. -/
def Meets (b : OrderBook) (slots : Side → Nat → List Nat) (side : Side) (i s : Nat) : Prop :=
  i < (b.side side).levels.size ∧ s ∈ slots side i

/-- The walk of one level. `Queue` is a walk along `next` from head to tail, and
back along `prev` over the same distinct slots. -/
structure LevelWalk (b : OrderBook) (side : Side) (i : Nat) (slots : List Nat)
    (level : PriceLevel) : Prop where
  read : (b.side side).levels[i]? = some level
  queue : Queue (nextOf b.orderPool.pool) (prevOf b.orderPool.pool) INVALID_INDEX
    level.head level.tail slots
  ends : level.head = INVALID_INDEX ↔ level.tail = INVALID_INDEX
  totalQuantity : level.totalQuantity =
    (slots.map (fun s => (b.orderPool.pool[s]?.map Order.quantity).getD 0)).sum
  orderCount : level.orderCount = slots.length
  canary : level.debugCanary = PRICE_LEVEL_CANARY
  orders : ∀ s ∈ slots, ∃ o : Order, b.orderPool.pool[s]? = some o ∧ 0 < o.quantity ∧
    o.price = b.minPrice + i ∧ o.side = side.toByte ∧ 0 < o.id ∧ o.id ≤ b.maxOrderId

/-- The best price of a side, where some level is occupied, and the sentinels
where none is. -/
structure BestOf (b : OrderBook) (side : Side) : Prop where
  has : (b.side side).has = true ↔ ∃ i, b.Occupied side i
  best : (b.side side).has = true → b.Occupied side (b.side side).bestIdx ∧
    (b.side side).best = b.minPrice + (b.side side).bestIdx ∧
    ∀ i, b.Occupied side i → ¬side.Better i (b.side side).bestIdx
  sentinel : (b.side side).has = false → match side with
    | .Buy => b.bids.best = 0 ∧ b.bids.bestIdx = 0
    | .Sell => b.asks.best = b.maxPrice + 1 ∧ b.asks.bestIdx = b.maxPrice - b.minPrice

structure Consistent (env : Env) (b : OrderBook) (slots : Side → Nat → List Nat)
    (free : List Nat) : Prop where
  levels : ∀ side, (b.side side).levels.size = b.maxPrice - b.minPrice + 1
  walks : ∀ side, ∀ i < (b.side side).levels.size, ∃ level, b.LevelWalk side i (slots side i) level
  disjoint : ∀ side i side' i' s, b.Meets slots side i s → b.Meets slots side' i' s →
    side = side' ∧ i = i'
  mapSize : b.orderMap.size = b.maxOrderId + 1
  mapped : ∀ id idx, b.orderMap[id]? = some idx → (idx ≠ INVALID_INDEX ↔
    ∃! s, (∃ side i, b.Meets slots side i s) ∧ b.orderPool.pool[s]?.map Order.id = some id)
  resolves : ∀ id idx side i s, b.orderMap[id]? = some idx → b.Meets slots side i s →
    b.orderPool.pool[s]?.map Order.id = some id → idx = s
  bits : ∀ side j, bitAt (b.side side).bitset j = true ↔ b.Occupied side j
  summary : ∀ side w, bitAt (b.side side).summary w = true ↔ wordAt (b.side side).bitset w ≠ 0
  best : ∀ side, b.BestOf side
  freeList : Path (nextOf b.orderPool.pool) b.orderPool.freeHead free INVALID_INDEX
  freeNodup : free.Nodup
  owned : ∀ s, s < b.orderPool.capacity ↔ s ∈ free ∨ ∃ side i, b.Meets slots side i s
  live : ∀ s side i, b.Meets slots side i s → s ∉ free ∧
    (env.debugTools = true → b.orderPool.isStampedLive s = .ok true)
  activeCount : b.activeCount = ((List.range (b.maxPrice - b.minPrice + 1)).map
    (fun i => (slots .Buy i).length + (slots .Sell i).length)).sum
  mapCount : b.activeCount =
    (List.range (b.maxOrderId + 1)).countP (fun id => b.orderMap[id]? != some INVALID_INDEX)
  liveCount : env.debugTools = true → b.orderPool.liveCount = b.activeCount

variable {env : Env} {args : Args} {g : Geometry} {b b₀ : OrderBook} {L : Ledger} {side : Side}
variable {i : Nat}

/-- The slots of the queues of a ledger. -/
def slotsOf (L : Ledger) (side : Side) (i : Nat) : List Nat := (L.queue side i).map Resting.slot

theorem Store.meets_iff (store : Store env g b L) {s : Nat} :
    b.Meets (slotsOf L) side i s ↔ ∃ r ∈ L.queue side i, r.slot = s := by
  rw [Meets, slotsOf, List.mem_map, store.levelsSize]
  exact and_iff_right_of_imp (fun ⟨r, hr, _⟩ => store.wellFormed.index_lt hr)

theorem Store.occupied_iff (store : Store env g b L) :
    b.Occupied side i ↔ i ∈ L.occupied side := by
  by_cases hi : i < g.range
  · obtain ⟨level, hlevel, -, hrep⟩ := store.level_eq side hi
    have hempty := hrep.isEmpty_iff
    rw [List.map_eq_nil_iff] at hempty
    change _ ↔ L.queue side i ≠ []
    rw [ne_eq, ← hempty, Bool.not_eq_true]
    constructor
    · rintro ⟨level', hlevel', h⟩
      rwa [Option.some.inj (hlevel.symm.trans hlevel')]
    · exact fun h => ⟨level, hlevel, h⟩
  · refine iff_of_false ?_ (fun h => h (store.wellFormed.outside side i (Nat.le_of_not_lt hi)))
    rintro ⟨level, hlevel, -⟩
    have := lt_size_of_getElem? hlevel
    rw [store.levelsSize] at this
    exact hi this

/-- The slots of a queue hold its total. -/
theorem Store.quantity_slotsOf (store : Store env g b L) :
    ((slotsOf L side i).map (fun s => (b.orderPool.pool[s]?.map Order.quantity).getD 0)).sum =
      Greedy.total Resting.quantity (L.queue side i) := by
  rw [slotsOf, List.map_map]
  refine congrArg List.sum (List.map_congr_left ?_)
  intro r hr
  obtain ⟨o, ho, -, -, -, -, hquantity, -⟩ := store.maker_eq hr
  simp [ho, hquantity]

theorem Store.levelWalk (store : Store env g b L) (hi : i < g.range) :
    ∃ level, b.LevelWalk side i (slotsOf L side i) level := by
  obtain ⟨level, hlevel, -, hrep⟩ := store.level_eq side hi
  refine ⟨level, hlevel, hrep.queue, ?_, ?_, hrep.count, hrep.canary, ?_⟩
  · rw [hrep.queue.head_eq_nil_iff, hrep.queue.tail_eq_nil_iff]
  · exact hrep.total.trans store.quantity_slotsOf.symm
  · intro s hs
    obtain ⟨r, hr, rfl⟩ := List.mem_map.mp hs
    have hmem := store.wellFormed.mem hr
    obtain ⟨o, ho, -, -, hid, hprice, hquantity, hside⟩ := store.maker_eq hr
    refine ⟨o, ho, hquantity ▸ store.wellFormed.quantity_pos _ hmem, ?_, hside,
      hid ▸ store.wellFormed.id_pos _ hmem, ?_⟩
    · rw [hprice, Geometry.price, store.minPrice]
    · rw [hid, store.maxOrderId]
      exact store.wellFormed.id_le _ hmem

theorem Represents.bestOf (h : Represents env g b L) (side : Side) : b.BestOf side := by
  have hindex := h.index side
  have hbest := h.wellFormed.isBest side
  have hocc : ∀ i, b.Occupied side i ↔ i ∈ L.occupied side := fun i => h.store.occupied_iff
  cases hL : L.best g side with
  | none =>
      rw [hL] at hindex hbest
      have hhas : (b.side side).has = false := hindex.has
      refine ⟨?_, fun htrue => ?_, fun _ => ?_⟩
      · rw [hhas]
        refine iff_of_false Bool.false_ne_true ?_
        rintro ⟨i, hi⟩
        exact hbest i ((hocc i).mp hi)
      · exact absurd (hhas.symm.trans htrue) Bool.false_ne_true
      · have hprice := hindex.best
        have hidx := hindex.bestIdx
        cases side
        · exact ⟨hprice, hidx⟩
        · refine ⟨?_, ?_⟩
          · rw [h.store.maxPrice]
            exact hprice
          · rw [h.store.maxPrice, h.store.minPrice]
            exact hidx
  | some k =>
      rw [hL] at hindex hbest
      have hhas : (b.side side).has = true := hindex.has
      have hidx : (b.side side).bestIdx = k := hindex.bestIdx
      refine ⟨?_, fun _ => ?_, fun hfalse => ?_⟩
      · exact iff_of_true hhas ⟨k, (hocc k).mpr hbest.1⟩
      · rw [hidx, h.store.minPrice]
        exact ⟨(hocc k).mpr hbest.1, hindex.best, fun i hi => hbest.2 i ((hocc i).mp hi)⟩
      · exact absurd (hfalse.symm.trans hhas) Bool.false_ne_true

/-- A slot that is met holds the order of a queue. -/
theorem Store.of_meets (store : Store env g b L) {s : Nat}
    (hs : b.Meets (slotsOf L) side i s) : ∃ r ∈ L.queue side i, r.slot = s ∧
      b.orderPool.pool[s]?.map Order.id = some r.id := by
  obtain ⟨r, hr, rfl⟩ := store.meets_iff.mp hs
  obtain ⟨o, ho, -, -, hid, -⟩ := store.maker_eq hr
  exact ⟨r, hr, rfl, by rw [ho, Option.map_some, hid]⟩

theorem Store.mapped_iff (store : Store env g b L) {id idx : Nat}
    (hmap : b.orderMap[id]? = some idx) : idx ≠ INVALID_INDEX ↔
      ∃! s, (∃ side i, b.Meets (slotsOf L) side i s) ∧
        b.orderPool.pool[s]?.map Order.id = some id := by
  have hlt := lt_size_of_getElem? hmap
  rw [store.mapSize] at hlt
  have heq := store.orderMap_eq (Nat.le_of_lt_succ hlt)
  rw [hmap, Option.some.injEq] at heq
  cases hfind : L.find g id with
  | none =>
      rw [hfind] at heq
      refine iff_of_false (fun hne => hne heq) ?_
      rintro ⟨s, ⟨⟨side, i, hs⟩, hid⟩, -⟩
      obtain ⟨r, hr, rfl, hr'⟩ := store.of_meets hs
      rw [hid, Option.some.injEq] at hr'
      exact Ledger.find_eq_none_iff.mp hfind _ (store.wellFormed.mem hr) hr'.symm
  | some p =>
      rw [hfind] at heq
      obtain ⟨hp, rfl⟩ := (Ledger.find_eq_some_iff store.wellFormed).mp hfind
      have hmem := (Ledger.mem_resting.mp hp).2
      have hmeets := store.meets_iff.mpr ⟨p.order, hmem, rfl⟩
      refine iff_of_true (heq ▸ store.slot_ne_invalid hp) ⟨p.order.slot, ⟨⟨_, _, hmeets⟩, ?_⟩, ?_⟩
      · obtain ⟨r, hr, hslot, hr'⟩ := store.of_meets hmeets
        rw [hr', (store.wellFormed.slot_inj hr hmem hslot).2.2]
      · rintro s ⟨⟨side, i, hs⟩, hid⟩
        obtain ⟨r, hr, rfl, hr'⟩ := store.of_meets hs
        rw [hid, Option.some.injEq] at hr'
        rw [(store.wellFormed.id_inj hr hmem hr'.symm).2.2]

/-- As many map entries as resting orders. -/
theorem Store.mapCount (store : Store env g b L) : b.activeCount =
    (List.range (b.maxOrderId + 1)).countP (fun id => b.orderMap[id]? != some INVALID_INDEX) := by
  rw [store.active, List.countP_eq_length_filter, ← List.length_map (fun p => p.order.id)]
  refine List.Perm.length_eq ((List.perm_ext_iff_of_nodup store.wellFormed.ids
    (List.nodup_range.filter _)).mpr ?_)
  intro id
  rw [List.mem_map, List.mem_filter, List.mem_range, store.maxOrderId]
  constructor
  · rintro ⟨p, hp, rfl⟩
    have hle := store.wellFormed.id_le p hp
    refine ⟨by omega, ?_⟩
    rw [store.mapped p hp]
    simpa using store.slot_ne_invalid hp
  · rintro ⟨hle, hne⟩
    by_contra hnone
    rw [store.unmapped id (by omega) (fun p hp e => hnone ⟨p, hp, e⟩)] at hne
    simp at hne

theorem resting_length (g : Geometry) (L : Ledger) : (L.resting g).length =
    ((List.range g.range).map
      (fun i => (slotsOf L .Buy i).length + (slotsOf L .Sell i).length)).sum := by
  rw [List.sum_map_add, Ledger.resting, List.length_append, Ledger.onSide, Ledger.onSide,
    List.length_flatMap, List.length_flatMap]
  simp [Ledger.placed, slotsOf]

theorem Represents.consistent (h : Represents env g b L) :
    b.Consistent env (slotsOf L) L.free := by
  have store := h.store
  have hrange : b.maxPrice - b.minPrice + 1 = g.range := by
    rw [store.maxPrice, store.minPrice]
    rfl
  have notFree : ∀ s side i, b.Meets (slotsOf L) side i s → s ∉ L.free ∧ s < g.capacity := by
    intro s side i hs
    obtain ⟨r, hr, rfl⟩ := store.meets_iff.mp hs
    exact ⟨store.wellFormed.slot_notMem_free hr, store.wellFormed.slot_lt hr⟩
  exact {
    levels := fun side => by rw [store.levelsSize, hrange]
    walks := fun side i hi => store.levelWalk (store.levelsSize side ▸ hi)
    disjoint := by
      intro side i side' i' s hs hs'
      obtain ⟨r, hr, rfl⟩ := store.meets_iff.mp hs
      obtain ⟨r', hr', hslot⟩ := store.meets_iff.mp hs'
      obtain ⟨hside, hindex, -⟩ := store.wellFormed.slot_inj hr hr' hslot.symm
      exact ⟨hside, hindex⟩
    mapSize := by rw [store.mapSize, store.maxOrderId]
    mapped := fun id idx hmap => store.mapped_iff hmap
    resolves := by
      intro id idx side i s hmap hs hid
      obtain ⟨r, hr, rfl, hr'⟩ := store.of_meets hs
      rw [hid, Option.some.injEq] at hr'
      rw [hr', store.mapped _ (store.wellFormed.mem hr), Option.some.injEq] at hmap
      exact hmap.symm
    bits := fun side j => by rw [(h.index side).tiers.member, store.occupied_iff]
    summary := fun side => (h.index side).tiers.nonzero
    best := h.bestOf
    freeList := store.pool.path
    freeNodup := store.pool.nodup
    owned := by
      intro s
      rw [store.capacity, ← List.mem_range, ← store.wellFormed.slots.mem_iff, List.mem_append,
        or_comm]
      refine or_congr_right ?_
      rw [List.mem_map]
      constructor
      · rintro ⟨p, hp, rfl⟩
        exact ⟨_, _, store.meets_iff.mpr ⟨p.order, (Ledger.mem_resting.mp hp).2, rfl⟩⟩
      · rintro ⟨side, i, hs⟩
        obtain ⟨r, hr, rfl⟩ := store.meets_iff.mp hs
        exact ⟨_, store.wellFormed.mem hr, rfl⟩
    live := by
      intro s side i hs
      obtain ⟨hfree, hlt⟩ := notFree s side i hs
      refine ⟨hfree, fun htools => ?_⟩
      rw [(store.pool.stamps htools).isStampedLive (store.capacity ▸ hlt), decide_eq_true hfree]
    activeCount := by rw [store.active, hrange, resting_length]
    mapCount := store.mapCount
    liveCount := by
      intro htools
      have hlive := (store.pool.stamps htools).live
      have hcount := store.wellFormed.count_add_free
      rw [store.capacity] at hlive
      rw [store.active]
      omega }

/-- After every run of calls from a new book, its members are consistent. -/
theorem run_consistent (h : construct env args = .ok b₀) (calls : List Call) :
    (b₀.run env calls).Returns (fun (_, b) => ∃ slots free, b.Consistent env slots free) := by
  refine (run_spec h calls).mono ?_
  rintro ⟨replies, b⟩ ⟨-, htracks⟩
  exact ⟨_, _, htracks.1.represents.consistent⟩

theorem run_consistent_small : ∃ b₀ replies b, construct .instrumented .small = .ok b₀ ∧
    b₀.run .instrumented [.addOrder 1 .Limit 101 5 .Buy, .addOrder 2 .Limit 103 7 .Sell,
      .addOrder 3 .Limit 103 4 .Buy] = .ok (replies, b) ∧
    b.hasBids = true ∧ b.hasAsks = true ∧
    ∃ slots free, b.Consistent .instrumented slots free := by
  obtain ⟨b₀, h⟩ := construct_small .instrumented
  obtain ⟨⟨replies, b⟩, hrun, -, htracks⟩ := returns_iff.mp (run_small h
    [.addOrder 1 .Limit 101 5 .Buy, .addOrder 2 .Limit 103 7 .Sell, .addOrder 3 .Limit 103 4 .Buy])
  have hindex := htracks.1.represents.index
  have hbids : b.hasBids = true := (hindex .Buy).has.trans (by decide)
  have hasks : b.hasAsks = true := (hindex .Sell).has.trans (by decide)
  exact ⟨b₀, replies, b, h, hrun, hbids, hasks, (run_consistent h _).result hrun⟩

end OrderBook

end Hft
