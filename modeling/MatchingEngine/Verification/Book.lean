import MatchingEngine.Ledger.Step
import MatchingEngine.Verification.Level
import MatchingEngine.Verification.Pool

/-!
# A book represents a ledger

The representation has two parts that change at different moments of a call.
`Store` relates levels, slots, free list, order map and counters to the queues of
a ledger. `Index` relates the bits and the cached best price of one side to a set
of occupied prices. Between calls the two speak about the same ledger; inside a
call the index lags behind until the best price is moved.
-/

namespace Hft

open Machine Machine.Checked

/-- What an instrumented build journals and a release build does not. -/
def Env.journaled (env : Env) (events : List JournalEntry) : List JournalEntry :=
  if env.debugTools then events else []

@[simp] theorem Env.journaled_nil (env : Env) : env.journaled [] = [] := by
  simp [Env.journaled]

theorem Env.journaled_append (env : Env) (xs ys : List JournalEntry) :
    env.journaled (xs ++ ys) = env.journaled xs ++ env.journaled ys := by
  cases h : env.debugTools <;> simp [Env.journaled, h]

namespace OrderBook

variable {env : Env} {g : Geometry} {b b' : OrderBook} {L : Ledger} {side : Side} {i : Nat}

/-- Append journal entries. -/
def logged (env : Env) (b : OrderBook) (events : List JournalEntry) : OrderBook :=
  { b with journal := b.journal ++ env.journaled events }

theorem record_eq (event : JournalEvent) (id price quantity side : Nat) :
    b.record env event id price quantity side =
      b.logged env [⟨event, id, price, quantity, side, 0⟩] := by
  cases h : env.debugTools <;> simp [record, logged, Env.journaled, h]

theorem recordReason_eq (event : JournalEvent) (id price quantity side : Nat)
    (reason : RejectReason) :
    b.recordReason env event id price quantity side reason =
      b.logged env [⟨event, id, price, quantity, side, reason.toByte⟩] := by
  cases h : env.debugTools <;> simp [recordReason, logged, Env.journaled, h]

@[simp] theorem logged_nil : b.logged env [] = b := by
  simp [logged]

theorem logged_logged (xs ys : List JournalEntry) :
    (b.logged env xs).logged env ys = b.logged env (xs ++ ys) := by
  simp [logged, Env.journaled_append]

@[simp] theorem side_logged (events : List JournalEntry) :
    (b.logged env events).side side = b.side side := by
  cases side <;> rfl

/-! ## Sides -/

section Sides

variable {s : BookSide}

@[simp] theorem side_setSide_self : (b.setSide side s).side side = s := by
  cases side <;> rfl

@[simp] theorem side_setSide_opposite :
    (b.setSide side s).side side.opposite = b.side side.opposite := by
  cases side <;> rfl

theorem side_setSide_of_ne {t : Side} (h : t ≠ side) : (b.setSide side s).side t = b.side t := by
  cases side <;> cases t <;> first | rfl | exact absurd rfl h

@[simp] theorem setSide_setSide (s' : BookSide) :
    (b.setSide side s).setSide side s' = b.setSide side s' := by
  cases side <;> rfl

@[simp] theorem setSide_side : b.setSide side (b.side side) = b := by
  cases side <;> rfl

@[simp] theorem setSide_minPrice : (b.setSide side s).minPrice = b.minPrice := by
  cases side <;> rfl

@[simp] theorem setSide_maxPrice : (b.setSide side s).maxPrice = b.maxPrice := by
  cases side <;> rfl

@[simp] theorem setSide_maxOrderId : (b.setSide side s).maxOrderId = b.maxOrderId := by
  cases side <;> rfl

@[simp] theorem setSide_orderMap : (b.setSide side s).orderMap = b.orderMap := by
  cases side <;> rfl

@[simp] theorem setSide_orderPool : (b.setSide side s).orderPool = b.orderPool := by
  cases side <;> rfl

@[simp] theorem setSide_activeCount : (b.setSide side s).activeCount = b.activeCount := by
  cases side <;> rfl

@[simp] theorem setSide_journal : (b.setSide side s).journal = b.journal := by
  cases side <;> rfl

@[simp] theorem setSide_inPublicEntry : (b.setSide side s).inPublicEntry = b.inPublicEntry := by
  cases side <;> rfl

@[simp] theorem setSide_ownerThread : (b.setSide side s).ownerThread = b.ownerThread := by
  cases side <;> rfl

theorem forall_side {P : Side → Prop} (side : Side) (self : P side)
    (opposite : P side.opposite) (t : Side) : P t := by
  rcases side.eq_or_eq_opposite t with rfl | rfl
  · exact self
  · exact opposite

end Sides

/-! ## The store -/

/-- A slot holds an order with all its fields. -/
def Holds (g : Geometry) (pool : Array Order) (p : Placed) : Prop :=
  ∃ o : Order, pool[p.order.slot]? = some o ∧ o.written = true ∧ o.id = p.order.id ∧
    o.price = g.price p.index ∧ o.quantity = p.order.quantity ∧ o.side = p.side.toByte

theorem Holds.congr {pool pool' : Array Order} {p : Placed} (h : Holds g pool p)
    (same : pool'[p.order.slot]? = pool[p.order.slot]?) : Holds g pool' p := by
  obtain ⟨o, ho, h⟩ := h
  exact ⟨o, same.trans ho, h⟩

/-- Links do not matter to what a slot holds. -/
theorem Holds.relinked {pool pool' : Array Order} {p : Placed} {slots : List Nat}
    (h : Holds g pool p) (hpool : Relinked pool pool' slots) : Holds g pool' p := by
  obtain ⟨o, ho, hw, hid, hprice, hquantity, hside⟩ := h
  obtain ⟨o', ho', hpayload⟩ := hpool.payload _ o ho
  simp only [Order.payload, Order.mk.injEq, true_and] at hpayload
  obtain ⟨h₁, h₂, h₃, h₄, h₅⟩ := hpayload
  exact ⟨o', ho', h₅.trans hw, h₁.trans hid, h₂.trans hprice, h₃.trans hquantity, h₄.trans hside⟩

/-- The queue at a level, as its slots and its total. -/
abbrev LevelHolds (pool : Array Order) (level : PriceLevel) (q : List Resting) : Prop :=
  level.Represents pool (q.map Resting.slot) (Greedy.total Resting.quantity q)

structure Store (env : Env) (g : Geometry) (b : OrderBook) (L : Ledger) : Prop where
  wellFormed : L.WellFormed g
  minPrice : b.minPrice = g.minPrice
  maxPrice : b.maxPrice = g.maxPrice
  maxOrderId : b.maxOrderId = g.maxOrderId
  capacity : b.orderPool.capacity = g.capacity
  pool : b.orderPool.Represents env L.free
  reports : b.orderPool.reports = []
  levelsSize : ∀ side, (b.side side).levels.size = g.range
  level : ∀ side, ∀ i < g.range, ∃ level, (b.side side).levels[i]? = some level ∧
    LevelHolds b.orderPool.pool level (L.queue side i)
  holds : ∀ p ∈ L.resting g, Holds g b.orderPool.pool p
  mapSize : b.orderMap.size = g.maxOrderId + 1
  mapped : ∀ p ∈ L.resting g, b.orderMap[p.order.id]? = some p.order.slot
  unmapped : ∀ id ≤ g.maxOrderId, (∀ p ∈ L.resting g, p.order.id ≠ id) →
    b.orderMap[id]? = some INVALID_INDEX
  active : b.activeCount = (L.resting g).length

/-- Nothing the store speaks about differs. -/
structure SameStore (b b' : OrderBook) : Prop where
  minPrice : b'.minPrice = b.minPrice
  maxPrice : b'.maxPrice = b.maxPrice
  maxOrderId : b'.maxOrderId = b.maxOrderId
  orderPool : b'.orderPool = b.orderPool
  levels : ∀ side, (b'.side side).levels = (b.side side).levels
  orderMap : b'.orderMap = b.orderMap
  activeCount : b'.activeCount = b.activeCount

theorem SameStore.logged (b : OrderBook) (events : List JournalEntry) :
    SameStore b (b.logged env events) :=
  ⟨rfl, rfl, rfl, rfl, fun _ => by rw [side_logged], rfl, rfl⟩

theorem SameStore.setSide {s : BookSide} (h : s.levels = (b.side side).levels) :
    SameStore b (b.setSide side s) := by
  refine ⟨by simp, by simp, by simp, by simp, forall_side side ?_ ?_, by simp, by simp⟩
  · rw [side_setSide_self, h]
  · rw [side_setSide_opposite]

/-- An update of the queue at one level. What it asks of the new book is local: the
level, the slots it had or has, the ids it had or has. -/
structure Update (env : Env) (g : Geometry) (b b' : OrderBook) (L : Ledger) (side : Side) (i : Nat)
    (q : List Resting) (free : List Nat) : Prop where
  minPrice : b'.minPrice = b.minPrice
  maxPrice : b'.maxPrice = b.maxPrice
  maxOrderId : b'.maxOrderId = b.maxOrderId
  capacity : b'.orderPool.capacity = b.orderPool.capacity
  pool : b'.orderPool.Represents env free
  reports : b'.orderPool.reports = b.orderPool.reports
  level : ∃ level, (b'.side side).levels = (b.side side).levels.setIfInBounds i level ∧
    LevelHolds b'.orderPool.pool level q
  levelsOpposite : (b'.side side.opposite).levels = (b.side side.opposite).levels
  outside : ∀ s, (∀ r ∈ L.queue side i, r.slot ≠ s) → s ∉ L.free →
    b'.orderPool.pool[s]? = b.orderPool.pool[s]?
  inside : ∀ r ∈ q, Holds g b'.orderPool.pool ⟨side, i, r⟩
  mapSize : b'.orderMap.size = b.orderMap.size
  mapOutside : ∀ id, (∀ r ∈ L.queue side i, r.id ≠ id) → (∀ r ∈ q, r.id ≠ id) →
    b'.orderMap[id]? = b.orderMap[id]?
  mapped : ∀ r ∈ q, b'.orderMap[r.id]? = some r.slot
  cleared : ∀ r ∈ L.queue side i, (∀ r' ∈ q, r'.id ≠ r.id) →
    b'.orderMap[r.id]? = some INVALID_INDEX
  active : b'.activeCount + (L.queue side i).length = b.activeCount + q.length

namespace Store

theorem congr (h : Store env g b L) (same : SameStore b b') : Store env g b' L := by
  obtain ⟨hmin, hmax, hid, hpool, hlevels, hmap, hactive⟩ := same
  constructor
  · exact h.wellFormed
  · rw [hmin, h.minPrice]
  · rw [hmax, h.maxPrice]
  · rw [hid, h.maxOrderId]
  · rw [hpool, h.capacity]
  · rw [hpool]
    exact h.pool
  · rw [hpool, h.reports]
  · intro side
    rw [hlevels, h.levelsSize]
  · rw [hpool]
    intro side i hi
    rw [hlevels]
    exact h.level side i hi
  · rw [hpool]
    exact h.holds
  · rw [hmap, h.mapSize]
  · rw [hmap]
    exact h.mapped
  · rw [hmap]
    exact h.unmapped
  · rw [hactive, h.active]

variable (h : Store env g b L)
include h

theorem order_eq {p : Placed} (hp : p ∈ L.resting g) : ∃ o : Order,
    b.orderPool.pool[p.order.slot]? = some o ∧ b.order p.order.slot = .ok o ∧ o.written = true ∧
    o.id = p.order.id ∧ o.price = g.price p.index ∧ o.quantity = p.order.quantity ∧
    o.side = p.side.toByte := by
  obtain ⟨o, ho, hw, hfields⟩ := h.holds p hp
  exact ⟨o, ho, readOrder_eq ho hw, hw, hfields⟩

theorem maker_eq {r : Resting} (hr : r ∈ L.queue side i) : ∃ o : Order,
    b.orderPool.pool[r.slot]? = some o ∧ b.order r.slot = .ok o ∧ o.written = true ∧
    o.id = r.id ∧ o.price = g.price i ∧ o.quantity = r.quantity ∧ o.side = side.toByte :=
  h.order_eq (h.wellFormed.mem hr)

theorem id_lt_mapSize {r : Resting} (hr : r ∈ L.queue side i) : r.id < b.orderMap.size := by
  have hle : r.id ≤ g.maxOrderId := h.wellFormed.id_le _ (h.wellFormed.mem hr)
  rw [h.mapSize]
  omega

theorem level_eq (side : Side) (hi : i < g.range) : ∃ level,
    (b.side side).levels[i]? = some level ∧ b.level side i = .ok level ∧
    LevelHolds b.orderPool.pool level (L.queue side i) := by
  obtain ⟨level, hlevel, hrep⟩ := h.level side i hi
  exact ⟨level, hlevel, vecRead_eq hlevel, hrep⟩

theorem slot_ne_invalid {p : Placed} (hp : p ∈ L.resting g) : p.order.slot ≠ INVALID_INDEX := by
  have hlt := h.wellFormed.slot_lt (Ledger.mem_resting.mp hp).2
  exact Nat.ne_of_lt (h.pool.lt_invalid (h.capacity ▸ hlt))

theorem activeCount_le : b.activeCount ≤ g.capacity := by
  have := h.wellFormed.count_add_free
  have := h.active
  omega

/-- The map says for every id whether and where it rests. -/
theorem orderMap_eq {id : Nat} (hid : id ≤ g.maxOrderId) :
    b.orderMap[id]? = some (((L.find g id).map (·.order.slot)).getD INVALID_INDEX) := by
  cases hfind : L.find g id with
  | none => exact h.unmapped id hid (Ledger.find_eq_none_iff.mp hfind)
  | some p =>
      obtain ⟨hp, rfl⟩ := (Ledger.find_eq_some_iff h.wellFormed).mp hfind
      exact h.mapped p hp

/-- An entry of the map is the slot of a resting order. -/
theorem placed_of_map {id idx : Nat} (hmap : b.orderMap[id]? = some idx)
    (hvalid : idx ≠ INVALID_INDEX) : ∃ p ∈ L.resting g, p.order.id = id ∧ p.order.slot = idx := by
  have hid : id ≤ g.maxOrderId := by
    have := lt_size_of_getElem? hmap
    rw [h.mapSize] at this
    omega
  rw [h.orderMap_eq hid, Option.some.injEq] at hmap
  cases hfind : L.find g id with
  | none =>
      rw [hfind, Option.map_none, Option.getD_none] at hmap
      exact absurd hmap.symm hvalid
  | some p =>
      rw [hfind, Option.map_some, Option.getD_some] at hmap
      obtain ⟨hp, hid⟩ := (Ledger.find_eq_some_iff h.wellFormed).mp hfind
      exact ⟨p, hp, hid, hmap⟩

section Replace

variable {q : List Resting} {free : List Nat} (u : Update env g b b' L side i q free)
include u

/-- An order of another queue keeps its slot. -/
theorem slot_of_update {p : Placed} (hp : p ∈ L.resting g)
    (hne : ¬(p.side = side ∧ p.index = i)) :
    b'.orderPool.pool[p.order.slot]? = b.orderPool.pool[p.order.slot]? := by
  have hmem := (Ledger.mem_resting.mp hp).2
  refine u.outside _ ?_ (h.wellFormed.slot_notMem_free hmem)
  intro r hr heq
  obtain ⟨hside, hindex, -⟩ := h.wellFormed.slot_inj hr hmem heq
  exact hne ⟨hside.symm, hindex.symm⟩

theorem level_of_update (t : Side) {j : Nat} (hj : j < g.range) :
    ∃ level, (b'.side t).levels[j]? = some level ∧
      LevelHolds b'.orderPool.pool level ((L.set side i q free).queue t j) := by
  obtain ⟨level, levels, levelHolds⟩ := u.level
  by_cases hself : t = side ∧ j = i
  · obtain ⟨rfl, rfl⟩ := hself
    have hlt : j < (b.side t).levels.size := by rwa [h.levelsSize]
    refine ⟨level, ?_, by rwa [Ledger.set_queue_self]⟩
    rw [levels, Array.getElem?_setIfInBounds, if_pos rfl, if_pos hlt]
  · obtain ⟨level', hlevel', hrep⟩ := h.level t j hj
    have hsame : (b'.side t).levels[j]? = (b.side t).levels[j]? := by
      rcases side.eq_or_eq_opposite t with rfl | rfl
      · rw [levels, Array.getElem?_setIfInBounds_ne]
        rintro rfl
        exact hself ⟨rfl, rfl⟩
      · rw [u.levelsOpposite]
    refine ⟨level', hsame.trans hlevel', ?_⟩
    rw [Ledger.set_queue_of_ne hself]
    refine hrep.congr ?_
    intro s hs
    obtain ⟨r, hr, rfl⟩ := List.mem_map.mp hs
    exact h.slot_of_update u (h.wellFormed.mem hr) hself

theorem mapped_of_update (hi : i < g.range) (wellFormed : (L.set side i q free).WellFormed g)
    {p : Placed} (hp : p ∈ (L.set side i q free).resting g) :
    b'.orderMap[p.order.id]? = some p.order.slot := by
  rcases (Ledger.mem_resting_set hi).mp hp with ⟨-, -, hr⟩ | ⟨hne, hp'⟩
  · exact u.mapped p.order hr
  · rw [u.mapOutside, h.mapped p hp']
    · intro r hr heq
      obtain ⟨hside, hindex, -⟩ := h.wellFormed.id_inj hr (Ledger.mem_resting.mp hp').2 heq
      exact hne ⟨hside.symm, hindex.symm⟩
    · intro r hr heq
      have hmem : r ∈ (L.set side i q free).queue side i := by rwa [Ledger.set_queue_self]
      obtain ⟨hside, hindex, -⟩ := wellFormed.id_inj hmem (Ledger.mem_resting.mp hp).2 heq
      exact hne ⟨hside.symm, hindex.symm⟩

theorem unmapped_of_update (hi : i < g.range) {id : Nat} (hid : id ≤ g.maxOrderId)
    (hnone : ∀ p ∈ (L.set side i q free).resting g, p.order.id ≠ id) :
    b'.orderMap[id]? = some INVALID_INDEX := by
  have hq : ∀ r ∈ q, r.id ≠ id := fun r hr =>
    hnone ⟨side, i, r⟩ ((Ledger.mem_resting_set hi).mpr (Or.inl ⟨rfl, rfl, hr⟩))
  by_cases hown : ∃ r ∈ L.queue side i, r.id = id
  · obtain ⟨r, hr, rfl⟩ := hown
    exact u.cleared r hr hq
  · have hown : ∀ r ∈ L.queue side i, r.id ≠ id := fun r hr e => hown ⟨r, hr, e⟩
    rw [u.mapOutside id hown hq]
    refine h.unmapped id hid ?_
    intro p hp heq
    by_cases hself : p.side = side ∧ p.index = i
    · have hmem := (Ledger.mem_resting.mp hp).2
      rw [hself.1, hself.2] at hmem
      exact hown p.order hmem heq
    · exact hnone p ((Ledger.mem_resting_set hi).mpr (Or.inr ⟨hself, hp⟩)) heq

theorem active_of_update (hi : i < g.range) :
    b'.activeCount = ((L.set side i q free).resting g).length := by
  obtain ⟨others, hothers⟩ := Ledger.resting_focus L side hi
  have hold := (hothers L (fun _ _ _ => rfl)).length_eq
  have hnew := (hothers (L.set side i q free)
    (fun _ _ hne => Ledger.set_queue_of_ne hne)).length_eq
  have hactive := h.active
  have hcount := u.active
  simp only [Ledger.placed, Ledger.set_queue_self, List.length_append, List.length_map]
    at hold hnew
  omega

end Replace

/-- The queue of one level is now `q` and the free slots are `free`. -/
theorem replace {q : List Resting} {free : List Nat} (hi : i < g.range)
    (wellFormed : (L.set side i q free).WellFormed g) (u : Update env g b b' L side i q free) :
    Store env g b' (L.set side i q free) := by
  have sizes : ∀ t, (b'.side t).levels.size = (b.side t).levels.size := by
    obtain ⟨level, levels, -⟩ := u.level
    refine forall_side side ?_ ?_
    · rw [levels, Array.size_setIfInBounds]
    · rw [u.levelsOpposite]
  constructor
  · exact wellFormed
  · rw [u.minPrice, h.minPrice]
  · rw [u.maxPrice, h.maxPrice]
  · rw [u.maxOrderId, h.maxOrderId]
  · rw [u.capacity, h.capacity]
  · exact u.pool
  · rw [u.reports, h.reports]
  · exact fun t => (sizes t).trans (h.levelsSize t)
  · exact fun t j hj => h.level_of_update u t hj
  · intro p hp
    rcases (Ledger.mem_resting_set hi).mp hp with ⟨hside, hindex, hr⟩ | ⟨hne, hp⟩
    · have hinside := u.inside p.order hr
      rwa [← hside, ← hindex] at hinside
    · exact (h.holds p hp).congr (h.slot_of_update u hp hne)
  · rw [u.mapSize, h.mapSize]
  · exact fun p hp => h.mapped_of_update u hi wellFormed hp
  · exact fun id hid hnone => h.unmapped_of_update u hi hid hnone
  · exact h.active_of_update u hi

end Store

/-! ## The index of a side -/

/-- Bits, summary and cached best price of a side whose occupied prices are `S`. -/
structure Index (g : Geometry) (side : Side) (S : Set Nat) (o : Option Nat)
    (s : BookSide) : Prop where
  tiers : Represents s.bitset s.summary S
  bitsetSize : s.bitset.size = (g.range + 63) / 64
  summarySize : s.summary.size = ((g.range + 63) / 64 + 63) / 64
  lt_range : ∀ i ∈ S, i < g.range
  has : s.has = o.isSome
  best : s.best = g.bestPrice side o
  bestIdx : s.bestIdx = g.bestIndex side o

/-- Between calls: the store and both indices of one ledger. -/
structure Represents (env : Env) (g : Geometry) (b : OrderBook) (L : Ledger) : Prop where
  store : Store env g b L
  index : ∀ side, Index g side (L.occupied side) (L.best g side) (b.side side)

theorem Represents.logged (h : Represents env g b L) (events : List JournalEntry) :
    Represents env g (b.logged env events) L :=
  ⟨h.store.congr (SameStore.logged b events), fun side => by
    rw [side_logged]
    exact h.index side⟩

end OrderBook

end Hft
