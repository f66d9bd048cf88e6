import MatchingEngine.Verification.Matching

/-!
# Cancelling

A cancel takes its order out of the middle of a queue. The store loses one order;
the index changes only if the queue is empty now, and the best price only if it
was the price of that queue.
-/

namespace Hft

open Machine Machine.Checked

namespace OrderBook

variable {env : Env} {g : Geometry} {b b' : OrderBook} {L M : Ledger} {side : Side} {i : Nat}
variable {S : Set Nat} {o : Option Nat} {s : BookSide}

/-- What the index speaks about does not include the levels. -/
theorem Index.withLevels (h : Index g side S o s) (levels : Array PriceLevel) :
    Index g side S o { s with levels } :=
  ⟨h.tiers, h.bitsetSize, h.summarySize, h.lt_range, h.has, h.best, h.bestIdx⟩

/-- The level at index `i` has become empty: its bit goes, and the best price
moves if it was this level's. -/
theorem clearEmptied_spec (hmin : b.minPrice = g.minPrice) (hmax : b.maxPrice = g.maxPrice)
    (hsize : (b.side side).levels.size = g.range) (hL : L.WellFormed g) (hM : M.WellFormed g)
    (h : Index g side (L.occupied side) (L.best g side) (b.side side)) (hi : i ∈ L.occupied side)
    (hocc : M.occupied side = L.occupied side \ {i}) :
    (do
      let b ← b.clearLevelBit side i
      if (b.side side).has && (b.side side).best == g.price i then
        b.updateBestAfterRemove side (g.price i)
      else return b : Checked OrderBook).Returns (fun b' => ∃ s, b' = b.setSide side s ∧
        s.levels = (b.side side).levels ∧
        Index g side (M.occupied side) (M.best g side) s) := by
  have hlt := h.lt_range i hi
  refine (clearLevelBit_spec h hi).bind ?_
  rintro _ ⟨s, rfl, hlevels, hs⟩
  rw [side_setSide_self]
  have hguard : (s.has && s.best == g.price i) = true ↔ L.best g side = some i := by
    rw [hs.has, hs.best]
    cases L.best g side <;> simp [Geometry.bestPrice, Geometry.price]
  by_cases hbest : L.best g side = some i
  · rw [if_pos (hguard.mpr hbest)]
    rw [hbest] at hs
    have hisBest := hL.best_eq_iff.mp hbest
    refine (updateBestAfterRemove_spec (b := b.setSide side s) (L := M) ?_ ?_ ?_ hM ?_ hlt hisBest
      hocc).mono ?_
    · rw [setSide_minPrice, hmin]
    · rw [setSide_maxPrice, hmax]
    · rw [side_setSide_self, hlevels, hsize]
    · rwa [side_setSide_self]
    · rintro _ ⟨s', rfl, hlevels', hs'⟩
      rw [side_setSide_self, hlevels] at hlevels'
      exact ⟨s', setSide_setSide s', hlevels', hs'⟩
  · rw [if_neg (fun e => hbest (hguard.mp e))]
    refine ⟨s, rfl, hlevels, ?_⟩
    rw [Ledger.best_of_erased hL hM hocc hbest, hocc]
    exact hs

/-- What unlinking an order from its queue does to the book, the index apart. -/
structure Detached (b b' : OrderBook) (p : Placed) (as bs : List Resting) (order : Order) :
    Prop where
  frame : ∃ s, b' = ({ b with orderPool := b'.orderPool } : OrderBook).setSide p.side s
  pool : b'.orderPool = { b.orderPool with pool := b'.orderPool.pool }
  relinked : Relinked b.orderPool.pool b'.orderPool.pool ((as ++ p.order :: bs).map Resting.slot)
  slot : b'.orderPool.pool[p.order.slot]? =
    some { order with next := INVALID_INDEX, prev := INVALID_INDEX }
  level : ∃ level, (b'.side p.side).levels = (b.side p.side).levels.setIfInBounds p.index level ∧
    LevelHolds b'.orderPool.pool level (as ++ bs)

/-- What taking an order out of its queue does to the book. -/
structure Unlinked (g : Geometry) (b b' : OrderBook) (M : Ledger) (p : Placed)
    (as bs : List Resting) (order : Order) : Prop extends Detached b b' p as bs order where
  index : Index g p.side (M.occupied p.side) (M.best g p.side) (b'.side p.side)

/-- What `removeOrder` does to the level of a resting order, and to the book. -/
theorem detach_spec {p : Placed} {as bs : List Resting} {order : Order}
    (store : Store env g b L) (hp : p ∈ L.resting g)
    (hsplit : L.queue p.side p.index = as ++ p.order :: bs)
    (ho : b.orderPool.pool[p.order.slot]? = some order) (hw : order.written = true)
    (hquantity : order.quantity = p.order.quantity) :
    ∃ level level' pool s b', b.level p.side p.index = .ok level ∧
      level.removeOrder p.order.slot b.orderPool.pool = .ok (level', pool) ∧
      ({ b with orderPool := { b.orderPool with pool } } : OrderBook).setLevel p.side p.index
        level' = .ok b' ∧
      b' = ({ b with orderPool := { b.orderPool with pool } } : OrderBook).setSide p.side s ∧
      s = { b.side p.side with levels := (b.side p.side).levels.setIfInBounds p.index level' } ∧
      (level'.isEmpty = true ↔ as ++ bs = []) ∧ Detached b b' p as bs order := by
  have hi := (Ledger.mem_resting.mp hp).1
  obtain ⟨level, hlevel, hread, hrep⟩ := store.level_eq p.side hi
  rw [hsplit, LevelHolds, List.map_append, List.map_cons, Greedy.total_append,
    Greedy.total_cons] at hrep
  obtain ⟨⟨level', pool⟩, hremove, hrep', hrelinked, hslot⟩ := returns_iff.mp
    (PriceLevel.removeOrder_spec hrep ho hw (by omega))
  have htotal : Greedy.total Resting.quantity as + (p.order.quantity +
      Greedy.total Resting.quantity bs) - order.quantity =
      Greedy.total Resting.quantity (as ++ bs) := by
    rw [Greedy.total_append]
    omega
  rw [htotal, ← List.map_append] at hrep'
  have hempty := hrep'.isEmpty_iff
  rw [List.map_eq_nil_iff] at hempty
  have hside : ({ b with orderPool := { b.orderPool with pool } } : OrderBook).side p.side =
      b.side p.side := by
    cases p.side <;> rfl
  have hsize : p.index < (({ b with orderPool := { b.orderPool with pool } } : OrderBook).side
      p.side).levels.size := by
    rw [hside]
    exact lt_size_of_getElem? hlevel
  refine ⟨level, level', pool, _, _, hread, hremove, setLevel_eq hsize, rfl, by rw [hside], hempty,
    ?_⟩
  refine ⟨⟨_, by rw [setSide_orderPool]⟩, by rw [setSide_orderPool], ?_, ?_, level', ?_, ?_⟩
  · rw [setSide_orderPool, List.map_append, List.map_cons]
    exact hrelinked
  · rw [setSide_orderPool]
    exact hslot
  · rw [side_setSide_self, hside]
  · rw [setSide_orderPool]
    exact hrep'

theorem removeFromLevel_spec {p : Placed} {as bs : List Resting} {order : Order} {free : List Nat}
    (h : Represents env g b L) (hp : p ∈ L.resting g)
    (hsplit : L.queue p.side p.index = as ++ p.order :: bs)
    (hM : M.WellFormed g) (hset : M = L.set p.side p.index (as ++ bs) free)
    (ho : b.orderPool.pool[p.order.slot]? = some order) (hw : order.written = true)
    (hquantity : order.quantity = p.order.quantity) :
    (b.removeFromLevel p.side p.index p.order.slot (g.price p.index)).Returns
      (fun b' => Unlinked g b b' M p as bs order) := by
  obtain ⟨level, level', pool, s₁, b₁, hread, hremove, hwrite, hb₁, hs₁, hempty, hdetached⟩ :=
    detach_spec h.store hp hsplit ho hw hquantity
  simp only [removeFromLevel, hread, hremove, hwrite, ok_bind]
  have hside₁ : b₁.side p.side = s₁ := by rw [hb₁, side_setSide_self]
  have hindex := (h.index p.side).withLevels ((b.side p.side).levels.setIfInBounds p.index level')
  rw [← hs₁] at hindex
  -- whatever becomes of the index, the rest is settled
  have unlinked : ∀ s, s.levels = s₁.levels → Index g p.side (M.occupied p.side)
      (M.best g p.side) s → Unlinked g b (b₁.setSide p.side s) M p as bs order := by
    intro s hlevels hs
    obtain ⟨level, hlevel, hholds⟩ := hdetached.level
    rw [hside₁] at hlevel
    refine ⟨⟨⟨s, ?_⟩, ?_, ?_, ?_, level, ?_, ?_⟩, ?_⟩
    · rw [hb₁, setSide_setSide, setSide_orderPool]
    · rw [setSide_orderPool]
      exact hdetached.pool
    · rw [setSide_orderPool]
      exact hdetached.relinked
    · rw [setSide_orderPool]
      exact hdetached.slot
    · rw [side_setSide_self, hlevels, hlevel]
    · rw [setSide_orderPool]
      exact hholds
    · rw [side_setSide_self]
      exact hs
  have hmem : p.index ∈ L.occupied p.side := by
    change L.queue p.side p.index ≠ []
    simp [hsplit]
  by_cases hnil : as ++ bs = []
  · have hocc : M.occupied p.side = L.occupied p.side \ {p.index} := by
      rw [hset, hnil, Ledger.occupied_set_nil]
    rw [if_pos (hempty.mpr hnil)]
    refine (clearEmptied_spec ?_ ?_ ?_ h.wellFormed hM ?_ hmem hocc).mono ?_
    · rw [hb₁, setSide_minPrice, h.store.minPrice]
    · rw [hb₁, setSide_maxPrice, h.store.maxPrice]
    · rw [hside₁, hs₁, Array.size_setIfInBounds, h.store.levelsSize]
    · rwa [hside₁]
    · rintro _ ⟨s, rfl, hlevels, hs⟩
      rw [hside₁] at hlevels
      exact unlinked s hlevels hs
  · have hocc : M.occupied p.side = L.occupied p.side := by
      rw [hset, Ledger.occupied_set hnil, Set.insert_eq_of_mem hmem]
    rw [if_neg (fun e => hnil (hempty.mp e)), pure_eq_ok, returns_ok]
    refine ⟨hdetached, ?_⟩
    rw [hside₁, hocc, Ledger.best_congr hocc]
    exact hindex

/-- The store after a cancel: one order less, its slot in front of the free ones. -/
theorem Store.cancelled {p : Placed} {as bs : List Resting} {order : Order} {b₁ b₂ : OrderBook}
    (store : Store env g b L) (hp : p ∈ L.resting g)
    (hsplit : L.queue p.side p.index = as ++ p.order :: bs)
    (hM : (L.set p.side p.index (as ++ bs) (p.order.slot :: L.free)).WellFormed g)
    (h₁ : Detached b b₁ p as bs order) (h₂ : Cleared env b₁ b₂ [p.order] [])
    (frame : b' = { b₂ with orderPool := b'.orderPool, activeCount := b'.activeCount })
    (pool : b'.orderPool.Represents env (p.order.slot :: L.free))
    (outside : b₂.orderPool.SameOutside b'.orderPool [p.order.slot])
    (active : b'.activeCount + 1 = b.activeCount) :
    Store env g b' (L.set p.side p.index (as ++ bs) (p.order.slot :: L.free)) := by
  obtain ⟨s, hframe⟩ := h₁.frame
  obtain ⟨level, hlevels, hlevel⟩ := h₁.level
  have hp' := (Ledger.mem_resting.mp hp).2
  have hslots := store.wellFormed.slots_nodup p.side p.index
  have hids := store.wellFormed.ids_nodup p.side p.index
  rw [hsplit, List.map_append, List.map_cons, List.nodup_middle, List.nodup_cons] at hslots hids
  have hold : ∀ r ∈ as ++ bs, r ∈ L.queue p.side p.index := by
    intro r hr
    rw [hsplit]
    rcases List.mem_append.mp hr with hr | hr
    · exact List.mem_append_left _ hr
    · exact List.mem_append_right _ (List.mem_cons_of_mem _ hr)
  -- the orders that stay have other slots and other ids
  have slotNe : ∀ r ∈ as ++ bs, r.slot ≠ p.order.slot := by
    rintro r hr e
    rw [← e, ← List.map_append] at hslots
    exact hslots.1 (List.mem_map_of_mem hr)
  have idNe : ∀ r ∈ as ++ bs, r.id ≠ p.order.id := by
    rintro r hr e
    rw [← e, ← List.map_append] at hids
    exact hids.1 (List.mem_map_of_mem hr)
  have hread : ∀ s, s ≠ p.order.slot → b'.orderPool.pool[s]? = b₁.orderPool.pool[s]? := by
    intro s hs
    rw [outside.slots s (by simpa using hs), h₂.slots s (by simpa [eq_comm] using hs)]
  have hside : ∀ t, b'.side t = b₁.side t := by
    intro t
    rw [frame, h₂.frame]
    cases t <;> rfl
  have hmap : b'.orderMap = b₂.orderMap := by rw [frame]
  have hmap₁ : b₁.orderMap = b.orderMap := by rw [hframe, setSide_orderMap]
  have hpool₂ : b₂.orderPool = { b₁.orderPool with pool := b₂.orderPool.pool } := by rw [h₂.frame]
  refine store.replace (Ledger.mem_resting.mp hp).1 hM ?_
  exact {
    minPrice := by rw [frame, h₂.frame, hframe, setSide_minPrice]
    maxPrice := by rw [frame, h₂.frame, hframe, setSide_maxPrice]
    maxOrderId := by rw [frame, h₂.frame, hframe, setSide_maxOrderId]
    capacity := by rw [outside.capacity, hpool₂, h₁.pool]
    pool := pool
    reports := by rw [outside.reports, hpool₂, h₁.pool]
    level := by
      refine ⟨level, by rw [hside, hlevels], hlevel.congr ?_⟩
      intro s hs
      obtain ⟨r, hr, rfl⟩ := List.mem_map.mp hs
      exact hread _ (slotNe r hr)
    levelsOpposite := by
      rw [hside, hframe, side_setSide_opposite]
      cases p.side <;> rfl
    outside := by
      intro s hs _
      rw [hread s (hs p.order hp').symm, h₁.relinked.outside]
      rw [← hsplit]
      exact fun e => by
        obtain ⟨r, hr, rfl⟩ := List.mem_map.mp e
        exact hs r hr rfl
    inside := by
      intro r hr
      exact ((store.holds _ (store.wellFormed.mem (hold r hr))).relinked h₁.relinked).congr
        (hread _ (slotNe r hr))
    mapSize := by rw [hmap, h₂.mapSize, hmap₁]
    mapOutside := by
      intro id hid _
      rw [hmap, h₂.mapOutside id (by simpa using hid p.order hp'), hmap₁]
    mapped := by
      intro r hr
      rw [hmap, h₂.mapOutside r.id (by simpa [eq_comm] using idNe r hr), hmap₁]
      exact store.mapped _ (store.wellFormed.mem (hold r hr))
    cleared := by
      intro r hr hnone
      rw [hsplit] at hr
      have hr : r = p.order := by
        by_contra hne
        refine hnone r ?_ rfl
        simpa [hne] using hr
      rw [hr, hmap]
      exact h₂.mapCleared p.order List.mem_cons_self
    active := by
      rw [hsplit]
      simp only [List.length_append, List.length_cons]
      omega }

/-- A call on the book does what the ledger says. One that is refused leaves nothing
but journal entries. -/
structure Follows (env : Env) (g : Geometry) (b b' : OrderBook) (o : Ledger.Outcome) : Prop where
  represents : Represents env g b' o.ledger
  kept : Kept env b b' o.events
  refused : o.reply.reason ≠ .Accepted → b' = b.logged env o.events

/-- A refusal only logs. -/
theorem Follows.refuse (h : Represents env g b L) (reason : RejectReason)
    (events : List JournalEntry) :
    Follows env g b (b.logged env events) (L.refuse reason events) :=
  ⟨h.logged events, Kept.logged env b events, fun _ => rfl⟩

theorem prefetchAhead_eq (store : Store env g b L) {id : Nat} (hid : id ≤ g.maxOrderId) :
    b.prefetchAhead id = .ok () := by
  have hmax := g.ids_le
  have hadd : id + kPrefetchDistance < 2 ^ 64 := by
    simp only [kMaxOrderIds, kPrefetchDistance] at *
    omega
  simp only [prefetchAhead, checkedAdd, if_pos hadd, ok_bind, store.maxOrderId]
  split
  · rename_i hle
    have hsize := store.mapSize
    rw [vecRead_eq (Array.getElem?_eq_getElem (by omega)), ok_bind, pure_eq_ok]
  · rfl

@[simp] theorem sideOfByte_toByte (side : Side) : sideOfByte side.toByte = side := by
  cases side <;> rfl

theorem represents_of_side (store : Store env g b' M) (side : Side)
    (same : ∀ j, M.queue side.opposite j = L.queue side.opposite j)
    (hside : Index g side (M.occupied side) (M.best g side) (b'.side side))
    (hopposite : Index g side.opposite (L.occupied side.opposite) (L.best g side.opposite)
      (b'.side side.opposite)) : Represents env g b' M := by
  refine represents_of_opposite store same hopposite ?_
  rwa [Side.opposite_opposite]

/-- Taking a resting order out of the book. -/
theorem cancelResting_spec {p : Placed} (h : Represents env g b L) (hp : p ∈ L.resting g) :
    (do
      b.prefetchAhead p.order.id
      let order ← b.order p.order.slot
      let bitIdx ← checkedSub order.price b.minPrice
      let b ← b.removeFromLevel (sideOfByte order.side) bitIdx p.order.slot order.price
      let b ← b.forgetOrder p.order.id p.order.slot
      let b ← b.deallocate env p.order.slot
      let activeCount ← checkedSub b.activeCount 1
      return (.Accepted, { b with activeCount }.logged env
        [⟨.OrderCancelled, p.order.id, order.price, 0, order.side, 0⟩]) :
        Checked (RejectReason × OrderBook)).Returns (fun (reason, b') => reason = .Accepted ∧
      Represents env g b' (L.remove p) ∧
      Kept env b b' [⟨.OrderCancelled, p.order.id, g.price p.index, 0, p.side.toByte, 0⟩]) := by
  have hmem := (Ledger.mem_resting.mp hp).2
  obtain ⟨as, bs, hsplit, hremove⟩ := h.wellFormed.exists_split hp
  have hM := h.wellFormed.remove hp
  obtain ⟨order, ho, hread, hw, hid, hprice, hquantity, hside⟩ := h.store.order_eq hp
  have hsub : checkedSub (g.price p.index) b.minPrice = .ok p.index := by
    simp [checkedSub, h.store.minPrice, Geometry.price]
  have hactive : 1 ≤ b.activeCount := by
    rw [h.store.active]
    exact List.length_pos_of_mem hp
  simp only [prefetchAhead_eq h.store (h.wellFormed.id_le p hp), hread, ok_bind, hprice, hsub,
    hside, sideOfByte_toByte]
  refine (removeFromLevel_spec h hp hsplit hM hremove ho hw hquantity).bind ?_
  intro b₁ h₁
  obtain ⟨s, hframe⟩ := h₁.frame
  have hsize : p.order.id < b₁.orderMap.size := by
    rw [hframe, setSide_orderMap]
    exact h.store.id_lt_mapSize hmem
  have hforget : ((b₁.logged env []).forgetOrder p.order.id p.order.slot).Returns _ :=
    forgetOrder_spec h₁.slot hsize []
  rw [logged_nil] at hforget
  refine hforget.bind ?_
  intro b₂ h₂
  have hlive : p.order.slot ∉ L.free := h.wellFormed.slot_notMem_free hmem
  have hpool₂ : b₂.orderPool = { b.orderPool with pool := b₂.orderPool.pool } := by
    rw [h₂.frame, h₁.pool]
  have hrep₂ : b₂.orderPool.Represents env L.free := by
    rw [hpool₂]
    refine h.store.pool.setPool (h₂.poolSize.trans h₁.relinked.size) ?_
    intro s hs
    rw [h₂.links]
    refine nextOf_congr (h₁.relinked.outside s ?_)
    rw [← hsplit]
    exact h.wellFormed.notMem_slots_of_free hs
  refine (deallocate_spec hrep₂ ?_ hlive).bind ?_
  · rw [hpool₂, h.store.capacity]
    exact h.wellFormed.slot_lt hmem
  rintro b₃ ⟨h₃, hrep₃, houtside⟩
  have hactive₃ : b₃.activeCount = b.activeCount := by
    rw [h₃, h₂.frame, hframe, setSide_activeCount]
  simp only [checkedSub, hactive₃, if_pos hactive, ok_bind, pure_eq_ok, returns_ok,
    true_and]
  generalize h₄ : ({ b₃ with activeCount := b.activeCount - 1 } : OrderBook) = b₄
  have hpool₄ : b₄.orderPool = b₃.orderPool := by rw [← h₄]
  have hframe₄ : b₄ = { b₂ with orderPool := b₄.orderPool, activeCount := b₄.activeCount } := by
    rw [← h₄, h₃]
  have hside₄ : ∀ t, b₄.side t = b₁.side t := by
    intro t
    rw [hframe₄, h₂.frame]
    cases t <;> rfl
  have store₄ : Store env g b₄ (L.remove p) := by
    rw [hremove] at hM ⊢
    refine h.store.cancelled hp hsplit hM h₁.toDetached h₂ hframe₄ ?_ ?_ ?_
    · rw [hpool₄]
      exact hrep₃
    · rw [hpool₄]
      exact houtside
    · rw [← h₄]
      exact Nat.sub_add_cancel hactive
  have hother : ∀ j, (L.remove p).queue p.side.opposite j = L.queue p.side.opposite j := by
    intro j
    rw [hremove]
    exact Ledger.set_queue_opposite
  refine ⟨(represents_of_side store₄ p.side hother ?_ ?_).logged _, ?_⟩
  · rw [hside₄]
    exact h₁.index
  · have hopposite : b₁.side p.side.opposite = b.side p.side.opposite := by
      rw [hframe, side_setSide_opposite]
      cases p.side <;> rfl
    rw [hside₄, hopposite]
    exact h.index p.side.opposite
  · refine ⟨?_, ?_, ?_⟩
    · rw [hframe₄, h₂.frame, hframe]
      simp [logged]
    · rw [logged, hframe₄, h₂.frame, hframe]
      exact setSide_inPublicEntry
    · rw [logged, hframe₄, h₂.frame, hframe]
      exact setSide_ownerThread

theorem cancelOrderImpl_spec (h : Represents env g b L) (id : Nat) :
    (b.cancelOrderImpl env id).Returns (fun (reason, b') =>
      reason = (L.cancel g id).reply.reason ∧ Follows env g b b' (L.cancel g id)) := by
  simp only [cancelOrderImpl, record_eq, recordReason_eq, logged_logged]
  have h₀ := h.logged [⟨.OrderSubmitted, id, 0, 0, Side.Buy.toByte, 0⟩]
  have hkept := Kept.logged env b [⟨.OrderSubmitted, id, 0, 0, Side.Buy.toByte, 0⟩]
  have hmax : (b.logged env [⟨.OrderSubmitted, id, 0, 0, Side.Buy.toByte, 0⟩]).maxOrderId =
      g.maxOrderId := h₀.store.maxOrderId
  rw [hmax]
  unfold Ledger.cancel
  by_cases hbounds : id = 0 ∨ id > g.maxOrderId
  · rw [if_pos hbounds, if_pos hbounds]
    exact ⟨rfl, Follows.refuse h _ _⟩
  · rw [if_neg hbounds, if_neg hbounds]
    have hid : id ≤ g.maxOrderId := by omega
    rw [vecRead_eq (h₀.store.orderMap_eq hid), ok_bind]
    cases hfind : L.find g id with
    | none =>
        rw [Option.map_none, Option.getD_none, if_pos rfl]
        exact ⟨rfl, Follows.refuse h _ _⟩
    | some p =>
        obtain ⟨hp, rfl⟩ := (Ledger.find_eq_some_iff h.wellFormed).mp hfind
        rw [Option.map_some, Option.getD_some, if_neg (h.store.slot_ne_invalid hp)]
        refine (cancelResting_spec h₀ hp).mono ?_
        rintro ⟨reason, b'⟩ ⟨hreason, hrep, hkept'⟩
        exact ⟨hreason, hrep, hkept.trans hkept', fun hne => absurd rfl hne⟩

end OrderBook

end Hft
