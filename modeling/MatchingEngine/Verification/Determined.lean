import MatchingEngine.Verification.Observation

/-!
# A ledger determines the book

Books of any two builds that represent one ledger are equal up to what the ledger
does not speak about: the journal, the instrumentation, and the payload of free
slots.
-/

namespace Hft

open Machine Machine.Checked

namespace MemoryPool

variable {p : MemoryPool} {free : List Nat} {start fuel : Nat}

def freeFrom (p : MemoryPool) : (fuel : Nat) → (idx : Nat) → Checked (List Nat)
  | 0, _ => .error .unfinished
  | fuel + 1, idx =>
      if idx = INVALID_INDEX then .ok []
      else do
        let slot ← vecRead p.pool idx
        let slots ← freeFrom p fuel slot.next
        return idx :: slots

/-- The free list, from its head. -/
def freeList (p : MemoryPool) : Checked (List Nat) := p.freeFrom (p.capacity + 1) p.freeHead

theorem freeFrom_eq (hpath : Path (nextOf p.pool) start free INVALID_INDEX)
    (hvalid : ∀ s ∈ free, s ≠ INVALID_INDEX) (hfuel : free.length < fuel) :
    p.freeFrom fuel start = .ok free := by
  induction free generalizing start fuel with
  | nil =>
      obtain ⟨fuel, rfl⟩ := Nat.exists_eq_add_one.mpr hfuel
      exact if_pos hpath
  | cons s free ih =>
      obtain ⟨fuel, rfl⟩ := Nat.exists_eq_add_one.mpr (Nat.zero_lt_of_lt hfuel)
      obtain ⟨rfl, next, hnext, hrest⟩ := hpath
      obtain ⟨o, ho, rfl⟩ := Option.map_eq_some_iff.mp hnext
      rw [freeFrom, if_neg (hvalid start List.mem_cons_self), vecRead_eq ho, ok_bind,
        ih hrest (fun t ht => hvalid t (List.mem_cons_of_mem start ht))
          (Nat.lt_of_succ_lt_succ hfuel)]
      rfl

theorem Links.freeList_eq (h : p.Links free) : p.freeList = .ok free := by
  refine freeFrom_eq h.path (fun s hs => ?_) ?_
  · exact Nat.ne_of_lt (h.lt_invalid (h.bound s hs))
  · exact Nat.lt_succ_of_le (length_le_of_nodup h.nodup h.bound)

end MemoryPool

namespace Ledger

/-- The orders at rest do not depend on which slots are free. -/
theorem resting_congr {g : Geometry} {L M : Ledger} (same : M.queue = L.queue) :
    M.resting g = L.resting g := by
  unfold Ledger.resting Ledger.onSide Ledger.placed
  rw [same]

/-- The same queues leave the same slots free. -/
theorem WellFormed.free_congr {g : Geometry} {L M : Ledger} (h : L.WellFormed g)
    (h' : M.WellFormed g) (same : M.queue = L.queue) : M.free.Perm L.free := by
  have hslots := h'.slots.trans h.slots.symm
  rw [resting_congr same] at hslots
  exact (List.perm_append_left_iff _).mp hslots

end Ledger

namespace OrderBook

variable {env env' : Env} {g : Geometry} {b b' : OrderBook} {L M : Ledger} {side : Side}

/-- Books that differ at most in journal, instrumentation and the payload of free slots. -/
structure Agree (b b' : OrderBook) : Prop where
  bids : b'.bids = b.bids
  asks : b'.asks = b.asks
  minPrice : b'.minPrice = b.minPrice
  maxPrice : b'.maxPrice = b.maxPrice
  maxOrderId : b'.maxOrderId = b.maxOrderId
  orderMap : b'.orderMap = b.orderMap
  activeCount : b'.activeCount = b.activeCount
  capacity : b'.orderPool.capacity = b.orderPool.capacity
  freeHead : b'.orderPool.freeHead = b.orderPool.freeHead
  slots : ∃ free, b.orderPool.freeList = .ok free ∧ b'.orderPool.freeList = .ok free ∧
    ∀ i, i ∉ free → b'.orderPool.pool[i]? = b.orderPool.pool[i]?

theorem Agree.side_eq (h : Agree b b') (side : Side) : b'.side side = b.side side := by
  cases side
  · exact h.bids
  · exact h.asks

theorem Store.levels_eq (store : Store env g b L) (store' : Store env' g b' M)
    (same : M.queue = L.queue) (side : Side) :
    (b'.side side).levels = (b.side side).levels := by
  refine Array.ext (by rw [store.levelsSize, store'.levelsSize]) (fun i hi' hi => ?_)
  rw [store.levelsSize] at hi
  obtain ⟨level, hlevel, hrep⟩ := store.level side i hi
  obtain ⟨level', hlevel', hrep'⟩ := store'.level side i hi
  rw [same] at hrep'
  obtain ⟨_, rfl⟩ := Array.getElem?_eq_some_iff.mp hlevel
  obtain ⟨_, rfl⟩ := Array.getElem?_eq_some_iff.mp hlevel'
  exact PriceLevel.Represents.unique hrep' hrep

theorem Represents.side_eq (h : Represents env g b L) (h' : Represents env' g b' M)
    (same : M.queue = L.queue) (side : Side) : b'.side side = b.side side := by
  have hlevels := h.store.levels_eq h'.store same side
  have hindex := h.index side
  have hindex' := h'.index side
  have hocc : M.occupied side = L.occupied side :=
    Ledger.occupied_congr (fun i => by rw [same])
  rw [hocc, Ledger.best_congr hocc] at hindex'
  obtain ⟨hbitset, hsummary⟩ := hindex'.tiers.unique hindex.tiers
    (hindex'.bitsetSize.trans hindex.bitsetSize.symm)
    (hindex'.summarySize.trans hindex.summarySize.symm)
  have hbest := hindex'.best.trans hindex.best.symm
  have hbestIdx := hindex'.bestIdx.trans hindex.bestIdx.symm
  have hhas := hindex'.has.trans hindex.has.symm
  generalize b.side side = s at *
  generalize b'.side side = s' at *
  cases s
  cases s'
  simp_all

theorem Store.orderMap_congr (store : Store env g b L) (store' : Store env' g b' M)
    (same : M.queue = L.queue) : b'.orderMap = b.orderMap := by
  refine Array.ext (by rw [store.mapSize, store'.mapSize]) (fun id hid' hid => ?_)
  have hle : id ≤ g.maxOrderId := by
    rw [store.mapSize] at hid
    omega
  have hfind : M.find g id = L.find g id := by
    rw [Ledger.find, Ledger.find, Ledger.resting_congr same]
  have heq := (store'.orderMap_eq hle).trans (hfind ▸ store.orderMap_eq hle).symm
  rwa [Array.getElem?_eq_getElem hid, Array.getElem?_eq_getElem hid', Option.some.injEq] at heq

/-- A slot that is not free holds an order at rest, with links that the queue determines. -/
theorem Store.slot_eq (store : Store env g b L) (store' : Store env' g b' M)
    (same : M.queue = L.queue) {i : Nat} (hi : i ∉ L.free) :
    b'.orderPool.pool[i]? = b.orderPool.pool[i]? := by
  by_cases hlt : i < g.capacity
  · have hmem : i ∈ (L.resting g).map (·.order.slot) := by
      have := store.wellFormed.slots.mem_iff.mpr (List.mem_range.mpr hlt)
      exact (List.mem_append.mp this).resolve_right hi
    obtain ⟨p, hp, rfl⟩ := List.mem_map.mp hmem
    obtain ⟨hindex, hqueue⟩ := Ledger.mem_resting.mp hp
    obtain ⟨o, ho, -, hw, hid, hprice, hquantity, hside⟩ := store.order_eq hp
    obtain ⟨o', ho', -, hw', hid', hprice', hquantity', hside'⟩ :=
      store'.order_eq (Ledger.resting_congr same ▸ hp)
    obtain ⟨level, -, hrep⟩ := store.level p.side p.index hindex
    obtain ⟨level', -, hrep'⟩ := store'.level p.side p.index hindex
    rw [same] at hrep'
    have hslot : p.order.slot ∈ (L.queue p.side p.index).map Resting.slot :=
      List.mem_map_of_mem hqueue
    have hnext := hrep.queue.forward.links_eq hrep'.queue.forward _ hslot
    have hprev := hrep.queue.backward.links_eq hrep'.queue.backward _ (List.mem_reverse.mpr hslot)
    rw [nextOf_eq ho, nextOf_eq ho', Option.some.injEq] at hnext
    rw [prevOf_eq ho, prevOf_eq ho', Option.some.injEq] at hprev
    rw [ho, ho', Option.some.injEq]
    cases o
    cases o'
    simp_all
  · have hsize := store.pool.size.trans store.capacity
    have hsize' := store'.pool.size.trans store'.capacity
    rw [Array.getElem?_eq_none (by omega), Array.getElem?_eq_none (by omega)]

/-- Two books whose free lists are `free` and `free'`, the same slots in some order,
and which otherwise differ at most in journal, instrumentation and the payload of
free slots. -/
structure Interchangeable (env : Env) (b b' : OrderBook) (free free' : List Nat) : Prop where
  bids : b'.bids = b.bids
  asks : b'.asks = b.asks
  orderMap : b'.orderMap = b.orderMap
  activeCount : b'.activeCount = b.activeCount
  capacity : b'.orderPool.capacity = b.orderPool.capacity
  freeList : b.orderPool.freeList = .ok free
  freeList' : b'.orderPool.freeList = .ok free'
  perm : free'.Perm free
  live : ∀ s, s ∉ free → b'.orderPool.pool[s]? = b.orderPool.pool[s]?
  stamps : env.debugTools = true → ∀ s < b.orderPool.capacity,
    b'.orderPool.isStampedLive s = b.orderPool.isStampedLive s

theorem Store.interchangeable (store : Store env g b L) (store' : Store env g b' M)
    (same : M.queue = L.queue) (side : ∀ side, b'.side side = b.side side) :
    Interchangeable env b b' L.free M.free := by
  have hperm := store.wellFormed.free_congr store'.wellFormed same
  have hcapacity := store'.capacity.trans store.capacity.symm
  exact {
    bids := side .Buy
    asks := side .Sell
    orderMap := store.orderMap_congr store' same
    activeCount := by rw [store.active, store'.active, Ledger.resting_congr same]
    capacity := hcapacity
    freeList := store.pool.freeList_eq
    freeList' := store'.pool.freeList_eq
    perm := hperm
    live := fun s hs => store.slot_eq store' same hs
    stamps := by
      intro htools s hs
      rw [(store.pool.stamps htools).isStampedLive hs,
        (store'.pool.stamps htools).isStampedLive (hcapacity ▸ hs)]
      simp only [hperm.mem_iff] }

theorem Represents.agree (h : Represents env g b L) (h' : Represents env' g b' L) :
    Agree b b' where
  bids := h.side_eq h' rfl .Buy
  asks := h.side_eq h' rfl .Sell
  minPrice := h'.store.minPrice.trans h.store.minPrice.symm
  maxPrice := h'.store.maxPrice.trans h.store.maxPrice.symm
  maxOrderId := h'.store.maxOrderId.trans h.store.maxOrderId.symm
  orderMap := h.store.orderMap_congr h'.store rfl
  activeCount := h'.store.active.trans h.store.active.symm
  capacity := h'.store.capacity.trans h.store.capacity.symm
  freeHead := h'.store.pool.freeHead_eq.trans h.store.pool.freeHead_eq.symm
  slots := ⟨L.free, h.store.pool.freeList_eq, h'.store.pool.freeList_eq,
    fun _ hi => h.store.slot_eq h'.store rfl hi⟩

end OrderBook

end Hft
