import MatchingEngine.Engine.Journal
import MatchingEngine.Engine.MemoryPool
import MatchingEngine.Engine.PriceLevel
import MatchingEngine.Machine.TwoLevel

/-!
# The order book: state, construction and introspection

The members the source keeps once per side (`bids_levels_`, `asks_levels_` and so
on) are grouped in one `BookSide` each. The constructor aborts on arguments it
does not accept, in the order of the source; the pool is a member and is built
before any check.
-/

namespace Hft

open Machine

abbrev kWordBits : Nat := 64
abbrev kTopBitIndex : Nat := 63
abbrev kPrefetchDistance : Nat := 16
def kJournalCapacity : Nat := 2 ^ 14
def kMaxPriceRangeTicks : Nat := 2 ^ 26
def kMaxOrderIds : Nat := 0xFFFFFFFE

/-- One side of the book: its price levels, the two-level bitset of the non-empty
ones, and the cached best price. -/
structure BookSide where
  levels : Array PriceLevel
  bitset : Array Word
  summary : Array Word
  best : Nat
  bestIdx : Nat
  has : Bool
  deriving DecidableEq, Repr

structure OrderBook where
  bids : BookSide
  asks : BookSide
  minPrice : Nat
  maxPrice : Nat
  maxOrderId : Nat
  orderMap : Array Nat
  orderPool : MemoryPool
  activeCount : Nat
  journal : List JournalEntry
  inPublicEntry : Bool
  ownerThread : Nat
  deriving DecidableEq, Repr

/-- The constructor's arguments. -/
structure Args where
  maxOrderId : UInt64
  maxActiveOrders : UInt64
  minPrice : UInt32
  maxPrice : UInt32
  deriving DecidableEq, Repr

namespace OrderBook

def side (b : OrderBook) : Side → BookSide
  | .Buy => b.bids
  | .Sell => b.asks

def setSide (b : OrderBook) (side : Side) (s : BookSide) : OrderBook :=
  match side with
  | .Buy => { b with bids := s }
  | .Sell => { b with asks := s }

/-- A side without orders; `best` and `bestIdx` are its sentinels. -/
def emptySide (priceRange best bestIdx : Nat) : BookSide :=
  let bitsetWords := (priceRange + kWordBits - 1) / kWordBits
  let summaryWords := (bitsetWords + kWordBits - 1) / kWordBits
  { levels := Array.replicate priceRange {}
    bitset := Array.replicate bitsetWords 0
    summary := Array.replicate summaryWords 0
    best, bestIdx, has := false }

def construct (env : Env) (args : Args) : Checked OrderBook := do
  let minPrice := args.minPrice.toNat
  let maxPrice := args.maxPrice.toNat
  let maxOrderId := args.maxOrderId.toNat
  let orderPool ← MemoryPool.construct env args.maxActiveOrders.toNat
  if minPrice > maxPrice then
    .error (.abort s!"OrderBook: fatal - min_price ({minPrice}) > max_price ({maxPrice})")
  else if maxPrice = 2 ^ 32 - 1 then
    .error (.abort ("OrderBook: fatal - max_price saturates the Price type " ++
      "(UINT32_MAX is reserved for the empty-ask sentinel)"))
  else if maxOrderId > kMaxOrderIds then
    let mapMiB := maxOrderId * 4 % 2 ^ 64 / 2 ^ 20
    .error (.abort (s!"OrderBook: fatal - max_order_id ({maxOrderId}) exceeds the uint32 " ++
      s!"id-space cap (0xFFFF'FFFE); order_map would need ~{mapMiB} MB"))
  else do
    let span ← checkedSub maxPrice minPrice
    let priceRange ← checkedAdd 64 span 1
    if priceRange > kMaxPriceRangeTicks then
      let levelsMiB := priceRange * 32 / 2 ^ 20
      .error (.abort (s!"OrderBook: fatal - price range {priceRange} ticks exceeds the " ++
        s!"sanity cap (2^26); refusing to allocate ~{levelsMiB} MB of levels"))
    else do
      let bestAsk ← checkedAdd 32 maxPrice 1
      let bestAskIdx ← checkedSub priceRange 1
      let mapSize ← checkedAdd 64 maxOrderId 1
      return {
        bids := emptySide priceRange 0 0
        asks := emptySide priceRange bestAsk bestAskIdx
        minPrice, maxPrice, maxOrderId
        orderMap := Array.replicate mapSize INVALID_INDEX
        orderPool
        activeCount := 0
        journal := []
        inPublicEntry := false
        ownerThread := env.thisThread }

/-- The convenience overload: the pool has as many slots as there are order ids. -/
def constructMaxOrders (env : Env) (maxOrders : UInt64) (minPrice maxPrice : UInt32) :
    Checked OrderBook :=
  construct env ⟨maxOrders, maxOrders, minPrice, maxPrice⟩

/-! ## Introspection -/

def hasBids (b : OrderBook) : Bool := b.bids.has
def hasAsks (b : OrderBook) : Bool := b.asks.has
def bestBid (b : OrderBook) : Nat := b.bids.best
def bestAsk (b : OrderBook) : Nat := b.asks.best
def activeOrderCount (b : OrderBook) : Nat := b.activeCount

def orderExists (b : OrderBook) (id : Nat) : Checked Bool :=
  if id ≠ 0 ∧ id ≤ b.maxOrderId then do
    let idx ← vecRead b.orderMap id
    return idx != INVALID_INDEX
  else return false

/-- `std::popcount`. -/
def popcount (word : Word) : Nat := (List.range kWordBits).countP (fun k => word.getLsbD k)

def priceLevelCount (b : OrderBook) (side : Side) : Nat :=
  (b.side side).bitset.foldl (fun count word => count + popcount word) 0

def levelOrderCount (b : OrderBook) (side : Side) (price : Nat) : Checked Nat :=
  if price < b.minPrice ∨ price > b.maxPrice then return 0
  else do
    let i ← checkedSub price b.minPrice
    let level ← vecRead (b.side side).levels i
    return level.orderCount

def levelTotalQuantity (b : OrderBook) (side : Side) (price : Nat) : Checked Nat :=
  if price < b.minPrice ∨ price > b.maxPrice then return 0
  else do
    let i ← checkedSub price b.minPrice
    let level ← vecRead (b.side side).levels i
    return level.totalQuantity

/-! ## Access to levels, slots and the journal -/

/-- `HFT_JOURNAL`: a no-op in release builds. -/
def record (env : Env) (b : OrderBook) (event : JournalEvent) (id price quantity side : Nat) :
    OrderBook :=
  if env.debugTools then { b with journal := b.journal ++ [⟨event, id, price, quantity, side, 0⟩] }
  else b

/-- `HFT_JOURNAL_REASON`: additionally records why an order was rejected. -/
def recordReason (env : Env) (b : OrderBook) (event : JournalEvent)
    (id price quantity side : Nat) (reason : RejectReason) : OrderBook :=
  if env.debugTools then
    { b with journal := b.journal ++ [⟨event, id, price, quantity, side, reason.toByte⟩] }
  else b

def level (b : OrderBook) (side : Side) (i : Nat) : Checked PriceLevel :=
  vecRead (b.side side).levels i

def setLevel (b : OrderBook) (side : Side) (i : Nat) (level : PriceLevel) : Checked OrderBook := do
  let levels ← vecWrite (b.side side).levels i level
  return b.setSide side { b.side side with levels }

def order (b : OrderBook) (i : Nat) : Checked Order := readOrder b.orderPool.pool i

def modifySlot (b : OrderBook) (i : Nat) (f : Order → Order) : Checked OrderBook := do
  let pool ← modifyOrder b.orderPool.pool i f
  return { b with orderPool := { b.orderPool with pool } }

def setOrderMap (b : OrderBook) (id idx : Nat) : Checked OrderBook := do
  let orderMap ← vecWrite b.orderMap id idx
  return { b with orderMap }

/-- `order_map_ptr[id] = INVALID_INDEX`: the id no longer leads to its slot. From
here on the payload of the slot is not the book's to read, which the ghost flag
records. -/
def forgetOrder (b : OrderBook) (id idx : Nat) : Checked OrderBook := do
  let b ← b.setOrderMap id INVALID_INDEX
  b.modifySlot idx (fun o => { o with written := false })

def deallocate (env : Env) (b : OrderBook) (i : Nat) : Checked OrderBook := do
  let orderPool ← b.orderPool.deallocate env i
  return { b with orderPool }

/-- `HFT_PREFETCH(&order_map_ptr[pool_data[i].id])`, for a valid index: the id is
read and the address computed, nothing else happens. -/
def prefetchOrderMap (b : OrderBook) (i : Nat) : Checked Unit :=
  if i ≠ INVALID_INDEX then do
    let order ← b.order i
    let _ ← vecRead b.orderMap order.id
    return ()
  else return ()

/-- Prefetch of the map cell a fixed distance ahead of `id`. -/
def prefetchAhead (b : OrderBook) (id : Nat) : Checked Unit := do
  let ahead ← checkedAdd 64 id kPrefetchDistance
  if ahead ≤ b.maxOrderId then do
    let _ ← vecRead b.orderMap ahead
    return ()
  else return ()

end OrderBook

end Hft
