import MatchingEngine.Engine.Entry

/-!
# The reference book

`StdOrderBook`, the book on `std::map`, `std::list` and `std::unordered_map` the engine
is compared with. A list iterator is the address of a node; `nodes` holds the nodes of
all lists by address, so that an iterator to an erased node is one without a node.
Addresses are taken from a counter. No behaviour depends on their values.

The two copies of the matching code, one per side, are one definition here.
-/

namespace Hft

open Machine

/-- The comparators: `std::greater` orders the bids, `std::less` the asks. -/
def priceOrder : Side → Nat → Nat → Ordering
  | .Buy => fun p q => compare q p
  | .Sell => compare

instance (side : Side) : Std.TransCmp (priceOrder side) := by
  cases side
  · exact inferInstanceAs (Std.TransCmp fun p q : Nat => compare q p)
  · exact inferInstanceAs (Std.TransCmp fun p q : Nat => compare p q)

instance (side : Side) : Std.LawfulEqCmp (priceOrder side) := by
  cases side
  · exact inferInstanceAs (Std.LawfulEqCmp fun p q : Nat => compare q p)
  · exact inferInstanceAs (Std.LawfulEqCmp fun p q : Nat => compare p q)

/-- One side: a list of orders for each price, as the addresses of its nodes. -/
abbrev Levels (side : Side) := Std.TreeMap Nat (List Nat) (priceOrder side)

structure StdOrder where
  id : Nat
  price : Nat
  quantity : Nat
  side : Side
  type : OrderType
  timestamp : Nat
  deriving DecidableEq, Repr

structure StdOrderBook where
  bids : Levels .Buy
  asks : Levels .Sell
  nodes : Std.HashMap Nat StdOrder
  nextNode : Nat
  orderMap : Std.HashMap Nat Nat
  sideMap : Std.HashMap Nat Side
  minPrice : Nat
  maxPrice : Nat
  maxOrderId : Nat
  maxActiveOrders : Nat
  liveCount : Nat
  nextTimestamp : Nat

namespace StdOrderBook

def construct (args : Args) : StdOrderBook where
  bids := ∅
  asks := ∅
  nodes := ∅
  nextNode := 0
  orderMap := ∅
  sideMap := ∅
  minPrice := args.minPrice.toNat
  maxPrice := args.maxPrice.toNat
  maxOrderId := args.maxOrderId.toNat
  maxActiveOrders := args.maxActiveOrders.toNat
  liveCount := 0
  nextTimestamp := 0

def levels (s : StdOrderBook) : (side : Side) → Levels side
  | .Buy => s.bids
  | .Sell => s.asks

def setLevels (s : StdOrderBook) : (side : Side) → Levels side → StdOrderBook
  | .Buy, bids => { s with bids }
  | .Sell, asks => { s with asks }

/-- Dereference a list iterator. -/
def deref (s : StdOrderBook) (it : Nat) : Checked StdOrder :=
  match s.nodes[it]? with
  | some order => .ok order
  | none => .error (.indeterminate it)

/-- `order_map_.erase(id); side_map_.erase(id)`. -/
def forget (s : StdOrderBook) (id : Nat) : StdOrderBook :=
  { s with orderMap := s.orderMap.erase id, sideMap := s.sideMap.erase id }

/-- What is left of a level goes back to its price; an empty level is erased. -/
def putLevel (s : StdOrderBook) (side : Side) (price : Nat) (level : List Nat) : StdOrderBook :=
  if level.isEmpty then s.setLevels side ((s.levels side).erase price)
  else s.setLevels side ((s.levels side).insert price level)

/-- The walk of one level from an iterator. Returns the trades, what is left of the level
and of the taker's quantity. -/
def fillLevel (taker : Nat) : (level : List Nat) → (quantity : Nat) → StdOrderBook →
    Checked (List Trade × List Nat × Nat × StdOrderBook)
  | [], quantity, s => .ok ([], [], quantity, s)
  | it :: level, quantity, s =>
      if quantity = 0 then .ok ([], it :: level, quantity, s)
      else do
        let maker ← s.deref it
        let tradeQty := min quantity maker.quantity
        let trade : Trade := ⟨maker.id, taker, maker.price, tradeQty⟩
        let quantity ← checkedSub quantity tradeQty
        let makerQty ← checkedSub maker.quantity tradeQty
        if makerQty = 0 then do
          let s := s.forget maker.id
          let liveCount ← checkedSub s.liveCount 1
          let (trades, level, quantity, s) ←
            fillLevel taker level quantity { s with nodes := s.nodes.erase it, liveCount }
          return (trade :: trades, level, quantity, s)
        else do
          let nodes := s.nodes.insert it { maker with quantity := makerQty }
          let (trades, level, quantity, s) ← fillLevel taker level quantity { s with nodes }
          return (trade :: trades, it :: level, quantity, s)

/-- The walk over the opposite levels, best first. -/
def sweep (side : Side) (taker takerPrice : Nat) : (fuel : Nat) → (quantity : Nat) →
    StdOrderBook → Checked (List Trade × Nat × StdOrderBook)
  | 0, _, _ => .error .unfinished
  | fuel + 1, quantity, s =>
      if quantity = 0 then .ok ([], quantity, s)
      else
        match (s.levels side.opposite).minKey? with
        | none => .ok ([], quantity, s)
        | some best =>
            if Exec.crosses side takerPrice best then do
              let level := (s.levels side.opposite).getD best []
              let (trades, level, quantity, s) ← fillLevel taker level quantity s
              let (others, quantity, s) ←
                sweep side taker takerPrice fuel quantity (s.putLevel side.opposite best level)
              return (trades ++ others, quantity, s)
            else .ok ([], quantity, s)

/-- `level[price].push_back(order)`, and the entries of both maps. -/
def pushBack (s : StdOrderBook) (order : StdOrder) : Checked StdOrderBook := do
  let it := s.nextNode
  let level := (s.levels order.side).getD order.price [] ++ [it]
  let s := s.setLevels order.side ((s.levels order.side).insert order.price level)
  let liveCount ← checkedAdd 64 s.liveCount 1
  return { s with
    nodes := s.nodes.insert it order
    nextNode := it + 1
    orderMap := s.orderMap.insert order.id it
    sideMap := s.sideMap.insert order.id order.side
    liveCount }

def cancelOrder (s : StdOrderBook) (id : Nat) : Checked (RejectReason × StdOrderBook) :=
  match s.orderMap[id]? with
  | none => .ok (.CancelFailed, s)
  | some it => do
      let order ← s.deref it
      let price := order.price
      match s.sideMap[id]? with
      | none => .ok (.CancelFailed, s)
      | some side =>
          let s :=
            match (s.levels side)[price]? with
            | some level =>
                { s.putLevel side price (level.erase it) with nodes := s.nodes.erase it }
            | none => s
          let s := s.forget id
          let liveCount ← checkedSub s.liveCount 1
          return (.Accepted, { s with liveCount })

/-- Match, then append or discard what is left. `filled_out` is zero from the start, and is
not set where no room is left. -/
def executeOrder (s : StdOrderBook) (id : Nat) (type : OrderType) (price quantity : Nat)
    (side : Side) : Checked (Reply × StdOrderBook) := do
  let order : StdOrder :=
    { id, price := OrderBook.resolvePrice type side price, quantity, side, type
      timestamp := s.nextTimestamp }
  let s := { s with nextTimestamp := (s.nextTimestamp + 1) % 2 ^ 64 }
  let (trades, left, s) ←
    sweep side id order.price ((s.levels side.opposite).size + 1) order.quantity s
  if left > 0 ∧ type = .Limit then do
    let wanted ← checkedAdd 64 s.liveCount 1
    if wanted > s.maxActiveOrders then return (⟨.PoolExhausted, 0, trades⟩, s)
    else do
      let s ← s.pushBack { order with quantity := left }
      let filled ← checkedSub quantity left
      return (⟨.Accepted, filled, trades⟩, s)
  else do
    let filled ← checkedSub quantity left
    return (⟨.Accepted, filled, trades⟩, s)

def addOrder (s : StdOrderBook) (id : Nat) (type : OrderType) (price quantity : Nat)
    (side : Side) : Checked (Reply × StdOrderBook) :=
  if type = .Cancel then do
    let (reason, s) ← s.cancelOrder id
    return (⟨reason, 0, []⟩, s)
  else if quantity = 0 then .ok (⟨.InvalidQuantity, 0, []⟩, s)
  else if id = 0 ∨ id > s.maxOrderId then .ok (⟨.OutOfBoundsOrderId, 0, []⟩, s)
  else if s.orderMap.contains id then .ok (⟨.DuplicateOrderId, 0, []⟩, s)
  else if type = .Limit ∧ (price < s.minPrice ∨ price > s.maxPrice) then
    .ok (⟨.OutOfBoundsPrice, 0, []⟩, s)
  else if type = .Market ∧ (s.levels side.opposite).isEmpty then
    .ok (⟨.MarketOnEmptyBook, 0, []⟩, s)
  else s.executeOrder id type price quantity side

/-! ## Introspection -/

def activeOrderCount (s : StdOrderBook) : Nat := s.liveCount

def orderExists (s : StdOrderBook) (id : Nat) : Bool := s.orderMap.contains id

def sideMapSize (s : StdOrderBook) : Nat := s.sideMap.size

def priceLevelCount (s : StdOrderBook) (side : Side) : Nat := (s.levels side).size

/-- Ids and quantities of the list at a price, front first. -/
def queue (s : StdOrderBook) (side : Side) (price : Nat) : Checked (List (Nat × Nat)) := do
  let orders ← ((s.levels side).getD price []).mapM s.deref
  return orders.map (fun order => (order.id, order.quantity))

def step (s : StdOrderBook) : Call → Checked (Reply × StdOrderBook)
  | .addOrder id type price quantity side =>
      s.addOrder id.toNat type price.toNat quantity.toNat side
  | .cancelOrder id => do
      let (reason, s) ← s.cancelOrder id.toNat
      return (⟨reason, 0, []⟩, s)

end StdOrderBook

end Hft
