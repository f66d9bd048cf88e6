import MatchingEngine.Engine.Matching
import MatchingEngine.Machine.Runs

/-!
# The public calls

`addOrder` and `cancelOrder` with their validation, posting and journal sites,
behind the gate and the latch of the instrumented build. A call returns its
reject reason and what it stores through `filled_out`, which every path of
`add_order` writes.

A client is modelled by the calls it makes, in order. Its callback keeps the
trades it is given, so any callback that makes no call of its own is a function
of what is recorded here.
-/

namespace Hft

open Machine

namespace OrderBook

/-- `detail::book_fault`: returns only when the handler asks to skip the call. -/
def bookFault (env : Env) (message : String) : Checked FaultAction :=
  match env.bookHandler with
  | some handler =>
      if handler message = .SkipOperation then .ok .SkipOperation else .error (.abort message)
  | none => .error (.abort message)

/-- The thread contract, then the re-entrancy contract. -/
def debugEntryGate (env : Env) (b : OrderBook) (entryPoint : String) : Checked Bool := do
  let foreign ← (
    if env.thisThread ≠ b.ownerThread then do
      let action ← bookFault env ("OrderBook thread-contract violation: " ++ entryPoint ++
        " called from a foreign thread")
      pure (action == .SkipOperation)
    else pure false)
  if foreign then return false
  else do
    let nested ← (
      if b.inPublicEntry then do
        let action ← bookFault env ("OrderBook re-entrancy violation: " ++ entryPoint ++
          " called from inside a trade callback")
        pure (action == .SkipOperation)
      else pure false)
    return !nested

/-- Take an order out of the queue of its level. A level that became empty loses
its bit, and a side that lost its best level is searched for the next one. -/
def removeFromLevel (b : OrderBook) (side : Side) (bitIdx orderIdx price : Nat) :
    Checked OrderBook := do
  let level ← b.level side bitIdx
  let (level, pool) ← level.removeOrder orderIdx b.orderPool.pool
  let b := { b with orderPool := { b.orderPool with pool } }
  let b ← b.setLevel side bitIdx level
  if level.isEmpty then do
    let b ← b.clearLevelBit side bitIdx
    if (b.side side).has && (b.side side).best == price then b.updateBestAfterRemove side price
    else return b
  else return b

/-- The enumerator with a given `uint8_t` value; anything but Buy takes the else. -/
def sideOfByte (byte : Nat) : Side := if byte = Side.Buy.toByte then .Buy else .Sell

def cancelOrderImpl (env : Env) (b : OrderBook) (id : Nat) : Checked (RejectReason × OrderBook) :=
  let b := b.record env .OrderSubmitted id 0 0 Side.Buy.toByte
  if id = 0 ∨ id > b.maxOrderId then
    .ok (.OutOfBoundsOrderId,
      b.recordReason env .OrderRejected id 0 0 Side.Buy.toByte .OutOfBoundsOrderId)
  else do
    let orderIdx ← vecRead b.orderMap id
    if orderIdx = INVALID_INDEX then
      return (.CancelFailed, b.recordReason env .OrderRejected id 0 0 Side.Buy.toByte .CancelFailed)
    else do
      b.prefetchAhead id
      let order ← b.order orderIdx
      let price := order.price
      let side := order.side
      let bitIdx ← checkedSub price b.minPrice
      let b ← b.removeFromLevel (sideOfByte order.side) bitIdx orderIdx price
      let b ← b.forgetOrder id orderIdx
      let b ← b.deallocate env orderIdx
      let activeCount ← checkedSub b.activeCount 1
      let b := { b with activeCount }
      return (.Accepted, b.record env .OrderCancelled id price 0 side)

/-- An order posted at `price` becomes the best of its side. -/
def improves (b : OrderBook) (side : Side) (price : Nat) : Bool :=
  match side with
  | .Buy => !b.bids.has || decide (price > b.bids.best)
  | .Sell => !b.asks.has || decide (price < b.asks.best)

def bestChanged : Side → JournalEvent
  | .Buy => .BestBidChanged
  | .Sell => .BestAskChanged

/-- Bit, best price and journal of an order that has joined its queue. -/
def announce (env : Env) (b : OrderBook) (side : Side)
    (id resolvedPrice remainingQty orderIdx bitIdx : Nat) (wasEmpty : Bool) :
    Checked OrderBook := do
  let b ← (if wasEmpty then b.setLevelBit side bitIdx else pure b)
  let order ← b.order orderIdx
  let b :=
    if b.improves side order.price then
      let b := b.setSide side
        { b.side side with best := order.price, bestIdx := bitIdx, has := true }
      b.record env (bestChanged side) 0 order.price 0 side.toByte
    else b
  return b.record env .OrderRested id resolvedPrice remainingQty side.toByte

/-- Post the remainder of a Limit order, or report that the pool has no slot. -/
def postOrder (env : Env) (b : OrderBook) (side : Side) (id resolvedPrice remainingQty : Nat) :
    Checked (RejectReason × OrderBook) := do
  let (orderIdx, orderPool) ← b.orderPool.allocate env
  let b := { b with orderPool }
  if orderIdx = INVALID_INDEX then
    return (.PoolExhausted, b.record env .PoolExhausted id resolvedPrice remainingQty side.toByte)
  else do
    -- all six members of the slot are assigned
    let b ← b.modifySlot orderIdx (fun _ =>
      { id, price := resolvedPrice, quantity := remainingQty, side := side.toByte
        next := INVALID_INDEX, prev := INVALID_INDEX, written := true })
    let activeCount ← checkedAdd 64 b.activeCount 1
    let b ← { b with activeCount }.setOrderMap id orderIdx
    let order ← b.order orderIdx
    let bitIdx ← checkedSub order.price b.minPrice
    let level ← b.level side bitIdx
    let wasEmpty := level.isEmpty
    let (level, pool) ← level.appendOrder orderIdx b.orderPool.pool
    let b := { b with orderPool := { b.orderPool with pool } }
    let b ← b.setLevel side bitIdx level
    let b ← b.announce env side id resolvedPrice remainingQty orderIdx bitIdx wasEmpty
    return (.Accepted, b)

/-- `type == Market ? (side == Buy ? MARKET_BUY_PRICE : MARKET_SELL_PRICE) : price`. -/
def resolvePrice (type : OrderType) (side : Side) (price : Nat) : Nat :=
  match type, side with
  | .Market, .Buy => MARKET_BUY_PRICE
  | .Market, .Sell => MARKET_SELL_PRICE
  | _, _ => price

theorem resolvePrice_limit (side : Side) (price : Nat) :
    resolvePrice .Limit side price = price := by
  cases side <;> rfl

end OrderBook

namespace Exec

variable {σ α : Type} (env : Env)

/-- A public entry: blocked by the gate, or run with the latch set. -/
def publicEntry (entryPoint : String) (blocked : α)
    (body : Exec σ → Checked (α × Exec σ)) (x : Exec σ) : Checked (α × Exec σ) :=
  if env.debugTools then do
    if ← x.book.debugEntryGate env entryPoint then do
      let (a, x) ← body (x.setBook { x.book with inPublicEntry := true })
      return (a, x.setBook { x.book with inPublicEntry := false })
    else return (blocked, x)
  else body x

def cancelOrder (id : Nat) (x : Exec σ) : Checked (RejectReason × Exec σ) :=
  publicEntry env "cancel_order" .ReentrancyBlocked (fun x => do
    let (reason, b) ← x.book.cancelOrderImpl env id
    return (reason, x.setBook b)) x

/-- A rejected order: its reason is journaled and nothing was filled. -/
def reject (id price quantity : Nat) (side : Side) (reason : RejectReason) (x : Exec σ) :
    (RejectReason × Nat) × Exec σ :=
  ((reason, 0),
    x.setBook (x.book.recordReason env .OrderRejected id price quantity side.toByte reason))

/-- Match, store `filled_out`, then post or discard the remainder. -/
def executeOrder (id : Nat) (type : OrderType) (price quantity : Nat) (side : Side)
    (onTrade : TradeCallback σ) (x : Exec σ) : Checked ((RejectReason × Nat) × Exec σ) := do
  let x := x.setBook (x.book.record env .OrderSubmitted id price quantity side.toByte)
  let resolvedPrice := OrderBook.resolvePrice type side price
  let (x, remainingQty) ← x.matchOrderDirect env side id onTrade resolvedPrice quantity
  let filledOut ← checkedSub quantity remainingQty
  if remainingQty > 0 ∧ type ≠ .Market then do
    let (reason, b) ← x.book.postOrder env side id resolvedPrice remainingQty
    return ((reason, filledOut), x.setBook b)
  else return ((.Accepted, filledOut), x)

/-- The body of `add_order` behind gate and latch. -/
def addOrderImpl (id : Nat) (type : OrderType) (price quantity : Nat) (side : Side)
    (onTrade : TradeCallback σ) (x : Exec σ) : Checked ((RejectReason × Nat) × Exec σ) :=
  if type = .Cancel then do
    let (reason, b) ← x.book.cancelOrderImpl env id
    return ((reason, 0), x.setBook b)
  else if quantity = 0 then
    .ok (reject env id price quantity side .InvalidQuantity x)
  else if id = 0 ∨ id > x.book.maxOrderId then
    .ok (reject env id price quantity side .OutOfBoundsOrderId x)
  else do
    let existing ← vecRead x.book.orderMap id
    if existing ≠ INVALID_INDEX then
      return reject env id price quantity side .DuplicateOrderId x
    else do
      x.book.prefetchAhead id
      if type = .Limit ∧ (price < x.book.minPrice ∨ price > x.book.maxPrice) then
        return reject env id price quantity side .OutOfBoundsPrice x
      else if type = .Market ∧ (x.book.side side.opposite).has = false then
        return reject env id 0 quantity side .MarketOnEmptyBook x
      else executeOrder env id type price quantity side onTrade x

def addOrder (id : Nat) (type : OrderType) (price quantity : Nat) (side : Side)
    (onTrade : TradeCallback σ) (x : Exec σ) : Checked ((RejectReason × Nat) × Exec σ) :=
  publicEntry env "add_order" (.ReentrancyBlocked, 0)
    (addOrderImpl env id type price quantity side onTrade) x

end Exec

/-! ## Runs -/

/-- One public call, with the arguments a caller can pass. -/
inductive Call
  | addOrder (id : UInt32) (type : OrderType) (price quantity : UInt32) (side : Side)
  | cancelOrder (id : UInt32)
  deriving DecidableEq, Repr

/-- What a caller observes of a call: its result, `*filled_out` and its trades. -/
structure Reply where
  reason : RejectReason
  filledOut : Nat
  trades : List Trade
  deriving DecidableEq, Repr

namespace OrderBook

/-- The client's callback: keep the trades in order. -/
def keepTrade (trade : Trade) (trades : List Trade) : List Trade := trades ++ [trade]

def step (env : Env) (b : OrderBook) : Call → Checked (Reply × OrderBook)
  | .addOrder id type price quantity side => do
      let ((reason, filledOut), x) ← Exec.addOrder env id.toNat type price.toNat quantity.toNat
        side (Exec.passive keepTrade) ⟨b, []⟩
      return (⟨reason, filledOut, x.client⟩, x.book)
  | .cancelOrder id => do
      let (reason, x) ← Exec.cancelOrder env id.toNat (⟨b, []⟩ : Exec (List Trade))
      return (⟨reason, 0, x.client⟩, x.book)

def run (env : Env) : OrderBook → List Call → Checked (List Reply × OrderBook) :=
  checkedRuns (step env)

/-- The books a client can bring about. -/
def Reachable (env : Env) (args : Args) (b : OrderBook) : Prop :=
  ∃ b₀ calls replies, construct env args = .ok b₀ ∧ b₀.run env calls = .ok (replies, b)

end OrderBook

end Hft
