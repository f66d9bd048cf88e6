import MatchingEngine.Engine.BestPrice

/-!
# The matching loop

`matchOrderDirect` consumes the levels of the opposite side from the best price
on. A level the taker can consume whole is taken by the one-order path or by the
bulk path, which frees the queue in one splice; otherwise the partial path walks
the queue. The two sides of the source differ only in the constants given here
as `side` and in their searches for the next best price.

The trade callback is the client's code. It receives the trade and whatever it
can reach, the book included, together with a state of its own.
-/

namespace Hft

open Machine

/-- The book together with the client's own state. -/
structure Exec (σ : Type) where
  book : OrderBook
  client : σ

abbrev TradeCallback (σ : Type) := Trade → Exec σ → Checked (Exec σ)

namespace Exec

variable {σ : Type}

/-- A callback that only updates the client's own state. -/
def passive (f : Trade → σ → σ) : TradeCallback σ :=
  fun trade x => .ok { x with client := f trade x.client }

def setBook (x : Exec σ) (book : OrderBook) : Exec σ := { x with book }

variable (env : Env) (side : Side) (takerId : Nat) (onTrade : TradeCallback σ)

/-- The one-order path: the level holds a single maker, and all of it trades. -/
def fillOneOrder (makerOrderIdx : Nat) (x : Exec σ) : Checked (Exec σ) := do
  let maker ← x.book.order makerOrderIdx
  let x ← onTrade ⟨maker.id, takerId, maker.price, maker.quantity⟩ x
  let maker ← x.book.order makerOrderIdx
  let b := x.book.record env .TradeExecuted takerId maker.price maker.quantity side.toByte
  let b := b.record env .MakerFilled maker.id maker.price 0 side.opposite.toByte
  let b ← b.forgetOrder maker.id makerOrderIdx
  let b ← b.deallocate env makerOrderIdx
  let activeCount ← checkedSub b.activeCount 1
  return x.setBook { b with activeCount }

/-- The loop of the bulk path: every maker of the queue trades in full. -/
def fillEachOrder : (fuel : Nat) → (makerOrderIdx : Nat) → Exec σ → Checked (Exec σ)
  | 0, _, _ => .error .unfinished
  | fuel + 1, makerOrderIdx, x =>
      if makerOrderIdx ≠ INVALID_INDEX then do
        let maker ← x.book.order makerOrderIdx
        let nextMakerIdx := maker.next
        x.book.prefetchOrderMap nextMakerIdx
        let x ← onTrade ⟨maker.id, takerId, maker.price, maker.quantity⟩ x
        let maker ← x.book.order makerOrderIdx
        let b := x.book.record env .TradeExecuted takerId maker.price maker.quantity side.toByte
        let b := b.record env .MakerFilled maker.id maker.price 0 side.opposite.toByte
        let b ← b.forgetOrder maker.id makerOrderIdx
        fillEachOrder fuel nextMakerIdx (x.setBook b)
      else .ok x

/-- The fast path: the taker consumes the whole level at `levelIdx`. -/
def fillLevel (levelIdx : Nat) (takerQuantity : Nat) (x : Exec σ) : Checked (Exec σ × Nat) := do
  let level ← x.book.level side.opposite levelIdx
  let levelQty ← narrow 32 level.totalQuantity
  let makerCount := level.orderCount
  let makerOrderIdx := level.head
  let x ← (
    if level.orderCount = 1 then x.fillOneOrder env side takerId onTrade makerOrderIdx
    else do
      x.book.prefetchOrderMap makerOrderIdx
      let x ← x.fillEachOrder env side takerId onTrade (x.book.orderPool.capacity + 1) makerOrderIdx
      let level ← x.book.level side.opposite levelIdx
      let orderPool ← x.book.orderPool.deallocateChain env level.head level.tail
      let activeCount ← checkedSub x.book.activeCount makerCount
      pure (x.setBook { x.book with orderPool, activeCount }))
  let takerQuantity ← checkedSub takerQuantity levelQty
  let level ← x.book.level side.opposite levelIdx
  let b ← x.book.setLevel side.opposite levelIdx
    { level with head := INVALID_INDEX, tail := INVALID_INDEX, totalQuantity := 0, orderCount := 0 }
  return (x.setBook b, takerQuantity)

/-- `maker_order.quantity -= trade_qty; level.total_quantity -= trade_qty`. -/
def applyTrade (levelIdx makerOrderIdx tradeQty : Nat) (b : OrderBook) : Checked OrderBook := do
  let maker ← b.order makerOrderIdx
  let quantity ← checkedSub maker.quantity tradeQty
  let b ← b.modifySlot makerOrderIdx (fun o => { o with quantity })
  let level ← b.level side.opposite levelIdx
  let totalQuantity ← checkedSub level.totalQuantity tradeQty
  b.setLevel side.opposite levelIdx { level with totalQuantity }

/-- The maker at the head of the level has been consumed: it leaves the book. -/
def dropFilledMaker (levelIdx makerOrderIdx nextMakerIdx : Nat) (maker : Order)
    (b : OrderBook) : Checked OrderBook := do
  let b := b.record env .MakerFilled maker.id maker.price 0 side.opposite.toByte
  let b ← b.forgetOrder maker.id makerOrderIdx
  let b ← b.deallocate env makerOrderIdx
  let level ← b.level side.opposite levelIdx
  let orderCount ← checkedSub level.orderCount 1
  let activeCount ← checkedSub b.activeCount 1
  let b := { b with activeCount }
  let b ← b.setLevel side.opposite levelIdx { level with orderCount, head := nextMakerIdx }
  if nextMakerIdx ≠ INVALID_INDEX then
    b.modifySlot nextMakerIdx (fun o => { o with prev := INVALID_INDEX })
  else return b

/-- The slow path: makers trade until the taker is exhausted. -/
def fillPartially (levelIdx : Nat) : (fuel : Nat) → (makerOrderIdx : Nat) →
    (takerQuantity : Nat) → Exec σ → Checked (Exec σ × Nat)
  | 0, _, _, _ => .error .unfinished
  | fuel + 1, makerOrderIdx, takerQuantity, x =>
      if makerOrderIdx ≠ INVALID_INDEX ∧ takerQuantity > 0 then do
        let maker ← x.book.order makerOrderIdx
        let tradeQty := if takerQuantity < maker.quantity then takerQuantity else maker.quantity
        let x ← onTrade ⟨maker.id, takerId, maker.price, tradeQty⟩ x
        let maker ← x.book.order makerOrderIdx
        let b := x.book.record env .TradeExecuted takerId maker.price tradeQty side.toByte
        let takerQuantity ← checkedSub takerQuantity tradeQty
        let b ← applyTrade side levelIdx makerOrderIdx tradeQty b
        let maker ← b.order makerOrderIdx
        let nextMakerIdx := maker.next
        b.prefetchOrderMap nextMakerIdx
        let b ← (
          if maker.quantity = 0 then
            dropFilledMaker env side levelIdx makerOrderIdx nextMakerIdx maker b
          else pure b)
        fillPartially levelIdx fuel nextMakerIdx takerQuantity (x.setBook b)
      else .ok (x, takerQuantity)

/-- `taker_price >= best_ask_` for a Buy, `taker_price <= best_bid_` for a Sell. -/
def crosses (takerPrice best : Nat) : Bool :=
  match side with
  | .Buy => decide (takerPrice ≥ best)
  | .Sell => decide (takerPrice ≤ best)

/-- One iteration of the matching loop: trade against the best opposite level,
then move the best price on if that emptied it. -/
def matchBestLevel (takerQuantity : Nat) (x : Exec σ) : Checked (Exec σ × Nat) := do
  let levelIdx := (x.book.side side.opposite).bestIdx
  let level ← x.book.level side.opposite levelIdx
  let (x, takerQuantity) ← (
    if takerQuantity ≥ level.totalQuantity then
      x.fillLevel env side takerId onTrade levelIdx takerQuantity
    else do
      x.book.prefetchOrderMap level.head
      fillPartially env side takerId onTrade levelIdx (x.book.orderPool.capacity + 1) level.head
        takerQuantity x)
  let level ← x.book.level side.opposite levelIdx
  if level.isEmpty then do
    let b ← x.book.advanceBest env side.opposite
    return (x.setBook b, takerQuantity)
  else return (x, takerQuantity)

def matchLoop (takerPrice : Nat) : (fuel : Nat) → (takerQuantity : Nat) → Exec σ →
    Checked (Exec σ × Nat)
  | 0, _, _ => .error .unfinished
  | fuel + 1, takerQuantity, x =>
      let s := x.book.side side.opposite
      if s.has ∧ takerQuantity > 0 ∧ crosses side takerPrice s.best then do
        let (x, takerQuantity) ← x.matchBestLevel env side takerId onTrade takerQuantity
        matchLoop takerPrice fuel takerQuantity x
      else .ok (x, takerQuantity)

/-- Match a taker against the opposite side. Returns the quantity left over. -/
def matchOrderDirect (takerPrice takerQuantity : Nat) (x : Exec σ) : Checked (Exec σ × Nat) :=
  matchLoop env side takerId onTrade takerPrice
    ((x.book.side side.opposite).levels.size + 1) takerQuantity x

end Exec

end Hft
