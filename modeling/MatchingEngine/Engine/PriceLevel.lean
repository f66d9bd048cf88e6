import MatchingEngine.Engine.Order

/-!
# Price levels

The FIFO queue of the orders resting at one price, linked through the pool's
slots, with its aggregate counters. The price itself is the level's index.
-/

namespace Hft

open Machine

def PRICE_LEVEL_CANARY : Nat := 0xC0FFEE11

structure PriceLevel where
  head : Nat := INVALID_INDEX
  tail : Nat := INVALID_INDEX
  totalQuantity : Nat := 0
  orderCount : Nat := 0
  debugCanary : Nat := PRICE_LEVEL_CANARY
  deriving DecidableEq, Repr

namespace PriceLevel

def isEmpty (level : PriceLevel) : Bool := level.head == INVALID_INDEX

/-- Append an order to the end of the queue (time priority). -/
def appendOrder (level : PriceLevel) (orderIdx : Nat) (pool : Array Order) :
    Checked (PriceLevel × Array Order) := do
  let (level, pool) ← (
    if level.head ≠ INVALID_INDEX then do
      let pool ← modifyOrder pool orderIdx
        (fun o => { o with prev := level.tail, next := INVALID_INDEX })
      let pool ← modifyOrder pool level.tail (fun o => { o with next := orderIdx })
      pure ({ level with tail := orderIdx }, pool)
    else do
      let pool ← modifyOrder pool orderIdx
        (fun o => { o with prev := INVALID_INDEX, next := INVALID_INDEX })
      pure ({ level with head := orderIdx, tail := orderIdx }, pool))
  let order ← readOrder pool orderIdx
  let totalQuantity ← checkedAdd 64 level.totalQuantity order.quantity
  let orderCount ← checkedAdd 32 level.orderCount 1
  return ({ level with totalQuantity, orderCount }, pool)

/-- Remove an order from anywhere in the queue. -/
def removeOrder (level : PriceLevel) (orderIdx : Nat) (pool : Array Order) :
    Checked (PriceLevel × Array Order) := do
  let order ← readOrder pool orderIdx
  let (level, pool) ← (
    if order.prev ≠ INVALID_INDEX then do
      let pool ← modifyOrder pool order.prev (fun o => { o with next := order.next })
      pure (level, pool)
    else pure ({ level with head := order.next }, pool))
  let order ← readOrder pool orderIdx
  let (level, pool) ← (
    if order.next ≠ INVALID_INDEX then do
      let pool ← modifyOrder pool order.next (fun o => { o with prev := order.prev })
      pure (level, pool)
    else pure ({ level with tail := order.prev }, pool))
  let pool ← modifyOrder pool orderIdx
    (fun o => { o with prev := INVALID_INDEX, next := INVALID_INDEX })
  let order ← readOrder pool orderIdx
  let totalQuantity ← checkedSub level.totalQuantity order.quantity
  let orderCount ← checkedSub level.orderCount 1
  return ({ level with totalQuantity, orderCount }, pool)

end PriceLevel

end Hft
