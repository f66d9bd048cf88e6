import MatchingEngine.Engine.Entry

/-!
# Consuming a level one order at a time

The procedure the paths of the matching loop are compared with. It repeatedly
takes the order at the head of the level; an order that trades in full leaves its
queue the way a cancelled one does, through `remove_order` and `deallocate`, and
there is no bulk step. It writes no journal.
-/

namespace Hft

open Machine

namespace OrderBook

/-- A maker that traded in full: its map entry, its place in the queue and its slot
go, in this order. -/
def dropPlainly (env : Env) (b : OrderBook) (side : Side) (levelIdx orderIdx : Nat)
    (order : Order) : Checked OrderBook := do
  let b ← b.setOrderMap order.id INVALID_INDEX
  let level ← b.level side levelIdx
  let (level, pool) ← level.removeOrder orderIdx b.orderPool.pool
  let b := { b with orderPool := { b.orderPool with pool } }
  let b ← b.setLevel side levelIdx level
  let b ← b.modifySlot orderIdx (fun o => { o with written := false })
  let b ← b.deallocate env orderIdx
  let activeCount ← checkedSub b.activeCount 1
  return { b with activeCount }

end OrderBook

namespace Exec

variable {σ : Type} (env : Env) (side : Side) (takerId : Nat) (onTrade : TradeCallback σ)

/-- Trade with the head of the level until the level or the taker is exhausted.
Returns the quantity the taker has left. -/
def fillPlainly (levelIdx : Nat) : (fuel : Nat) → (takerQuantity : Nat) → Exec σ →
    Checked (Exec σ × Nat)
  | 0, _, _ => .error .unfinished
  | fuel + 1, takerQuantity, x => do
      let level ← x.book.level side.opposite levelIdx
      if level.isEmpty ∨ takerQuantity = 0 then return (x, takerQuantity)
      else do
        let maker ← x.book.order level.head
        if maker.quantity ≤ takerQuantity then do
          let x ← onTrade ⟨maker.id, takerId, maker.price, maker.quantity⟩ x
          let b ← x.book.dropPlainly env side.opposite levelIdx level.head maker
          fillPlainly levelIdx fuel (takerQuantity - maker.quantity) (x.setBook b)
        else do
          let x ← onTrade ⟨maker.id, takerId, maker.price, takerQuantity⟩ x
          let b ← applyTrade side levelIdx level.head takerQuantity x.book
          return (x.setBook b, 0)

end Exec

end Hft
