import MatchingEngine.Engine.OrderBook

/-!
# The invariant checker

`validate_book` exists in instrumented builds only. It walks the levels of both
sides, then the order map, looks at the best prices and compares the counters. It
follows the links and ids it finds in the book it is to judge, so a walk takes as
long as the links make it: `fuel` bounds every queue walk, and a computation that
runs out of it has not ended.

The list of violations stands for the lines on the error stream, in their order.
The checker reads slots whoever owns them, so the ghost flag plays no part.
-/

namespace Hft

open Machine

/-- A line of `validate_book`'s report: what is violated, and two numbers. -/
structure Violation where
  what : String
  a : Nat
  b : Nat
  deriving DecidableEq, Repr

/-- A call of `fail`, under the condition that guards it. -/
def failIf (violated : Prop) [Decidable violated] (what : String) (a b : Nat) : List Violation :=
  if violated then [⟨what, a, b⟩] else []

@[simp] theorem failIf_eq_nil {violated : Prop} [Decidable violated] {what : String} {a b : Nat} :
    failIf violated what a b = [] ↔ ¬violated := by
  by_cases h : violated <;> simp [failIf, h]

namespace OrderBook

variable (env : Env) (b : OrderBook)

/-- The checks of a live slot `cur` of a queue, reached from `prv`. -/
def validateSlot (side : Side) (bitIdx : Nat) (level : PriceLevel) (prv cur : Nat) (o : Order) :
    Checked (List Violation) := do
  let nxt := o.next
  let nextLive ← b.orderPool.isAllocated env nxt
  let mapped ← vecRead b.orderMap o.id
  return failIf (o.prev ≠ prv) "intrusive prev link broken at price index" bitIdx cur ++
    failIf (¬nextLive ∧ nxt ≠ INVALID_INDEX)
      "intrusive next link points to a non-live slot" bitIdx nxt ++
    failIf (mapped ≠ cur) "order_map does not back-resolve to the level's slot" o.id cur ++
    failIf (o.price ≠ (b.minPrice + bitIdx) % 2 ^ 32)
      "order price does not match its level index" o.price bitIdx ++
    failIf (o.side ≠ side.toByte) "order side does not match its level side" bitIdx o.side ++
    failIf (nxt = INVALID_INDEX ∧ level.tail ≠ cur)
      "walk end does not match level.tail" cur level.tail

/-- The walk of a queue from `cur`. Returns the violations met, and the quantity and
the number of orders walked. -/
def walkQueue (side : Side) (bitIdx : Nat) (level : PriceLevel) :
    (fuel : Nat) → (prv cur walkedQty walkedCount : Nat) → Checked (List Violation × Nat × Nat)
  | 0, _, _, _, _ => .error .unfinished
  | fuel + 1, prv, cur, walkedQty, walkedCount =>
      if cur = INVALID_INDEX then .ok ([], walkedQty, walkedCount)
      else do
        if ← b.orderPool.isAllocated env cur then do
          let o ← vecRead b.orderPool.pool cur
          let here ← b.validateSlot env side bitIdx level prv cur o
          let (rest, qty, count) ← walkQueue side bitIdx level fuel cur o.next
            ((walkedQty + o.quantity) % 2 ^ 64) ((walkedCount + 1) % 2 ^ 32)
          return (here ++ rest, qty, count)
        else
          return ([⟨"level references a non-live pool slot", bitIdx, cur⟩], walkedQty, walkedCount)

/-- The head of a queue has no predecessor. -/
def validateHead (level : PriceLevel) : Checked (List Violation) := do
  if level.head ≠ INVALID_INDEX ∧ level.head < b.orderPool.capacity then do
    if ← b.orderPool.isAllocated env level.head then do
      let o ← vecRead b.orderPool.pool level.head
      return failIf (o.prev ≠ INVALID_INDEX) "head->prev is not INVALID_INDEX" level.head 0
    else return []
  else return []

/-- The checks of one level. Returns the number of orders walked as well. -/
def validateLevel (fuel : Nat) (side : Side) (bitIdx : Nat) :
    Checked (List Violation × Nat) := do
  let level ← vecRead (b.side side).levels bitIdx
  let (walk, walkedQty, walkedCount) ←
    b.walkQueue env side bitIdx level fuel INVALID_INDEX level.head 0 0
  let head ← b.validateHead env level
  let word ← vecRead (b.side side).bitset (bitIdx / kWordBits)
  let bitSet := word.getLsbD (bitIdx % kWordBits)
  return (
    failIf (level.debugCanary ≠ PRICE_LEVEL_CANARY)
      "level canary corrupted at price index" bitIdx 0 ++
    walk ++ head ++
    failIf (level.totalQuantity ≠ walkedQty)
      "level.total_quantity != walked sum" level.totalQuantity walkedQty ++
    failIf (level.orderCount ≠ walkedCount)
      "level.order_count != walked count" level.orderCount walkedCount ++
    failIf (bitSet ≠ !level.isEmpty)
      "bitset bit does not match level emptiness" bitIdx bitSet.toNat, walkedCount)

/-- The summary bit of one word. -/
def validateWord (side : Side) (w : Nat) : Checked (List Violation) := do
  let summary ← vecRead (b.side side).summary (w / kWordBits)
  let word ← vecRead (b.side side).bitset w
  let sumSet := summary.getLsbD (w % kWordBits)
  return failIf (sumSet ≠ (word != 0)) "summary bit does not match bitset word" w sumSet.toNat

/-- One pass of the walk over the sides, over as many levels as the asks have. -/
def validateSide (fuel : Nat) (side : Side) : Checked (List Violation × Nat) := do
  let levels ← (List.range b.asks.levels.size).mapM (b.validateLevel env fuel side)
  let words ← (List.range (b.side side).bitset.size).mapM (b.validateWord side)
  return (levels.flatMap Prod.fst ++ words.flatten, (levels.map Prod.snd).sum)

/-- One cell of the order map. Returns whether it counts as an entry. -/
def validateEntry (id : Nat) : Checked (List Violation × Nat) := do
  let idx ← vecRead b.orderMap id
  if idx = INVALID_INDEX then return ([], 0)
  else do
    let live ← b.orderPool.isAllocated env idx
    let o ← vecRead b.orderPool.pool idx
    return (failIf (¬live) "order_map entry points to a non-live slot" id idx ++
      failIf (o.id ≠ id) "slot id does not match order_map key" o.id id, 1)

def validateMap : Checked (List Violation × Nat) := do
  let entries ← (List.range' 1 b.maxOrderId).mapM (b.validateEntry env)
  return (entries.flatMap Prod.fst, (entries.map Prod.snd).sum)

/-- The first of the given indices whose level is not empty. -/
def firstOccupied (levels : Array PriceLevel) : List Nat → Checked (Option Nat)
  | [] => .ok none
  | i :: is => do
      let level ← vecRead levels i
      if level.isEmpty then firstOccupied levels is else return some i

/-- The loop over the indices, best first. -/
def scanOrder (side : Side) : List Nat :=
  match side with
  | .Buy => (List.range b.asks.levels.size).reverse
  | .Sell => List.range b.asks.levels.size

def notExtreme : Side → String
  | .Buy => "best_bid_ is not the true maximum"
  | .Sell => "best_ask_ is not the true minimum"

def nothingOccupied : Side → String
  | .Buy => "has_bids_ true but no bid level is non-empty"
  | .Sell => "has_asks_ true but no ask level is non-empty"

def idxOutOfRange : Side → String
  | .Buy => "empty-side best_bid_idx_ out of range"
  | .Sell => "empty-side best_ask_idx_ out of range"

/-- The best price of one side. -/
def validateBest (side : Side) : Checked (List Violation) :=
  let s := b.side side
  if s.has then do
    match ← firstOccupied s.levels (b.scanOrder side) with
    | some i => return failIf (s.best ≠ b.minPrice + i ∨ s.bestIdx ≠ i) (notExtreme side) s.best i
    | none => return [⟨nothingOccupied side, 1, 0⟩]
  else return failIf (s.bestIdx ≥ s.levels.size) (idxOutOfRange side) s.bestIdx s.levels.size

/-- The counters, against what the walks counted. -/
def validateCounts (restingCount mapCount : Nat) : Checked (List Violation) := do
  let p := b.orderPool
  let freeListDepth ← p.freeListDepth
  let free := (p.capacity + (2 ^ 64 - p.liveCount)) % 2 ^ 64
  return failIf (b.activeCount ≠ p.liveCount)
      "active_count_ != pool live count" b.activeCount p.liveCount ++
    failIf (mapCount ≠ p.liveCount)
      "order_map live entries != pool live count" mapCount p.liveCount ++
    failIf (restingCount ≠ p.liveCount)
      "level-walked resting orders != pool live count" restingCount p.liveCount ++
    failIf (freeListDepth ≠ free)
      "pool free-list depth != capacity - live (SIZE_MAX = cycle/wild link)" freeListDepth free

/-- The report of `validate_book`. -/
def violations (fuel : Nat) : Checked (List Violation) := do
  let (bids, bidCount) ← b.validateSide env fuel .Buy
  let (asks, askCount) ← b.validateSide env fuel .Sell
  let (entries, mapCount) ← b.validateMap env
  let bestBid ← b.validateBest .Buy
  let bestAsk ← b.validateBest .Sell
  let counts ← b.validateCounts (bidCount + askCount) mapCount
  return bids ++ asks ++ entries ++ bestBid ++ bestAsk ++ counts

def validateBook (fuel : Nat) : Checked Bool := do
  let violations ← b.violations env fuel
  return violations.isEmpty

end OrderBook

end Hft
