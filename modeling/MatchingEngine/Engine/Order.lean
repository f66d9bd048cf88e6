import MatchingEngine.Machine.Checked

/-!
# Orders, trades and the surroundings of a call

Ids, prices, quantities and pool indices are `uint32_t` in the source. They are
natural numbers here, and every operation on them is checked: a result that does
not fit its C++ type stops the computation. Public calls take their arguments as
`UInt32`, so nothing outside the range ever enters.

An `Order` is the members of a pool slot. The first one doubles as the link of the
pool's free list; the others, and the bytes behind them, are what the instrumented
pool poisons. The ghost flag `written` records that the book has filled the slot in and has not
given it up since; reading a slot that is not `written` is a fault.
-/

namespace Hft

open Machine Machine.Checked

/-- Sentinel for "no such index". -/
def INVALID_INDEX : Nat := 2 ^ 32 - 1

def MARKET_BUY_PRICE : Nat := 2 ^ 32 - 1
def MARKET_SELL_PRICE : Nat := 0

inductive Side
  | Buy
  | Sell
  deriving DecidableEq, Repr

namespace Side

/-- The value of the enumerator in its `uint8_t` representation. -/
def toByte : Side → Nat
  | .Buy => 0
  | .Sell => 1

def opposite : Side → Side
  | .Buy => .Sell
  | .Sell => .Buy

@[simp] theorem opposite_opposite (s : Side) : s.opposite.opposite = s := by
  cases s <;> rfl

theorem opposite_ne (s : Side) : s.opposite ≠ s := by
  cases s <;> decide

theorem eq_or_eq_opposite (s t : Side) : t = s ∨ t = s.opposite := by
  cases s <;> cases t <;> decide

theorem toByte_inj {s t : Side} (h : s.toByte = t.toByte) : s = t := by
  cases s <;> cases t <;> first | rfl | cases h

end Side

inductive OrderType
  | Limit
  | Market
  | Cancel
  deriving DecidableEq, Repr

inductive RejectReason
  | Accepted
  | InvalidQuantity
  | DuplicateOrderId
  | OutOfBoundsOrderId
  | OutOfBoundsPrice
  | CancelFailed
  | PoolExhausted
  | MarketOnEmptyBook
  | ReentrancyBlocked
  deriving DecidableEq, Repr

/-- The value of the enumerator in its `uint8_t` representation. -/
def RejectReason.toByte : RejectReason → Nat
  | .Accepted => 0
  | .InvalidQuantity => 1
  | .DuplicateOrderId => 2
  | .OutOfBoundsOrderId => 3
  | .OutOfBoundsPrice => 4
  | .CancelFailed => 5
  | .PoolExhausted => 6
  | .MarketOnEmptyBook => 7
  | .ReentrancyBlocked => 8

structure Trade where
  makerId : Nat
  takerId : Nat
  price : Nat
  quantity : Nat
  deriving DecidableEq, Repr

/-- A pool slot. The member `next` is the overlay link while the slot is free. -/
structure Order where
  next : Nat := INVALID_INDEX
  prev : Nat := INVALID_INDEX
  id : Nat := 0
  price : Nat := 0
  quantity : Nat := 0
  side : Nat := Side.Buy.toByte
  written : Bool := false
  deriving DecidableEq, Repr

/-- What a fault handler asks for. -/
inductive FaultAction
  | Abort
  | SkipOperation
  deriving DecidableEq, Repr

/-- A pool fault as the handler and the diagnostic line see it. -/
structure PoolFault where
  message : String
  slotIndex : Nat
  deriving DecidableEq, Repr

/-- What surrounds a call: the build flavour (`HFT_DEBUG_TOOLS`), the installed
fault handlers and the calling thread. -/
structure Env where
  debugTools : Bool
  poolHandler : Option (PoolFault → FaultAction)
  bookHandler : Option (String → FaultAction)
  thisThread : Nat

/-- Links of the pool's slots, as the queues and the free list follow them. -/
def nextOf (pool : Array Order) (i : Nat) : Option Nat := pool[i]?.map Order.next

def prevOf (pool : Array Order) (i : Nat) : Option Nat := pool[i]?.map Order.prev

/-- Read a slot's members through a reference. -/
def readOrder (pool : Array Order) (i : Nat) : Checked Order := do
  let order ← vecRead pool i
  if order.written then return order else throw (.indeterminate i)

/-- Write some of a slot's members through a reference. -/
def modifyOrder (pool : Array Order) (i : Nat) (f : Order → Order) : Checked (Array Order) := do
  let order ← vecRead pool i
  vecWrite pool i (f order)

section Access

variable {pool : Array Order} {i j : Nat} {o : Order} {f : Order → Order}

theorem readOrder_eq (h : pool[i]? = some o) (hw : o.written = true) :
    readOrder pool i = .ok o := by
  simp [readOrder, vecRead_eq h, hw]

theorem modifyOrder_eq (h : pool[i]? = some o) :
    modifyOrder pool i f = .ok (pool.setIfInBounds i (f o)) := by
  simp [modifyOrder, vecRead_eq h, vecWrite_eq (lt_size_of_getElem? h)]

theorem modifyOrder_eq_ok_iff {pool' : Array Order} : modifyOrder pool i f = .ok pool' ↔
    ∃ o, pool[i]? = some o ∧ pool.setIfInBounds i (f o) = pool' := by
  rw [modifyOrder, bind_eq_ok_iff]
  constructor
  · rintro ⟨o, ho, hwrite⟩
    exact ⟨o, vecRead_eq_ok_iff.mp ho, (vecWrite_eq_ok_iff.mp hwrite).2⟩
  · rintro ⟨o, ho, hwrite⟩
    exact ⟨o, vecRead_eq ho, vecWrite_eq_ok_iff.mpr ⟨lt_size_of_getElem? ho, hwrite⟩⟩

theorem getElem?_set_slot (h : pool[i]? = some o) (p : Order) :
    (pool.setIfInBounds i p)[j]? = if j = i then some p else pool[j]? := by
  rw [Array.getElem?_setIfInBounds]
  have hi := lt_size_of_getElem? h
  by_cases hj : j = i
  · simp [hj, hi]
  · simp [hj, Ne.symm hj]

theorem nextOf_eq (h : pool[i]? = some o) : nextOf pool i = some o.next := by
  simp [nextOf, h]

theorem prevOf_eq (h : pool[i]? = some o) : prevOf pool i = some o.prev := by
  simp [prevOf, h]

theorem nextOf_congr {pool' : Array Order} (h : pool'[i]? = pool[i]?) :
    nextOf pool' i = nextOf pool i := by
  simp only [nextOf, h]

theorem prevOf_congr {pool' : Array Order} (h : pool'[i]? = pool[i]?) :
    prevOf pool' i = prevOf pool i := by
  simp only [prevOf, h]

/-- Writing a slot without touching its links. -/
theorem nextOf_set {o' : Order} (ho : pool[i]? = some o) (h : o'.next = o.next) (j : Nat) :
    nextOf (pool.setIfInBounds i o') j = nextOf pool j := by
  rw [nextOf, getElem?_set_slot ho]
  by_cases hj : j = i
  · rw [if_pos hj, hj, nextOf, ho, Option.map_some, Option.map_some, h]
  · rw [if_neg hj, nextOf]

theorem prevOf_set {o' : Order} (ho : pool[i]? = some o) (h : o'.prev = o.prev) (j : Nat) :
    prevOf (pool.setIfInBounds i o') j = prevOf pool j := by
  rw [prevOf, getElem?_set_slot ho]
  by_cases hj : j = i
  · rw [if_pos hj, hj, prevOf, ho, Option.map_some, Option.map_some, h]
  · rw [if_neg hj, prevOf]

end Access

end Hft
