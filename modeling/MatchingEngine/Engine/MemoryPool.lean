import MatchingEngine.Engine.Order

/-!
# The memory pool

A vector of slots with an intrusive free list: the link of a free slot is the
first member of the order stored in it. The instrumented build keeps a flag, a
stamp and a generation counter per slot, verifies them on every free, poisons
the payload, and counts; the release build only relinks. A slot is 24 bytes and
its members are 21: the three bytes behind the last one are kept apart, as
`padding`, since only the poison and its check ever look at them.

A reported fault goes to the installed handler. If there is none, or it does not
ask to skip the operation, the process aborts.
-/

namespace Hft

open Machine

/-- Capacity clamp: `INVALID_INDEX` must stay unused as a slot index. -/
def kMaxPoolCapacity : Nat := 0xFFFFFFFE

/-- The largest `size_t`, which `free_list_depth` answers for a corrupt list. -/
def SIZE_MAX : Nat := 2 ^ 64 - 1

def POISON_BYTE_FREED : Nat := 0xDD
def POISON_BYTE_FRESH : Nat := 0xDE

inductive SlotState
  | Free
  | Live
  deriving DecidableEq, Repr

structure MemoryPool where
  capacity : Nat
  pool : Array Order
  padding : Array Nat
  freeHead : Nat
  allocated : Array Bool
  slotState : Array SlotState
  slotGeneration : Array Nat
  totalAllocs : Nat
  totalFrees : Nat
  liveCount : Nat
  highWater : Nat
  reports : List PoolFault
  deriving DecidableEq, Repr

/-- `poison_payload`, on the members: fill every byte past the four of the overlay link. -/
def Order.poisonPayload (o : Order) (pattern : Nat) : Order :=
  let word := pattern * 0x01010101
  { o with prev := word, id := word, price := word, quantity := word, side := pattern }

@[simp] theorem Order.poisonPayload_next (o : Order) (pattern : Nat) :
    (o.poisonPayload pattern).next = o.next := rfl

/-- `poison_payload`, on the three bytes behind the last member. -/
def poisonPadding (pattern : Nat) : Nat := pattern * 0x010101

namespace MemoryPool

/-- `pool_fault`: returns only when the handler asks to skip the operation. The
list of reports stands for the diagnostic lines on the error stream. -/
def poolFault (env : Env) (p : MemoryPool) (message : String) (slotIndex : Nat) :
    Checked MemoryPool :=
  let fault : PoolFault := ⟨message, slotIndex⟩
  match env.poolHandler with
  | some handler =>
      if handler fault = .SkipOperation then .ok { p with reports := p.reports ++ [fault] }
      else .error (.abort message)
  | none => .error (.abort message)

def setOverlayLink (p : MemoryPool) (i link : Nat) : Checked MemoryPool := do
  let pool ← modifyOrder p.pool i (fun o => { o with next := link })
  return { p with pool }

/-- The constructor's loop: slots are linked from the last to the first. -/
def linkFreeList : (i : Nat) → MemoryPool → Checked MemoryPool
  | 0, p => .ok p
  | i + 1, p => do
      let p ← p.setOverlayLink i p.freeHead
      linkFreeList i { p with freeHead := i }

def construct (env : Env) (maxCapacity : Nat) : Checked MemoryPool :=
  let capacity := if maxCapacity > kMaxPoolCapacity then kMaxPoolCapacity else maxCapacity
  let instrumented := if env.debugTools then capacity else 0
  linkFreeList capacity
    { capacity
      pool := Array.replicate capacity {}
      padding := Array.replicate capacity 0
      freeHead := INVALID_INDEX
      allocated := Array.replicate instrumented false
      slotState := Array.replicate instrumented .Free
      slotGeneration := Array.replicate instrumented 0
      totalAllocs := 0
      totalFrees := 0
      liveCount := 0
      highWater := 0
      reports := [] }

/-- The instrumentation of `allocate`: flag, stamp, generation, counters, and a
value-initialized payload filled with the fresh pattern. -/
def stampLive (p : MemoryPool) (idx : Nat) : Checked MemoryPool := do
  let allocated ← vecWrite p.allocated idx true
  let slotState ← vecWrite p.slotState idx .Live
  let generation ← vecRead p.slotGeneration idx
  let slotGeneration ← vecWrite p.slotGeneration idx ((generation + 1) % 2 ^ 8)
  let totalAllocs := (p.totalAllocs + 1) % 2 ^ 64
  let liveCount ← checkedAdd 64 p.liveCount 1
  let highWater := if liveCount > p.highWater then liveCount else p.highWater
  let fresh : Order := {}
  let pool ← vecWrite p.pool idx (fresh.poisonPayload POISON_BYTE_FRESH)
  let padding := p.padding.setIfInBounds idx (poisonPadding POISON_BYTE_FRESH)
  return { p with
    allocated, slotState, slotGeneration, totalAllocs, liveCount, highWater, pool, padding }

/-- Take a slot from the free list; `INVALID_INDEX` when there is none. -/
def allocate (env : Env) (p : MemoryPool) : Checked (Nat × MemoryPool) :=
  if p.freeHead = INVALID_INDEX then .ok (INVALID_INDEX, p)
  else do
    let idx := p.freeHead
    let obj ← vecRead p.pool idx
    let p := { p with freeHead := obj.next }
    if env.debugTools then do
      let p ← p.stampLive idx
      return (idx, p)
    else return (idx, p)

/-- The slot is currently handed out, by its flag and by its stamp. -/
def isStampedLive (p : MemoryPool) (index : Nat) : Checked Bool := do
  let allocated ← vecRead p.allocated index
  let state ← vecRead p.slotState index
  return allocated && state == .Live

/-- The instrumentation of a free: flag, stamp, counters and poison. -/
def stampFree (p : MemoryPool) (index : Nat) : Checked MemoryPool := do
  let allocated ← vecWrite p.allocated index false
  let slotState ← vecWrite p.slotState index .Free
  let totalFrees := (p.totalFrees + 1) % 2 ^ 64
  let liveCount ← checkedSub p.liveCount 1
  let pool ← modifyOrder p.pool index (fun o => o.poisonPayload POISON_BYTE_FREED)
  let padding := p.padding.setIfInBounds index (poisonPadding POISON_BYTE_FREED)
  return { p with allocated, slotState, totalFrees, liveCount, pool, padding }

/-- The slot heads the free list. -/
def pushFree (p : MemoryPool) (linked head : Nat) : Checked MemoryPool := do
  let p ← p.setOverlayLink linked p.freeHead
  return { p with freeHead := head }

def deallocate (env : Env) (p : MemoryPool) (index : Nat) : Checked MemoryPool :=
  if env.debugTools then
    if index ≥ p.capacity then
      poolFault env p "MemoryPool::deallocate: index does not belong to this pool" index
    else do
      if ← p.isStampedLive index then do
        let p ← p.stampFree index
        p.pushFree index index
      else poolFault env p "MemoryPool::deallocate: double free / freeing unallocated slot" index
  else p.pushFree index index

/-- The instrumented walk from `cur`: release each live slot in turn, up to the
tail. Returns whether the tail was reached; a fault leaves the rest unreleased. -/
def releaseChain (env : Env) (tail : Nat) :
    (fuel : Nat) → (cur : Nat) → MemoryPool → Checked (Bool × MemoryPool)
  | 0, _, _ => .error .unfinished
  | fuel + 1, cur, p => do
      if ← p.isStampedLive cur then do
        let p ← p.stampFree cur
        if cur = tail then return (true, p)
        else do
          let slot ← vecRead p.pool cur
          let next := slot.next
          if next = INVALID_INDEX ∨ next ≥ p.capacity then do
            let p ← poolFault env p
              "MemoryPool::deallocate_chain: chain broken before reaching tail" tail
            return (false, p)
          else releaseChain env tail fuel next p
      else do
        let p ← poolFault env p
          "MemoryPool::deallocate_chain: chain slot not live (corrupt link or double free)" cur
        return (false, p)

/-- Return the chain from `head` to `tail` in one splice. -/
def deallocateChain (env : Env) (p : MemoryPool) (head tail : Nat) : Checked MemoryPool :=
  if env.debugTools then
    if head ≥ p.capacity ∨ tail ≥ p.capacity then
      poolFault env p "MemoryPool::deallocate_chain: head/tail index out of range"
        (if head < p.capacity then tail else head)
    else do
      let (reached, p) ← releaseChain env tail (p.capacity + 1) head p
      if reached then p.pushFree tail head else return p
  else p.pushFree tail head

/-- The slot is handed out. A release build can only check the bounds. -/
def isAllocated (env : Env) (p : MemoryPool) (index : Nat) : Checked Bool :=
  if index < p.capacity then
    if env.debugTools then vecRead p.allocated index else .ok true
  else .ok false

/-- The walk of `free_list_depth` from `cur`, bounded by the capacity. -/
def freeListWalk (p : MemoryPool) : (fuel depth cur : Nat) → Checked Nat
  | 0, _, _ => .error .unfinished
  | fuel + 1, depth, cur =>
      if cur = INVALID_INDEX then .ok depth
      else if depth + 1 > p.capacity then .ok SIZE_MAX
      else if cur ≥ p.capacity then .ok SIZE_MAX
      else do
        let slot ← vecRead p.pool cur
        freeListWalk p fuel (depth + 1) slot.next

def freeListDepth (p : MemoryPool) : Checked Nat := freeListWalk p (p.capacity + 1) 0 p.freeHead

/-- `slot_payload_is_poisoned`: every byte past the link is still as a free has filled it. -/
def slotPayloadIsPoisoned (p : MemoryPool) (index : Nat) : Checked Bool :=
  if index ≥ p.capacity then .ok false
  else do
    if ← vecRead p.allocated index then return false
    else do
      let slot ← vecRead p.pool index
      let padding ← vecRead p.padding index
      return decide (slot.poisonPayload POISON_BYTE_FREED = slot ∧
        padding = poisonPadding POISON_BYTE_FREED)

end MemoryPool

end Hft
