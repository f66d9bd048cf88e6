import MatchingEngine.Engine.Order

/-!
# The event journal

The journal is written at every order state transition of an instrumented build
and is never read by the engine. A book therefore carries the sequence of its
`Journal::record` calls, a `JournalEntry` each; timestamps and the padding byte are
left out of it.

`Journal` is the ring itself, which stores a `JournalCell` for each call and keeps
the latest of them. The reading of the cycle counter is an argument of `record`.
-/

namespace Hft

open Machine

/-- What is journaled. The sentinel `Count` of the source names no event. -/
inductive JournalEvent
  | OrderSubmitted
  | OrderRejected
  | OrderRested
  | TradeExecuted
  | MakerFilled
  | OrderCancelled
  | PoolExhausted
  | BestBidChanged
  | BestAskChanged
  deriving DecidableEq, Repr

structure JournalEntry where
  event : JournalEvent
  id : Nat
  price : Nat
  quantity : Nat
  side : Nat
  reason : Nat
  deriving DecidableEq, Repr

def JournalEvent.toByte : JournalEvent → Nat
  | .OrderSubmitted => 0
  | .OrderRejected => 1
  | .OrderRested => 2
  | .TradeExecuted => 3
  | .MakerFilled => 4
  | .OrderCancelled => 5
  | .PoolExhausted => 6
  | .BestBidChanged => 7
  | .BestAskChanged => 8

/-- `journal_event_name`, of the byte a cell stores. -/
def journalEventName : Nat → String
  | 0 => "SUBMIT"
  | 1 => "REJECT"
  | 2 => "REST"
  | 3 => "TRADE"
  | 4 => "MAKER_FILLED"
  | 5 => "CANCEL"
  | 6 => "POOL_EXHAUSTED"
  | 7 => "BEST_BID"
  | 8 => "BEST_ASK"
  | _ => "?"

/-- The 24 bytes of an entry. A vector starts with zeros. -/
structure JournalCell where
  timestamp : Nat := 0
  id : Nat := 0
  price : Nat := 0
  quantity : Nat := 0
  event : Nat := 0
  reason : Nat := 0
  side : Nat := 0
  pad : Nat := 0
  deriving DecidableEq, Repr

/-- What `record` writes for a call made at `timestamp`. -/
def JournalEntry.stored (timestamp : Nat) (e : JournalEntry) : JournalCell :=
  { timestamp, id := e.id, price := e.price, quantity := e.quantity, event := e.event.toByte
    reason := e.reason, side := e.side, pad := 0 }

structure Journal where
  entries : Array JournalCell
  mask : Nat
  pos : Nat := 0
  deriving DecidableEq, Repr

/-- `std::bit_floor`. -/
def bitFloor (n : Nat) : Nat := if n = 0 then 0 else 2 ^ n.log2

/-- `resize` of a vector. -/
def vecResize {α : Type} (xs : Array α) (n : Nat) (fill : α) : Array α :=
  xs.take n ++ Array.replicate (n - xs.size) fill

namespace Journal

def construct (capacity : Nat) : Journal :=
  let entries := Array.replicate (if capacity ≠ 0 then capacity else 1) {}
  let pow2 := bitFloor entries.size
  let entries := if pow2 ≠ entries.size then vecResize entries pow2 {} else entries
  { entries, mask := pow2 - 1 }

def record (j : Journal) (timestamp : Nat) (e : JournalEntry) : Checked Journal := do
  let entries ← vecWrite j.entries (j.pos &&& j.mask) (e.stored timestamp)
  return { j with entries, pos := (j.pos + 1) % 2 ^ 64 }

/-- Number of events actually retained (bounded by capacity). -/
def size (j : Journal) : Nat := if j.pos < j.entries.size then j.pos else j.entries.size

/-- Total events ever written. -/
def total (j : Journal) : Nat := j.pos

def capacity (j : Journal) : Nat := j.entries.size

/-- `at(i)`: entry `i` of the retained window (0 = oldest retained). -/
def entryAt (j : Journal) (i : Nat) : Checked JournalCell :=
  let base := j.pos - j.size
  vecRead j.entries ((base + i) % 2 ^ 64 &&& j.mask)

def clear (j : Journal) : Journal := { j with pos := 0 }

/-- The lines of `dump`: the cells it renders, with the names of their events. -/
def dump (j : Journal) (maxLines : Nat) : Checked (List (String × JournalCell)) :=
  let n := j.size
  let start := if n > maxLines then n - maxLines else 0
  (List.range' start (n - start)).mapM (fun i => do
    let e ← j.entryAt i
    return (journalEventName e.event, e))

end Journal

/-- A call that writes to the journal. -/
inductive JournalCall
  | record (timestamp : Nat) (e : JournalEntry)
  | clear
  deriving DecidableEq, Repr

def Journal.perform (j : Journal) : JournalCall → Checked Journal
  | .record timestamp e => j.record timestamp e
  | .clear => .ok j.clear

/-- The journal after a sequence of calls. -/
def Journal.run (j : Journal) (calls : List JournalCall) : Checked Journal :=
  calls.foldlM Journal.perform j

end Hft
