import MatchingEngine.Reference.StdOrderBook

/-!
# The fuzz driver

The bytes of the input are read as a script of calls. Each call goes to the engine and to
the reference book, and a difference in what they answer is a trap. The comparison is the
driver's own: result code, filled quantity, trades without their taker, and the number of
resting orders.
-/

namespace Hft

open Machine

namespace FuzzDriver

def MIN_P : UInt32 := 500
def MAX_P : UInt32 := 2500
def ID_SPAN : UInt32 := 400
def POOL : UInt64 := 500

/-- `max_ops`. -/
def maxOps : Nat := 512

/-- The arguments of both books. -/
def args : Args := ⟨ID_SPAN.toUInt64, POOL, MIN_P, MAX_P⟩

structure Script where
  data : List UInt8
  pos : Nat

namespace Script

def size (s : Script) : Nat := s.data.length

/-- `pos < size ? data[pos++] : (pos & 0xFF)`. -/
def nextByte (s : Script) : UInt32 × Script :=
  match s.data[s.pos]? with
  | some byte => (byte.toUInt32, { s with pos := s.pos + 1 })
  | none => (UInt32.ofNat (s.pos &&& 0xFF), s)

/-- The loop of `next`, with the bytes that are still to come. -/
def nextBytes : (count : Nat) → (v : UInt32) → Script → UInt32 × Script
  | 0, v, s => (v, s)
  | count + 1, v, s =>
      let (byte, s) := s.nextByte
      nextBytes count ((v <<< 8) ||| byte) s

def next (s : Script) : UInt32 × Script := s.nextBytes 4 0

end Script

def typeOf (chunk : UInt32) : OrderType :=
  let kind := chunk % 10
  if kind = 9 then .Cancel else if kind = 8 then .Market else .Limit

def sideOf (chunk : UInt32) : Side := if chunk &&& 0x8000 ≠ 0 then .Buy else .Sell

/-- What an operation calls, from the four words it reads. -/
def callOf (chunk idWord qtyWord priceWord : UInt32) : Call :=
  let id := 1 + idWord % ID_SPAN
  let qty := 1 + qtyWord % 50
  let price := MIN_P + priceWord % (MAX_P - MIN_P + 1)
  match typeOf chunk with
  | .Cancel => .cancelOrder id
  | .Market => .addOrder id .Market 0 qty (sideOf chunk)
  | .Limit => .addOrder id .Limit price qty (sideOf chunk)

def Script.call (s : Script) : Call × Script :=
  let (chunk, s) := s.next
  let (idWord, s) := s.next
  let (qtyWord, s) := s.next
  let (priceWord, s) := s.next
  (callOf chunk idWord qtyWord priceWord, s)

def assertEq64 (a b : Nat) (what : String) (op : Nat) : Checked Unit :=
  if a ≠ b then
    .error (.abort s!"FUZZ DIVERGENCE at op {op} ({what}): engine={a} ref={b}")
  else .ok ()

/-- The loop over the trades both sides have. -/
def assertTrades (op : Nat) : List Trade → List Trade → Checked Unit
  | et :: ets, rt :: rts => do
      assertEq64 et.makerId rt.makerId "maker" op
      assertEq64 et.price rt.price "price" op
      assertEq64 et.quantity rt.quantity "qty" op
      assertTrades op ets rts
  | _, _ => .ok ()

/-- One operation on both books, and the comparison. -/
def operate (env : Env) (op : Nat) (call : Call) (engine : OrderBook) (ref : StdOrderBook) :
    Checked (Reply × OrderBook × StdOrderBook) := do
  let (er, engine) ← engine.step env call
  let (rr, ref) ← ref.step call
  assertEq64 er.reason.toByte rr.reason.toByte "reject code" op
  assertEq64 er.filledOut rr.filledOut "filled qty" op
  assertEq64 er.trades.length rr.trades.length "trade count" op
  assertTrades op er.trades rr.trades
  assertEq64 engine.activeOrderCount ref.activeOrderCount "resting count" op
  return (er, engine, ref)

/-- The loop from operation `op` on. Returns the replies that have been compared. -/
def loop (env : Env) : (left op : Nat) → Script → OrderBook → StdOrderBook → Checked (List Reply)
  | 0, _, _, _, _ => .ok []
  | left + 1, op, s, engine, ref =>
      if s.pos + 4 ≤ s.size + 4 then do
        let (call, s) := s.call
        let (reply, engine, ref) ← operate env op call engine ref
        let replies ← loop env left (op + 1) s engine ref
        return reply :: replies
      else .ok []

/-- The replies that were compared; every path that does not trap returns 0. -/
def llvmFuzzerTestOneInput (env : Env) (data : List UInt8) : Checked (List Reply) :=
  if data.length < 16 then .ok []
  else do
    let engine ← OrderBook.construct env args
    loop env maxOps 0 ⟨data, 0⟩ engine (StdOrderBook.construct args)

end FuzzDriver

end Hft
