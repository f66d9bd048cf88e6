import MatchingEngine.Engine.OrderBook

/-!
# Best-price tracking

Setting and clearing a level's bit, and the four searches for the next best
price: `update_best_ask_after_remove` and `update_best_bid_after_remove`, used by
cancels, and the two fast-forwards that the matching loop carries in its own
copy. A price or an index that does not fit, a scan of a zero word and the two
assertions are faults.
-/

namespace Hft.OrderBook

open Machine

/-- A level at `bitIdx` is no longer empty. -/
def setLevelBit (b : OrderBook) (side : Side) (bitIdx : Nat) : Checked OrderBook := do
  let s := b.side side
  let wordOffset := bitIdx / kWordBits
  let bitMask := bit (bitIdx % kWordBits)
  let word ← vecRead s.bitset wordOffset
  let bitset ← vecWrite s.bitset wordOffset (word ||| bitMask)
  let summaryWord ← vecRead s.summary (wordOffset / kWordBits)
  let summary ← vecWrite s.summary (wordOffset / kWordBits)
    (summaryWord ||| bit (wordOffset % kWordBits))
  return b.setSide side { s with bitset, summary }

/-- The level at `bitIdx` has become empty; an empty word leaves the summary too. -/
def clearLevelBit (b : OrderBook) (side : Side) (bitIdx : Nat) : Checked OrderBook := do
  let s := b.side side
  let wordOffset := bitIdx / kWordBits
  let bitMask := bit (bitIdx % kWordBits)
  let word ← vecRead s.bitset wordOffset
  let bitset ← vecWrite s.bitset wordOffset (word &&& ~~~bitMask)
  if word &&& ~~~bitMask = 0 then do
    let summaryWord ← vecRead s.summary (wordOffset / kWordBits)
    let summary ← vecWrite s.summary (wordOffset / kWordBits)
      (summaryWord &&& ~~~bit (wordOffset % kWordBits))
    return b.setSide side { s with bitset, summary }
  else return b.setSide side { s with bitset }

/-- `word_idx * kWordBits + std::countr_zero(word)`. -/
def indexUp (wordIdx : Nat) (word : Word) : Checked Nat := do
  let base ← checkedMul 64 wordIdx kWordBits
  let zeros ← countrZero word
  checkedAdd 64 base zeros

/-- `word_idx * kWordBits + kTopBitIndex - std::countl_zero(word)`. -/
def indexDown (wordIdx : Nat) (word : Word) : Checked Nat := do
  let base ← checkedMul 64 wordIdx kWordBits
  let top ← checkedAdd 64 base kTopBitIndex
  let zeros ← countlZero word
  checkedSub top zeros

/-- `best_idx_ = idx; best_ = static_cast<Price>(min_price_ + idx)`. -/
def moveBest (b : OrderBook) (side : Side) (idx : Nat) : Checked OrderBook := do
  let sum ← checkedAdd 64 b.minPrice idx
  let best ← narrow 32 sum
  return b.setSide side { b.side side with best, bestIdx := idx }

def setHas (b : OrderBook) (side : Side) (has : Bool) : OrderBook :=
  b.setSide side { b.side side with has }

/-- The empty-ask sentinels: a price past the range, an index inside it. -/
def noBestAsk (b : OrderBook) : Checked OrderBook := do
  let best ← checkedAdd 32 b.maxPrice 1
  let bestIdx ← checkedSub b.asks.levels.size 1
  return { b with asks := { b.asks with has := false, best, bestIdx } }

/-- The empty-bid sentinels. -/
def noBestBid (b : OrderBook) : OrderBook :=
  { b with bids := { b.bids with has := false, best := 0, bestIdx := 0 } }

def updateBestAskAfterRemove (b : OrderBook) (removedPrice : Nat) : Checked OrderBook := do
  check (b.asks.has && b.asks.best == removedPrice)
    "update_best_ask_after_remove must be called from the best ask level"
  let bitIdx ← checkedSub removedPrice b.minPrice
  let wordIdx := bitIdx / kWordBits
  let mask := ~~~(bit (bitIdx % kWordBits) - 1)
  let bits ← vecRead b.asks.bitset wordIdx
  let word := bits &&& mask
  if word ≠ 0 then do
    let idx ← indexUp wordIdx word
    let b ← b.moveBest .Sell idx
    return b.setHas .Sell true
  else do
    let summaryIdx := wordIdx / kWordBits
    let k := wordIdx % kWordBits
    let summaryMask := ~~~((bit k - 1) <<< 1 ||| 1)
    let summaryBits ← vecRead b.asks.summary summaryIdx
    let summaryWord := summaryBits &&& summaryMask
    if summaryWord ≠ 0 then do
      let nextWordIdx ← indexUp summaryIdx summaryWord
      let nextWord ← vecRead b.asks.bitset nextWordIdx
      let idx ← indexUp nextWordIdx nextWord
      let b ← b.moveBest .Sell idx
      return b.setHas .Sell true
    else do
      let first := summaryIdx + 1
      match ← firstNonzeroFrom b.asks.summary (b.asks.summary.size - first) first with
      | some i => do
          let summaryWord ← vecRead b.asks.summary i
          let nextWordIdx ← indexUp i summaryWord
          let nextWord ← vecRead b.asks.bitset nextWordIdx
          let idx ← indexUp nextWordIdx nextWord
          let b ← b.moveBest .Sell idx
          return b.setHas .Sell true
      | none => b.noBestAsk

def updateBestBidAfterRemove (b : OrderBook) (removedPrice : Nat) : Checked OrderBook := do
  check (b.bids.has && b.bids.best == removedPrice)
    "update_best_bid_after_remove must be called from the best bid level"
  let bitIdx ← checkedSub removedPrice b.minPrice
  let wordIdx := bitIdx / kWordBits
  let mask := bit (bitIdx % kWordBits) - 1
  let bits ← vecRead b.bids.bitset wordIdx
  let word := bits &&& mask
  if word ≠ 0 then do
    let idx ← indexDown wordIdx word
    let b ← b.moveBest .Buy idx
    return b.setHas .Buy true
  else do
    let summaryIdx := wordIdx / kWordBits
    let summaryMask := bit (wordIdx % kWordBits) - 1
    let summaryBits ← vecRead b.bids.summary summaryIdx
    let summaryWord := summaryBits &&& summaryMask
    if summaryWord ≠ 0 then do
      let nextWordIdx ← indexDown summaryIdx summaryWord
      let nextWord ← vecRead b.bids.bitset nextWordIdx
      let idx ← indexDown nextWordIdx nextWord
      let b ← b.moveBest .Buy idx
      return b.setHas .Buy true
    else do
      match ← lastNonzeroBelow b.bids.summary summaryIdx with
      | some i => do
          let summaryWord ← vecRead b.bids.summary i
          let nextWordIdx ← indexDown i summaryWord
          let nextWord ← vecRead b.bids.bitset nextWordIdx
          let idx ← indexDown nextWordIdx nextWord
          let b ← b.moveBest .Buy idx
          return b.setHas .Buy true
      | none => return b.noBestBid

def updateBestAfterRemove (b : OrderBook) (side : Side) (removedPrice : Nat) : Checked OrderBook :=
  match side with
  | .Buy => b.updateBestBidAfterRemove removedPrice
  | .Sell => b.updateBestAskAfterRemove removedPrice

/-- The fast-forward of `best_ask_` inside the matching loop: the sentinels are
set before the summary is searched, and the first branch leaves the flag alone. -/
def fastForwardBestAsk (b : OrderBook) (bitIdx : Nat) : Checked OrderBook := do
  let wordIdx := bitIdx / kWordBits
  let mask := ~~~(bit (bitIdx % kWordBits) - 1)
  let bits ← vecRead b.asks.bitset wordIdx
  let word := bits &&& mask
  if word ≠ 0 then do
    let idx ← indexUp wordIdx word
    b.moveBest .Sell idx
  else do
    let b ← b.noBestAsk
    let summaryIdx := wordIdx / kWordBits
    let k := wordIdx % kWordBits
    let summaryMask := ~~~((bit k - 1) <<< 1 ||| 1)
    let summaryBits ← vecRead b.asks.summary summaryIdx
    let summaryWord := summaryBits &&& summaryMask
    if summaryWord ≠ 0 then do
      let nextWordIdx ← indexUp summaryIdx summaryWord
      let nextWord ← vecRead b.asks.bitset nextWordIdx
      let idx ← indexUp nextWordIdx nextWord
      let b ← b.moveBest .Sell idx
      return b.setHas .Sell true
    else do
      let first := summaryIdx + 1
      match ← firstNonzeroFrom b.asks.summary (b.asks.summary.size - first) first with
      | some i => do
          let summaryWord ← vecRead b.asks.summary i
          let nextWordIdx ← indexUp i summaryWord
          let nextWord ← vecRead b.asks.bitset nextWordIdx
          let idx ← indexUp nextWordIdx nextWord
          let b ← b.moveBest .Sell idx
          return b.setHas .Sell true
      | none => return b

/-- The fast-forward of `best_bid_` inside the matching loop. -/
def fastForwardBestBid (b : OrderBook) (bitIdx : Nat) : Checked OrderBook := do
  let wordIdx := bitIdx / kWordBits
  let mask := bit (bitIdx % kWordBits) - 1
  let bits ← vecRead b.bids.bitset wordIdx
  let word := bits &&& mask
  if word ≠ 0 then do
    let idx ← indexDown wordIdx word
    b.moveBest .Buy idx
  else do
    let b := b.noBestBid
    let summaryIdx := wordIdx / kWordBits
    let summaryMask := bit (wordIdx % kWordBits) - 1
    let summaryBits ← vecRead b.bids.summary summaryIdx
    let summaryWord := summaryBits &&& summaryMask
    if summaryWord ≠ 0 then do
      let nextWordIdx ← indexDown summaryIdx summaryWord
      let nextWord ← vecRead b.bids.bitset nextWordIdx
      let idx ← indexDown nextWordIdx nextWord
      let b ← b.moveBest .Buy idx
      return b.setHas .Buy true
    else do
      match ← lastNonzeroBelow b.bids.summary summaryIdx with
      | some i => do
          let summaryWord ← vecRead b.bids.summary i
          let nextWordIdx ← indexDown i summaryWord
          let nextWord ← vecRead b.bids.bitset nextWordIdx
          let idx ← indexDown nextWordIdx nextWord
          let b ← b.moveBest .Buy idx
          return b.setHas .Buy true
      | none => return b

def fastForwardBest (b : OrderBook) (side : Side) (bitIdx : Nat) : Checked OrderBook :=
  match side with
  | .Buy => b.fastForwardBestBid bitIdx
  | .Sell => b.fastForwardBestAsk bitIdx

/-- After the best ask level has been emptied: clear its bit, then take the next
tick if it is occupied, else fast-forward. -/
def advanceBestAsk (env : Env) (b : OrderBook) : Checked OrderBook := do
  let bitIdx ← checkedSub b.asks.best b.minPrice
  let b ← b.clearLevelBit .Sell bitIdx
  let nextAsk ← checkedAdd 32 b.asks.best 1
  let nextBitIdx ← checkedAdd 64 bitIdx 1
  let adjacent ← (
    if nextAsk ≤ b.maxPrice then do
      let level ← b.level .Sell nextBitIdx
      pure !level.isEmpty
    else pure false)
  if adjacent then
    return { b with asks := { b.asks with best := nextAsk, bestIdx := nextBitIdx } }
  else do
    let b ← b.fastForwardBestAsk bitIdx
    return b.record env .BestAskChanged 0 b.asks.best 0 Side.Sell.toByte

/-- After the best bid level has been emptied. -/
def advanceBestBid (env : Env) (b : OrderBook) : Checked OrderBook := do
  let bitIdx ← checkedSub b.bids.best b.minPrice
  let b ← b.clearLevelBit .Buy bitIdx
  let adjacent ← (
    if b.bids.best > b.minPrice then do
      let previousBitIdx ← checkedSub bitIdx 1
      let level ← b.level .Buy previousBitIdx
      pure !level.isEmpty
    else pure false)
  if adjacent then do
    let best ← checkedSub b.bids.best 1
    let bestIdx ← checkedSub b.bids.bestIdx 1
    return { b with bids := { b.bids with best, bestIdx } }
  else do
    let b ← b.fastForwardBestBid bitIdx
    return b.record env .BestBidChanged 0 b.bids.best 0 Side.Buy.toByte

/-- The level of `side` holding the best price has been emptied by a taker. -/
def advanceBest (env : Env) (b : OrderBook) (side : Side) : Checked OrderBook :=
  match side with
  | .Buy => b.advanceBestBid env
  | .Sell => b.advanceBestAsk env

end Hft.OrderBook
