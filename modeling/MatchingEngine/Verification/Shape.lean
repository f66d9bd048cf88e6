import MatchingEngine.Engine.Entry
import MatchingEngine.Machine.Ensures

/-!
# No call resizes a vector

The shape of a book: its limits, its owner and the sizes of its eleven vectors. Each
function that writes to a book leaves the shape as it is, from whatever state.
-/

namespace Hft

open Machine Machine.Checked

variable {env : Env}

theorem modifyOrder_ensures {pool : Array Order} {i : Nat} {f : Order → Order} :
    (modifyOrder pool i f).Ensures (fun pool' => pool'.size = pool.size) :=
  .skip (fun _ => vecWrite_ensures)

/-! ## The pool -/

/-- The capacity of a pool and the sizes of its vectors. -/
structure PoolShape where
  capacity : Nat
  pool : Nat
  padding : Nat
  allocated : Nat
  slotState : Nat
  slotGeneration : Nat
  deriving DecidableEq, Repr

namespace MemoryPool

variable {p : MemoryPool}

def shape (p : MemoryPool) : PoolShape :=
  ⟨p.capacity, p.pool.size, p.padding.size, p.allocated.size, p.slotState.size,
    p.slotGeneration.size⟩

theorem poolFault_shape (message : String) (slotIndex : Nat) :
    (poolFault env p message slotIndex).Ensures (fun p' => p'.shape = p.shape) := by
  unfold poolFault
  split
  · exact .ite (.ok rfl) .error
  · exact .error

theorem setOverlayLink_shape (i link : Nat) :
    (p.setOverlayLink i link).Ensures (fun p' => p'.shape = p.shape) := by
  refine modifyOrder_ensures.bind (fun pool hpool => .ok ?_)
  simp only [shape, hpool]

theorem linkFreeList_shape (i : Nat) :
    (linkFreeList i p).Ensures (fun p' => p'.shape = p.shape) := by
  induction i generalizing p with
  | zero => exact .ok rfl
  | succ i ih =>
      refine (setOverlayLink_shape i p.freeHead).bind (fun p' hp' => ?_)
      exact ih.mono (fun p'' hp'' => hp''.trans hp')

theorem stampLive_shape (idx : Nat) :
    (p.stampLive idx).Ensures (fun p' => p'.shape = p.shape) := by
  refine vecWrite_ensures.bind (fun allocated hallocated => ?_)
  refine vecWrite_ensures.bind (fun slotState hstate => ?_)
  refine .skip (fun generation => ?_)
  refine vecWrite_ensures.bind (fun slotGeneration hgeneration => ?_)
  refine .skip (fun liveCount => ?_)
  refine vecWrite_ensures.bind (fun pool hpool => .ok ?_)
  simp only [shape, hallocated, hstate, hgeneration, hpool, Array.size_setIfInBounds]

theorem allocate_shape :
    (p.allocate env).Ensures (fun (_, p') => p'.shape = p.shape) := by
  refine .ite (.ok rfl) ?_
  refine .skip (fun obj => ?_)
  refine .ite ?_ (.ok rfl)
  exact (stampLive_shape _).bind (fun p' hp' => .ok hp')

theorem stampFree_shape (index : Nat) :
    (p.stampFree index).Ensures (fun p' => p'.shape = p.shape) := by
  refine vecWrite_ensures.bind (fun allocated hallocated => ?_)
  refine vecWrite_ensures.bind (fun slotState hstate => ?_)
  refine .skip (fun liveCount => ?_)
  refine modifyOrder_ensures.bind (fun pool hpool => .ok ?_)
  simp only [shape, hallocated, hstate, hpool, Array.size_setIfInBounds]

theorem pushFree_shape (linked head : Nat) :
    (p.pushFree linked head).Ensures (fun p' => p'.shape = p.shape) :=
  (setOverlayLink_shape linked p.freeHead).bind (fun _ hp' => .ok hp')

theorem deallocate_shape (index : Nat) :
    (p.deallocate env index).Ensures (fun p' => p'.shape = p.shape) := by
  refine .ite ?_ (pushFree_shape _ _)
  refine .ite (poolFault_shape _ _) ?_
  refine .skip (fun live => ?_)
  refine .ite ?_ (poolFault_shape _ _)
  refine (stampFree_shape index).bind (fun p' hp' => ?_)
  exact (pushFree_shape _ _).mono (fun p'' hp'' => hp''.trans hp')

theorem releaseChain_shape (tail fuel cur : Nat) :
    (releaseChain env tail fuel cur p).Ensures (fun (_, p') => p'.shape = p.shape) := by
  induction fuel generalizing cur p with
  | zero => exact .error
  | succ fuel ih =>
      refine .skip (fun live => ?_)
      refine .ite ?_ ?_
      · refine (stampFree_shape cur).bind (fun p' hp' => ?_)
        refine .ite (.ok hp') ?_
        refine .skip (fun slot => ?_)
        refine .ite ?_ ?_
        · exact (poolFault_shape _ _).bind (fun p'' hp'' => .ok (hp''.trans hp'))
        · exact (ih slot.next).mono (fun _ hp'' => hp''.trans hp')
      · exact (poolFault_shape _ _).bind (fun p' hp' => .ok hp')

theorem deallocateChain_shape (head tail : Nat) :
    (p.deallocateChain env head tail).Ensures (fun p' => p'.shape = p.shape) := by
  refine .ite ?_ (pushFree_shape _ _)
  refine .ite (poolFault_shape _ _) ?_
  refine (releaseChain_shape tail (p.capacity + 1) head).bind ?_
  rintro ⟨reached, p'⟩ hp'
  exact .ite ((pushFree_shape _ _).mono (fun _ hp'' => hp''.trans hp')) (.ok hp')

end MemoryPool

/-! ## Queues -/

namespace PriceLevel

theorem appendOrder_size (level : PriceLevel) (orderIdx : Nat) (pool : Array Order) :
    (level.appendOrder orderIdx pool).Ensures (fun (_, pool') => pool'.size = pool.size) := by
  unfold appendOrder
  refine Ensures.bind (P := fun x => x.2.size = pool.size) (.ite ?_ ?_) ?_
  · refine modifyOrder_ensures.bind (fun pool₁ h₁ => ?_)
    exact modifyOrder_ensures.bind (fun pool₂ h₂ => .ok (h₂.trans h₁))
  · exact modifyOrder_ensures.bind (fun pool₁ h₁ => .ok h₁)
  · rintro ⟨level', pool'⟩ hpool'
    refine .skip (fun order => ?_)
    refine .skip (fun totalQuantity => ?_)
    refine .skip (fun orderCount => ?_)
    exact .ok hpool'

theorem removeOrder_size (level : PriceLevel) (orderIdx : Nat) (pool : Array Order) :
    (level.removeOrder orderIdx pool).Ensures (fun (_, pool') => pool'.size = pool.size) := by
  unfold removeOrder
  refine .skip (fun order => ?_)
  refine Ensures.bind (P := fun x => x.2.size = pool.size)
    (.ite (modifyOrder_ensures.bind (fun pool₁ h₁ => .ok h₁)) (.ok rfl)) ?_
  rintro ⟨level₁, pool₁⟩ h₁
  refine .skip (fun order => ?_)
  refine Ensures.bind (P := fun x => x.2.size = pool.size)
    (.ite (modifyOrder_ensures.bind (fun pool₂ h₂ => .ok (h₂.trans h₁))) (.ok h₁)) ?_
  rintro ⟨level₂, pool₂⟩ h₂
  refine modifyOrder_ensures.bind (fun pool₃ h₃ => ?_)
  refine .skip (fun order => ?_)
  refine .skip (fun totalQuantity => ?_)
  refine .skip (fun orderCount => ?_)
  exact .ok (h₃.trans h₂)

end PriceLevel

/-! ## The book -/

/-- The sizes of the vectors of one side. -/
structure SideShape where
  levels : Nat
  bitset : Nat
  summary : Nat
  deriving DecidableEq, Repr

def BookSide.shape (s : BookSide) : SideShape := ⟨s.levels.size, s.bitset.size, s.summary.size⟩

structure BookShape where
  minPrice : Nat
  maxPrice : Nat
  maxOrderId : Nat
  ownerThread : Nat
  bids : SideShape
  asks : SideShape
  orderMap : Nat
  orderPool : PoolShape
  deriving DecidableEq, Repr

namespace OrderBook

variable {b : OrderBook} {side : Side}

def shape (b : OrderBook) : BookShape :=
  ⟨b.minPrice, b.maxPrice, b.maxOrderId, b.ownerThread, b.bids.shape, b.asks.shape,
    b.orderMap.size, b.orderPool.shape⟩

theorem setSide_shape {s : BookSide} (h : s.shape = (b.side side).shape) :
    (b.setSide side s).shape = b.shape := by
  cases side
  · exact congrArg (fun x => { b.shape with bids := x }) h
  · exact congrArg (fun x => { b.shape with asks := x }) h

theorem setPool_shape {orderPool : MemoryPool} (h : orderPool.shape = b.orderPool.shape) :
    { b with orderPool }.shape = b.shape :=
  congrArg (fun x => { b.shape with orderPool := x }) h

theorem setSlots_shape {pool : Array Order} (h : pool.size = b.orderPool.pool.size) :
    { b with orderPool := { b.orderPool with pool } }.shape = b.shape :=
  setPool_shape (congrArg (fun n => { b.orderPool.shape with pool := n }) h)

variable (env b) in
theorem record_shape (event : JournalEvent) (id price quantity s : Nat) :
    (b.record env event id price quantity s).shape = b.shape := by
  unfold record
  split <;> rfl

theorem recordReason_shape (event : JournalEvent) (id price quantity s : Nat)
    (reason : RejectReason) :
    (b.recordReason env event id price quantity s reason).shape = b.shape := by
  unfold recordReason
  split <;> rfl

theorem setLevel_shape (i : Nat) (level : PriceLevel) :
    (b.setLevel side i level).Ensures (fun b' => b'.shape = b.shape) := by
  refine vecWrite_ensures.bind (fun levels hlevels => .ok (setSide_shape ?_))
  simp only [BookSide.shape, hlevels]

theorem modifySlot_shape (i : Nat) (f : Order → Order) :
    (b.modifySlot i f).Ensures (fun b' => b'.shape = b.shape) :=
  modifyOrder_ensures.bind (fun _ hpool => .ok (setSlots_shape hpool))

theorem setOrderMap_shape (id idx : Nat) :
    (b.setOrderMap id idx).Ensures (fun b' => b'.shape = b.shape) :=
  vecWrite_ensures.bind (fun _ hmap =>
    .ok (congrArg (fun n => { b.shape with orderMap := n }) hmap))

theorem forgetOrder_shape (id idx : Nat) :
    (b.forgetOrder id idx).Ensures (fun b' => b'.shape = b.shape) := by
  refine (setOrderMap_shape id INVALID_INDEX).bind (fun b₁ h₁ => ?_)
  exact (modifySlot_shape idx _).mono (fun _ h₂ => h₂.trans h₁)

theorem deallocate_shape (i : Nat) :
    (b.deallocate env i).Ensures (fun b' => b'.shape = b.shape) :=
  (MemoryPool.deallocate_shape i).bind (fun _ hpool => .ok (setPool_shape hpool))

/-! ### Bits and best prices -/

theorem setLevelBit_shape (bitIdx : Nat) :
    (b.setLevelBit side bitIdx).Ensures (fun b' => b'.shape = b.shape) := by
  refine .skip (fun word => ?_)
  refine vecWrite_ensures.bind (fun bitset hbitset => ?_)
  refine .skip (fun summaryWord => ?_)
  refine vecWrite_ensures.bind (fun summary hsummary => ?_)
  refine .ok (setSide_shape ?_)
  simp only [BookSide.shape, hbitset, hsummary]

theorem clearLevelBit_shape (bitIdx : Nat) :
    (b.clearLevelBit side bitIdx).Ensures (fun b' => b'.shape = b.shape) := by
  refine .skip (fun word => ?_)
  refine vecWrite_ensures.bind (fun bitset hbitset => ?_)
  refine .ite ?_ ?_
  · refine .skip (fun summaryWord => ?_)
    refine vecWrite_ensures.bind (fun summary hsummary => ?_)
    refine .ok (setSide_shape ?_)
    simp only [BookSide.shape, hbitset, hsummary]
  · refine .ok (setSide_shape ?_)
    simp only [BookSide.shape, hbitset]

theorem moveBest_shape (idx : Nat) :
    (b.moveBest side idx).Ensures (fun b' => b'.shape = b.shape) := by
  refine .skip (fun sum => ?_)
  refine .skip (fun best => ?_)
  exact .ok (setSide_shape rfl)

theorem setHas_shape (has : Bool) : (b.setHas side has).shape = b.shape := setSide_shape rfl

theorem noBestAsk_shape : b.noBestAsk.Ensures (fun b' => b'.shape = b.shape) := by
  refine .skip (fun best => ?_)
  refine .skip (fun bestIdx => ?_)
  exact .ok rfl

/-- The end of every search that has found a level. -/
theorem foundBest_shape (idx : Nat) :
    (do let b ← b.moveBest side idx; return b.setHas side true : Checked OrderBook).Ensures
      (fun b' => b'.shape = b.shape) :=
  (moveBest_shape idx).bind (fun _ h₁ => .ok ((setHas_shape true).trans h₁))

/-- The end of every search that has found a word of the summary, upwards or downwards. -/
theorem foundWord_shape (index : Nat → Word → Checked Nat) (bitset : Array Word)
    (summaryIdx : Nat) (summaryWord : Word) :
    (do
      let nextWordIdx ← index summaryIdx summaryWord
      let nextWord ← vecRead bitset nextWordIdx
      let idx ← index nextWordIdx nextWord
      let b ← b.moveBest side idx
      return b.setHas side true : Checked OrderBook).Ensures (fun b' => b'.shape = b.shape) := by
  refine .skip (fun nextWordIdx => ?_)
  refine .skip (fun nextWord => ?_)
  refine .skip (fun idx => ?_)
  exact foundBest_shape idx

theorem updateBestAskAfterRemove_shape (removedPrice : Nat) :
    (b.updateBestAskAfterRemove removedPrice).Ensures (fun b' => b'.shape = b.shape) := by
  unfold updateBestAskAfterRemove
  refine .skip (fun asserted => ?_)
  refine .skip (fun bitIdx => ?_)
  refine .skip (fun bits => ?_)
  refine .ite ?_ ?_
  · refine .skip (fun idx => ?_)
    exact foundBest_shape idx
  refine .skip (fun summaryBits => ?_)
  refine .ite ?_ ?_
  · exact foundWord_shape indexUp _ _ _
  refine .skip (fun found => ?_)
  cases found with
  | some i =>
      refine .skip (fun summaryWord => ?_)
      exact foundWord_shape indexUp _ _ _
  | none => exact noBestAsk_shape

theorem updateBestBidAfterRemove_shape (removedPrice : Nat) :
    (b.updateBestBidAfterRemove removedPrice).Ensures (fun b' => b'.shape = b.shape) := by
  unfold updateBestBidAfterRemove
  refine .skip (fun asserted => ?_)
  refine .skip (fun bitIdx => ?_)
  refine .skip (fun bits => ?_)
  refine .ite ?_ ?_
  · refine .skip (fun idx => ?_)
    exact foundBest_shape idx
  refine .skip (fun summaryBits => ?_)
  refine .ite ?_ ?_
  · exact foundWord_shape indexDown _ _ _
  refine .skip (fun found => ?_)
  cases found with
  | some i =>
      refine .skip (fun summaryWord => ?_)
      exact foundWord_shape indexDown _ _ _
  | none => exact .ok rfl

theorem updateBestAfterRemove_shape (removedPrice : Nat) :
    (b.updateBestAfterRemove side removedPrice).Ensures (fun b' => b'.shape = b.shape) := by
  cases side
  · exact updateBestBidAfterRemove_shape removedPrice
  · exact updateBestAskAfterRemove_shape removedPrice

theorem fastForwardBestAsk_shape (bitIdx : Nat) :
    (b.fastForwardBestAsk bitIdx).Ensures (fun b' => b'.shape = b.shape) := by
  unfold fastForwardBestAsk
  refine .skip (fun bits => ?_)
  refine .ite ?_ ?_
  · refine .skip (fun idx => ?_)
    exact moveBest_shape idx
  -- the sentinels come before the search of the summary
  refine noBestAsk_shape.bind (fun b₁ h₁ => ?_)
  refine .skip (fun summaryBits => ?_)
  refine .ite ?_ ?_
  · exact (foundWord_shape indexUp _ _ _).mono (fun _ h₂ => h₂.trans h₁)
  refine .skip (fun found => ?_)
  cases found with
  | some i =>
      refine .skip (fun summaryWord => ?_)
      exact (foundWord_shape indexUp _ _ _).mono (fun _ h₂ => h₂.trans h₁)
  | none => exact .ok h₁

theorem fastForwardBestBid_shape (bitIdx : Nat) :
    (b.fastForwardBestBid bitIdx).Ensures (fun b' => b'.shape = b.shape) := by
  unfold fastForwardBestBid
  refine .skip (fun bits => ?_)
  refine .ite ?_ ?_
  · refine .skip (fun idx => ?_)
    exact moveBest_shape idx
  have h₁ : b.noBestBid.shape = b.shape := rfl
  refine .skip (fun summaryBits => ?_)
  refine .ite ?_ ?_
  · exact (foundWord_shape indexDown _ _ _).mono (fun _ h₂ => h₂.trans h₁)
  refine .skip (fun found => ?_)
  cases found with
  | some i =>
      refine .skip (fun summaryWord => ?_)
      exact (foundWord_shape indexDown _ _ _).mono (fun _ h₂ => h₂.trans h₁)
  | none => exact .ok h₁

theorem advanceBestAsk_shape :
    (b.advanceBestAsk env).Ensures (fun b' => b'.shape = b.shape) := by
  unfold advanceBestAsk
  refine .skip (fun bitIdx => ?_)
  refine (clearLevelBit_shape bitIdx).bind (fun b₁ h₁ => ?_)
  refine .skip (fun nextAsk => ?_)
  refine .skip (fun nextBitIdx => ?_)
  refine .skip (fun adjacent => ?_)
  refine .ite (.ok h₁) ?_
  refine (fastForwardBestAsk_shape bitIdx).bind (fun b₂ h₂ => .ok ?_)
  exact (record_shape _ _ _ _ _ _ _).trans (h₂.trans h₁)

theorem advanceBestBid_shape :
    (b.advanceBestBid env).Ensures (fun b' => b'.shape = b.shape) := by
  unfold advanceBestBid
  refine .skip (fun bitIdx => ?_)
  refine (clearLevelBit_shape bitIdx).bind (fun b₁ h₁ => ?_)
  refine .skip (fun adjacent => ?_)
  refine .ite ?_ ?_
  · refine .skip (fun best => ?_)
    refine .skip (fun bestIdx => ?_)
    exact .ok h₁
  · refine (fastForwardBestBid_shape bitIdx).bind (fun b₂ h₂ => .ok ?_)
    exact (record_shape _ _ _ _ _ _ _).trans (h₂.trans h₁)

theorem advanceBest_shape (side : Side) :
    (b.advanceBest env side).Ensures (fun b' => b'.shape = b.shape) := by
  cases side
  · exact advanceBestBid_shape
  · exact advanceBestAsk_shape

/-! ### Cancelling and posting -/

theorem removeFromLevel_shape (bitIdx orderIdx price : Nat) :
    (b.removeFromLevel side bitIdx orderIdx price).Ensures (fun b' => b'.shape = b.shape) := by
  unfold removeFromLevel
  refine .skip (fun level => ?_)
  refine (PriceLevel.removeOrder_size level orderIdx _).bind ?_
  rintro ⟨level', pool⟩ hpool
  refine (setLevel_shape bitIdx level').bind (fun b₁ h₁ => ?_)
  have h₁' := h₁.trans (setSlots_shape hpool)
  refine .ite ?_ (.ok h₁')
  refine (clearLevelBit_shape bitIdx).bind (fun b₂ h₂ => ?_)
  refine .ite ?_ (.ok (h₂.trans h₁'))
  exact (updateBestAfterRemove_shape price).mono (fun _ h₃ => h₃.trans (h₂.trans h₁'))

theorem cancelOrderImpl_shape (id : Nat) :
    (b.cancelOrderImpl env id).Ensures (fun (_, b') => b'.shape = b.shape) := by
  have hsubmitted := record_shape env b .OrderSubmitted id 0 0 Side.Buy.toByte
  unfold cancelOrderImpl
  refine .ite (.ok ((recordReason_shape _ _ _ _ _ _).trans hsubmitted)) ?_
  refine .skip (fun orderIdx => ?_)
  refine .ite (.ok ((recordReason_shape _ _ _ _ _ _).trans hsubmitted)) ?_
  refine .skip (fun prefetched => ?_)
  refine .skip (fun order => ?_)
  refine .skip (fun bitIdx => ?_)
  refine (removeFromLevel_shape bitIdx orderIdx order.price).bind (fun b₁ h₁ => ?_)
  refine (forgetOrder_shape id orderIdx).bind (fun b₂ h₂ => ?_)
  refine (deallocate_shape orderIdx).bind (fun b₃ h₃ => ?_)
  refine .skip (fun activeCount => .ok ?_)
  exact (record_shape _ _ _ _ _ _ _).trans (h₃.trans (h₂.trans (h₁.trans hsubmitted)))

theorem announce_shape (id resolvedPrice remainingQty orderIdx bitIdx : Nat) (wasEmpty : Bool) :
    (b.announce env side id resolvedPrice remainingQty orderIdx bitIdx wasEmpty).Ensures
      (fun b' => b'.shape = b.shape) := by
  unfold announce
  refine Ensures.bind (P := fun b' => b'.shape = b.shape)
    (.ite (setLevelBit_shape bitIdx) (.ok rfl)) (fun b₁ h₁ => ?_)
  refine .skip (fun order => .ok ?_)
  refine (record_shape _ _ _ _ _ _ _).trans ?_
  split
  · exact (record_shape _ _ _ _ _ _ _).trans ((setSide_shape (by rfl)).trans h₁)
  · exact h₁

theorem postOrder_shape (id resolvedPrice remainingQty : Nat) :
    (b.postOrder env side id resolvedPrice remainingQty).Ensures
      (fun (_, b') => b'.shape = b.shape) := by
  unfold postOrder
  refine MemoryPool.allocate_shape.bind ?_
  rintro ⟨orderIdx, orderPool⟩ hpool
  have h₀ : { b with orderPool }.shape = b.shape := setPool_shape hpool
  refine .ite (.ok ((record_shape _ _ _ _ _ _ _).trans h₀)) ?_
  refine (modifySlot_shape orderIdx _).bind (fun b₁ h₁ => ?_)
  refine .skip (fun activeCount => ?_)
  refine (setOrderMap_shape id orderIdx).bind (fun b₂ h₂ => ?_)
  refine .skip (fun order => ?_)
  refine .skip (fun bitIdx => ?_)
  refine .skip (fun level => ?_)
  refine (PriceLevel.appendOrder_size level orderIdx _).bind ?_
  rintro ⟨level', pool⟩ hpool'
  refine (setLevel_shape bitIdx level').bind (fun b₃ h₃ => ?_)
  refine (announce_shape _ _ _ _ _ _).bind (fun b₄ h₄ => .ok ?_)
  exact h₄.trans (h₃.trans ((setSlots_shape hpool').trans (h₂.trans (h₁.trans h₀))))

end OrderBook

/-! ## The calls -/

namespace Exec

variable {σ : Type} {x : Exec σ} {side : Side} {takerId : Nat} {onTrade : TradeCallback σ}

/-- The computation leaves the shape of the book as it is. -/
abbrev Keeps (x : Exec σ) (c : Checked (Exec σ)) : Prop :=
  c.Ensures (fun x' => x'.book.shape = x.book.shape)

variable (callback : ∀ trade (x : Exec σ), x.Keeps (onTrade trade x))
include callback

theorem fillOneOrder_shape (makerOrderIdx : Nat) :
    x.Keeps (x.fillOneOrder env side takerId onTrade makerOrderIdx) := by
  unfold fillOneOrder
  refine .skip (fun maker => ?_)
  refine (callback _ x).bind (fun x₁ h₁ => ?_)
  refine .skip (fun maker => ?_)
  have hlogged := (OrderBook.record_shape env _ .MakerFilled maker.id maker.price 0
    side.opposite.toByte).trans (OrderBook.record_shape env x₁.book .TradeExecuted takerId
      maker.price maker.quantity side.toByte)
  refine (OrderBook.forgetOrder_shape maker.id makerOrderIdx).bind (fun b₂ h₂ => ?_)
  refine (OrderBook.deallocate_shape makerOrderIdx).bind (fun b₃ h₃ => ?_)
  refine .skip (fun activeCount => .ok ?_)
  exact h₃.trans (h₂.trans (hlogged.trans h₁))

theorem fillEachOrder_shape (fuel makerOrderIdx : Nat) :
    x.Keeps (fillEachOrder env side takerId onTrade fuel makerOrderIdx x) := by
  induction fuel generalizing makerOrderIdx x with
  | zero => exact .error
  | succ fuel ih =>
      refine .ite ?_ (.ok rfl)
      refine .skip (fun maker => ?_)
      refine .skip (fun prefetched => ?_)
      refine (callback _ x).bind (fun x₁ h₁ => ?_)
      refine .skip (fun maker' => ?_)
      have hlogged := (OrderBook.record_shape env _ .MakerFilled maker'.id maker'.price 0
        side.opposite.toByte).trans (OrderBook.record_shape env x₁.book .TradeExecuted takerId
          maker'.price maker'.quantity side.toByte)
      refine (OrderBook.forgetOrder_shape maker'.id makerOrderIdx).bind (fun b₂ h₂ => ?_)
      exact ih maker.next |>.mono (fun x₃ h₃ => h₃.trans (h₂.trans (hlogged.trans h₁)))

theorem fillLevel_shape (levelIdx takerQuantity : Nat) :
    (x.fillLevel env side takerId onTrade levelIdx takerQuantity).Ensures
      (fun (x', _) => x'.book.shape = x.book.shape) := by
  unfold fillLevel
  refine .skip (fun level => ?_)
  refine .skip (fun levelQty => ?_)
  refine Ensures.bind (P := fun x' => x'.book.shape = x.book.shape) (.ite ?_ ?_) ?_
  · exact fillOneOrder_shape callback level.head
  · refine .skip (fun prefetched => ?_)
    refine (fillEachOrder_shape callback _ _).bind (fun x₁ h₁ => ?_)
    refine .skip (fun level => ?_)
    refine (MemoryPool.deallocateChain_shape _ _).bind (fun pool hpool => ?_)
    refine .skip (fun activeCount => ?_)
    exact .ok ((OrderBook.setPool_shape hpool).trans h₁)
  · intro x₁ h₁
    refine .skip (fun remaining => ?_)
    refine .skip (fun level => ?_)
    exact (OrderBook.setLevel_shape _ _).bind (fun b₂ h₂ => .ok (h₂.trans h₁))

omit callback in
theorem applyTrade_shape {b : OrderBook} (levelIdx makerOrderIdx tradeQty : Nat) :
    (applyTrade side levelIdx makerOrderIdx tradeQty b).Ensures
      (fun b' => b'.shape = b.shape) := by
  unfold applyTrade
  refine .skip (fun maker => ?_)
  refine .skip (fun quantity => ?_)
  refine (OrderBook.modifySlot_shape makerOrderIdx _).bind (fun b₁ h₁ => ?_)
  refine .skip (fun level => ?_)
  refine .skip (fun totalQuantity => ?_)
  exact (OrderBook.setLevel_shape _ _).mono (fun _ h₂ => h₂.trans h₁)

omit callback in
theorem dropFilledMaker_shape {b : OrderBook} (levelIdx makerOrderIdx nextMakerIdx : Nat)
    (maker : Order) : (dropFilledMaker env side levelIdx makerOrderIdx nextMakerIdx maker b).Ensures
      (fun b' => b'.shape = b.shape) := by
  unfold dropFilledMaker
  have hlogged := OrderBook.record_shape env b .MakerFilled maker.id maker.price 0
    side.opposite.toByte
  refine (OrderBook.forgetOrder_shape maker.id makerOrderIdx).bind (fun b₁ h₁ => ?_)
  refine (OrderBook.deallocate_shape makerOrderIdx).bind (fun b₂ h₂ => ?_)
  refine .skip (fun level => ?_)
  refine .skip (fun orderCount => ?_)
  refine .skip (fun activeCount => ?_)
  refine (OrderBook.setLevel_shape _ _).bind (fun b₃ h₃ => ?_)
  have h₃' := h₃.trans (h₂.trans (h₁.trans hlogged))
  refine .ite ?_ (.ok h₃')
  exact (OrderBook.modifySlot_shape _ _).mono (fun _ h₄ => h₄.trans h₃')

theorem fillPartially_shape (levelIdx fuel makerOrderIdx takerQuantity : Nat) :
    (fillPartially env side takerId onTrade levelIdx fuel makerOrderIdx takerQuantity x).Ensures
      (fun (x', _) => x'.book.shape = x.book.shape) := by
  induction fuel generalizing makerOrderIdx takerQuantity x with
  | zero => exact .error
  | succ fuel ih =>
      refine .ite ?_ (.ok rfl)
      refine .skip (fun maker => ?_)
      refine (callback _ x).bind (fun x₁ h₁ => ?_)
      refine .skip (fun maker' => ?_)
      refine .skip (fun remaining => ?_)
      refine (applyTrade_shape levelIdx makerOrderIdx _).bind (fun b₂ h₂ => ?_)
      have h₂' := h₂.trans ((OrderBook.record_shape env _ _ _ _ _ _).trans h₁)
      refine .skip (fun maker'' => ?_)
      refine .skip (fun prefetched => ?_)
      refine Ensures.bind (P := fun b' => b'.shape = x.book.shape) (.ite ?_ (.ok h₂')) ?_
      · exact (dropFilledMaker_shape _ _ _ _).mono (fun _ h₃ => h₃.trans h₂')
      · exact fun b₃ h₃ => (ih maker''.next remaining).mono (fun _ h₄ => h₄.trans h₃)

theorem matchBestLevel_shape (takerQuantity : Nat) :
    (x.matchBestLevel env side takerId onTrade takerQuantity).Ensures
      (fun (x', _) => x'.book.shape = x.book.shape) := by
  unfold matchBestLevel
  refine .skip (fun level => ?_)
  refine Ensures.bind (P := fun y => y.1.book.shape = x.book.shape)
    (.ite ?_ ?_) ?_
  · exact fillLevel_shape callback _ _
  · refine .skip (fun prefetched => ?_)
    exact fillPartially_shape callback _ _ _ _
  · rintro ⟨x₁, remaining⟩ h₁
    refine .skip (fun level => ?_)
    refine .ite ?_ (.ok h₁)
    exact (OrderBook.advanceBest_shape _).bind (fun b₂ h₂ => .ok (h₂.trans h₁))

theorem matchLoop_shape (takerPrice fuel takerQuantity : Nat) :
    (matchLoop env side takerId onTrade takerPrice fuel takerQuantity x).Ensures
      (fun (x', _) => x'.book.shape = x.book.shape) := by
  induction fuel generalizing takerQuantity x with
  | zero => exact .error
  | succ fuel ih =>
      refine .ite ?_ (.ok rfl)
      refine (matchBestLevel_shape callback takerQuantity).bind ?_
      rintro ⟨x₁, remaining⟩ h₁
      exact (ih remaining).mono (fun _ h₂ => h₂.trans h₁)

theorem executeOrder_shape (id : Nat) (type : OrderType) (price quantity : Nat) (side : Side) :
    (x.executeOrder env id type price quantity side onTrade).Ensures
      (fun (_, x') => x'.book.shape = x.book.shape) := by
  unfold executeOrder
  have hsubmitted := OrderBook.record_shape env x.book .OrderSubmitted id price
    quantity side.toByte
  refine (matchLoop_shape callback _ _ _).bind ?_
  rintro ⟨x₁, remainingQty⟩ h₁
  refine .skip (fun filledOut => ?_)
  refine .ite ?_ (.ok (h₁.trans hsubmitted))
  refine (OrderBook.postOrder_shape _ _ _).bind ?_
  rintro ⟨reason, b₂⟩ h₂
  exact .ok (h₂.trans (h₁.trans hsubmitted))

omit callback in
theorem reject_shape (id price quantity : Nat) (side : Side) (reason : RejectReason) :
    Ensures (.ok (reject env id price quantity side reason x))
      (fun (_, x') => x'.book.shape = x.book.shape) := by
  unfold reject
  exact .ok (OrderBook.recordReason_shape _ _ _ _ _ _)

theorem addOrderImpl_shape (id : Nat) (type : OrderType) (price quantity : Nat) (side : Side) :
    (x.addOrderImpl env id type price quantity side onTrade).Ensures
      (fun (_, x') => x'.book.shape = x.book.shape) := by
  unfold addOrderImpl
  refine .ite ?_ ?_
  · refine (OrderBook.cancelOrderImpl_shape id).bind ?_
    rintro ⟨reason, b₁⟩ h₁
    exact .ok h₁
  · -- the checks of the source in their order: quantity, id, map, price, opposite side
    refine .ite (reject_shape _ _ _ _ _) ?_
    refine .ite (reject_shape _ _ _ _ _) ?_
    refine .skip (fun existing => ?_)
    refine .ite (reject_shape _ _ _ _ _) ?_
    refine .skip (fun prefetched => ?_)
    refine .ite (reject_shape _ _ _ _ _) ?_
    refine .ite (reject_shape _ _ _ _ _) ?_
    exact executeOrder_shape callback id type price quantity side

omit callback in
theorem publicEntry_shape {α : Type} (entryPoint : String) (blocked : α)
    {body : Exec σ → Checked (α × Exec σ)}
    (hbody : ∀ x, (body x).Ensures (fun (_, x') => x'.book.shape = x.book.shape)) :
    (publicEntry env entryPoint blocked body x).Ensures
      (fun (_, x') => x'.book.shape = x.book.shape) := by
  unfold publicEntry
  refine .ite ?_ (hbody x)
  refine .skip (fun passed => ?_)
  refine .ite ?_ (.ok rfl)
  refine (hbody _).bind ?_
  rintro ⟨a, x₁⟩ h₁
  exact .ok h₁

theorem addOrder_shape (id : Nat) (type : OrderType) (price quantity : Nat) (side : Side) :
    (x.addOrder env id type price quantity side onTrade).Ensures
      (fun (_, x') => x'.book.shape = x.book.shape) :=
  publicEntry_shape _ _ (fun _ => addOrderImpl_shape callback id type price quantity side)

omit callback in
theorem cancelOrder_shape (id : Nat) :
    (x.cancelOrder env id).Ensures (fun (_, x') => x'.book.shape = x.book.shape) := by
  refine publicEntry_shape _ _ (fun x => (OrderBook.cancelOrderImpl_shape id).bind ?_)
  rintro ⟨reason, b₁⟩ h₁
  exact .ok h₁

end Exec

namespace OrderBook

theorem step_shape (b : OrderBook) (call : Call) :
    (b.step env call).Ensures (fun (_, b') => b'.shape = b.shape) := by
  cases call with
  | addOrder id type price quantity side =>
      have hpassive : ∀ trade (x : Exec (List Trade)), x.Keeps (Exec.passive keepTrade trade x) :=
        fun _ _ => .ok rfl
      have hadd : (Exec.addOrder env id.toNat type price.toNat quantity.toNat side
          (Exec.passive keepTrade) ⟨b, []⟩).Ensures (fun y => y.2.book.shape = b.shape) :=
        Exec.addOrder_shape hpassive id.toNat type price.toNat quantity.toNat side
      refine hadd.bind ?_
      rintro ⟨⟨reason, filledOut⟩, x⟩ hx
      exact .ok hx
  | cancelOrder id =>
      have hcancel : (Exec.cancelOrder env id.toNat (⟨b, []⟩ : Exec (List Trade))).Ensures
          (fun y => y.2.book.shape = b.shape) := Exec.cancelOrder_shape id.toNat
      refine hcancel.bind ?_
      rintro ⟨reason, x⟩ hx
      exact .ok hx

theorem run_shape (b : OrderBook) (calls : List Call) :
    (b.run env calls).Ensures (fun (_, b') => b'.shape = b.shape) :=
  checkedRuns_ensures (fun b call => step_shape b call) b calls

end OrderBook

end Hft
