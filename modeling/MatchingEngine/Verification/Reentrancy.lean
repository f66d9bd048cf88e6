import MatchingEngine.Verification.Entry

/-!
# Two clients of one book

The matching code hands the book to its callback half-way through mutating it.
Run it twice, with callbacks that leave equal latched books behind whenever they
are given such: it then leaves equal books behind as well, and ends alike.
-/

namespace Hft

open Machine Machine.Checked

namespace OrderBook

variable {env : Env} {b b' : OrderBook} {side : Side} {i id k n : Nat}

/-- A call is in progress on the book, made by the thread that owns it. -/
structure Latched (env : Env) (b : OrderBook) : Prop where
  inPublicEntry : b.inPublicEntry = true
  ownerThread : b.ownerThread = env.thisThread

namespace Latched

theorem record (h : b.Latched env) (event : JournalEvent) (id price quantity side : Nat) :
    (b.record env event id price quantity side).Latched env := by
  rw [record_eq]
  exact ⟨h.inPublicEntry, h.ownerThread⟩

theorem onlySide (h : b.Latched env) (hb : OnlySide side b b') : b'.Latched env := by
  obtain ⟨s, rfl⟩ := hb
  refine ⟨?_, ?_⟩
  · rw [setSide_inPublicEntry]
    exact h.inPublicEntry
  · rw [setSide_ownerThread]
    exact h.ownerThread

theorem setLevel {level : PriceLevel} (h : b.Latched env) (hb : b.setLevel side i level = .ok b') :
    b'.Latched env := by
  obtain ⟨levels, -, hb⟩ := bind_eq_ok_iff.mp hb
  cases hb
  exact h.onlySide ⟨_, rfl⟩

theorem modifySlot {f : Order → Order} (h : b.Latched env) (hb : b.modifySlot i f = .ok b') :
    b'.Latched env := by
  obtain ⟨pool, -, hb⟩ := bind_eq_ok_iff.mp hb
  cases hb
  exact ⟨h.inPublicEntry, h.ownerThread⟩

theorem forgetOrder (h : b.Latched env) (hb : b.forgetOrder id i = .ok b') : b'.Latched env := by
  obtain ⟨b₁, hmap, hb⟩ := bind_eq_ok_iff.mp hb
  obtain ⟨orderMap, -, hmap⟩ := bind_eq_ok_iff.mp hmap
  cases hmap
  have h₁ : ({ b with orderMap } : OrderBook).Latched env := ⟨h.inPublicEntry, h.ownerThread⟩
  exact h₁.modifySlot hb

theorem deallocate (h : b.Latched env) (hb : b.deallocate env i = .ok b') : b'.Latched env := by
  obtain ⟨orderPool, -, hb⟩ := bind_eq_ok_iff.mp hb
  cases hb
  exact ⟨h.inPublicEntry, h.ownerThread⟩

theorem advanceBestAsk (h : b.Latched env) (hb : b.advanceBestAsk env = .ok b') :
    b'.Latched env := by
  obtain ⟨bitIdx, -, hb⟩ := bind_eq_ok_iff.mp hb
  obtain ⟨b₁, hclear, hb⟩ := bind_eq_ok_iff.mp hb
  obtain ⟨s, hs, -⟩ := clearLevelBit_frame hclear
  have h₁ : b₁.Latched env := h.onlySide ⟨s, hs⟩
  obtain ⟨nextAsk, -, hb⟩ := bind_eq_ok_iff.mp hb
  obtain ⟨nextBitIdx, -, hb⟩ := bind_eq_ok_iff.mp hb
  obtain ⟨adjacent, -, hb⟩ := bind_eq_ok_iff.mp hb
  split at hb
  · cases hb
    exact ⟨h₁.inPublicEntry, h₁.ownerThread⟩
  · obtain ⟨b₂, hforward, hb⟩ := bind_eq_ok_iff.mp hb
    cases hb
    exact (h₁.onlySide (fastForwardBestAsk_onlySide hforward)).record _ _ _ _ _

theorem advanceBestBid (h : b.Latched env) (hb : b.advanceBestBid env = .ok b') :
    b'.Latched env := by
  obtain ⟨bitIdx, -, hb⟩ := bind_eq_ok_iff.mp hb
  obtain ⟨b₁, hclear, hb⟩ := bind_eq_ok_iff.mp hb
  obtain ⟨s, hs, -⟩ := clearLevelBit_frame hclear
  have h₁ : b₁.Latched env := h.onlySide ⟨s, hs⟩
  obtain ⟨adjacent, -, hb⟩ := bind_eq_ok_iff.mp hb
  split at hb
  · obtain ⟨best, -, hb⟩ := bind_eq_ok_iff.mp hb
    obtain ⟨bestIdx, -, hb⟩ := bind_eq_ok_iff.mp hb
    cases hb
    exact ⟨h₁.inPublicEntry, h₁.ownerThread⟩
  · obtain ⟨b₂, hforward, hb⟩ := bind_eq_ok_iff.mp hb
    cases hb
    exact (h₁.onlySide (fastForwardBestBid_onlySide hforward)).record _ _ _ _ _

theorem advanceBest (h : b.Latched env) (hb : b.advanceBest env side = .ok b') :
    b'.Latched env := by
  cases side with
  | Buy => exact h.advanceBestBid hb
  | Sell => exact h.advanceBestAsk hb

theorem applyTrade {levelIdx : Nat} (h : b.Latched env)
    (hb : Exec.applyTrade side levelIdx i n b = .ok b') : b'.Latched env := by
  obtain ⟨maker, -, hb⟩ := bind_eq_ok_iff.mp hb
  obtain ⟨quantity, -, hb⟩ := bind_eq_ok_iff.mp hb
  obtain ⟨b₁, hslot, hb⟩ := bind_eq_ok_iff.mp hb
  obtain ⟨level, -, hb⟩ := bind_eq_ok_iff.mp hb
  obtain ⟨totalQuantity, -, hb⟩ := bind_eq_ok_iff.mp hb
  exact (h.modifySlot hslot).setLevel hb

theorem dropFilledMaker {levelIdx : Nat} {maker : Order} (h : b.Latched env)
    (hb : Exec.dropFilledMaker env side levelIdx i n maker b = .ok b') : b'.Latched env := by
  simp only [Exec.dropFilledMaker] at hb
  obtain ⟨b₁, hforget, hb⟩ := bind_eq_ok_iff.mp hb
  obtain ⟨b₂, hfree, hb⟩ := bind_eq_ok_iff.mp hb
  have h₂ := ((h.record _ _ _ _ _).forgetOrder hforget).deallocate hfree
  obtain ⟨level, -, hb⟩ := bind_eq_ok_iff.mp hb
  obtain ⟨orderCount, -, hb⟩ := bind_eq_ok_iff.mp hb
  obtain ⟨activeCount, -, hb⟩ := bind_eq_ok_iff.mp hb
  obtain ⟨b₃, hset, hb⟩ := bind_eq_ok_iff.mp hb
  have counted : ({ b₂ with activeCount } : OrderBook).Latched env :=
    ⟨h₂.inPublicEntry, h₂.ownerThread⟩
  have h₃ := counted.setLevel hset
  split at hb
  · exact h₃.modifySlot hb
  · cases hb
    exact h₃

end Latched

end OrderBook

namespace Exec

open OrderBook

variable {σ τ : Type} {env : Env} {R : σ → τ → Prop} {x : Exec σ} {y : Exec τ} {b : OrderBook}
variable {side : Side} {takerId i k n fuel : Nat}
variable {onTrade : TradeCallback σ} {onTrade' : TradeCallback τ}

/-- Two clients, related by `R`, of one book on which a call is in progress. -/
structure Paired (env : Env) (R : σ → τ → Prop) (x : Exec σ) (y : Exec τ) : Prop where
  book : x.book = y.book
  latched : y.book.Latched env
  client : R x.client y.client

/-- Given equal latched books, the callbacks leave equal latched books. -/
def Corresponds (env : Env) (R : σ → τ → Prop) (onTrade : TradeCallback σ)
    (onTrade' : TradeCallback τ) : Prop :=
  ∀ trade x y, Paired env R x y →
    Alike (onTrade trade x) (onTrade' trade y) (Paired env R)

theorem Paired.setBook (h : Paired env R x y) (hb : b.Latched env) :
    Paired env R (x.setBook b) (y.setBook b) :=
  ⟨rfl, hb, h.client⟩

/-- The same answer and the same book, for clients related by `R`. -/
def SameOutcome (R : σ → τ → Prop) (a : (RejectReason × Nat) × Exec σ)
    (b : (RejectReason × Nat) × Exec τ) : Prop :=
  a.1 = b.1 ∧ a.2.book = b.2.book ∧ R a.2.client b.2.client

section Loops

variable (hc : Corresponds env R onTrade onTrade')
include hc

theorem fillOneOrder_alike (h : Paired env R x y) :
    Alike (x.fillOneOrder env side takerId onTrade i) (y.fillOneOrder env side takerId onTrade' i)
      (Paired env R) := by
  rw [fillOneOrder, fillOneOrder, h.book]
  refine alike_bind_same (fun maker _ => ?_)
  refine (hc _ x y h).bind (fun x' y' h' => ?_)
  rw [h'.book]
  refine alike_bind_same (fun maker' _ => ?_)
  refine alike_bind_same (fun b₁ hforget => ?_)
  refine alike_bind_same (fun b₂ hfree => ?_)
  refine alike_bind_same (fun activeCount _ => ?_)
  have h₂ := (((h'.latched.record _ _ _ _ _).record _ _ _ _ _).forgetOrder hforget).deallocate hfree
  exact h'.setBook ⟨h₂.inPublicEntry, h₂.ownerThread⟩

theorem fillEachOrder_alike (h : Paired env R x y) :
    Alike (fillEachOrder env side takerId onTrade fuel i x)
      (fillEachOrder env side takerId onTrade' fuel i y) (Paired env R) := by
  induction fuel generalizing i x y with
  | zero => rfl
  | succ fuel ih =>
      rw [fillEachOrder, fillEachOrder, h.book]
      split
      · refine alike_bind_same (fun maker _ => ?_)
        refine alike_bind_same (fun _ _ => ?_)
        refine (hc _ x y h).bind (fun x' y' h' => ?_)
        rw [h'.book]
        refine alike_bind_same (fun maker' _ => ?_)
        refine alike_bind_same (fun b₁ hforget => ?_)
        exact ih (h'.setBook
          (((h'.latched.record _ _ _ _ _).record _ _ _ _ _).forgetOrder hforget))
      · exact h

theorem fillLevel_alike (h : Paired env R x y) :
    Alike (x.fillLevel env side takerId onTrade i n) (y.fillLevel env side takerId onTrade' i n)
      (fun a b => Paired env R a.1 b.1 ∧ a.2 = b.2) := by
  rw [fillLevel, fillLevel, h.book]
  refine alike_bind_same (fun level _ => ?_)
  refine alike_bind_same (fun levelQty _ => ?_)
  have filled : Alike
      (if level.orderCount = 1 then x.fillOneOrder env side takerId onTrade level.head
        else do
          y.book.prefetchOrderMap level.head
          let x ← x.fillEachOrder env side takerId onTrade (y.book.orderPool.capacity + 1)
            level.head
          let level' ← x.book.level side.opposite i
          let orderPool ← x.book.orderPool.deallocateChain env level'.head level'.tail
          let activeCount ← checkedSub x.book.activeCount level.orderCount
          pure (x.setBook { x.book with orderPool, activeCount }))
      (if level.orderCount = 1 then y.fillOneOrder env side takerId onTrade' level.head
        else do
          y.book.prefetchOrderMap level.head
          let y ← y.fillEachOrder env side takerId onTrade' (y.book.orderPool.capacity + 1)
            level.head
          let level' ← y.book.level side.opposite i
          let orderPool ← y.book.orderPool.deallocateChain env level'.head level'.tail
          let activeCount ← checkedSub y.book.activeCount level.orderCount
          pure (y.setBook { y.book with orderPool, activeCount }))
      (Paired env R) := by
    split
    · exact fillOneOrder_alike hc h
    · refine alike_bind_same (fun _ _ => ?_)
      refine (fillEachOrder_alike hc h).bind (fun x' y' h' => ?_)
      rw [h'.book]
      refine alike_bind_same (fun level' _ => ?_)
      refine alike_bind_same (fun orderPool _ => ?_)
      refine alike_bind_same (fun activeCount _ => ?_)
      exact h'.setBook ⟨h'.latched.inPublicEntry, h'.latched.ownerThread⟩
  refine filled.bind (fun x' y' h' => ?_)
  rw [h'.book]
  refine alike_bind_same (fun takerQuantity _ => ?_)
  refine alike_bind_same (fun level' _ => ?_)
  refine alike_bind_same (fun b₁ hset => ?_)
  exact ⟨h'.setBook (h'.latched.setLevel hset), rfl⟩

theorem fillPartially_alike (h : Paired env R x y) :
    Alike (fillPartially env side takerId onTrade k fuel i n x)
      (fillPartially env side takerId onTrade' k fuel i n y)
      (fun a b => Paired env R a.1 b.1 ∧ a.2 = b.2) := by
  induction fuel generalizing i n x y with
  | zero => rfl
  | succ fuel ih =>
      rw [fillPartially, fillPartially, h.book]
      split
      · refine alike_bind_same (fun maker _ => ?_)
        refine (hc _ x y h).bind (fun x' y' h' => ?_)
        rw [h'.book]
        refine alike_bind_same (fun maker' _ => ?_)
        refine alike_bind_same (fun takerQuantity _ => ?_)
        refine alike_bind_same (fun b₁ happly => ?_)
        have h₁ := (h'.latched.record _ _ _ _ _).applyTrade happly
        refine alike_bind_same (fun maker'' _ => ?_)
        refine alike_bind_same (fun _ _ => ?_)
        refine alike_bind_same (fun b₂ hdrop => ?_)
        refine ih (h'.setBook ?_)
        split at hdrop
        · exact h₁.dropFilledMaker hdrop
        · cases hdrop
          exact h₁
      · exact ⟨h, rfl⟩

theorem matchBestLevel_alike (h : Paired env R x y) :
    Alike (x.matchBestLevel env side takerId onTrade n)
      (y.matchBestLevel env side takerId onTrade' n)
      (fun a b => Paired env R a.1 b.1 ∧ a.2 = b.2) := by
  rw [matchBestLevel, matchBestLevel, h.book]
  refine alike_bind_same (fun level _ => ?_)
  refine Alike.bind (R := fun a b => Paired env R a.1 b.1 ∧ a.2 = b.2) ?_ ?_
  · split
    · exact fillLevel_alike hc h
    · refine alike_bind_same (fun _ _ => ?_)
      exact fillPartially_alike hc h
  · rintro ⟨x', m⟩ ⟨y', m'⟩ ⟨h', rfl⟩
    have hbook : x'.book = y'.book := h'.book
    simp only [hbook]
    refine alike_bind_same (fun level' _ => ?_)
    split
    · refine alike_bind_same (fun b₁ hadvance => ?_)
      exact ⟨h'.setBook (h'.latched.advanceBest hadvance), rfl⟩
    · exact ⟨h', rfl⟩

theorem matchLoop_alike (h : Paired env R x y) :
    Alike (matchLoop env side takerId onTrade k fuel n x)
      (matchLoop env side takerId onTrade' k fuel n y)
      (fun a b => Paired env R a.1 b.1 ∧ a.2 = b.2) := by
  induction fuel generalizing n x y with
  | zero => rfl
  | succ fuel ih =>
      simp only [matchLoop, h.book]
      split
      · refine (matchBestLevel_alike hc h).bind ?_
        rintro ⟨x', m⟩ ⟨y', m'⟩ ⟨h', rfl⟩
        exact ih h'
      · exact ⟨h, rfl⟩

theorem executeOrder_alike {id price quantity : Nat} {type : OrderType} (h : Paired env R x y) :
    Alike (x.executeOrder env id type price quantity side onTrade)
      (y.executeOrder env id type price quantity side onTrade') (SameOutcome R) := by
  have h₀ : Paired env R
      (x.setBook (y.book.record env .OrderSubmitted id price quantity side.toByte))
      (y.setBook (y.book.record env .OrderSubmitted id price quantity side.toByte)) :=
    h.setBook (h.latched.record _ _ _ _ _)
  simp only [executeOrder, matchOrderDirect, h.book]
  refine (matchLoop_alike hc h₀).bind ?_
  rintro ⟨x', m⟩ ⟨y', m'⟩ ⟨h', rfl⟩
  have hbook : x'.book = y'.book := h'.book
  simp only [hbook]
  refine alike_bind_same (fun filledOut _ => ?_)
  split
  · refine alike_bind_same (fun posted _ => ?_)
    exact ⟨rfl, rfl, h'.client⟩
  · exact ⟨rfl, h'.book, h'.client⟩

theorem addOrderImpl_alike {id price quantity : Nat} {type : OrderType} (h : Paired env R x y) :
    Alike (x.addOrderImpl env id type price quantity side onTrade)
      (y.addOrderImpl env id type price quantity side onTrade') (SameOutcome R) := by
  have rejected : ∀ price reason, Alike
      (.ok (reject env id price quantity side reason x))
      (.ok (reject env id price quantity side reason y)) (SameOutcome R) := by
    intro price reason
    refine ⟨rfl, ?_, h.client⟩
    show x.book.recordReason env .OrderRejected id price quantity side.toByte reason = _
    rw [h.book]
    rfl
  rw [addOrderImpl, addOrderImpl, h.book]
  split
  · refine alike_bind_same (fun cancelled _ => ?_)
    exact ⟨rfl, rfl, h.client⟩
  split
  · exact rejected price .InvalidQuantity
  split
  · exact rejected price .OutOfBoundsOrderId
  refine alike_bind_same (fun existing _ => ?_)
  split
  · exact rejected price .DuplicateOrderId
  refine alike_bind_same (fun _ _ => ?_)
  split
  · exact rejected price .OutOfBoundsPrice
  split
  · exact rejected 0 .MarketOnEmptyBook
  exact executeOrder_alike hc h

end Loops

end Exec

end Hft
