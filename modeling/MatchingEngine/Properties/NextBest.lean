import MatchingEngine.Verification.Book
import MatchingEngine.Verification.Search

/-!
# The next best price

Both copies of the search, on both sides of the book, find what a linear scan of
the levels finds, over any number of levels and from any consistent state.
-/

namespace Hft.OrderBook

open Machine Machine.Checked
open Ledger (IsBest)

/-- The indices of the levels of a side that are not empty. -/
def occupiedLevels (s : BookSide) : Set Nat :=
  {i | ∃ level, s.levels[i]? = some level ∧ level.isEmpty = false}

/-- Level `k` was the best of its side; it has been emptied and its bit cleared, and
the best price has not been moved yet. -/
structure JustEmptied (b : OrderBook) (side : Side) (n k : Nat) : Prop
    extends b.Searchable (b.side side) n (occupiedLevels (b.side side)) where
  lt : k < n
  worse : ∀ j ∈ occupiedLevels (b.side side), side.Better k j
  has : (b.side side).has = true
  best : (b.side side).best = b.minPrice + k
  bestIdx : (b.side side).bestIdx = k

variable {env : Env} {b before : OrderBook} {side : Side} {n k : Nat}

theorem JustEmptied.updateBest (h : b.JustEmptied side n k) :
    (b.updateBestAfterRemove side (b.minPrice + k)).Returns (fun b' =>
      ∃ o, IsBest side (occupiedLevels (b.side side)) o ∧ b' = b.moveTo side o) := by
  cases side with
  | Buy => exact updateBestBidAfterRemove_spec h.toSearchable h.has h.best h.lt h.worse
  | Sell =>
      exact updateBestAskAfterRemove_spec h.toSearchable h.has h.best h.lt
        (fun j hj => Nat.le_of_lt (h.worse j hj))

theorem JustEmptied.fastForward (h : b.JustEmptied side n k) :
    (b.fastForwardBest side k).Returns (fun b' =>
      ∃ o, IsBest side (occupiedLevels (b.side side)) o ∧ b' = b.moveTo side o) := by
  cases side with
  | Buy => exact fastForwardBestBid_spec h.toSearchable h.has h.lt h.worse
  | Sell =>
      exact fastForwardBestAsk_spec h.toSearchable h.has h.lt
        (fun j hj => Nat.le_of_lt (h.worse j hj))

theorem isEmpty_iff_notMem {i : Nat} {level : PriceLevel} {s : BookSide}
    (h : s.levels[i]? = some level) : level.isEmpty = true ↔ i ∉ occupiedLevels s := by
  constructor
  · rintro hempty ⟨level', hlevel', hoccupied⟩
    cases Option.some.inj (h.symm.trans hlevel')
    exact Bool.false_ne_true (hoccupied.symm.trans hempty)
  · intro hnot
    cases hempty : level.isEmpty with
    | true => rfl
    | false => exact absurd ⟨level, h, hempty⟩ hnot

theorem JustEmptied.level_eq {i : Nat} (h : b.JustEmptied side n k) (hi : i < n) :
    ∃ level, b.level side i = .ok level ∧
      (level.isEmpty = true ↔ i ∉ occupiedLevels (b.side side)) := by
  have hsize : i < (b.side side).levels.size := by
    rw [h.levelsSize]
    exact hi
  have hread := Array.getElem?_eq_getElem hsize
  exact ⟨_, vecRead_eq hread, isEmpty_iff_notMem hread⟩

/-- The fast-forward of the matching loop, with the journal entry after it. -/
theorem JustEmptied.fastForward_recorded {o : Option Nat} (h : b.JustEmptied side n k)
    (ho : IsBest side (occupiedLevels (b.side side)) o) (event : JournalEvent) (byte : Nat) :
    (do
      let b ← b.fastForwardBest side k
      return b.record env event 0 (b.side side).best 0 byte : Checked OrderBook).Returns
        (fun b' => b'.side side = (b.moveTo side o).side side) := by
  refine h.fastForward.bind ?_
  rintro _ ⟨o', ho', rfl⟩
  rw [ho'.unique ho, pure_eq_ok, returns_ok, record_eq, side_logged]

/-- What the matching loop caches for the asks: the next tick when it is occupied,
else what its fast-forward finds. -/
theorem JustEmptied.advanceAsk {o : Option Nat} (h : b.JustEmptied .Sell n k)
    (ho : IsBest .Sell (occupiedLevels b.asks) o) (hclear : before.clearLevelBit .Sell k = .ok b) :
    (before.advanceBestAsk env).Returns (fun b' => b'.asks = (b.moveTo .Sell o).asks) := by
  obtain ⟨s, hb, -, hbest, -, -⟩ := clearLevelBit_frame hclear
  have hcached : b.asks.best = b.minPrice + k := h.best
  have hfits := h.fits
  have hmax := h.maxPrice
  have hk := h.lt
  have hsub : checkedSub before.asks.best before.minPrice = .ok k := by
    have hsame : before.asks.best = b.asks.best := by
      rw [hb]
      exact hbest.symm
    have hmin : b.minPrice = before.minPrice := by rw [hb, setSide_minPrice]
    rw [hsame, hcached, hmin, checkedSub, if_pos (Nat.le_add_right _ _), Nat.add_sub_cancel_left]
  have hnext : b.minPrice + k + 1 < 2 ^ 32 := by omega
  have hnextIdx : k + 1 < 2 ^ 64 := by omega
  simp only [advanceBestAsk, hsub, hclear, hcached, checkedAdd, hnext, hnextIdx, if_true, ok_bind]
  by_cases hlt : k + 1 < n
  · obtain ⟨level, hread, hempty⟩ := h.level_eq hlt
    have hguard : b.minPrice + k + 1 ≤ b.maxPrice := by omega
    simp only [if_pos hguard, hread, ok_bind, pure_eq_ok]
    by_cases hmem : k + 1 ∈ occupiedLevels b.asks
    · have hoccupied : level.isEmpty = false := by
        rw [Bool.eq_false_iff]
        exact fun e => hempty.mp e hmem
      have hadjacent : IsBest .Sell (occupiedLevels b.asks) (some (k + 1)) := by
        refine ⟨hmem, fun j hj hjk => ?_⟩
        have hworse : k < j := h.worse j hj
        have hbetter : j < k + 1 := hjk
        omega
      have hhas : b.asks.has = true := h.has
      simp only [hoccupied, Bool.not_false, if_true, returns_ok]
      rw [← hadjacent.unique ho, moveTo, ← hhas]
      rfl
    · simp only [hempty.mpr hmem, Bool.not_true, Bool.false_eq_true, if_false]
      exact h.fastForward_recorded ho _ _
  · have hguard : ¬b.minPrice + k + 1 ≤ b.maxPrice := by omega
    simp only [if_neg hguard, pure_eq_ok, ok_bind, Bool.false_eq_true, if_false]
    exact h.fastForward_recorded ho _ _

/-- The same for the bids, where the index is counted down on its own. -/
theorem JustEmptied.advanceBid {o : Option Nat} (h : b.JustEmptied .Buy n k)
    (ho : IsBest .Buy (occupiedLevels b.bids) o) (hclear : before.clearLevelBit .Buy k = .ok b) :
    (before.advanceBestBid env).Returns (fun b' => b'.bids = (b.moveTo .Buy o).bids) := by
  obtain ⟨s, hb, -, hbest, -, -⟩ := clearLevelBit_frame hclear
  have hcached : b.bids.best = b.minPrice + k := h.best
  have hindex : b.bids.bestIdx = k := h.bestIdx
  have hk := h.lt
  have hsub : checkedSub before.bids.best before.minPrice = .ok k := by
    have hsame : before.bids.best = b.bids.best := by
      rw [hb]
      exact hbest.symm
    have hmin : b.minPrice = before.minPrice := by rw [hb, setSide_minPrice]
    rw [hsame, hcached, hmin, checkedSub, if_pos (Nat.le_add_right _ _), Nat.add_sub_cancel_left]
  simp only [advanceBestBid, hsub, hclear, hcached, hindex, ok_bind]
  by_cases hzero : k = 0
  · have hguard : ¬b.minPrice + k > b.minPrice := by omega
    simp only [if_neg hguard, pure_eq_ok, ok_bind, Bool.false_eq_true, if_false]
    exact h.fastForward_recorded ho _ _
  · have hguard : b.minPrice + k > b.minPrice := by omega
    have hone : 1 ≤ k := Nat.pos_of_ne_zero hzero
    have hprice : 1 ≤ b.minPrice + k := by omega
    obtain ⟨level, hread, hempty⟩ := h.level_eq (i := k - 1) (by omega)
    simp only [if_pos hguard, checkedSub, if_pos hone, hread, ok_bind, pure_eq_ok]
    by_cases hmem : k - 1 ∈ occupiedLevels b.bids
    · have hoccupied : level.isEmpty = false := by
        rw [Bool.eq_false_iff]
        exact fun e => hempty.mp e hmem
      have hadjacent : IsBest .Buy (occupiedLevels b.bids) (some (k - 1)) := by
        refine ⟨hmem, fun j hj hjk => ?_⟩
        have hworse : j < k := h.worse j hj
        have hbetter : k - 1 < j := hjk
        omega
      have hhas : b.bids.has = true := h.has
      have hprevious : b.minPrice + k - 1 = b.minPrice + (k - 1) := by omega
      simp only [hoccupied, Bool.not_false, if_true, if_pos hprice, ok_bind, returns_ok, hprevious]
      rw [← hadjacent.unique ho, moveTo, ← hhas]
      rfl
    · simp only [hempty.mpr hmem, Bool.not_true, Bool.false_eq_true, if_false]
      exact h.fastForward_recorded ho _ _

/-- The search of a cancel, the fast-forward of the matching loop, and the matching
loop's whole step from the book whose bit was still set, end alike. -/
theorem next_best_search (h : b.JustEmptied side n k) :
    ∃ o, IsBest side (occupiedLevels (b.side side)) o ∧
      b.updateBestAfterRemove side (b.minPrice + k) = .ok (b.moveTo side o) ∧
      b.fastForwardBest side k = .ok (b.moveTo side o) ∧
      ∀ (env : Env) (before : OrderBook), before.clearLevelBit side k = .ok b →
        (before.advanceBest env side).Returns (fun b' =>
          b'.side side = (b.moveTo side o).side side) := by
  obtain ⟨_, hupdate, o, ho, rfl⟩ := returns_iff.mp h.updateBest
  obtain ⟨_, hforward, o', ho', rfl⟩ := returns_iff.mp h.fastForward
  refine ⟨o, ho, hupdate, ho'.unique ho ▸ hforward, fun env before hclear => ?_⟩
  cases side with
  | Buy => exact h.advanceBid ho hclear
  | Sell => exact h.advanceAsk ho hclear

/-- Prices 100 to 102, the ask level 100 just emptied and one ask left at 102. -/
def gapBook : OrderBook where
  bids := emptySide 3 0 0
  asks := {
    levels := #[{}, {}, { head := 0, tail := 0, totalQuantity := 5, orderCount := 1 }]
    bitset := (Array.replicate 1 0).setIfInBounds (2 / 64) (0 ||| bit (2 % 64))
    summary := (Array.replicate 1 0).setIfInBounds (2 / 64 / 64) (0 ||| bit (2 / 64 % 64))
    best := 100, bestIdx := 0, has := true }
  minPrice := 100
  maxPrice := 102
  maxOrderId := 1
  orderMap := #[INVALID_INDEX, 0]
  orderPool := {
    capacity := 1, pool := #[{ id := 1, price := 102, quantity := 5, side := 1, written := true }]
    padding := #[0]
    freeHead := INVALID_INDEX, allocated := #[], slotState := #[], slotGeneration := #[]
    totalAllocs := 0, totalFrees := 0, liveCount := 0, highWater := 0, reports := [] }
  activeCount := 1
  journal := []
  inPublicEntry := true
  ownerThread := 0

theorem occupiedLevels_gapBook : occupiedLevels gapBook.asks = {2} := by
  refine Set.ext (fun i => ⟨?_, ?_⟩)
  · rintro ⟨level, hlevel, hoccupied⟩
    have hlt : i < 3 := lt_size_of_getElem? hlevel
    match i, hlt with
    | 0, _ | 1, _ =>
        cases hlevel
        cases hoccupied
    | 2, _ => rfl
  · rintro rfl
    exact ⟨_, rfl, rfl⟩

theorem gapBook_justEmptied : gapBook.JustEmptied .Sell 3 0 := by
  have htiers : Machine.Represents gapBook.asks.bitset gapBook.asks.summary {2} := by
    have hword : (Array.replicate 1 (0 : Word))[2 / 64]? = some 0 := rfl
    have hsword : (Array.replicate 1 (0 : Word))[2 / 64 / 64]? = some 0 := rfl
    exact ((Machine.Represents.replicate 1 1).insert hword hsword).congr (fun j => by simp)
  refine ⟨⟨occupiedLevels_gapBook ▸ htiers, rfl, rfl, rfl, ?_, rfl, by decide⟩, by decide, ?_, rfl,
    rfl, rfl⟩
  · show ∀ i ∈ occupiedLevels gapBook.asks, i < 3
    rw [occupiedLevels_gapBook]
    rintro i rfl
    decide
  · show ∀ j ∈ occupiedLevels gapBook.asks, Side.Better .Sell 0 j
    rw [occupiedLevels_gapBook]
    rintro j rfl
    decide

theorem next_best_search_small :
    ∃ o, IsBest .Sell (occupiedLevels (gapBook.side .Sell)) o ∧
      gapBook.updateBestAfterRemove .Sell (gapBook.minPrice + 0) = .ok (gapBook.moveTo .Sell o) ∧
      gapBook.fastForwardBest .Sell 0 = .ok (gapBook.moveTo .Sell o) ∧
      ∀ (env : Env) (before : OrderBook), before.clearLevelBit .Sell 0 = .ok gapBook →
        (before.advanceBest env .Sell).Returns (fun b' =>
          b'.side .Sell = (gapBook.moveTo .Sell o).side .Sell) :=
  next_best_search gapBook_justEmptied

end Hft.OrderBook
