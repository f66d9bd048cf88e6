import MatchingEngine.Engine.BestPrice
import MatchingEngine.Ledger.Matching

/-!
# The searches for the next best price

Four pieces of the source look for the best occupied level after the best one has
been emptied, two of them upward and two downward. Each is proved on its own, for
any number of levels whose prices fit, and all end in the same statement: the
cached price, index and flag are those of the best occupied level, or the
sentinels of an empty side.
-/

namespace Hft.OrderBook

open Machine Machine.Checked
open Ledger (IsBest)

variable {b : OrderBook} {side : Side} {i k n : Nat} {S : Set Nat} {o : Option Nat}

/-- The bits of a side of the book say which of its `n` levels are occupied: those in `S`. -/
structure Searchable (b : OrderBook) (s : BookSide) (n : Nat) (S : Set Nat) : Prop where
  tiers : Machine.Represents s.bitset s.summary S
  bitsetSize : s.bitset.size = (n + 63) / 64
  summarySize : s.summary.size = ((n + 63) / 64 + 63) / 64
  levelsSize : s.levels.size = n
  lt_levels : ∀ i ∈ S, i < n
  maxPrice : b.maxPrice + 1 = b.minPrice + n
  fits : b.minPrice + n < 2 ^ 32

/-- Cache `o` as the best occupied level of a side. -/
def moveTo (b : OrderBook) (side : Side) (o : Option Nat) : OrderBook :=
  match o, side with
  | some i, _ =>
      b.setSide side { b.side side with best := b.minPrice + i, bestIdx := i, has := true }
  | none, .Buy => b.setSide .Buy { b.bids with best := 0, bestIdx := 0, has := false }
  | none, .Sell =>
      b.setSide .Sell
        { b.asks with best := b.maxPrice + 1, bestIdx := b.asks.levels.size - 1, has := false }

theorem moveTo_moveTo (o' : Option Nat) :
    (b.moveTo side o).moveTo side o' = b.moveTo side o' := by
  cases o <;> cases o' <;> cases side <;> rfl

namespace Searchable

variable {s : BookSide} (h : b.Searchable s n S)
include h

theorem bitset_getElem? (hi : i < n) : ∃ word, s.bitset[i / 64]? = some word :=
  ⟨_, Array.getElem?_eq_getElem (by have := h.bitsetSize; omega)⟩

theorem summary_getElem? (hi : i < n) : ∃ word, s.summary[i / 64 / 64]? = some word :=
  ⟨_, Array.getElem?_eq_getElem (by have := h.summarySize; omega)⟩

theorem moveBest_eq (hi : i < n) : b.moveBest side i =
    .ok (b.setSide side { b.side side with best := b.minPrice + i, bestIdx := i }) := by
  have hfits := h.fits
  have hsum : b.minPrice + i < 2 ^ 64 := by omega
  have hnarrow : b.minPrice + i < 2 ^ 32 := by omega
  simp only [moveBest, checkedAdd, narrow, hsum, hnarrow, if_true, ok_bind, pure_eq_ok]

end Searchable

theorem Searchable.moveTo (h : b.Searchable (b.side side) n S) (o : Option Nat) :
    (b.moveTo side o).Searchable ((b.moveTo side o).side side) n S := by
  cases o <;> cases side <;>
    exact ⟨h.tiers, h.bitsetSize, h.summarySize, h.levelsSize, h.lt_levels, h.maxPrice, h.fits⟩

/-! ## Positions -/

theorem indexUp_spec {w : Nat} {word : Word} (hw : w < 2 ^ 32) (hz : word ≠ 0) :
    (indexUp w word).Returns (fun i => ∃ c, i = w * 64 + c ∧ IsLowest word c) := by
  simp only [indexUp, returns_bind, returns_checkedMul]
  simp only [kWordBits]
  refine ⟨by omega, (countrZero_spec hz).mono ?_⟩
  rintro c ⟨hc, hlow⟩
  rw [returns_checkedAdd]
  exact ⟨by omega, c, rfl, hlow⟩

theorem indexDown_spec {w : Nat} {word : Word} (hw : w < 2 ^ 32) (hz : word ≠ 0) :
    (indexDown w word).Returns (fun i => ∃ c, i = w * 64 + c ∧ IsHighest word c) := by
  simp only [indexDown, returns_bind, returns_checkedMul, returns_checkedAdd, kWordBits,
    kTopBitIndex]
  refine ⟨by omega, by omega, (countlZero_spec hz).mono ?_⟩
  rintro z ⟨hz, hhigh⟩
  rw [returns_checkedSub]
  exact ⟨by omega, 63 - z, by omega, hhigh⟩

/-! ## Upward: the best ask -/

theorem noBestAsk_eq (h : b.Searchable b.asks n S) (hk : k < n) :
    b.noBestAsk = .ok (b.moveTo .Sell none) := by
  have hfits := h.fits
  have hmax := h.maxPrice
  have hsize := h.levelsSize
  have hlt : b.maxPrice + 1 < 2 ^ 32 := by omega
  have hle : 1 ≤ b.asks.levels.size := by omega
  simp only [noBestAsk, checkedAdd, checkedSub, hlt, hle, if_true, ok_bind, pure_eq_ok]
  rfl

theorem isBest_of_isLeastFrom (lower : ∀ j ∈ S, k ≤ j) (h : IsLeastFrom S k i) :
    IsBest .Sell S (some i) :=
  ⟨h.1, fun j hj hlt => Nat.not_lt.mpr (h.2.2 j hj (lower j hj)) hlt⟩

/-- From a summary word to the level: the end of every upward search. -/
theorem nextLevelUp_spec {w : Nat} {word : Word} (h : b.Searchable b.asks n S)
    (lower : ∀ j ∈ S, k ≤ j) (skip : ∀ j ∈ S, k / 64 < j / 64)
    (hw : w < 2 ^ 32) (hz : word ≠ 0)
    (next : ∀ c, IsLowest word c → IsLeastFrom (bits b.asks.summary) (k / 64 + 1) (w * 64 + c)) :
    (do
      let nextWordIdx ← indexUp w word
      let nextWord ← vecRead b.asks.bitset nextWordIdx
      let idx ← indexUp nextWordIdx nextWord
      let b ← b.moveBest .Sell idx
      return b.setHas .Sell true : Checked OrderBook).Returns (fun b' =>
        ∃ o', IsBest .Sell S o' ∧ b' = b.moveTo .Sell o') := by
  refine (indexUp_spec hw hz).bind ?_
  rintro nextIdx ⟨c, rfl, hc⟩
  have hnext := next c hc
  have hnonzero := (h.tiers.nonzero _).mp hnext.1
  have hread := getElem?_of_wordAt_ne_zero hnonzero
  have hlt := lt_size_of_getElem? hread
  have hfits := h.fits
  rw [h.bitsetSize] at hlt
  simp only [vecRead_eq hread, ok_bind]
  refine (indexUp_spec (by omega) hnonzero).bind ?_
  rintro idx ⟨c', rfl, hc'⟩
  have hleast := h.tiers.isLeastFrom_nextWord (fun j hj _ => skip j hj) hnext hc'
  simp only [h.moveBest_eq (h.lt_levels _ hleast.1), ok_bind, pure_eq_ok, returns_ok]
  exact ⟨_, isBest_of_isLeastFrom lower hleast, rfl⟩

/-- The summary part of both upward searches; they differ in how they end when no
word is left. -/
theorem searchAsks_spec {onNone : Checked OrderBook} (h : b.Searchable b.asks n S) (hk : k < n)
    (lower : ∀ j ∈ S, k ≤ j) (skip : ∀ j ∈ S, k / 64 < j / 64)
    (hnone : onNone = .ok (b.moveTo .Sell none)) :
    (do
      let summaryBits ← vecRead b.asks.summary (k / 64 / 64)
      let summaryWord := summaryBits &&& ~~~((bit (k / 64 % 64) - 1) <<< 1 ||| 1)
      if summaryWord ≠ 0 then do
        let nextWordIdx ← indexUp (k / 64 / 64) summaryWord
        let nextWord ← vecRead b.asks.bitset nextWordIdx
        let idx ← indexUp nextWordIdx nextWord
        let b ← b.moveBest .Sell idx
        return b.setHas .Sell true
      else do
        let first := k / 64 / 64 + 1
        match ← firstNonzeroFrom b.asks.summary (b.asks.summary.size - first) first with
        | some i => do
            let summaryWord ← vecRead b.asks.summary i
            let nextWordIdx ← indexUp i summaryWord
            let nextWord ← vecRead b.asks.bitset nextWordIdx
            let idx ← indexUp nextWordIdx nextWord
            let b ← b.moveBest .Sell idx
            return b.setHas .Sell true
        | none => onNone : Checked OrderBook).Returns (fun b' =>
        ∃ o', IsBest .Sell S o' ∧ b' = b.moveTo .Sell o') := by
  obtain ⟨sword, hsword⟩ := h.summary_getElem? hk
  have hfits := h.fits
  simp only [vecRead_eq hsword, ok_bind]
  split
  · rename_i hz
    exact nextLevelUp_spec h lower skip (by omega) hz
      (fun c hc => isLeastFrom_of_word_above hsword hc)
  · rename_i hz
    have hz := not_not.mp hz
    -- no later word shares the summary word of `k`
    have later : ∀ w ∈ bits b.asks.summary, k / 64 / 64 < w / 64 := by
      intro w hw
      obtain ⟨j, hj, rfl⟩ := (h.tiers.summary_iff w).mp hw
      exact lt_of_word_above_eq_zero hsword hz hw (skip j hj)
    have hsize := h.summarySize
    refine (firstNonzeroFrom_spec _ (by omega)).bind ?_
    intro found hfound
    cases found with
    | none =>
        refine hnone ▸ ⟨none, ?_, rfl⟩
        intro j hj
        have hw := (h.tiers.summary_iff _).mpr ⟨j, hj, rfl⟩
        exact wordAt_ne_zero_of_bitAt hw (hfound _ (later _ hw))
    | some w =>
        obtain ⟨hle, hnonzero, hzero⟩ := hfound
        have hread := getElem?_of_wordAt_ne_zero hnonzero
        have hlt := lt_size_of_getElem? hread
        simp only [vecRead_eq hread, ok_bind]
        refine nextLevelUp_spec h lower skip (by omega) hnonzero ?_
        intro c hc
        have hleast := isLeastFrom_of_later_word (b := k / 64) hle (fun j hj _ => later j hj)
          (fun w' hlt hw' => hzero w' hlt hw') hc
        refine ⟨hleast.1, ?_, fun j hj hkj => hleast.2.2 j hj (by omega)⟩
        obtain ⟨j, hj, hjw⟩ := (h.tiers.summary_iff _).mp hleast.1
        have := skip j hj
        omega

theorem word_eq_zero_skip {word : Word} (h : b.Searchable b.asks n S) (lower : ∀ j ∈ S, k ≤ j)
    (hword : b.asks.bitset[k / 64]? = some word) (hz : word &&& ~~~(bit (k % 64) - 1) = 0) :
    ∀ j ∈ S, k / 64 < j / 64 := by
  intro j hj
  rw [← h.tiers.bits_eq] at hj
  exact lt_of_word_eq_zero hword hz hj (lower j (h.tiers.bits_eq ▸ hj))

/-- The search of a cancel that removed the last order at the best ask. -/
theorem updateBestAskAfterRemove_spec (h : b.Searchable b.asks n S) (hhas : b.asks.has = true)
    (hbest : b.asks.best = b.minPrice + k) (hk : k < n) (lower : ∀ j ∈ S, k ≤ j) :
    (b.updateBestAskAfterRemove (b.minPrice + k)).Returns (fun b' =>
      ∃ o', IsBest .Sell S o' ∧ b' = b.moveTo .Sell o') := by
  obtain ⟨word, hword⟩ := h.bitset_getElem? hk
  have hfits := h.fits
  have hassert : (b.asks.has && b.asks.best == b.minPrice + k) = true := by
    simp [hhas, hbest]
  have hsub : checkedSub (b.minPrice + k) b.minPrice = .ok k := by
    simp [checkedSub]
  simp only [updateBestAskAfterRemove, check, hassert, if_true, ok_bind, hsub, kWordBits,
    vecRead_eq hword]
  split
  · rename_i hz
    refine (indexUp_spec (by omega) hz).bind ?_
    rintro idx ⟨c, rfl, hc⟩
    have hleast := isLeastFrom_of_word hword hc
    rw [h.tiers.bits_eq] at hleast
    simp only [h.moveBest_eq (h.lt_levels _ hleast.1), ok_bind, pure_eq_ok, returns_ok]
    exact ⟨_, isBest_of_isLeastFrom lower hleast, rfl⟩
  · rename_i hz
    exact searchAsks_spec h hk lower (word_eq_zero_skip h lower hword (not_not.mp hz))
      (noBestAsk_eq h hk)

/-- The search of the matching loop does the same, by its own copy of the code. -/
theorem fastForwardBestAsk_spec (h : b.Searchable b.asks n S) (hhas : b.asks.has = true)
    (hk : k < n) (lower : ∀ j ∈ S, k ≤ j) :
    (b.fastForwardBestAsk k).Returns (fun b' =>
      ∃ o', IsBest .Sell S o' ∧ b' = b.moveTo .Sell o') := by
  obtain ⟨word, hword⟩ := h.bitset_getElem? hk
  have hfits := h.fits
  simp only [fastForwardBestAsk, kWordBits, vecRead_eq hword, ok_bind]
  split
  · rename_i hz
    refine (indexUp_spec (by omega) hz).bind ?_
    rintro idx ⟨c, rfl, hc⟩
    have hleast := isLeastFrom_of_word hword hc
    rw [h.tiers.bits_eq] at hleast
    simp only [h.moveBest_eq (h.lt_levels _ hleast.1), returns_ok]
    refine ⟨_, isBest_of_isLeastFrom lower hleast, congrArg (b.setSide .Sell) ?_⟩
    -- the flag is not written on this path
    rw [← hhas]
    rfl
  · rename_i hz
    simp only [noBestAsk_eq h hk, ok_bind]
    refine (searchAsks_spec (h.moveTo none) hk lower
      (word_eq_zero_skip h lower hword (not_not.mp hz)) ?_).mono ?_
    · rfl
    · rintro b' ⟨o', ho', rfl⟩
      exact ⟨o', ho', moveTo_moveTo o'⟩

/-! ## Downward: the best bid -/

theorem noBestBid_eq : b.noBestBid = b.moveTo .Buy none := rfl

theorem isBest_of_isGreatestBelow (upper : ∀ j ∈ S, j < k) (h : IsGreatestBelow S k i) :
    IsBest .Buy S (some i) :=
  ⟨h.1, fun j hj hlt => Nat.not_lt.mpr (h.2.2 j hj (upper j hj)) hlt⟩

theorem nextLevelDown_spec {w : Nat} {word : Word} (h : b.Searchable b.bids n S)
    (upper : ∀ j ∈ S, j < k) (skip : ∀ j ∈ S, j / 64 < k / 64)
    (hw : w < 2 ^ 32) (hz : word ≠ 0)
    (previous : ∀ c, IsHighest word c →
      IsGreatestBelow (bits b.bids.summary) (k / 64) (w * 64 + c)) :
    (do
      let nextWordIdx ← indexDown w word
      let nextWord ← vecRead b.bids.bitset nextWordIdx
      let idx ← indexDown nextWordIdx nextWord
      let b ← b.moveBest .Buy idx
      return b.setHas .Buy true : Checked OrderBook).Returns (fun b' =>
        ∃ o', IsBest .Buy S o' ∧ b' = b.moveTo .Buy o') := by
  refine (indexDown_spec hw hz).bind ?_
  rintro nextIdx ⟨c, rfl, hc⟩
  have hprevious := previous c hc
  have hnonzero := (h.tiers.nonzero _).mp hprevious.1
  have hread := getElem?_of_wordAt_ne_zero hnonzero
  have hlt := lt_size_of_getElem? hread
  have hfits := h.fits
  rw [h.bitsetSize] at hlt
  simp only [vecRead_eq hread, ok_bind]
  refine (indexDown_spec (by omega) hnonzero).bind ?_
  rintro idx ⟨c', rfl, hc'⟩
  have hgreatest := h.tiers.isGreatestBelow_previousWord (fun j hj _ => skip j hj) hprevious hc'
  simp only [h.moveBest_eq (h.lt_levels _ hgreatest.1), ok_bind, pure_eq_ok, returns_ok]
  exact ⟨_, isBest_of_isGreatestBelow upper hgreatest, rfl⟩

theorem searchBids_spec {onNone : Checked OrderBook} (h : b.Searchable b.bids n S) (hk : k < n)
    (upper : ∀ j ∈ S, j < k) (skip : ∀ j ∈ S, j / 64 < k / 64)
    (hnone : onNone = .ok (b.moveTo .Buy none)) :
    (do
      let summaryBits ← vecRead b.bids.summary (k / 64 / 64)
      let summaryWord := summaryBits &&& (bit (k / 64 % 64) - 1)
      if summaryWord ≠ 0 then do
        let nextWordIdx ← indexDown (k / 64 / 64) summaryWord
        let nextWord ← vecRead b.bids.bitset nextWordIdx
        let idx ← indexDown nextWordIdx nextWord
        let b ← b.moveBest .Buy idx
        return b.setHas .Buy true
      else do
        match ← lastNonzeroBelow b.bids.summary (k / 64 / 64) with
        | some i => do
            let summaryWord ← vecRead b.bids.summary i
            let nextWordIdx ← indexDown i summaryWord
            let nextWord ← vecRead b.bids.bitset nextWordIdx
            let idx ← indexDown nextWordIdx nextWord
            let b ← b.moveBest .Buy idx
            return b.setHas .Buy true
        | none => onNone : Checked OrderBook).Returns (fun b' =>
        ∃ o', IsBest .Buy S o' ∧ b' = b.moveTo .Buy o') := by
  obtain ⟨sword, hsword⟩ := h.summary_getElem? hk
  have hfits := h.fits
  simp only [vecRead_eq hsword, ok_bind]
  split
  · rename_i hz
    exact nextLevelDown_spec h upper skip (by omega) hz
      (fun c hc => isGreatestBelow_of_word hsword hc)
  · rename_i hz
    have hz := not_not.mp hz
    have earlier : ∀ w ∈ bits b.bids.summary, w / 64 < k / 64 / 64 := by
      intro w hw
      obtain ⟨j, hj, rfl⟩ := (h.tiers.summary_iff w).mp hw
      exact lt_of_word_below_eq_zero hsword hz hw (skip j hj)
    have hsize := lt_size_of_getElem? hsword
    refine (lastNonzeroBelow_spec (Nat.le_of_lt hsize)).bind ?_
    intro found hfound
    cases found with
    | none =>
        refine hnone ▸ ⟨none, ?_, rfl⟩
        intro j hj
        have hw := (h.tiers.summary_iff _).mpr ⟨j, hj, rfl⟩
        exact wordAt_ne_zero_of_bitAt hw (hfound _ (earlier _ hw))
    | some w =>
        obtain ⟨hlt, hnonzero, hzero⟩ := hfound
        have hread := getElem?_of_wordAt_ne_zero hnonzero
        simp only [vecRead_eq hread, ok_bind]
        exact nextLevelDown_spec h upper skip (by omega) hnonzero
          (fun c hc => isGreatestBelow_of_earlier_word hlt (fun j hj _ => earlier j hj) hzero hc)

theorem word_eq_zero_skip_below {word : Word} (h : b.Searchable b.bids n S)
    (upper : ∀ j ∈ S, j < k) (hword : b.bids.bitset[k / 64]? = some word)
    (hz : word &&& (bit (k % 64) - 1) = 0) : ∀ j ∈ S, j / 64 < k / 64 := by
  intro j hj
  rw [← h.tiers.bits_eq] at hj
  exact lt_of_word_below_eq_zero hword hz hj (upper j (h.tiers.bits_eq ▸ hj))

/-- The search of a cancel that removed the last order at the best bid. -/
theorem updateBestBidAfterRemove_spec (h : b.Searchable b.bids n S) (hhas : b.bids.has = true)
    (hbest : b.bids.best = b.minPrice + k) (hk : k < n) (upper : ∀ j ∈ S, j < k) :
    (b.updateBestBidAfterRemove (b.minPrice + k)).Returns (fun b' =>
      ∃ o', IsBest .Buy S o' ∧ b' = b.moveTo .Buy o') := by
  obtain ⟨word, hword⟩ := h.bitset_getElem? hk
  have hfits := h.fits
  have hassert : (b.bids.has && b.bids.best == b.minPrice + k) = true := by
    simp [hhas, hbest]
  have hsub : checkedSub (b.minPrice + k) b.minPrice = .ok k := by
    simp [checkedSub]
  simp only [updateBestBidAfterRemove, check, hassert, if_true, ok_bind, hsub, kWordBits,
    vecRead_eq hword]
  split
  · rename_i hz
    refine (indexDown_spec (by omega) hz).bind ?_
    rintro idx ⟨c, rfl, hc⟩
    have hgreatest := isGreatestBelow_of_word hword hc
    rw [h.tiers.bits_eq] at hgreatest
    simp only [h.moveBest_eq (h.lt_levels _ hgreatest.1), ok_bind, pure_eq_ok, returns_ok]
    exact ⟨_, isBest_of_isGreatestBelow upper hgreatest, rfl⟩
  · rename_i hz
    exact searchBids_spec h hk upper
      (word_eq_zero_skip_below h upper hword (not_not.mp hz)) rfl

theorem fastForwardBestBid_spec (h : b.Searchable b.bids n S) (hhas : b.bids.has = true)
    (hk : k < n) (upper : ∀ j ∈ S, j < k) :
    (b.fastForwardBestBid k).Returns (fun b' =>
      ∃ o', IsBest .Buy S o' ∧ b' = b.moveTo .Buy o') := by
  obtain ⟨word, hword⟩ := h.bitset_getElem? hk
  have hfits := h.fits
  simp only [fastForwardBestBid, kWordBits, vecRead_eq hword, ok_bind]
  split
  · rename_i hz
    refine (indexDown_spec (by omega) hz).bind ?_
    rintro idx ⟨c, rfl, hc⟩
    have hgreatest := isGreatestBelow_of_word hword hc
    rw [h.tiers.bits_eq] at hgreatest
    simp only [h.moveBest_eq (h.lt_levels _ hgreatest.1), returns_ok]
    refine ⟨_, isBest_of_isGreatestBelow upper hgreatest, congrArg (b.setSide .Buy) ?_⟩
    rw [← hhas]
    rfl
  · rename_i hz
    rw [noBestBid_eq]
    refine (searchBids_spec (h.moveTo none) hk upper
      (word_eq_zero_skip_below h upper hword (not_not.mp hz)) ?_).mono ?_
    · rfl
    · rintro b' ⟨o', ho', rfl⟩
      exact ⟨o', ho', moveTo_moveTo o'⟩

/-! ## What moving the best price writes -/

section Writes

variable {b' before : OrderBook}

/-- Clearing a bit leaves the levels and the cached best price alone. -/
theorem clearLevelBit_frame (h : before.clearLevelBit side k = .ok b) :
    ∃ s, b = before.setSide side s ∧ s.levels = (before.side side).levels ∧
      s.best = (before.side side).best ∧ s.bestIdx = (before.side side).bestIdx ∧
      s.has = (before.side side).has := by
  obtain ⟨word, -, h⟩ := bind_eq_ok_iff.mp h
  obtain ⟨bitset, -, h⟩ := bind_eq_ok_iff.mp h
  split at h
  · obtain ⟨summaryWord, -, h⟩ := bind_eq_ok_iff.mp h
    obtain ⟨summary, -, h⟩ := bind_eq_ok_iff.mp h
    cases h
    exact ⟨_, rfl, rfl, rfl, rfl, rfl⟩
  · cases h
    exact ⟨_, rfl, rfl, rfl, rfl, rfl⟩

/-- Only one side was written. -/
def OnlySide (side : Side) (b b' : OrderBook) : Prop := ∃ s, b' = b.setSide side s

theorem OnlySide.trans {b'' : OrderBook} (h : OnlySide side b b') (h' : OnlySide side b' b'') :
    OnlySide side b b'' := by
  obtain ⟨s, rfl⟩ := h
  obtain ⟨s', rfl⟩ := h'
  cases side
  · exact ⟨s', rfl⟩
  · exact ⟨s', rfl⟩

theorem moveBest_onlySide (h : b.moveBest side i = .ok b') : OnlySide side b b' := by
  obtain ⟨sum, -, h⟩ := bind_eq_ok_iff.mp h
  obtain ⟨best, -, h⟩ := bind_eq_ok_iff.mp h
  cases h
  exact ⟨_, rfl⟩

theorem noBestAsk_onlySide (h : b.noBestAsk = .ok b') : OnlySide .Sell b b' := by
  obtain ⟨best, -, h⟩ := bind_eq_ok_iff.mp h
  obtain ⟨bestIdx, -, h⟩ := bind_eq_ok_iff.mp h
  cases h
  exact ⟨_, rfl⟩

theorem fastForwardBestAsk_onlySide (h : b.fastForwardBestAsk k = .ok b') :
    OnlySide .Sell b b' := by
  have found : ∀ {b₁ : OrderBook} {w : Nat} {word : Word}, OnlySide .Sell b b₁ →
      (do
        let nextWordIdx ← indexUp w word
        let nextWord ← vecRead b₁.asks.bitset nextWordIdx
        let idx ← indexUp nextWordIdx nextWord
        let b ← b₁.moveBest .Sell idx
        return b.setHas .Sell true : Checked OrderBook) = .ok b' → OnlySide .Sell b b' := by
    intro b₁ w word h₁ h
    obtain ⟨nextWordIdx, -, h⟩ := bind_eq_ok_iff.mp h
    obtain ⟨nextWord, -, h⟩ := bind_eq_ok_iff.mp h
    obtain ⟨idx, -, h⟩ := bind_eq_ok_iff.mp h
    obtain ⟨b₂, hmove, h⟩ := bind_eq_ok_iff.mp h
    cases h
    exact (h₁.trans (moveBest_onlySide hmove)).trans ⟨_, rfl⟩
  simp only [fastForwardBestAsk] at h
  obtain ⟨bits, -, h⟩ := bind_eq_ok_iff.mp h
  split at h
  · obtain ⟨idx, -, h⟩ := bind_eq_ok_iff.mp h
    exact moveBest_onlySide h
  · obtain ⟨b₁, hnone, h⟩ := bind_eq_ok_iff.mp h
    have h₁ := noBestAsk_onlySide hnone
    obtain ⟨summaryBits, -, h⟩ := bind_eq_ok_iff.mp h
    split at h
    · exact found h₁ h
    · obtain ⟨next, -, h⟩ := bind_eq_ok_iff.mp h
      cases next with
      | some i =>
          obtain ⟨summaryWord, -, h⟩ := bind_eq_ok_iff.mp h
          exact found h₁ h
      | none =>
          cases h
          exact h₁

theorem fastForwardBestBid_onlySide (h : b.fastForwardBestBid k = .ok b') :
    OnlySide .Buy b b' := by
  have found : ∀ {b₁ : OrderBook} {w : Nat} {word : Word}, OnlySide .Buy b b₁ →
      (do
        let nextWordIdx ← indexDown w word
        let nextWord ← vecRead b₁.bids.bitset nextWordIdx
        let idx ← indexDown nextWordIdx nextWord
        let b ← b₁.moveBest .Buy idx
        return b.setHas .Buy true : Checked OrderBook) = .ok b' → OnlySide .Buy b b' := by
    intro b₁ w word h₁ h
    obtain ⟨nextWordIdx, -, h⟩ := bind_eq_ok_iff.mp h
    obtain ⟨nextWord, -, h⟩ := bind_eq_ok_iff.mp h
    obtain ⟨idx, -, h⟩ := bind_eq_ok_iff.mp h
    obtain ⟨b₂, hmove, h⟩ := bind_eq_ok_iff.mp h
    cases h
    exact (h₁.trans (moveBest_onlySide hmove)).trans ⟨_, rfl⟩
  simp only [fastForwardBestBid] at h
  obtain ⟨bits, -, h⟩ := bind_eq_ok_iff.mp h
  split at h
  · obtain ⟨idx, -, h⟩ := bind_eq_ok_iff.mp h
    exact moveBest_onlySide h
  · have h₁ : OnlySide .Buy b b.noBestBid := ⟨_, rfl⟩
    obtain ⟨summaryBits, -, h⟩ := bind_eq_ok_iff.mp h
    split at h
    · exact found h₁ h
    · obtain ⟨next, -, h⟩ := bind_eq_ok_iff.mp h
      cases next with
      | some i =>
          obtain ⟨summaryWord, -, h⟩ := bind_eq_ok_iff.mp h
          exact found h₁ h
      | none =>
          cases h
          exact h₁

end Writes

end Hft.OrderBook
