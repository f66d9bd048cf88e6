import MatchingEngine.Verification.Book
import MatchingEngine.Verification.Search

/-!
# The bits and the best price follow the queues

A level that becomes occupied or empty changes one bit. When the best level of a
side is emptied, the search that follows caches the best of what is left.
-/

namespace Hft

open Machine Machine.Checked

/-- The cached best price of a side, set from what is known of its occupied prices. -/
def BookSide.withBest (g : Geometry) (side : Side) (s : BookSide) (o : Option Nat) : BookSide :=
  { s with best := g.bestPrice side o, bestIdx := g.bestIndex side o, has := o.isSome }

namespace OrderBook

open Ledger (IsBest)

variable {env : Env} {g : Geometry} {b : OrderBook} {L : Ledger} {side : Side} {i k : Nat}
variable {S : Set Nat} {o : Option Nat} {s : BookSide}

theorem Index.withBest (h : Index g side S o s) (o' : Option Nat) :
    Index g side S o' (s.withBest g side o') :=
  ⟨h.tiers, h.bitsetSize, h.summarySize, h.lt_range, rfl, rfl, rfl⟩

namespace Index

variable (h : Index g side S o s)
include h

theorem bitset_getElem? (hi : i < g.range) : ∃ word, s.bitset[i / 64]? = some word :=
  ⟨_, Array.getElem?_eq_getElem (by have := h.bitsetSize; omega)⟩

theorem summary_getElem? (hi : i < g.range) : ∃ word, s.summary[i / 64 / 64]? = some word :=
  ⟨_, Array.getElem?_eq_getElem (by have := h.summarySize; omega)⟩

end Index

theorem setLevelBit_spec (h : Index g side S o (b.side side)) (hi : i < g.range) :
    (b.setLevelBit side i).Returns (fun b' => ∃ s, b' = b.setSide side s ∧
      s.levels = (b.side side).levels ∧ Index g side (insert i S) o s) := by
  obtain ⟨word, hword⟩ := h.bitset_getElem? hi
  obtain ⟨sword, hsword⟩ := h.summary_getElem? hi
  simp only [setLevelBit, vecRead_eq hword, vecRead_eq hsword,
    vecWrite_eq (lt_size_of_getElem? hword), vecWrite_eq (lt_size_of_getElem? hsword), ok_bind,
    pure_eq_ok, returns_ok]
  refine ⟨_, rfl, rfl, h.tiers.insert hword hsword, by simp [h.bitsetSize],
    by simp [h.summarySize], ?_, h.has, h.best, h.bestIdx⟩
  intro j hj
  rcases Set.mem_insert_iff.mp hj with rfl | hj
  · exact hi
  · exact h.lt_range j hj

theorem clearLevelBit_spec (h : Index g side S o (b.side side)) (hi : i ∈ S) :
    (b.clearLevelBit side i).Returns (fun b' => ∃ s, b' = b.setSide side s ∧
      s.levels = (b.side side).levels ∧ Index g side (S \ {i}) o s) := by
  obtain ⟨word, hword⟩ := h.bitset_getElem? (h.lt_range i hi)
  obtain ⟨sword, hsword⟩ := h.summary_getElem? (h.lt_range i hi)
  have hlt : ∀ j ∈ S \ {i}, j < g.range := fun j hj => h.lt_range j hj.1
  simp only [clearLevelBit, vecRead_eq hword, vecRead_eq hsword,
    vecWrite_eq (lt_size_of_getElem? hword), vecWrite_eq (lt_size_of_getElem? hsword), ok_bind]
  by_cases hzero : word &&& ~~~bit (i % 64) = 0
  · rw [if_pos hzero]
    exact ⟨_, rfl, rfl, h.tiers.erase_zero hword hsword hzero, by simp [h.bitsetSize],
      by simp [h.summarySize], hlt, h.has, h.best, h.bestIdx⟩
  · rw [if_neg hzero]
    exact ⟨_, rfl, rfl, h.tiers.erase_nonzero hword hi hzero, by simp [h.bitsetSize],
      h.summarySize, hlt, h.has, h.best, h.bestIdx⟩

/-! ## Searching -/

theorem Index.searchable (hmin : b.minPrice = g.minPrice) (hmax : b.maxPrice = g.maxPrice)
    (hsize : s.levels.size = g.range) (h : Index g side S o s) : b.Searchable s g.range S := by
  have hsum := g.minPrice_add_range
  have hlt := g.max_lt
  exact ⟨h.tiers, h.bitsetSize, h.summarySize, hsize, h.lt_range, by omega, by omega⟩

theorem moveTo_eq_withBest (hmin : b.minPrice = g.minPrice) (hmax : b.maxPrice = g.maxPrice)
    (hsize : (b.side side).levels.size = g.range) (o : Option Nat) :
    b.moveTo side o = b.setSide side ((b.side side).withBest g side o) := by
  cases o with
  | some i => simp [moveTo, BookSide.withBest, Geometry.bestPrice, Geometry.bestIndex,
      Geometry.price, hmin]
  | none =>
      cases side with
      | Buy => rfl
      | Sell =>
          have hasks : b.asks.levels.size = g.range := hsize
          simp only [moveTo, hmax, hasks]
          rfl

/-- A search ends where the best price of the remaining set is cached. -/
theorem cachesBest {c : Checked OrderBook} (hmin : b.minPrice = g.minPrice)
    (hmax : b.maxPrice = g.maxPrice) (hsize : (b.side side).levels.size = g.range)
    (h : c.Returns (fun b' => ∃ o', IsBest side S o' ∧ b' = b.moveTo side o')) :
    c.Returns (fun b' => ∃ o', IsBest side S o' ∧
      b' = b.setSide side ((b.side side).withBest g side o')) := by
  refine h.mono ?_
  rintro _ ⟨o', ho', rfl⟩
  exact ⟨o', ho', moveTo_eq_withBest hmin hmax hsize o'⟩

/-! ## Moving on from an emptied level -/

theorem bestPrice_sub (hbest : b.minPrice = g.minPrice) (h : Index g side S (some i) s) :
    checkedSub s.best b.minPrice = .ok i := by
  simp [checkedSub, hbest, h.best, Geometry.bestPrice, Geometry.price]

/-- What stays of a side when its best price `i` is gone. -/
theorem better_of_isBest (h : IsBest side S (some i)) :
    ∀ j ∈ S \ {i}, side.Better i j := by
  rintro j ⟨hj, hne⟩
  rcases side.better_trichotomy i j with hij | rfl | hji
  · exact hij
  · exact absurd rfl hne
  · exact absurd hji (h.2 j hj)

/-- The search leaves the journal entry of a move that is not to the adjacent price. -/
theorem bestEvents_of_scan {S : Set Nat} (h : L.WellFormed g) (hocc : L.occupied side = S)
    (hadjacent : L.adjacent side i = []) (ho : IsBest side S o) :
    L.best g side = o ∧ Ledger.bestEvents g L side i =
      [⟨bestChanged side, 0, g.bestPrice side o, 0, side.toByte, 0⟩] := by
  have hbest : L.best g side = o := h.best_eq_iff.mpr (hocc ▸ ho)
  exact ⟨hbest, by rw [Ledger.bestEvents, if_pos hadjacent, hbest]⟩

theorem bestEvents_of_adjacent {q : List Resting} (hadjacent : L.adjacent side i = q)
    (hq : q ≠ []) : Ledger.bestEvents g L side i = [] := by
  rw [Ledger.bestEvents, if_neg (by rw [hadjacent]; exact hq)]

theorem advanceBestAsk_spec (store : Store env g b L) (h : Index g .Sell S (some i) b.asks)
    (hbest : IsBest .Sell S (some i)) (hocc : L.occupied .Sell = S \ {i}) :
    (b.advanceBestAsk env).Returns (fun b' => ∃ s,
      b' = (b.setSide .Sell s).logged env (Ledger.bestEvents g L .Sell i) ∧
      s.levels = b.asks.levels ∧ Index g .Sell (L.occupied .Sell) (L.best g .Sell) s) := by
  have hi := h.lt_range i hbest.1
  have hlower : ∀ j ∈ S \ {i}, i < j := better_of_isBest hbest
  have hprice := Geometry.price_lt hi
  have hmax := g.minPrice_add_range
  have hrange := g.range_le
  simp only [advanceBestAsk, bestPrice_sub store.minPrice h, ok_bind]
  refine (clearLevelBit_spec h hbest.1).bind ?_
  rintro _ ⟨s, rfl, hlevels, hs⟩
  have store₁ := store.congr (SameStore.setSide hlevels)
  have hvalue : (b.setSide .Sell s).asks.best = g.price i := hs.best
  have hguard : g.price i + 1 ≤ (b.setSide .Sell s).maxPrice ↔ i + 1 < g.range := by
    rw [store₁.maxPrice, Geometry.price]
    omega
  have hnext : g.price i + 1 < 2 ^ 32 := by omega
  have hnextIdx : i + 1 < 2 ^ 64 := by omega
  simp only [hvalue, checkedAdd, hnext, hnextIdx, if_true, ok_bind]
  have scan (hadjacent : L.adjacent .Sell i = []) :
      (do
        let b ← (b.setSide .Sell s).fastForwardBestAsk i
        return b.record env .BestAskChanged 0 b.asks.best 0 Side.Sell.toByte :
          Checked OrderBook).Returns (fun b' => ∃ s,
        b' = (b.setSide .Sell s).logged env (Ledger.bestEvents g L .Sell i) ∧
        s.levels = b.asks.levels ∧ Index g .Sell (L.occupied .Sell) (L.best g .Sell) s) := by
    have hsearch := hs.searchable store₁.minPrice store₁.maxPrice (store₁.levelsSize .Sell)
    refine (cachesBest store₁.minPrice store₁.maxPrice (store₁.levelsSize .Sell)
      (fastForwardBestAsk_spec hsearch hs.has hi
        (fun j hj => Nat.le_of_lt (hlower j hj)))).bind ?_
    rintro _ ⟨o, ho, rfl⟩
    obtain ⟨hL, hevents⟩ := bestEvents_of_scan store.wellFormed hocc hadjacent ho
    rw [hL, hevents, hocc]
    exact ⟨s.withBest g .Sell o, record_eq _ _ _ _ _, hlevels, hs.withBest o⟩
  by_cases hlt : i + 1 < g.range
  · obtain ⟨level, -, hread, hrep⟩ := store₁.level_eq .Sell hlt
    have hempty := hrep.isEmpty_iff
    rw [List.map_eq_nil_iff] at hempty
    simp only [if_pos (hguard.mpr hlt), hread, ok_bind, pure_eq_ok]
    by_cases hq : L.queue .Sell (i + 1) = []
    · simp only [hempty.mpr hq, Bool.not_true, Bool.false_eq_true, if_false]
      exact scan hq
    · have hoccupied := Bool.eq_false_iff.mpr (mt hempty.mp hq)
      simp only [hoccupied, Bool.not_false, if_true, returns_ok]
      have hadjacent : IsBest .Sell (S \ {i}) (some (i + 1)) :=
        ⟨hocc ▸ hq, fun j hj hji => Nat.not_lt.mpr (hlower j hj) hji⟩
      have hqueue : L.adjacent .Sell i = L.queue .Sell (i + 1) := rfl
      rw [bestEvents_of_adjacent hqueue hq, store.wellFormed.best_eq_iff.mpr (hocc ▸ hadjacent),
        hocc]
      refine ⟨s.withBest g .Sell (some (i + 1)), ?_, hlevels, hs.withBest _⟩
      have hhas : s.has = true := hs.has
      simp only [logged_nil, BookSide.withBest, Option.isSome_some, ← hhas]
      rfl
  · simp only [if_neg (fun e => hlt (hguard.mp e)), pure_eq_ok, ok_bind, Bool.false_eq_true,
      if_false]
    exact scan (store.wellFormed.outside .Sell (i + 1) (by omega))

theorem advanceBestBid_spec (store : Store env g b L) (h : Index g .Buy S (some i) b.bids)
    (hbest : IsBest .Buy S (some i)) (hocc : L.occupied .Buy = S \ {i}) :
    (b.advanceBestBid env).Returns (fun b' => ∃ s,
      b' = (b.setSide .Buy s).logged env (Ledger.bestEvents g L .Buy i) ∧
      s.levels = b.bids.levels ∧ Index g .Buy (L.occupied .Buy) (L.best g .Buy) s) := by
  have hi := h.lt_range i hbest.1
  have hupper : ∀ j ∈ S \ {i}, j < i := better_of_isBest hbest
  simp only [advanceBestBid, bestPrice_sub store.minPrice h, ok_bind]
  refine (clearLevelBit_spec h hbest.1).bind ?_
  rintro _ ⟨s, rfl, hlevels, hs⟩
  have store₁ := store.congr (SameStore.setSide hlevels)
  have hvalue : (b.setSide .Buy s).bids.best = g.price i := hs.best
  have hindex : (b.setSide .Buy s).bids.bestIdx = i := hs.bestIdx
  have hguard : g.price i > (b.setSide .Buy s).minPrice ↔ i ≠ 0 := by
    rw [store₁.minPrice, Geometry.price]
    omega
  simp only [hvalue, hindex]
  have scan (hadjacent : L.adjacent .Buy i = []) :
      (do
        let b ← (b.setSide .Buy s).fastForwardBestBid i
        return b.record env .BestBidChanged 0 b.bids.best 0 Side.Buy.toByte :
          Checked OrderBook).Returns (fun b' => ∃ s,
        b' = (b.setSide .Buy s).logged env (Ledger.bestEvents g L .Buy i) ∧
        s.levels = b.bids.levels ∧ Index g .Buy (L.occupied .Buy) (L.best g .Buy) s) := by
    have hsearch := hs.searchable store₁.minPrice store₁.maxPrice (store₁.levelsSize .Buy)
    refine (cachesBest store₁.minPrice store₁.maxPrice (store₁.levelsSize .Buy)
      (fastForwardBestBid_spec hsearch hs.has hi hupper)).bind ?_
    rintro _ ⟨o, ho, rfl⟩
    obtain ⟨hL, hevents⟩ := bestEvents_of_scan store.wellFormed hocc hadjacent ho
    rw [hL, hevents, hocc]
    exact ⟨s.withBest g .Buy o, record_eq _ _ _ _ _, hlevels, hs.withBest o⟩
  by_cases hzero : i = 0
  · simp only [if_neg (fun e => hguard.mp e hzero), pure_eq_ok, ok_bind, Bool.false_eq_true,
      if_false]
    exact scan (if_pos hzero)
  · have hone : 1 ≤ i := Nat.pos_of_ne_zero hzero
    have hqueue : L.adjacent .Buy i = L.queue .Buy (i - 1) := if_neg hzero
    obtain ⟨level, -, hread, hrep⟩ := store₁.level_eq .Buy (i := i - 1) (by omega)
    have hempty := hrep.isEmpty_iff
    rw [List.map_eq_nil_iff] at hempty
    simp only [if_pos (hguard.mpr hzero), checkedSub, if_pos hone, hread, ok_bind, pure_eq_ok]
    by_cases hq : L.queue .Buy (i - 1) = []
    · simp only [hempty.mpr hq, Bool.not_true, Bool.false_eq_true, if_false]
      exact scan (hqueue.trans hq)
    · have hoccupied := Bool.eq_false_iff.mpr (mt hempty.mp hq)
      have hprice : 1 ≤ g.price i := by
        unfold Geometry.price
        omega
      simp only [hoccupied, Bool.not_false, if_true, if_pos hprice, ok_bind, returns_ok]
      have hadjacent : IsBest .Buy (S \ {i}) (some (i - 1)) := by
        refine ⟨hocc ▸ hq, fun j hj hji => ?_⟩
        have := hupper j hj
        have hlt : i - 1 < j := hji
        omega
      rw [bestEvents_of_adjacent hqueue hq, store.wellFormed.best_eq_iff.mpr (hocc ▸ hadjacent),
        hocc]
      refine ⟨s.withBest g .Buy (some (i - 1)), ?_, hlevels, hs.withBest _⟩
      have hhas : s.has = true := hs.has
      have hprevious : g.bestPrice .Buy (some (i - 1)) = g.price i - 1 := by
        simp only [Geometry.bestPrice, Geometry.price, Option.map_some, Option.getD_some]
        omega
      simp only [logged_nil, BookSide.withBest, Option.isSome_some, ← hhas, hprevious]
      rfl

/-- After the best level `i` has been emptied, the index catches up with the store. -/
theorem advanceBest_spec (store : Store env g b L) (h : Index g side S (some i) (b.side side))
    (hbest : IsBest side S (some i)) (hocc : L.occupied side = S \ {i}) :
    (b.advanceBest env side).Returns (fun b' => ∃ s,
      b' = (b.setSide side s).logged env (Ledger.bestEvents g L side i) ∧
      s.levels = (b.side side).levels ∧ Index g side (L.occupied side) (L.best g side) s) := by
  cases side with
  | Buy => exact advanceBestBid_spec store h hbest hocc
  | Sell => exact advanceBestAsk_spec store h hbest hocc

theorem updateBestAfterRemove_spec (hmin : b.minPrice = g.minPrice)
    (hmax : b.maxPrice = g.maxPrice) (hsize : (b.side side).levels.size = g.range)
    (wellFormed : L.WellFormed g) (h : Index g side (S \ {i}) (some i) (b.side side))
    (hi : i < g.range)
    (hbest : IsBest side S (some i)) (hocc : L.occupied side = S \ {i}) :
    (b.updateBestAfterRemove side (g.price i)).Returns (fun b' => ∃ s,
      b' = b.setSide side s ∧
      s.levels = (b.side side).levels ∧ Index g side (L.occupied side) (L.best g side) s) := by
  have hbetter := better_of_isBest hbest
  have done : ∀ b', (∃ o, IsBest side (S \ {i}) o ∧
      b' = b.setSide side ((b.side side).withBest g side o)) → ∃ s, b' = b.setSide side s ∧
      s.levels = (b.side side).levels ∧ Index g side (L.occupied side) (L.best g side) s := by
    rintro _ ⟨o, ho, rfl⟩
    rw [wellFormed.best_eq_iff.mpr (hocc ▸ ho), hocc]
    exact ⟨_, rfl, rfl, h.withBest o⟩
  have hsearch := h.searchable hmin hmax hsize
  have hprice : b.minPrice + i = g.price i := congrArg (· + i) hmin
  have hcached : (b.side side).best = b.minPrice + i := h.best.trans hprice.symm
  rw [← hprice]
  refine (cachesBest hmin hmax hsize ?_).mono done
  cases side with
  | Buy => exact updateBestBidAfterRemove_spec hsearch h.has hcached hi hbetter
  | Sell =>
      exact updateBestAskAfterRemove_spec hsearch h.has hcached hi
        (fun j hj => Nat.le_of_lt (hbetter j hj))

end OrderBook

end Hft
