import MatchingEngine.Properties.Liquidity
import Mathlib.Data.List.Dedup

/-!
# The accessors are read off the open orders

Counters, bitsets, cached prices and the order map are all maintained incrementally. What
the accessors answer from them is what one would find by going through the open orders.
-/

namespace Hft

open Machine Machine.Checked

namespace Market

variable {ι π : Type} [DecidableEq π]

/-- The price that is served next. -/
def bestPrice (M : Market ι π) (side : Side) : Option π := (M.orders side).head?.map OpenOrder.price

/-- The open orders at one price. -/
def pricedAt (M : Market ι π) (side : Side) (p : π) : List (OpenOrder ι π) :=
  (M.orders side).filter (fun o => decide (o.price = p))

/-- The prices at which there are open orders. -/
def prices (M : Market ι π) (side : Side) : List π := ((M.orders side).map OpenOrder.price).dedup

end Market

namespace Ledger

variable {g : Geometry} {L : Ledger} {side : Side} {i price : Nat} {is : List Nat}

theorem lots_of_index (hnodup : is.Nodup) (hi : i ∈ is) :
    (L.lots side is).filter (fun p => p.index == i) = L.placed side i := by
  have hsingle : is.filter (fun j => j == i) = [i] := by
    rw [List.filter_beq, List.count_eq_one_of_mem hnodup hi]
    rfl
  rw [lots_filter (fun j => j == i), hsingle, lots, List.flatMap_singleton]

/-- The open orders at a price are the queue of its level. -/
theorem market_pricedAt (h : L.WellFormed g) (side : Side) (price : Nat) :
    (L.market g).pricedAt side price =
      if g.minPrice ≤ price then
        (L.placed side (price - g.minPrice)).map (openOrder g) else [] := by
  have hpriced : (L.market g).pricedAt side price =
      ((L.lots side (g.priority side)).filter
        (fun p => decide (g.price p.index = price))).map (openOrder g) := by
    rw [Market.pricedAt, market_orders, List.filter_map]
    rfl
  rw [hpriced]
  by_cases hmem : g.minPrice ≤ price ∧ price - g.minPrice < g.range
  · have hindex : ∀ p : Placed, decide (g.price p.index = price) =
        (p.index == price - g.minPrice) := by
      intro p
      rw [Bool.eq_iff_iff, decide_eq_true_iff, beq_iff_eq, Geometry.price]
      omega
    simp only [hindex]
    rw [if_pos hmem.1, lots_of_index (g.priority_nodup side) (Geometry.mem_priority.mpr hmem.2)]
  · have hnone : (L.lots side (g.priority side)).filter
        (fun p => decide (g.price p.index = price)) = [] := by
      refine List.filter_eq_nil_iff.mpr (fun p hp heq => hmem ?_)
      have hlt := (mem_resting.mp (mem_resting_of_lots priority_lt hp)).1
      have hprice : g.price p.index = price := of_decide_eq_true heq
      rw [Geometry.price] at hprice
      omega
    rw [hnone]
    split
    · rw [placed, h.outside side _ (by omega)]
      rfl
    · rfl

theorem lots_head (is : List Nat) : (L.lots side is).head?.map Placed.index =
    is.find? (fun i => !(L.queue side i).isEmpty) := by
  induction is with
  | nil => rfl
  | cons i is ih =>
      rw [lots, List.flatMap_cons, ← lots]
      cases hq : L.queue side i with
      | nil => simpa [placed, hq] using ih
      | cons r rs => simp [placed, hq]

theorem market_bestPrice (side : Side) :
    (L.market g).bestPrice side = (L.best g side).map g.price := by
  have hbest : L.best g side = (L.lots side (g.priority side)).head?.map Placed.index :=
    (lots_head (g.priority side)).symm
  rw [Market.bestPrice, market_orders, List.head?_map, Option.map_map, hbest, Option.map_map]
  rfl

/-- As many prices as occupied levels. -/
theorem market_prices (side : Side) :
    ((L.market g).prices side).length = L.levelCount g side := by
  let indices := (List.range g.range).filter (fun i => !(L.queue side i).isEmpty)
  have hinjective : Function.Injective g.price := fun _ _ heq => Nat.add_left_cancel heq
  have hnodup : (indices.map g.price).Nodup := (List.nodup_range.filter _).map hinjective
  have hmem : ∀ price, price ∈ (L.market g).prices side ↔ price ∈ indices.map g.price := by
    intro price
    rw [Market.prices, List.mem_dedup, List.mem_map, List.mem_map]
    constructor
    · rintro ⟨o, ho, rfl⟩
      obtain ⟨p, hp, rfl⟩ := List.mem_map.mp ho
      obtain ⟨i, hi, hp⟩ := List.mem_flatMap.mp hp
      obtain ⟨-, rfl, hr⟩ := mem_placed.mp hp
      refine ⟨p.index, List.mem_filter.mpr ⟨List.mem_range.mpr (priority_lt _ hi), ?_⟩, rfl⟩
      simp [List.ne_nil_of_mem hr]
    · rintro ⟨i, hi, rfl⟩
      obtain ⟨hlt, hne⟩ := List.mem_filter.mp hi
      obtain ⟨r, hr⟩ := List.exists_mem_of_ne_nil (L.queue side i) (by simpa using hne)
      refine ⟨openOrder g ⟨side, i, r⟩, List.mem_map_of_mem ?_, rfl⟩
      have hi' : i ∈ g.priority side := Geometry.mem_priority.mpr (List.mem_range.mp hlt)
      exact List.mem_flatMap.mpr ⟨i, hi', mem_placed.mpr ⟨rfl, rfl, hr⟩⟩
  have hlength := ((List.perm_ext_iff_of_nodup (List.nodup_dedup _) hnodup).mpr hmem).length_eq
  rw [List.length_map] at hlength
  rw [levelCount, List.countP_eq_length_filter]
  exact hlength

end Ledger

namespace OrderBook

variable {env : Env} {g : Geometry} {args : Args} {b b₀ : OrderBook} {L : Ledger}
variable {M : Market Nat Nat} {side : Side}

/-- What the accessors answer of a market; a best price shows its sentinel on an empty side. -/
structure Quotes (b : OrderBook) (M : Market Nat Nat) : Prop where
  hasBids : b.hasBids = (M.bestPrice .Buy).isSome
  hasAsks : b.hasAsks = (M.bestPrice .Sell).isSome
  bestBid : b.bestBid = (M.bestPrice .Buy).getD 0
  bestAsk : b.bestAsk = (M.bestPrice .Sell).getD (b.maxPrice + 1)
  orderExists : ∀ id, b.orderExists id = .ok (M.holds id)
  activeOrderCount : b.activeOrderCount = M.size
  priceLevelCount : ∀ side, b.priceLevelCount side = (M.prices side).length
  levelOrderCount : ∀ side price,
    b.levelOrderCount side price = .ok (M.pricedAt side price).length
  levelTotalQuantity : ∀ side price, b.levelTotalQuantity side price =
    .ok (Greedy.total OpenOrder.quantity (M.pricedAt side price))

theorem levelOrderCount_price (store : Store env g b L) (side : Side) (price : Nat) :
    b.levelOrderCount side price = .ok (if g.minPrice ≤ price then
      (L.queue side (price - g.minPrice)).length else 0) := by
  have hrange := g.minPrice_add_range
  by_cases hprice : price < g.minPrice ∨ price > g.maxPrice
  · rw [levelOrderCount, store.minPrice, store.maxPrice, if_pos hprice]
    split
    · rw [store.wellFormed.outside side _ (by omega)]
      rfl
    · rfl
  · obtain ⟨level, hlevel, -, hrep⟩ := store.level_eq side (i := price - g.minPrice) (by omega)
    have hcount := hrep.count
    rw [List.length_map] at hcount
    rw [levelOrderCount, store.minPrice, store.maxPrice, if_neg hprice, checkedSub,
      if_pos (by omega), ok_bind, vecRead_eq hlevel, ok_bind, hcount, if_pos (by omega)]
    rfl

theorem Represents.quotes (h : Represents env g b L) : b.Quotes (L.market g) where
  hasBids := by
    rw [Ledger.market_bestPrice, Option.isSome_map]
    exact (h.index .Buy).has
  hasAsks := by
    rw [Ledger.market_bestPrice, Option.isSome_map]
    exact (h.index .Sell).has
  bestBid := by
    rw [Ledger.market_bestPrice]
    exact (h.index .Buy).best
  bestAsk := by
    rw [Ledger.market_bestPrice, h.store.maxPrice]
    exact (h.index .Sell).best
  orderExists := fun id => by
    rw [Ledger.market_holds]
    exact orderExists_eq h.store id
  activeOrderCount := by
    rw [Ledger.market_size]
    exact h.store.active
  priceLevelCount := fun side => by
    rw [Ledger.market_prices]
    exact priceLevelCount_eq h side
  levelOrderCount := fun side price => by
    rw [levelOrderCount_price h.store, Ledger.market_pricedAt h.wellFormed]
    split
    · rw [List.length_map, Ledger.placed, List.length_map]
    · rfl
  levelTotalQuantity := fun side price => by
    rw [levelTotalQuantity_price h.store, Ledger.market_pricedAt h.wellFormed]
    split
    · rw [Greedy.total_map, Ledger.placed, Greedy.total_map]
      rfl
    · rfl

/-- In every reachable book the accessors answer what the open orders say. -/
theorem accessors_quote_orders (hb : Reachable env args b) : ∃ M : Market Nat Nat,
    (∀ side, b.openOrders side = .ok (M.orders side)) ∧ b.Quotes M := by
  obtain ⟨accepted, L, hready⟩ := hb.ready
  exact ⟨L.market _, fun side => openOrders_eq hready.represents.store side,
    hready.represents.quotes⟩

theorem accessors_quote_orders_small : ∃ b, Reachable .release .small b ∧
    b.openOrders .Buy = .ok [⟨1, 101, 5⟩] ∧ b.openOrders .Sell = .ok [⟨2, 103, 3⟩] ∧
    ∃ M : Market Nat Nat, (∀ side, b.openOrders side = .ok (M.orders side)) ∧ b.Quotes M := by
  obtain ⟨b, hb, hM⟩ := exists_after .release Args.small_accepted
    [.addOrder 1 .Limit 101 5 .Buy, .addOrder 2 .Limit 103 7 .Sell, .addOrder 3 .Limit 103 4 .Buy]
  exact ⟨b, hb, (hM.openOrders .Buy).trans (congrArg Except.ok (by decide)),
    (hM.openOrders .Sell).trans (congrArg Except.ok (by decide)), accessors_quote_orders hb⟩

end OrderBook

end Hft
