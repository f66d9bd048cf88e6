import MatchingEngine.Market.Liquidity
import MatchingEngine.Properties.Market
import MatchingEngine.Properties.Splitting

/-!
# What the accessors predict, and what cancels undo

The level totals say beforehand what an order will fill and what it will leave. A Market
order is a Limit order at the end of the price range that is cancelled at once, and a book
whose orders are all cancelled, in any order, is as good as new.
-/

namespace Hft

open Machine Machine.Checked

namespace Ledger

variable {g : Geometry} {L : Ledger} {side : Side} {id price quantity : Nat} {type : OrderType}

theorem market_sound (h : L.WellFormed g) : Market.Sound g.limits (L.market g) where
  admitted := by
    intro side o ho
    obtain ⟨p, hp, rfl⟩ := List.mem_map.mp ho
    have hmem := mem_resting_of_lots priority_lt hp
    have hle := Geometry.price_le (mem_resting.mp hmem).1
    refine ⟨decide_eq_true ⟨Nat.ne_of_gt (h.id_pos p hmem), h.id_le p hmem⟩, decide_eq_true ?_⟩
    exact ⟨Nat.le_add_right _ _, hle⟩
  quantity_pos := by
    intro side o ho
    obtain ⟨p, hp, rfl⟩ := List.mem_map.mp ho
    exact h.quantity_pos p (mem_resting_of_lots priority_lt hp)
  ids := by
    have hids := ((resting_perm g L .Sell).map (·.order.id)).nodup_iff.mp h.ids
    rw [Market.all, market_orders, market_orders, ← List.map_append, List.map_map]
    exact hids
  room := by
    rw [market_size]
    have := h.count_add_free
    exact Nat.le.intro this

/-- What rests at the prices a taker accepts. -/
def offered (g : Geometry) (L : Ledger) (side : Side) (type : OrderType) (price : Nat) : Nat :=
  Greedy.total size (L.lots side.opposite
    (g.matchable side (OrderBook.resolvePrice type side price)))

/-- How an order that was executed changes what rests: it fills what it asks for or what it
finds, and a Limit order leaves the rest of its quantity at its own price. -/
structure Takes (g : Geometry) (L : Ledger) (side : Side) (type : OrderType)
    (price quantity : Nat) (o : Outcome) : Prop where
  filled : o.reply.filledOut = min quantity (L.offered g side type price)
  offered : o.ledger.offered g side type price = L.offered g side type price - o.reply.filledOut
  own : g.minPrice ≤ price →
    Greedy.total Resting.quantity (o.ledger.queue side (price - g.minPrice)) =
      Greedy.total Resting.quantity (L.queue side (price - g.minPrice)) +
        (if type = .Limit ∧ o.reply.reason = .Accepted then quantity - o.reply.filledOut else 0)

theorem sweep_offered (h : L.WellFormed g) {s : Sweep}
    (hs : s = sweep g side id (g.matchable side (OrderBook.resolvePrice type side price))
      quantity L) :
    s.left = quantity - L.offered g side type price ∧
      s.ledger.offered g side type price = L.offered g side type price - quantity := by
  subst hs
  refine ⟨sweep_left (g.matchable_nodup side _), ?_⟩
  rw [offered, sweep_lots h (fun i hi => (Geometry.mem_matchable.mp hi).1)
    (g.matchable_nodup side _)]
  exact Greedy.total_rest (fun _ _ _ => rfl) _ _

theorem execute_takes (h : L.WellFormed g) (hvalid : Valid g L id type price quantity side) :
    Takes g L side type price quantity (L.execute g id type price quantity side) := by
  have hown : ∀ takerPrice, (sweep g side id (g.matchable side takerPrice) quantity
      L).ledger.queue side (price - g.minPrice) = L.queue side (price - g.minPrice) :=
    fun _ => sweep_queue_of_ne (Or.inl rfl)
  refine execute_cases (P := Takes g L side type price quantity) hvalid ?_ ?_ ?_
  · rintro rfl - hidle
    have hnone : L.offered g side .Limit price = 0 := by
      have hlots : L.lots side.opposite (g.matchable side price) = [] := by
        rw [lots, List.flatMap_eq_nil_iff]
        intro i hi
        rw [placed, hidle i hi, List.map_nil]
      rw [offered, OrderBook.resolvePrice_limit, hlots, Greedy.total_nil]
    refine ⟨?_, rfl, fun _ => ?_⟩
    · rw [hnone]
      exact (Nat.min_zero quantity).symm
    · rw [if_neg (fun e => by cases e.2)]
      exact (Nat.add_zero _).symm
  · rintro s slot free hs rfl hleft -
    have hs' : s = sweep g side id (g.matchable side (OrderBook.resolvePrice .Limit side price))
        quantity L := (OrderBook.resolvePrice_limit side price).symm ▸ hs
    obtain ⟨hremains, hoffered⟩ := sweep_offered h hs'
    have hsame : (s.ledger.append side (price - g.minPrice) ⟨slot, id, s.left⟩ free).offered g side
        .Limit price = s.ledger.offered g side .Limit price := by
      rw [offered, offered, append, lots_congr (fun _ _ => set_queue_opposite)]
    refine ⟨?_, ?_, fun _ => ?_⟩
    · simp only
      omega
    · rw [hsame, hoffered]
      simp only
      omega
    · rw [append, set_queue_self, Greedy.total_append, hs, hown, if_pos ⟨rfl, rfl⟩, ← hs]
      simp only [Greedy.total_cons, Greedy.total_nil]
      omega
  · rintro s hs hdone
    obtain ⟨hremains, hoffered⟩ := sweep_offered h hs
    refine ⟨?_, ?_, fun _ => ?_⟩
    · simp only
      omega
    · rw [hoffered]
      simp only
      omega
    · rw [hs, hown, ← hs]
      simp only
      split
      · rename_i hlimit
        rcases hdone with hzero | hmarket
        · omega
        · rw [hmarket] at hlimit
          cases hlimit.1
      · rfl

end Ledger

/-- The worst price a taker of this side can agree to. -/
def Args.worstPrice (args : Args) : Side → UInt32
  | .Buy => args.maxPrice
  | .Sell => args.minPrice

namespace OrderBook

variable {env : Env} {g : Geometry} {args : Args} {b b₀ : OrderBook} {L : Ledger}
variable {M : Market Nat Nat} {side : Side}

/-- The total at any price, within the range or not. -/
theorem levelTotalQuantity_price (store : Store env g b L) (side : Side) (price : Nat) :
    b.levelTotalQuantity side price = .ok (if g.minPrice ≤ price then
      Greedy.total Resting.quantity (L.queue side (price - g.minPrice)) else 0) := by
  have hrange := g.minPrice_add_range
  by_cases hprice : price < g.minPrice ∨ price > g.maxPrice
  · rw [levelTotalQuantity, store.minPrice, store.maxPrice, if_pos hprice]
    split
    · rw [store.wellFormed.outside side _ (by omega)]
      rfl
    · rfl
  · have heq := levelTotalQuantity_eq store side (i := price - g.minPrice) (by omega)
    rw [store.minPrice, Nat.add_sub_cancel' (by omega)] at heq
    rw [heq, if_pos (by omega)]

/-- The level totals before an order say what it fills, what it leaves of the other side,
and what it adds to its own. -/
theorem totals_predict_order (hb : Reachable env args b) (id : UInt32) (type : OrderType)
    (price quantity : UInt32) (side : Side) (htype : type ≠ .Cancel) :
    (b.step env (.addOrder id type price quantity side)).Returns (fun (reply, b') =>
      reply.reason = .Accepted ∨ reply.reason = .PoolExhausted →
      ∃ offered own, b.crossable side (resolvePrice type side price.toNat) = .ok offered ∧
        reply.filledOut = min quantity.toNat offered ∧
        b'.crossable side (resolvePrice type side price.toNat) = .ok (offered - reply.filledOut) ∧
        b.levelTotalQuantity side price.toNat = .ok own ∧
        b'.levelTotalQuantity side price.toNat = .ok (own +
          if type = .Limit ∧ reply.reason = .Accepted then
            quantity.toNat - reply.filledOut else 0)) := by
  obtain ⟨accepted, L, hready⟩ := hb.ready
  refine (step_spec hready _).mono ?_
  rintro ⟨reply, b'⟩ ⟨rfl, hfollows⟩ hreason
  have hL := hready.represents.wellFormed
  have hstore := hready.represents.store
  have hstore' := (hready.follows hfollows).represents.store
  have hvalid := Ledger.valid_of_add htype hreason
  have htakes := Ledger.execute_takes hL hvalid
  rw [← Ledger.add_of_valid hvalid] at htakes
  refine ⟨_, _, crossable_eq hstore side _, htakes.filled, ?_, levelTotalQuantity_price hstore _ _,
    ?_⟩
  · rw [crossable_eq hstore']
    exact congrArg _ htakes.offered
  · rw [levelTotalQuantity_price hstore']
    refine congrArg _ ?_
    by_cases hprice : (args.geometry accepted).minPrice ≤ price.toNat
    · rw [if_pos hprice, if_pos hprice]
      exact htakes.own hprice
    · rw [if_neg hprice, if_neg hprice, if_neg, Nat.add_zero]
      exact fun e => hprice (hvalid.price_mem e.1).1

theorem totals_predict_order_small : ∃ b reply b', Reachable .release .small b ∧
    b.openOrders .Sell = .ok [⟨1, 101, 5⟩, ⟨2, 102, 7⟩] ∧
    b.step .release (.addOrder 3 .Limit 102 8 .Buy) = .ok (reply, b') ∧ reply.filledOut = 8 ∧
    ∃ offered own, b.crossable .Buy 102 = .ok offered ∧
      reply.filledOut = min 8 offered ∧
      b'.crossable .Buy 102 = .ok (offered - reply.filledOut) ∧
      b.levelTotalQuantity .Buy 102 = .ok own ∧
      b'.levelTotalQuantity .Buy 102 = .ok (own +
        if OrderType.Limit = .Limit ∧ reply.reason = .Accepted then
          8 - reply.filledOut else 0) := by
  obtain ⟨b, hb, hM⟩ := exists_after .release Args.small_accepted
    [.addOrder 1 .Limit 101 5 .Sell, .addOrder 2 .Limit 102 7 .Sell]
  obtain ⟨⟨reply, b'⟩, hstep, hreply, -⟩ := returns_iff.mp
    (step_shows .release _ b _ (.addOrder 3 .Limit 102 8 .Buy) hM)
  have hfilled : reply = ⟨.Accepted, 8, [⟨1, 3, 101, 5⟩, ⟨2, 3, 102, 3⟩]⟩ :=
    hreply.trans (by decide)
  refine ⟨b, reply, b', hb, (hM.openOrders .Sell).trans (congrArg Except.ok (by decide)), hstep,
    congrArg Reply.filledOut hfilled, ?_⟩
  exact (totals_predict_order hb 3 .Limit 102 8 .Buy (by decide)).result hstep
    (Or.inl (congrArg Reply.reason hfilled))

/-! ## Market orders and cancels -/

theorem Shows.activeOrderCount (h : Shows env g b M) : b.activeOrderCount = M.size := by
  obtain ⟨L, hready, rfl⟩ := h
  rw [Ledger.market_size]
  exact hready.represents.store.active

theorem Shows.orderExists (h : Shows env g b M) (id : Nat) :
    b.orderExists id = .ok (M.holds id) := by
  obtain ⟨L, hready, rfl⟩ := h
  rw [Ledger.market_holds]
  exact orderExists_eq hready.represents.store id

theorem Shows.sound (h : Shows env g b M) : Market.Sound g.limits M := by
  obtain ⟨L, hready, rfl⟩ := h
  exact Ledger.market_sound hready.represents.wellFormed

/-- A Market order that is accepted does what a Limit order at the worst price of the range
does, once that is cancelled. -/
theorem market_order_is_limit_cancelled (hb : Reachable env args b) (id price quantity : UInt32)
    (side : Side) :
    (b.step env (.addOrder id .Market price quantity side)).Returns (fun (reply, b₁) =>
      reply.reason = .Accepted →
      (b.run env [.addOrder id .Limit (args.worstPrice side) quantity side,
          .cancelOrder id]).Returns (fun (replies, b₂) =>
        replies = [reply, ⟨if reply.filledOut < quantity.toNat then .Accepted else .CancelFailed,
          0, []⟩] ∧
        ∀ side, ∃ orders, b₁.openOrders side = .ok orders ∧ b₂.openOrders side = .ok orders)) := by
  obtain ⟨accepted, M, hM⟩ := hb.shows
  refine (step_shows env _ b M _ hM).mono ?_
  rintro ⟨reply, b₁⟩ ⟨rfl, h₁⟩ haccepted
  refine (run_shows hM _).mono ?_
  rintro ⟨replies, b₂⟩ ⟨rfl, h₂⟩
  have hprice : (args.geometry accepted).limits.price (args.worstPrice side).toNat = true := by
    have hle := accepted.min_le_max
    cases side
    · exact decide_eq_true ⟨hle, Nat.le_refl _⟩
    · exact decide_eq_true ⟨Nat.le_refl _, hle⟩
  have hworst : ∀ p, (args.geometry accepted).limits.price p = true →
      Market.accepts side (some (args.worstPrice side).toNat) p = true := by
    intro p hp
    have hp := of_decide_eq_true hp
    cases side
    · exact decide_eq_true hp.2
    · exact decide_eq_true hp.1
  obtain ⟨hreply, hcancel⟩ := Market.order_none_eq hworst (n := quantity.toNat) hM.sound hprice
    haccepted
  have hrun : M.run (args.geometry accepted).limits
      [.order id.toNat side (some (args.worstPrice side).toNat) quantity.toNat, .cancel id.toNat] =
        ([(M.order (args.geometry accepted).limits id.toNat side none quantity.toNat).1,
          ⟨if (M.order (args.geometry accepted).limits id.toNat side none
            quantity.toNat).1.filled < quantity.toNat then .Accepted else .CancelFailed, 0, []⟩],
          (M.order (args.geometry accepted).limits id.toNat side none quantity.toNat).2) := by
    rw [← hreply]
    simp only [Market.run, runs, Market.step]
    rw [hcancel, hreply]
  simp only [List.map_cons, List.map_nil, Call.request, OrderType.limit, reduceCtorEq, if_false,
    hrun] at h₂ ⊢
  exact ⟨rfl, fun side => ⟨_, h₁.openOrders side, h₂.openOrders side⟩⟩

theorem market_order_is_limit_cancelled_small : ∃ b reply b₁, Reachable .release .small b ∧
    b.openOrders .Sell = .ok [⟨1, 101, 5⟩] ∧
    b.step .release (.addOrder 2 .Market 0 8 .Buy) = .ok (reply, b₁) ∧ reply.filledOut = 5 ∧
    (b.run .release [.addOrder 2 .Limit 103 8 .Buy, .cancelOrder 2]).Returns (fun (replies, b₂) =>
      replies = [reply, ⟨if reply.filledOut < 8 then .Accepted else .CancelFailed, 0, []⟩] ∧
      ∀ side, ∃ orders, b₁.openOrders side = .ok orders ∧ b₂.openOrders side = .ok orders) := by
  obtain ⟨b, hb, hM⟩ := exists_after .release Args.small_accepted [.addOrder 1 .Limit 101 5 .Sell]
  obtain ⟨⟨reply, b₁⟩, hstep, hreply, -⟩ := returns_iff.mp
    (step_shows .release _ b _ (.addOrder 2 .Market 0 8 .Buy) hM)
  have hfilled : reply = ⟨.Accepted, 5, [⟨1, 2, 101, 5⟩]⟩ := hreply.trans (by decide)
  refine ⟨b, reply, b₁, hb, (hM.openOrders .Sell).trans (congrArg Except.ok (by decide)), hstep,
    congrArg Reply.filledOut hfilled, ?_⟩
  exact (market_order_is_limit_cancelled hb 2 0 8 .Buy).result hstep
    (congrArg Reply.reason hfilled)

theorem map_request_cancel (ids : List UInt32) : (ids.map Call.cancelOrder).map Call.request =
    (ids.map UInt32.toNat).map Request.cancel := by
  rw [List.map_map, List.map_map]
  rfl

/-- Cancels in any order, with repetitions and unknown ids among them: every order they name is
gone, all others stay as they are, and as many cancels are accepted as orders are gone. -/
theorem mass_cancel (hb : Reachable env args b) (ids : List UInt32) :
    (b.run env (ids.map .cancelOrder)).Returns (fun (replies, b') =>
      (∀ side, ∃ orders, b.openOrders side = .ok orders ∧ b'.openOrders side =
        .ok (orders.filter (fun o => decide (o.id ∉ ids.map UInt32.toNat)))) ∧
      replies.countP (fun reply => decide (reply.reason = .Accepted)) + b'.activeOrderCount =
        b.activeOrderCount) := by
  obtain ⟨accepted, M, hM⟩ := hb.shows
  obtain ⟨hfinal, hcount⟩ := Market.run_cancels hM.sound (ids.map UInt32.toNat)
  refine (run_shows hM _).mono ?_
  rintro ⟨replies, b'⟩ ⟨rfl, hb'⟩
  rw [map_request_cancel] at hb' ⊢
  rw [hfinal] at hb'
  refine ⟨fun side => ⟨_, hM.openOrders side, hb'.openOrders side⟩, ?_⟩
  rw [List.countP_map, hb'.activeOrderCount, hM.activeOrderCount, ← hcount]
  rfl

/-- An order of each side is open; one of them is cancelled, twice, and an unknown id once. -/
theorem mass_cancel_small : ∃ b, Reachable .instrumented .small b ∧
    b.openOrders .Buy = .ok [⟨1, 101, 5⟩] ∧ b.openOrders .Sell = .ok [⟨3, 102, 7⟩] ∧
    (b.run .instrumented ([3, 2, 3].map .cancelOrder)).Returns (fun (replies, b') =>
      (∀ side, ∃ orders, b.openOrders side = .ok orders ∧ b'.openOrders side =
        .ok (orders.filter (fun o => decide (o.id ∉ [3, 2, 3].map UInt32.toNat)))) ∧
      replies.countP (fun reply => decide (reply.reason = .Accepted)) + b'.activeOrderCount =
        b.activeOrderCount) := by
  obtain ⟨b, hb, hM⟩ := exists_after .instrumented Args.small_accepted
    [.addOrder 1 .Limit 101 5 .Buy, .addOrder 3 .Limit 102 7 .Sell]
  exact ⟨b, hb, (hM.openOrders .Buy).trans (congrArg Except.ok (by decide)),
    (hM.openOrders .Sell).trans (congrArg Except.ok (by decide)), mass_cancel hb [3, 2, 3]⟩

/-- Once every open order is cancelled, in whatever order, the book answers as a new one. -/
theorem cancelled_out_is_new (h : construct env args = .ok b₀) (hb : Reachable env args b)
    (ids : List UInt32) (all : ∀ id : UInt32, b.orderExists id.toNat = .ok true → id ∈ ids)
    (calls : List Call) :
    (b.run env (ids.map .cancelOrder)).Returns (fun (_, b') =>
      (b'.run env calls).Returns (fun (replies, c) =>
        (b₀.run env calls).Returns (fun (replies', c') =>
          replies' = replies ∧ ∀ side, ∃ orders, c.openOrders side = .ok orders ∧
            c'.openOrders side = .ok orders))) := by
  obtain ⟨accepted, M, hM⟩ := hb.shows
  have hnew := construct_shows h
  obtain ⟨hfinal, -⟩ := Market.run_cancels hM.sound (ids.map UInt32.toNat)
  have hempty : M.withdrawAll (ids.map UInt32.toNat) = .empty := by
    refine Market.ext (funext (fun side => List.filter_eq_nil_iff.mpr (fun o ho => ?_)))
    have hid := of_decide_eq_true (hM.sound.admitted side o ho).1
    have hlt : o.id < 2 ^ 32 := Nat.lt_of_le_of_lt (hid.2.trans accepted.ids_le) (by decide)
    have hself : (UInt32.ofNat o.id).toNat = o.id := UInt32.toNat_ofNat_of_lt' hlt
    have hmem := all (UInt32.ofNat o.id) (by
      rw [hM.orderExists, hself, Market.holds_eq_true_iff.mpr ⟨side, o, ho, rfl⟩])
    simp only [decide_eq_true_eq, not_not]
    exact hself ▸ List.mem_map_of_mem hmem
  refine (run_shows hM _).mono ?_
  rintro ⟨-, b'⟩ ⟨-, hb'⟩
  rw [map_request_cancel, hfinal, hempty] at hb'
  refine (run_shows hb' calls).mono ?_
  rintro ⟨replies, c⟩ ⟨rfl, hc⟩
  refine (run_shows hnew calls).mono ?_
  rintro ⟨replies', c'⟩ ⟨rfl, hc'⟩
  exact ⟨rfl, fun side => ⟨_, hc.openOrders side, hc'.openOrders side⟩⟩

theorem cancelled_out_is_new_small : ∃ b₀ b, construct .release .small = .ok b₀ ∧
    Reachable .release .small b ∧
    (b.run .release ([4, 2, 1, 3].map .cancelOrder)).Returns (fun (_, b') =>
      (b'.run .release [.addOrder 1 .Limit 100 5 .Buy]).Returns (fun (replies, c) =>
        (b₀.run .release [.addOrder 1 .Limit 100 5 .Buy]).Returns (fun (replies', c') =>
          replies' = replies ∧ ∀ side, ∃ orders, c.openOrders side = .ok orders ∧
            c'.openOrders side = .ok orders))) := by
  obtain ⟨b₀, h⟩ := construct_small .release
  obtain ⟨⟨replies, b⟩, hrun, -, hM⟩ := returns_iff.mp
    (run_shows (construct_shows h) [.addOrder 1 .Limit 101 5 .Buy, .addOrder 2 .Limit 102 5 .Sell])
  have hb : Reachable .release .small b := ⟨b₀, _, replies, h, hrun⟩
  refine ⟨b₀, b, h, hb, cancelled_out_is_new h hb [4, 2, 1, 3] (fun id hid => ?_) _⟩
  rw [hM.orderExists, Except.ok.injEq] at hid
  obtain ⟨side, o, ho, hself⟩ := Market.holds_eq_true_iff.mp hid
  have hle : o.id ≠ 0 ∧ o.id ≤ 4 := of_decide_eq_true (hM.sound.admitted side o ho).1
  have hcases : id = 4 ∨ id = 2 ∨ id = 1 ∨ id = 3 := by
    simp only [← UInt32.toNat_inj, UInt32.reduceToNat]
    omega
  simpa using hcases

end OrderBook

end Hft
