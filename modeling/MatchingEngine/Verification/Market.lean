import MatchingEngine.Ledger.Holdings
import MatchingEngine.Market.Market
import MatchingEngine.Properties.Priority

/-!
# A ledger is a market

Read its queues best price first and front first, and forget the slots: what is left of
a ledger is a market. Each call answers as the market does, within the limits of the
geometry.
-/

namespace Hft

open Machine

/-- What a book over `g` takes on. -/
def Geometry.limits (g : Geometry) : Limits Nat Nat where
  id := fun id => decide (id ≠ 0 ∧ id ≤ g.maxOrderId)
  price := fun p => decide (g.minPrice ≤ p ∧ p ≤ g.maxPrice)
  room := g.capacity

/-- The limit an order of a type sets. -/
def OrderType.limit (type : OrderType) (price : Nat) : Option Nat :=
  match type with
  | .Market => none
  | _ => some price

/-- What a call asks for. -/
def Call.request : Call → Request Nat Nat
  | .addOrder id type price quantity side =>
      if type = .Cancel then .cancel id.toNat
      else .order id.toNat side (type.limit price.toNat) quantity.toNat
  | .cancelOrder id => .cancel id.toNat

def Deal.trade (d : Deal Nat Nat) : Trade := ⟨d.maker, d.taker, d.price, d.quantity⟩

def Answer.reply (a : Answer Nat Nat) : Reply := ⟨a.reason, a.filled, a.deals.map Deal.trade⟩

namespace Market

/-- A market answers a call. -/
def call (limits : Limits Nat Nat) (M : Market Nat Nat) (call : Call) : Reply × Market Nat Nat :=
  Prod.map Answer.reply id (M.step limits call.request)

theorem runs_call (limits : Limits Nat Nat) (M : Market Nat Nat) (calls : List Call) :
    runs (call limits) M calls =
      Prod.map (List.map Answer.reply) id (M.run limits (calls.map Call.request)) := by
  induction calls generalizing M with
  | nil => rfl
  | cons c calls ih =>
      simp only [runs, ih]
      rfl

end Market

namespace Ledger

variable {g : Geometry} {L : Ledger} {side : Side} {i id n taker price : Nat} {type : OrderType}
variable {is free : List Nat} {p : Placed} {r : Resting}

def openOrder (g : Geometry) (p : Placed) : OpenOrder Nat Nat :=
  ⟨p.order.id, g.price p.index, p.order.quantity⟩

/-- What a ledger is, apart from its slots. -/
def market (g : Geometry) (L : Ledger) : Market Nat Nat :=
  ⟨fun side => (L.lots side (g.priority side)).map (openOrder g)⟩

@[simp] theorem market_orders (side : Side) : (L.market g).orders side =
    (L.lots side (g.priority side)).map (openOrder g) := rfl

theorem ahead_price {j : Nat} : Market.Ahead side (g.price i) (g.price j) ↔ side.Better i j := by
  cases side <;> simp [Market.Ahead, Side.Better, Geometry.price]

/-- A market taker agrees to what a ledger taker crosses. -/
theorem accepts_price (htype : type ≠ .Cancel) (hi : i < g.range) :
    Market.accepts side (type.limit price) (g.price i) =
      Exec.crosses side (OrderBook.resolvePrice type side price) (g.price i) := by
  have hprice := Geometry.price_lt hi
  cases type with
  | Cancel => exact absurd rfl htype
  | Limit => cases side <;> rfl
  | Market =>
      symm
      cases side
      · exact Exec.crosses_buy.mpr (Nat.le_of_lt hprice)
      · exact Exec.crosses_sell.mpr (Nat.zero_le _)

theorem market_filter (f : Nat → Bool) (hf : ∀ i < g.range,
      Market.accepts side (type.limit price) (g.price i) = f i) :
    ((L.market g).orders side.opposite).filter
        (fun o => Market.accepts side (type.limit price) o.price) =
      (L.lots side.opposite ((g.priority side.opposite).filter f)).map (openOrder g) ∧
    ((L.market g).orders side.opposite).filter
        (fun o => !Market.accepts side (type.limit price) o.price) =
      (L.lots side.opposite ((g.priority side.opposite).filter (fun i => !f i))).map
        (openOrder g) := by
  have hagree : ∀ p ∈ L.lots side.opposite (g.priority side.opposite),
      Market.accepts side (type.limit price) (openOrder g p).price = f p.index :=
    fun p hp => hf _ (mem_resting.mp (mem_resting_of_lots priority_lt hp)).1
  rw [← lots_filter, ← lots_filter, market]
  simp only [List.filter_map]
  refine ⟨congrArg _ (List.filter_congr hagree), congrArg _ (List.filter_congr ?_)⟩
  intro p hp
  exact congrArg (!·) (hagree p hp)

/-- The makers of a taker are the orders on the prices it visits. -/
theorem market_makers (htype : type ≠ .Cancel) :
    (L.market g).makers side (type.limit price) = (L.lots side.opposite
      (g.matchable side (OrderBook.resolvePrice type side price))).map (openOrder g) :=
  (market_filter _ (fun _ hi => accepts_price htype hi)).1

theorem market_take (h : L.WellFormed g) (htype : type ≠ .Cancel) :
    (L.market g).take side (type.limit price) n =
      (sweep g side taker (g.matchable side (OrderBook.resolvePrice type side price)) n
        L).ledger.market g := by
  have hshrink : ∀ (p : Placed) n, openOrder g (p.shrink n) = (openOrder g p).shrink n :=
    fun _ _ => rfl
  refine Market.ext_side side ?_ ?_
  · rw [Market.take, Market.set_of_opposite, market_orders, market_orders,
      lots_congr (fun j _ => sweep_queue_of_ne (Or.inl rfl))]
  · rw [Market.take, Market.set_self, market_makers htype, Greedy.rest_map hshrink,
      (market_filter _ (fun _ hi => accepts_price htype hi)).2, market_orders,
      sweep_priority_lots h, List.map_append]
    rfl

/-- An order appended at its price stands behind the better and before the worse prices. -/
theorem lots_append_eq (hsorted : is.Pairwise side.Better) (hi : i ∈ is) :
    ((L.append side i r free).lots side is).map (openOrder g) =
      Market.queueUp side ⟨r.id, g.price i, r.quantity⟩
        ((L.lots side is).map (openOrder g)) := by
  have hlots : ∀ (M : Ledger) j is, M.lots side (j :: is) = M.placed side j ++ M.lots side is :=
    fun _ _ _ => List.flatMap_cons
  induction hsorted with
  | nil => exact absurd hi List.not_mem_nil
  | @cons j is hj _ ih =>
      have hother : ∀ k, k ≠ i → (L.append side i r free).placed side k = L.placed side k := by
        intro k hk
        rw [placed, Ledger.append, set_queue_of_ne (fun e => hk e.2), placed]
      have hprices : ∀ m ∈ (L.placed side j).map (openOrder g), m.price = g.price j := by
        intro m hm
        obtain ⟨p, hp, rfl⟩ := List.mem_map.mp hm
        obtain ⟨-, rfl, -⟩ := mem_placed.mp hp
        rfl
      rw [hlots, hlots, List.map_append, List.map_append]
      by_cases hij : j = i
      · -- the queue the order joins: the rest of the prices are worse
        subst hij
        have hworse : ∀ m ∈ (L.lots side is).map (openOrder g),
            Market.Ahead side (g.price j) m.price := by
          intro m hm
          obtain ⟨p, hp, rfl⟩ := List.mem_map.mp hm
          obtain ⟨k, hk, hp⟩ := List.mem_flatMap.mp hp
          obtain ⟨-, rfl, -⟩ := mem_placed.mp hp
          exact ahead_price.mpr (hj _ hk)
        have hrest : (L.append side j r free).lots side is = L.lots side is := by
          refine lots_congr (fun k hk => set_queue_of_ne ?_)
          rintro ⟨-, rfl⟩
          exact (hj _ hk).irrefl
        have hplaced : (L.append side j r free).placed side j =
            L.placed side j ++ [⟨side, j, r⟩] := by
          simp [placed, Ledger.append]
        rw [Market.queueUp_append, Market.queueUp_of_ahead hworse, hrest, hplaced, List.map_append,
          List.append_assoc]
        · rfl
        · intro m hm
          rw [hprices m hm, ahead_price]
          exact Side.Better.irrefl
      · have hmem := (List.mem_cons.mp hi).resolve_left (Ne.symm hij)
        rw [hother j hij, ih hmem, Market.queueUp_append]
        intro m hm
        rw [hprices m hm, ahead_price]
        exact (hj i hmem).asymm

theorem market_append (hi : i < g.range) :
    (L.append side i r free).market g =
      (L.market g).post side ⟨r.id, g.price i, r.quantity⟩ := by
  refine Market.ext_side side ?_ ?_
  · rw [Market.post, Market.set_self]
    exact lots_append_eq (g.priority_pairwise side) (Geometry.mem_priority.mpr hi)
  · rw [Market.post, Market.set_opposite, market_orders, market_orders, Ledger.append,
      lots_congr (fun j _ => set_queue_opposite)]

theorem market_withdraw (h : L.WellFormed g) (hp : p ∈ L.resting g) :
    (L.remove p).market g = (L.market g).withdraw p.order.id := by
  refine Market.ext (funext (fun s => ?_))
  simp only [market_orders, Market.withdraw, List.filter_map, lots, List.filter_flatMap]
  refine congrArg _ (List.flatMap_congr (fun j hj => ?_))
  rw [placed, placed, List.filter_map]
  refine congrArg _ ?_
  by_cases hself : s = p.side ∧ j = p.index
  · obtain ⟨rfl, rfl⟩ := hself
    rw [Ledger.remove, set_queue_self]
    refine List.filter_congr (fun r _ => ?_)
    rw [Bool.eq_iff_iff, bne_iff_ne]
    exact decide_eq_true_iff.symm
  · rw [Ledger.remove, set_queue_of_ne hself]
    symm
    refine List.filter_eq_self.mpr (fun r hr => decide_eq_true ?_)
    intro hid
    obtain ⟨hside, hindex, -⟩ := h.id_inj hr (mem_resting.mp hp).2 hid
    exact hself ⟨hside, hindex⟩

theorem market_size (g : Geometry) (L : Ledger) : (L.market g).size = (L.resting g).length := by
  rw [(resting_perm g L .Sell).length_eq, List.length_append, Market.size, market_orders,
    market_orders, List.length_map, List.length_map]
  rfl

theorem market_holds (g : Geometry) (L : Ledger) (id : Nat) :
    (L.market g).holds id = (L.find g id).isSome := by
  have hfind : (L.find g id).isSome = (L.resting g).any (fun p => p.order.id == id) := by
    rw [find, Bool.eq_iff_iff, List.find?_isSome, List.any_eq_true]
  rw [hfind, (resting_perm g L .Sell).any_eq, List.any_append]
  simp only [Market.holds, market_orders, List.any_map]
  rfl

theorem market_eq_nil_iff : (L.market g).orders side = [] ↔ L.best g side = none := by
  rw [market, List.map_eq_nil_iff, lots, List.flatMap_eq_nil_iff, best, List.find?_eq_none]
  refine forall₂_congr (fun i hi => ?_)
  simp [placed]

/-! ## Calls -/

/-- The outcome of a call is what the market answers and becomes. -/
def Outcome.Is (g : Geometry) (o : Outcome) (answer : Answer Nat Nat × Market Nat Nat) : Prop :=
  o.reply = answer.1.reply ∧ o.ledger.market g = answer.2

theorem limits_id (g : Geometry) (id : Nat) :
    ¬g.limits.id id = true ↔ id = 0 ∨ id > g.maxOrderId := by
  simp only [Geometry.limits, decide_eq_true_eq]
  omega

theorem limits_price (htype : type ≠ .Cancel) :
    (type.limit price).any (fun p => !g.limits.price p) = true ↔
      type = .Limit ∧ (price < g.minPrice ∨ price > g.maxPrice) := by
  cases type with
  | Cancel => exact absurd rfl htype
  | Market => simp [OrderType.limit]
  | Limit =>
      simp only [OrderType.limit, Option.any_some, Geometry.limits, Bool.not_eq_true',
        decide_eq_false_iff_not, true_and]
      omega

theorem cancel_is (h : L.WellFormed g) (id : Nat) :
    (L.cancel g id).Is g ((L.market g).cancel g.limits id) := by
  rw [Ledger.cancel, Market.cancel]
  by_cases hbounds : id = 0 ∨ id > g.maxOrderId
  · rw [if_pos hbounds, if_pos ((limits_id g id).mpr hbounds)]
    exact ⟨rfl, rfl⟩
  · rw [if_neg hbounds, if_neg (fun e => hbounds ((limits_id g id).mp e)), market_holds]
    cases hfind : L.find g id with
    | none => exact ⟨rfl, rfl⟩
    | some p =>
        obtain ⟨hp, rfl⟩ := (find_eq_some_iff h).mp hfind
        exact ⟨rfl, market_withdraw h hp⟩

/-- What a sweep trades is what the market deals. -/
theorem market_deals (htype : type ≠ .Cancel) :
    (((Greedy.fills OpenOrder.quantity ((L.market g).makers side (type.limit price)) n).map
      (OpenOrder.deal id)).map Deal.trade) = (sweep g side id
        (g.matchable side (OrderBook.resolvePrice type side price)) n L).trades := by
  rw [market_makers htype, Greedy.fills_map, sweep_trades (g.matchable_nodup side _), List.map_map,
    List.map_map]
  rfl

theorem market_left (htype : type ≠ .Cancel) : n - Greedy.total OpenOrder.quantity
      ((L.market g).makers side (type.limit price)) = (sweep g side taker
        (g.matchable side (OrderBook.resolvePrice type side price)) n L).left := by
  rw [market_makers htype, Greedy.total_map, sweep_left (g.matchable_nodup side _)]
  rfl

theorem execute_is {quantity : Nat} (h : L.WellFormed g)
    (hvalid : Valid g L id type price quantity side) :
    (L.execute g id type price quantity side).Is g
      ((L.market g).execute g.limits id side (type.limit price) quantity) := by
  have htype := hvalid.not_cancel
  have hswept : (sweep g side id (g.matchable side (OrderBook.resolvePrice type side price))
      quantity L).ledger.WellFormed g := h.sweep (fun i hi => (Geometry.mem_matchable.mp hi).1)
  unfold Market.execute Outcome.Is
  have hremains : quantity - Greedy.total OpenOrder.quantity
      ((L.market g).makers side (type.limit price)) = (sweep g side id
        (g.matchable side (OrderBook.resolvePrice type side price)) quantity L).left :=
    market_left htype
  have htake : (L.market g).take side (type.limit price) quantity = (sweep g side id
      (g.matchable side (OrderBook.resolvePrice type side price)) quantity L).ledger.market g :=
    market_take h htype
  have hdeals : (((Greedy.fills OpenOrder.quantity ((L.market g).makers side (type.limit price))
      quantity).map (OpenOrder.deal id)).map Deal.trade) = (sweep g side id
        (g.matchable side (OrderBook.resolvePrice type side price)) quantity L).trades :=
    market_deals htype
  simp only [hremains, htake]
  generalize (Greedy.fills OpenOrder.quantity _ quantity).map _ = deals at hdeals ⊢
  generalize hs : sweep g side id (g.matchable side (OrderBook.resolvePrice type side price))
    quantity L = s at hswept hdeals ⊢
  rw [Ledger.execute, hs]
  cases type with
  | Cancel => exact absurd rfl htype
  | Market => simp [OrderType.limit, Answer.reply, hdeals]
  | Limit =>
      have hprice : g.price (price - g.minPrice) = price := (hvalid.resolvePrice (by decide)).2.symm
      have hi := (hvalid.resolvePrice (by decide)).1
      by_cases hleft : s.left = 0
      · simp [OrderType.limit, Answer.reply, hdeals, hleft]
      · have hpost : s.left > 0 ∧ OrderType.Limit ≠ .Market := ⟨Nat.pos_of_ne_zero hleft, by decide⟩
        have hcount := hswept.count_add_free
        simp only [OrderType.limit, if_pos hpost, if_neg hleft, market_size]
        cases hfree : s.ledger.free with
        | nil =>
            have hfull : ¬(s.ledger.resting g).length < g.limits.room := by
              rw [hfree, List.length_nil, Nat.add_zero] at hcount
              exact Nat.not_lt.mpr (Nat.le_of_eq hcount.symm)
            rw [if_neg hfull, Ledger.post, hfree]
            simp [Answer.reply, hdeals]
        | cons slot free =>
            have hroom : (s.ledger.resting g).length < g.limits.room := by
              rw [hfree, List.length_cons] at hcount
              exact Nat.lt_of_lt_of_le (Nat.lt_succ_of_le (Nat.le_add_right _ free.length))
                (Nat.le_of_eq hcount)
            rw [if_pos hroom, Ledger.post, hfree]
            simp only [market_append hi, hprice]
            simp [Answer.reply, hdeals]

theorem add_is {quantity : Nat} (h : L.WellFormed g) (htype : type ≠ .Cancel) :
    (L.add g id type price quantity side).Is g
      ((L.market g).order g.limits id side (type.limit price) quantity) := by
  unfold Ledger.add Market.order
  have hnone : type.limit price = none ↔ type = .Market := by
    cases type <;> simp [OrderType.limit]
  rw [if_neg htype]
  simp only [limits_id, market_holds, limits_price htype, hnone, market_eq_nil_iff]
  split_ifs with hzero hbounds hfind hprice hmarket
  · exact ⟨rfl, rfl⟩
  · exact ⟨rfl, rfl⟩
  · exact ⟨rfl, rfl⟩
  · exact ⟨rfl, rfl⟩
  · exact ⟨rfl, rfl⟩
  · exact execute_is h (Valid.of_checks htype hzero hbounds hfind hprice hmarket)

theorem step_is (h : L.WellFormed g) (call : Call) :
    (L.step g call).Is g ((L.market g).step g.limits call.request) := by
  cases call with
  | cancelOrder id => exact cancel_is h id.toNat
  | addOrder id type price quantity side =>
      by_cases htype : type = .Cancel
      · subst htype
        exact cancel_is h id.toNat
      · rw [Call.request, if_neg htype]
        exact add_is h htype

end Ledger

end Hft
