import MatchingEngine.Properties.Clock

/-!
# Price-time priority

The makers of one side, read from the book best price first and front first, are
sorted by price and then by the call that made them rest. A taker consumes those
it accepts greedily, in this order.
-/

namespace Hft

open Machine Machine.Checked

/-- A resting order, with the number of the call that made it rest. -/
structure Maker where
  id : Nat
  price : Nat
  quantity : Nat
  stamp : Nat
  deriving DecidableEq, Repr

namespace Maker

def shrink (m : Maker) (n : Nat) : Maker := { m with quantity := m.quantity - n }

/-- The better price comes first, and the earlier order at one price. -/
def Before (side : Side) (m m' : Maker) : Prop :=
  side.Better m.price m'.price ∨ m.price = m'.price ∧ m.stamp < m'.stamp

/-- A taker of `side` accepts the price of the maker. -/
def acceptedBy (side : Side) (type : OrderType) (price : Nat) (m : Maker) : Bool :=
  type == .Market ||
    match side with
    | .Buy => decide (m.price ≤ price)
    | .Sell => decide (m.price ≥ price)

def trade (taker : Nat) (fill : Maker × Nat) : Trade := ⟨fill.1.id, taker, fill.1.price, fill.2⟩

end Maker

namespace OrderBook

def bestFirst (b : OrderBook) : Side → List Nat
  | .Buy => (List.range b.bids.levels.size).reverse
  | .Sell => List.range b.asks.levels.size

def makersAt (b : OrderBook) (stamp : Nat → Nat) (side : Side) (i : Nat) :
    Checked (List Maker) := do
  let q ← b.queue side i
  return q.map (fun (id, quantity) => ⟨id, b.minPrice + i, quantity, stamp id⟩)

/-- The makers of one side, as a taker meets them. -/
def makers (b : OrderBook) (stamp : Nat → Nat) (side : Side) : Checked (List Maker) := do
  let levels ← (b.bestFirst side).mapM (b.makersAt stamp side)
  return levels.flatten

end OrderBook

/-- What a valid order does to the makers of both sides. -/
structure Served (side : Side) (type : OrderType) (id price quantity now : Nat) (reply : Reply)
    (opposite opposite' own own' : List Maker) : Prop where
  sorted : opposite.Pairwise (Maker.Before side.opposite)
  trades : reply.trades = (Greedy.fills Maker.quantity
    (opposite.filter (Maker.acceptedBy side type price)) quantity).map (Maker.trade id)
  makers : opposite' =
    Greedy.rest Maker.quantity Maker.shrink
      (opposite.filter (Maker.acceptedBy side type price)) quantity ++
    opposite.filter (fun m => !Maker.acceptedBy side type price m)
  sortedOwn : own'.Pairwise (Maker.Before side)
  posted : ∀ left, left = quantity - Greedy.total Maker.quantity
      (opposite.filter (Maker.acceptedBy side type price)) →
    own'.Perm ((if type = .Limit ∧ 0 < left ∧ reply.reason = .Accepted then
      [⟨id, price, left, now⟩] else []) ++ own)

namespace Ledger

variable {g : Geometry} {L M : Ledger} {c : Clock} {stamp : Nat → Nat} {side : Side}
variable {i id price quantity n : Nat} {type : OrderType} {is : List Nat} {r : Resting}
variable {free : List Nat}

def maker (g : Geometry) (stamp : Nat → Nat) (p : Placed) : Maker :=
  ⟨p.order.id, g.price p.index, p.order.quantity, stamp p.order.id⟩

/-- The makers of one side, best price first and front first. -/
def makers (g : Geometry) (stamp : Nat → Nat) (L : Ledger) (side : Side) : List Maker :=
  (L.lots side (g.priority side)).map (maker g stamp)

theorem mem_resting_of_lots {p : Placed} (his : ∀ i ∈ is, i < g.range) (hp : p ∈ L.lots side is) :
    p ∈ L.resting g := by
  obtain ⟨i, hi, hp⟩ := List.mem_flatMap.mp hp
  obtain ⟨rfl, rfl, hr⟩ := mem_placed.mp hp
  exact mem_resting.mpr ⟨his _ hi, hr⟩

theorem priority_lt : ∀ i ∈ g.priority side, i < g.range := fun _ hi =>
  Geometry.mem_priority.mp hi

/-- The stamp of an id that is not at rest shows nowhere. -/
theorem makers_update (hfresh : ∀ p ∈ L.resting g, p.order.id ≠ id) :
    L.makers g (Function.update stamp id n) side = L.makers g stamp side := by
  refine List.map_congr_left (fun p hp => ?_)
  have hne := hfresh p (mem_resting_of_lots priority_lt hp)
  simp only [maker, Function.update_of_ne hne]

theorem makers_sorted (h : L.InOrder c) (side : Side) :
    (L.makers g c.stamp side).Pairwise (Maker.Before side) := by
  rw [makers, List.pairwise_map, lots, List.pairwise_flatMap]
  refine ⟨fun i _ => ?_, (g.priority_pairwise side).imp ?_⟩
  · rw [placed, List.pairwise_map]
    refine (List.pairwise_map.mp (h.increasing side i)).imp ?_
    exact fun hlt => Or.inr ⟨rfl, hlt⟩
  · intro i j hij p hp q hq
    obtain ⟨-, rfl, -⟩ := mem_placed.mp hp
    obtain ⟨-, rfl, -⟩ := mem_placed.mp hq
    refine Or.inl ?_
    cases side
    · exact Nat.add_lt_add_left hij g.minPrice
    · exact Nat.add_lt_add_left hij g.minPrice

/-- What a taker accepts is what it visits. -/
theorem acceptedBy_maker {p : Placed} (hlt : p.index < g.range) (htype : type ≠ .Cancel) :
    Maker.acceptedBy side type price (maker g stamp p) =
      Exec.crosses side (OrderBook.resolvePrice type side price) (g.price p.index) := by
  have hprice := Geometry.price_lt hlt
  cases type with
  | Cancel => exact absurd rfl htype
  | Limit => cases side <;> rfl
  | Market =>
      symm
      cases side
      · exact Exec.crosses_buy.mpr (Nat.le_of_lt hprice)
      · exact Exec.crosses_sell.mpr (Nat.zero_le _)

theorem makers_filter (htype : type ≠ .Cancel) :
    (L.makers g stamp side.opposite).filter (Maker.acceptedBy side type price) =
      (L.lots side.opposite (g.matchable side
        (OrderBook.resolvePrice type side price))).map (maker g stamp) := by
  rw [makers, List.filter_map, Geometry.matchable, ← lots_filter]
  refine congrArg _ (List.filter_congr (fun p hp => ?_))
  exact acceptedBy_maker (mem_resting.mp (mem_resting_of_lots priority_lt hp)).1 htype

theorem makers_filter_not (htype : type ≠ .Cancel) :
    (L.makers g stamp side.opposite).filter
        (fun m => !Maker.acceptedBy side type price m) =
      (L.lots side.opposite ((g.priority side.opposite).filter (fun i =>
        !Exec.crosses side (OrderBook.resolvePrice type side price) (g.price i)))).map
          (maker g stamp) := by
  rw [makers, List.filter_map, ← lots_filter]
  refine congrArg _ (List.filter_congr (fun p hp => ?_))
  exact congrArg (!·)
    (acceptedBy_maker (mem_resting.mp (mem_resting_of_lots priority_lt hp)).1 htype)

theorem makers_congr (hsame : ∀ j, M.queue side j = L.queue side j) :
    M.makers g stamp side = L.makers g stamp side := by
  rw [makers, lots_congr (fun j _ => hsame j), makers]

theorem lots_joined (hi : i ∈ is) (hnodup : is.Nodup) :
    ((L.append side i r free).lots side is).Perm (⟨side, i, r⟩ :: L.lots side is) := by
  induction is with
  | nil => exact absurd hi List.not_mem_nil
  | cons j is ih =>
      obtain ⟨hj, hnodup⟩ := List.nodup_cons.mp hnodup
      have hlots : ∀ M : Ledger, M.lots side (j :: is) = M.placed side j ++ M.lots side is :=
        fun _ => List.flatMap_cons
      rw [hlots, hlots]
      by_cases hij : j = i
      · subst hij
        have hrest : (L.append side j r free).lots side is = L.lots side is := by
          refine lots_congr (fun k hk => set_queue_of_ne ?_)
          rintro ⟨-, rfl⟩
          exact hj hk
        have hplaced : (L.append side j r free).placed side j =
            L.placed side j ++ [⟨side, j, r⟩] := by
          simp [placed, Ledger.append]
        rw [hrest, hplaced, List.append_assoc]
        exact List.perm_middle
      · have hplaced : (L.append side i r free).placed side j = L.placed side j := by
          rw [placed, Ledger.append, set_queue_of_ne (fun e => hij e.2), placed]
        rw [hplaced]
        have hmem := (List.mem_cons.mp hi).resolve_left (Ne.symm hij)
        refine ((ih hmem hnodup).append_left _).trans ?_
        exact List.perm_middle

/-- The makers a sweep leaves, and what it has traded with them. -/
theorem sweep_served (h : L.WellFormed g) (htype : type ≠ .Cancel) (stamp : Nat → Nat)
    {s : Sweep}
    (hs : s = sweep g side id (g.matchable side (OrderBook.resolvePrice type side price))
      quantity L) :
    s.trades = (Greedy.fills Maker.quantity ((L.makers g stamp side.opposite).filter
        (Maker.acceptedBy side type price)) quantity).map (Maker.trade id) ∧
      s.ledger.makers g stamp side.opposite =
        Greedy.rest Maker.quantity Maker.shrink ((L.makers g stamp side.opposite).filter
          (Maker.acceptedBy side type price)) quantity ++
        (L.makers g stamp side.opposite).filter (fun m => !Maker.acceptedBy side type price m) ∧
      s.left = quantity - Greedy.total Maker.quantity ((L.makers g stamp side.opposite).filter
        (Maker.acceptedBy side type price)) := by
  subst hs
  have hshrink : ∀ (p : Placed) n, maker g stamp (p.shrink n) = (maker g stamp p).shrink n :=
    fun _ _ => rfl
  rw [makers_filter htype, makers_filter_not htype, Greedy.fills_map, Greedy.rest_map hshrink,
    Greedy.total_map]
  refine ⟨?_, ?_, ?_⟩
  · rw [sweep_trades (g.matchable_nodup side _), List.map_map]
    rfl
  · rw [makers, sweep_priority_lots h, List.map_append]
    rfl
  · rw [sweep_left (g.matchable_nodup side _)]
    rfl

/-- `Served` between two ledgers. -/
def Serves (g : Geometry) (side : Side) (type : OrderType) (id price quantity : Nat) (L : Ledger)
    (c : Clock) (o : Outcome) : Prop :=
  let c' := c.tick id o.reply.reason (o.ledger.find g id).isSome
  Served side type id price quantity c.calls o.reply (L.makers g c.stamp side.opposite)
    (o.ledger.makers g c'.stamp side.opposite) (L.makers g c.stamp side)
    (o.ledger.makers g c'.stamp side)

section Serves

variable (h : L.InOrder c)
include h

/-- An order for which there is no slot changes nothing. -/
theorem serves_exhausted {events : List JournalEntry}
    (hvalid : Valid g L id .Limit price quantity side)
    (hidle : ∀ j ∈ g.matchable side price, L.queue side.opposite j = []) :
    L.InOrder (c.tick id .PoolExhausted (L.find g id).isSome) →
    Serves g side .Limit id price quantity L c (L.refuse .PoolExhausted events) := by
  intro h'
  have hcrosses : (L.makers g c.stamp side.opposite).filter
      (Maker.acceptedBy side .Limit price) = [] := by
    rw [makers_filter hvalid.not_cancel, OrderBook.resolvePrice_limit, List.map_eq_nil_iff, lots,
      List.flatMap_eq_nil_iff]
    intro i hi
    rw [placed, hidle i hi, List.map_nil]
  have hkeep : (L.makers g c.stamp side.opposite).filter
      (fun m => !Maker.acceptedBy side .Limit price m) = L.makers g c.stamp side.opposite := by
    refine List.filter_eq_self.mpr (fun m hm => ?_)
    rw [List.filter_eq_nil_iff] at hcrosses
    simpa using hcrosses m hm
  refine ⟨makers_sorted h side.opposite, ?_, ?_, makers_sorted h' side, ?_⟩
  · rw [hcrosses]
    rfl
  · rw [hcrosses, hkeep]
    rfl
  · intro left _
    rw [if_neg]
    · exact List.Perm.refl _
    · rintro ⟨-, -, hreason⟩
      cases hreason

/-- An order with a rest to post joins the makers of its own side. -/
theorem serves_posted {s : Sweep} {slot filled : Nat} {events : List JournalEntry}
    (hL : L.WellFormed g) (hvalid : Valid g L id .Limit price quantity side)
    (hs : s = sweep g side id (g.matchable side price) quantity L) (hleft : 0 < s.left)
    (hM : (s.ledger.append side (price - g.minPrice) ⟨slot, id, s.left⟩ free).WellFormed g) :
    (s.ledger.append side (price - g.minPrice) ⟨slot, id, s.left⟩ free).InOrder (c.tick id
      .Accepted ((s.ledger.append side (price - g.minPrice)
        ⟨slot, id, s.left⟩ free).find g id).isSome) →
    Serves g side .Limit id price quantity L c ⟨⟨.Accepted, filled, s.trades⟩, events,
      s.ledger.append side (price - g.minPrice) ⟨slot, id, s.left⟩ free⟩ := by
  intro h'
  obtain ⟨hmin, hmax⟩ := hvalid.price_mem rfl
  have hrange := g.minPrice_add_range
  have hfresh : ∀ p ∈ s.ledger.resting g, p.order.id ≠ id := hs ▸ sweep_fresh hvalid.fresh
  obtain ⟨htrades, hmakers, htotal⟩ := sweep_served hL hvalid.not_cancel c.stamp
    ((OrderBook.resolvePrice_limit side price).symm ▸ hs)
  have hsame : ∀ j, s.ledger.queue side j = L.queue side j := fun j => by
    rw [hs, sweep_queue_of_ne (Or.inl rfl)]
  generalize hi : price - g.minPrice = i at hM h' ⊢
  have hjoined : (⟨slot, id, s.left⟩ : Resting) ∈
      (s.ledger.append side i ⟨slot, id, s.left⟩ free).queue side i := by
    simp [Ledger.append]
  have hprice : g.price i = price := by
    unfold Geometry.price
    omega
  rw [tick_of_rests hM hjoined] at h'
  simp only [Serves, tick_of_rests hM hjoined]
  refine ⟨makers_sorted h side.opposite, htrades, ?_, makers_sorted h' side, ?_⟩
  · rw [← hmakers]
    exact (makers_congr (fun _ => set_queue_opposite)).trans (makers_update hfresh)
  · rintro left rfl
    rw [← htotal, if_pos ⟨rfl, hleft, rfl⟩]
    have hlots : ((s.ledger.append side i ⟨slot, id, s.left⟩ free).lots side
        (g.priority side)).Perm (⟨side, i, ⟨slot, id, s.left⟩⟩ ::
          s.ledger.lots side (g.priority side)) :=
      lots_joined (Geometry.mem_priority.mpr (by omega)) (g.priority_nodup side)
    refine (hlots.map _).trans ?_
    rw [List.map_cons, ← makers, makers_update hfresh, makers_congr hsame]
    simp [maker, hprice]

/-- An order with nothing left to post, or a Market order, leaves its own side alone. -/
theorem serves_done {s : Sweep} {filled : Nat} {events : List JournalEntry}
    (hL : L.WellFormed g) (hvalid : Valid g L id type price quantity side)
    (hs : s = sweep g side id
      (g.matchable side (OrderBook.resolvePrice type side price)) quantity L)
    (hdone : s.left = 0 ∨ type = .Market) :
    s.ledger.InOrder (c.tick id .Accepted (s.ledger.find g id).isSome) →
    Serves g side type id price quantity L c ⟨⟨.Accepted, filled, s.trades⟩, events, s.ledger⟩ := by
  intro h'
  have hfresh : ∀ p ∈ s.ledger.resting g, p.order.id ≠ id := hs ▸ sweep_fresh hvalid.fresh
  obtain ⟨htrades, hmakers, htotal⟩ := sweep_served hL hvalid.not_cancel c.stamp hs
  have hsame : ∀ j, s.ledger.queue side j = L.queue side j := fun j => by
    rw [hs, sweep_queue_of_ne (Or.inl rfl)]
  have hgone := find_eq_none_iff.mpr hfresh
  rw [tick_of_gone (fun _ => hgone)] at h'
  simp only [Serves, tick_of_gone (fun _ => hgone)]
  refine ⟨makers_sorted h side.opposite, htrades, hmakers, makers_sorted h' side, ?_⟩
  rintro left rfl
  rw [← htotal, if_neg, makers_congr hsame]
  · exact List.Perm.refl _
  · rintro ⟨hlimit, hleft, -⟩
    rcases hdone with hzero | hmarket
    · omega
    · rw [hmarket] at hlimit
      cases hlimit

theorem execute_serves (hL : L.WellFormed g) (hvalid : Valid g L id type price quantity side) :
    (L.execute g id type price quantity side).ledger.WellFormed g →
    (L.execute g id type price quantity side).ledger.InOrder
      (c.tick id (L.execute g id type price quantity side).reply.reason
        ((L.execute g id type price quantity side).ledger.find g id).isSome) →
    Serves g side type id price quantity L c (L.execute g id type price quantity side) := by
  refine execute_cases (P := fun o => o.ledger.WellFormed g →
    o.ledger.InOrder (c.tick id o.reply.reason (o.ledger.find g id).isSome) →
    Serves g side type id price quantity L c o) hvalid ?_ ?_ ?_
  · rintro rfl - hidle - h'
    exact serves_exhausted h hvalid hidle h'
  · rintro s slot free hs rfl hleft - hM h'
    exact serves_posted h hL hvalid hs hleft hM h'
  · rintro s hs hdone - h'
    exact serves_done h hL hvalid hs hdone h'

end Serves

end Ledger

namespace OrderBook

variable {env : Env} {args : Args} {b b₀ : OrderBook} {g : Geometry} {L : Ledger} {side : Side}

/-- What `add_order` checks of a Limit or Market order. -/
structure ValidOrder (b : OrderBook) (id : UInt32) (type : OrderType) (price quantity : UInt32)
    (side : Side) : Prop where
  not_cancel : type ≠ .Cancel
  quantity_pos : 0 < quantity.toNat
  id_pos : 0 < id.toNat
  id_le : id.toNat ≤ b.maxOrderId
  fresh : b.orderExists id.toNat = .ok false
  price_mem : type = .Limit → b.minPrice ≤ price.toNat ∧ price.toNat ≤ b.maxPrice
  opposite : type = .Market → (b.side side.opposite).has = true

theorem Represents.validOrder_iff (h : Represents env g b L) {id price quantity : UInt32}
    {type : OrderType} : b.ValidOrder id type price quantity side ↔
      Ledger.Valid g L id.toNat type price.toNat quantity.toNat side := by
  have store := h.store
  have hhas : (b.side side.opposite).has = true ↔ L.best g side.opposite ≠ none := by
    rw [(h.index side.opposite).has, Option.isSome_iff_ne_none]
  have hfresh : b.orderExists id.toNat = .ok false ↔
      ∀ p ∈ L.resting g, p.order.id ≠ id.toNat := by
    rw [orderExists_eq store, Except.ok.injEq, Option.isSome_eq_false_iff,
      Option.isNone_iff_eq_none, Ledger.find_eq_none_iff]
  constructor
  · intro hv
    exact ⟨hv.not_cancel, hv.quantity_pos, hv.id_pos, store.maxOrderId ▸ hv.id_le,
      hfresh.mp hv.fresh, store.minPrice ▸ store.maxPrice ▸ hv.price_mem,
      fun htype => hhas.mp (hv.opposite htype)⟩
  · intro hv
    exact ⟨hv.not_cancel, hv.quantity_pos, hv.id_pos, store.maxOrderId.symm ▸ hv.id_le,
      hfresh.mpr hv.fresh, store.minPrice.symm ▸ store.maxPrice.symm ▸ hv.price_mem,
      fun htype => hhas.mpr (hv.opposite htype)⟩

theorem Store.bestFirst_eq (store : Store env g b L) (side : Side) :
    b.bestFirst side = g.priority side := by
  have hsize := store.levelsSize side
  cases side
  · exact congrArg (fun n => (List.range n).reverse) hsize
  · exact congrArg List.range hsize

theorem makers_eq (store : Store env g b L) (stamp : Nat → Nat) (side : Side) :
    b.makers stamp side = .ok (L.makers g stamp side) := by
  have hat : ∀ i ∈ g.priority side, b.makersAt stamp side i =
      .ok ((L.placed side i).map (Ledger.maker g stamp)) := by
    intro i hi
    rw [makersAt, queue_eq store side (Geometry.mem_priority.mp hi), ok_bind, pure_eq_ok,
      Ledger.placed, List.map_map, List.map_map, store.minPrice]
    rfl
  rw [makers, store.bestFirst_eq, mapM_eq hat, ok_bind, pure_eq_ok, Ledger.makers, Ledger.lots,
    List.map_flatMap, List.flatMap_def]

/-- A Limit or Market order that passes validation is accepted or finds no slot, and no
other is. It meets the opposite makers it accepts in the order of price and time, and
takes from them greedily. All others stay as they are, and what is left of a Limit order
goes behind all orders at its price. -/
theorem price_time_priority (h : construct env args = .ok b₀) (calls : List Call) (id : UInt32)
    (type : OrderType) (price quantity : UInt32) (side : Side) (htype : type ≠ .Cancel) :
    (checkedRuns (clockedStep env) (b₀, Clock.start) calls).Returns (fun (_, b, c) =>
      (clockedStep env (b, c) (.addOrder id type price quantity side)).Returns
        (fun (reply, b', c') =>
          (b.ValidOrder id type price quantity side ↔
            reply.reason = .Accepted ∨ reply.reason = .PoolExhausted) ∧
          (b.ValidOrder id type price quantity side →
            ∃ opposite opposite' own own', b.makers c.stamp side.opposite = .ok opposite ∧
              b'.makers c'.stamp side.opposite = .ok opposite' ∧
              b.makers c.stamp side = .ok own ∧ b'.makers c'.stamp side = .ok own' ∧
              Served side type id.toNat price.toNat quantity.toNat c.calls reply
                opposite opposite' own own'))) := by
  refine (clockedRun_spec (accepted_of_construct h) h calls).mono ?_
  generalize args.geometry _ = g
  generalize (runs (Ledger.clockedStep g) _ calls).2 = model
  rintro ⟨replies, b, c⟩ hclocked
  obtain ⟨L, c'⟩ := model
  obtain ⟨hready, hinOrder, rfl⟩ := hclocked
  refine (clockedStep_refines env g (b, c) (L, c) _ ⟨hready, hinOrder, rfl⟩).mono ?_
  rintro ⟨reply, b', c'⟩ ⟨rfl, hready', hinOrder', rfl⟩
  have hL := hready.represents.wellFormed
  have hiff : b.ValidOrder id type price quantity side ↔
      Ledger.Valid g L id.toNat type price.toNat quantity.toNat side :=
    hready.represents.validOrder_iff
  refine ⟨hiff.trans (Ledger.add_passes_iff htype).symm, fun hpasses => ?_⟩
  have hvalid := hiff.mp hpasses
  refine ⟨_, _, _, _, makers_eq hready.represents.store _ _,
    makers_eq hready'.represents.store _ _, makers_eq hready.represents.store _ _,
    makers_eq hready'.represents.store _ _, ?_⟩
  have hserves := Ledger.execute_serves hinOrder hL hvalid
  rw [← Ledger.add_of_valid hvalid] at hserves
  exact hserves (hL.add quantity.toNat_lt) hinOrder'

theorem price_time_priority_small : ∃ b₀ replies b c reply b' c',
    construct .release .small = .ok b₀ ∧
    checkedRuns (clockedStep .release) (b₀, Clock.start)
      [.addOrder 1 .Limit 101 5 .Sell, .addOrder 2 .Limit 101 7 .Sell] = .ok (replies, b, c) ∧
    clockedStep .release (b, c) (.addOrder 3 .Limit 102 8 .Buy) = .ok (reply, b', c') ∧
    reply.trades = [⟨1, 3, 101, 5⟩, ⟨2, 3, 101, 3⟩] ∧
    ∃ opposite opposite' own own', b.makers c.stamp .Sell = .ok opposite ∧
      b'.makers c'.stamp .Sell = .ok opposite' ∧
      b.makers c.stamp .Buy = .ok own ∧ b'.makers c'.stamp .Buy = .ok own' ∧
      Served .Buy .Limit 3 102 8 c.calls reply opposite opposite' own own' := by
  obtain ⟨b₀, h⟩ := construct_small .release
  obtain ⟨⟨replies, b, c⟩, hrun, hclocked⟩ := returns_iff.mp (clockedRun_spec Args.small_accepted h
    [.addOrder 1 .Limit 101 5 .Sell, .addOrder 2 .Limit 101 7 .Sell])
  obtain ⟨⟨reply, b', c'⟩, hstep, hreply, -⟩ := returns_iff.mp
    (clockedStep_refines .release _ (b, c) _ (.addOrder 3 .Limit 102 8 .Buy) hclocked)
  obtain ⟨hiff, hserved⟩ := ((price_time_priority h _ 3 .Limit 102 8 .Buy (by decide)).result
    hrun).result hstep
  have haccepted : reply = ⟨.Accepted, 8, [⟨1, 3, 101, 5⟩, ⟨2, 3, 101, 3⟩]⟩ :=
    hreply.trans (by decide)
  have htrades := congrArg Reply.trades haccepted
  have hvalid := hiff.mpr (Or.inl (congrArg Reply.reason haccepted))
  exact ⟨b₀, replies, b, c, reply, b', c', h, hrun, hstep, htrades, hserved hvalid⟩

end OrderBook

end Hft
