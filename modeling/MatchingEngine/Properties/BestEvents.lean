import MatchingEngine.Ledger.Announcements
import MatchingEngine.Properties.Priority

/-!
# Best-price events in the journal

Whether the journal of an instrumented build follows the best prices. A call
should leave a best-price event whenever it moves the best price of a side. A
cancel that empties a best level leaves none, and neither does the matching loop
when it moves on to the next tick. All other calls do.
-/

namespace Hft.OrderBook

open Machine Machine.Checked

variable {env : Env} {args : Args} {g : Geometry} {b b' b₀ : OrderBook} {L : Ledger}
variable {side : Side} {o : Ledger.Outcome}

/-- After a call: where the best price of a side has moved, the last event about it
that the call left carries the new price, and elsewhere the old one. -/
def BestJournaled (b b' : OrderBook) : Prop :=
  ∃ events, b'.journal = b.journal ++ events ∧ ∀ side,
    (((b'.side side).has, (b'.side side).best) ≠ ((b.side side).has, (b.side side).best) →
      latestBest side events = some (b'.side side).best) ∧
    (((b'.side side).has, (b'.side side).best) = ((b.side side).has, (b.side side).best) →
      ∀ price ∈ latestBest side events, price = (b'.side side).best)

/-- What rests at one price. -/
def levelQuantity (b : OrderBook) (side : Side) (i : Nat) : Nat :=
  ((b.side side).levels[i]?.map PriceLevel.totalQuantity).getD 0

/-- What rests one tick behind a price. -/
def nextQuantity (b : OrderBook) (side : Side) (i : Nat) : Nat :=
  match side with
  | .Buy => if i = 0 then 0 else b.levelQuantity .Buy (i - 1)
  | .Sell => b.levelQuantity .Sell (i + 1)

/-- The occupied opposite prices that a taker accepts, best first, as far as its
quantity covers all that rests there. -/
def emptied (b : OrderBook) (side : Side) (takerPrice quantity : Nat) : List Nat :=
  Greedy.consumed (b.levelQuantity side.opposite)
    ((b.bestFirst side.opposite).filter (fun i =>
      Exec.crosses side takerPrice (b.minPrice + i) && b.levelQuantity side.opposite i != 0))
    quantity

/-- The order with this id is the only one at the best price of its side. -/
def LastAtBest (b : OrderBook) (id : Nat) : Prop :=
  ∃ side idx order level, b.orderMap[id]? = some idx ∧ b.orderPool.pool[idx]? = some order ∧
    order.side = Side.toByte side ∧ (b.side side).has = true ∧
    order.price = (b.side side).best ∧
    (b.side side).levels[(b.side side).bestIdx]? = some level ∧ level.orderCount = 1

/-- An order that passes validation. -/
structure Accepts (b : OrderBook) (id : Nat) (type : OrderType) (price quantity : Nat) : Prop where
  quantity_pos : 0 < quantity
  id_pos : 0 < id
  id_le : id ≤ b.maxOrderId
  fresh : b.orderMap[id]? = some INVALID_INDEX
  price_mem : type = .Limit → b.minPrice ≤ price ∧ price ≤ b.maxPrice

/-- The calls whose best-price moves are journaled: a cancel that does not take the
last order of a best price, and an order after which the tick behind the last price
it empties is empty. -/
def Announces (b : OrderBook) : Call → Prop
  | .cancelOrder id => ¬b.LastAtBest id.toNat
  | .addOrder id type price quantity side =>
      if type = .Cancel then ¬b.LastAtBest id.toNat
      else b.Accepts id.toNat type price.toNat quantity.toNat →
        ∀ i ∈ (b.emptied side (resolvePrice type side price.toNat) quantity.toNat).getLast?,
          b.nextQuantity side.opposite i = 0

/-! ## In terms of the ledger -/

theorem Represents.pair_eq_iff {M : Ledger} (h : Represents env g b L)
    (h' : Represents env g b' M) (side : Side) :
    ((b'.side side).has, (b'.side side).best) = ((b.side side).has, (b.side side).best) ↔
      M.best g side = L.best g side := by
  rw [(h.index side).has, (h.index side).best, (h'.index side).has, (h'.index side).best,
    Prod.mk.injEq]
  constructor
  · rintro ⟨hhas, hbest⟩
    cases hL : L.best g side with
    | none =>
        rw [hL, Option.isSome_none] at hhas
        exact Option.not_isSome_iff_eq_none.mp (by rw [hhas]; decide)
    | some i =>
        rw [hL, Option.isSome_some] at hhas
        obtain ⟨j, hj⟩ := Option.isSome_iff_exists.mp hhas
        rw [hL, hj] at hbest
        rw [hj, Ledger.price_inj hbest]
  · intro e
    rw [e]
    exact ⟨rfl, rfl⟩

theorem Follows.bestJournaled_iff (htools : env.debugTools = true) (h : Represents env g b L)
    (hfollows : Follows env g b b' o) :
    BestJournaled b b' ↔ ∀ side, Ledger.Announced g L o side := by
  have hjournal : b'.journal = b.journal ++ o.events := by
    rw [hfollows.kept.journal, Env.journaled, if_pos htools]
  have hbest : ∀ side, (b'.side side).best = g.bestPrice side (o.ledger.best g side) :=
    fun side => (hfollows.represents.index side).best
  constructor
  · rintro ⟨events, hevents, hall⟩ side
    obtain rfl := List.append_cancel_left (hevents.symm.trans hjournal)
    obtain ⟨hmoved, hstayed⟩ := hall side
    rw [ne_eq, h.pair_eq_iff hfollows.represents side, hbest] at hmoved
    rw [h.pair_eq_iff hfollows.represents side, hbest] at hstayed
    exact ⟨hmoved, hstayed⟩
  · intro hall
    refine ⟨o.events, hjournal, fun side => ?_⟩
    rw [ne_eq, h.pair_eq_iff hfollows.represents side, hbest]
    exact ⟨(hall side).moved, (hall side).stayed⟩

theorem Store.levelQuantity_eq (store : Store env g b L) (side : Side) (i : Nat) :
    b.levelQuantity side i = L.depth side i := by
  unfold levelQuantity Ledger.depth
  by_cases hi : i < g.range
  · obtain ⟨level, hlevel, -, hrep⟩ := store.level_eq side hi
    rw [hlevel]
    exact hrep.total
  · have hnone : (b.side side).levels[i]? = none := by
      refine Array.getElem?_eq_none ?_
      rw [store.levelsSize]
      exact Nat.le_of_not_lt hi
    rw [hnone, store.wellFormed.outside side i (Nat.le_of_not_lt hi)]
    rfl

theorem Store.nextQuantity_eq_zero_iff (store : Store env g b L) (side : Side) (i : Nat) :
    b.nextQuantity side i = 0 ↔ L.adjacent side i = [] := by
  have hdepth := store.wellFormed.depth_eq_zero_iff
  cases side with
  | Sell =>
      change b.levelQuantity .Sell (i + 1) = 0 ↔ _
      rw [store.levelQuantity_eq, hdepth]
      rfl
  | Buy =>
      simp only [nextQuantity, Ledger.adjacent]
      split
      · simp
      · rw [store.levelQuantity_eq, hdepth]

theorem Store.emptied_eq (store : Store env g b L) (side : Side) (takerPrice quantity : Nat) :
    b.emptied side takerPrice quantity = L.emptied g side takerPrice quantity := by
  have hdepth : b.levelQuantity side.opposite = L.depth side.opposite :=
    funext (store.levelQuantity_eq side.opposite)
  rw [emptied, Ledger.emptied, Geometry.matchable, List.filter_filter, store.bestFirst_eq, hdepth,
    store.minPrice]
  congr 1
  refine List.filter_congr (fun i _ => ?_)
  rw [Bool.and_comm]
  rfl

theorem Represents.lastAtBest_iff (h : Represents env g b L) (id : Nat) : b.LastAtBest id ↔
    ∃ p ∈ L.resting g, p.order.id = id ∧ L.best g p.side = some p.index ∧
      (L.queue p.side p.index).length = 1 := by
  have hcount : ∀ side i level, (b.side side).levels[i]? = some level →
      level.orderCount = (L.queue side i).length := by
    intro side i level hlevel
    have hi : i < g.range := by
      rw [← h.store.levelsSize side]
      exact lt_size_of_getElem? hlevel
    obtain ⟨level', hlevel', hrep⟩ := h.store.level side i hi
    rw [hlevel, Option.some.injEq] at hlevel'
    rw [hlevel', hrep.count, List.length_map]
  constructor
  · rintro ⟨side, idx, order, level, hmap, horder, hside, hhas, hprice, hlevel, hone⟩
    have hvalid : idx ≠ INVALID_INDEX := by
      have hlt := lt_size_of_getElem? horder
      rw [h.store.pool.size] at hlt
      exact Nat.ne_of_lt (h.store.pool.lt_invalid hlt)
    obtain ⟨p, hp, rfl, rfl⟩ := h.store.placed_of_map hmap hvalid
    obtain ⟨o, ho, -, -, -, hoprice, -, hoside⟩ := h.store.order_eq hp
    rw [horder, Option.some.injEq] at ho
    subst ho
    obtain rfl : p.side = side := Side.toByte_inj (hoside.symm.trans hside)
    obtain ⟨k, hk⟩ := h.has_iff.mp hhas
    obtain ⟨-, hbest, hbestIdx⟩ := h.of_best hk
    have hindex : p.index = k := by
      rw [hoprice, hbest] at hprice
      exact Ledger.price_inj hprice
    refine ⟨p, hp, rfl, by rw [hk, hindex], ?_⟩
    rw [hbestIdx] at hlevel
    rw [hindex, ← hcount _ _ _ hlevel, hone]
  · rintro ⟨p, hp, rfl, hbest, hone⟩
    obtain ⟨hhas, hprice, hbestIdx⟩ := h.of_best hbest
    obtain ⟨order, horder, -, -, -, hoprice, -, hoside⟩ := h.store.order_eq hp
    obtain ⟨level, hlevel, -⟩ := h.store.level p.side p.index (Ledger.mem_resting.mp hp).1
    refine ⟨p.side, p.order.slot, order, level, h.store.mapped p hp, horder, hoside, hhas, ?_, ?_,
      (hcount _ _ _ hlevel).trans hone⟩
    · rw [hoprice, hprice]
    · rw [hbestIdx]
      exact hlevel

theorem Represents.cancel_announced_iff (h : Represents env g b L) (id : Nat) :
    (∀ side, Ledger.Announced g L (L.cancel g id) side) ↔ ¬b.LastAtBest id := by
  rw [Ledger.cancel_announced h.wellFormed, h.lastAtBest_iff]
  constructor
  · rintro hall ⟨p, hp, hid, hbest, hone⟩
    have := hall p hp hid hbest
    omega
  · intro hnot p hp hid hbest
    have hpos : 0 < (L.queue p.side p.index).length :=
      List.length_pos_of_mem (Ledger.mem_resting.mp hp).2
    by_contra hle
    exact hnot ⟨p, hp, hid, hbest, by omega⟩

theorem Represents.add_announced_iff (h : Represents env g b L) {id price quantity : Nat}
    {type : OrderType} (hcancel : type ≠ .Cancel) (hlt : quantity < 2 ^ 32) :
    (∀ s, Ledger.Announced g L (L.add g id type price quantity side) s) ↔
      (b.Accepts id type price quantity →
        ∀ i ∈ (b.emptied side (resolvePrice type side price) quantity).getLast?,
          b.nextQuantity side.opposite i = 0) := by
  have hL := h.wellFormed
  simp only [h.store.emptied_eq, h.store.nextQuantity_eq_zero_iff]
  by_cases hvalid : Ledger.Valid g L id type price quantity side
  · obtain ⟨hown, hopposite⟩ := Ledger.execute_announced hL hlt hvalid
    have haccepts : b.Accepts id type price quantity :=
      { quantity_pos := hvalid.quantity_pos
        id_pos := hvalid.id_pos
        id_le := h.store.maxOrderId ▸ hvalid.id_le
        fresh := h.store.unmapped id hvalid.id_le hvalid.fresh
        price_mem := by
          rw [h.store.minPrice, h.store.maxPrice]
          exact hvalid.price_mem }
    rw [Ledger.add_of_valid hvalid]
    constructor
    · exact fun hall _ => hopposite.mp (hall side.opposite)
    · intro himp s
      rcases side.eq_or_eq_opposite s with rfl | rfl
      · exact hown
      · exact hopposite.mpr (himp haccepts)
  · refine iff_of_true ?_ ?_
    · refine Ledger.add_cases (P := fun o => ∀ s, Ledger.Announced g L o s)
        (fun e => absurd e hcancel) ?_ (fun e => absurd e hvalid)
      intro reason loggedPrice _ _ s
      refine Ledger.Announced.of_silent (latestBest_of_other (fun e he => ?_)) rfl
      rcases List.mem_singleton.mp he with rfl
      cases s <;> exact fun e => nomatch e
    · intro haccepts i hi
      -- a Market order on an empty side: there is no price to empty
      have hempty : L.best g side.opposite = none := by
        by_contra hne
        refine hvalid ⟨hcancel, haccepts.quantity_pos, haccepts.id_pos,
          h.store.maxOrderId ▸ haccepts.id_le, ?_, ?_, fun _ => hne⟩
        · intro p hp hid
          have hslot := h.store.mapped p hp
          rw [hid, haccepts.fresh, Option.some.injEq] at hslot
          exact h.store.slot_ne_invalid hp hslot.symm
        · rw [← h.store.minPrice, ← h.store.maxPrice]
          exact haccepts.price_mem
      obtain ⟨-, hhead⟩ := Ledger.sweep_matchable hL side id quantity
        (resolvePrice type side price)
      cases hD : L.emptied g side (resolvePrice type side price) quantity with
      | nil =>
          rw [hD] at hi
          cases hi
      | cons k D =>
          have hbest := hhead k (by rw [hD]; rfl)
          rw [hempty] at hbest
          cases hbest

/-- One call: its best-price moves are journaled exactly if it is one of those that do. -/
theorem step_journaled_iff (htools : env.debugTools = true) (h : Ready env g b L) (call : Call) :
    (b.step env call).Returns (fun (_, b') => BestJournaled b b' ↔ b.Announces call) := by
  refine (step_spec h call).mono ?_
  rintro ⟨reply, b'⟩ ⟨-, hfollows⟩
  refine (hfollows.bestJournaled_iff htools h.represents).trans ?_
  cases call with
  | cancelOrder id => exact h.represents.cancel_announced_iff id.toNat
  | addOrder id type price quantity side =>
      by_cases hcancel : type = .Cancel
      · simp only [Announces, if_pos hcancel, Ledger.step, Ledger.add]
        exact h.represents.cancel_announced_iff id.toNat
      · simp only [Announces, if_neg hcancel]
        exact h.represents.add_announced_iff hcancel quantity.toNat_lt

/-- The last event about a side carries its best price; without one the side is as new. -/
def Current (b₀ b : OrderBook) : Prop :=
  ∀ side, (latestBest side b.journal).getD (b₀.side side).best = (b.side side).best

theorem BestJournaled.current (h : BestJournaled b b') (hcurrent : Current b₀ b) :
    Current b₀ b' := by
  obtain ⟨events, hjournal, hall⟩ := h
  intro side
  obtain ⟨hmoved, hstayed⟩ := hall side
  rw [hjournal, latestBest_append]
  by_cases hpair : ((b'.side side).has, (b'.side side).best) =
      ((b.side side).has, (b.side side).best)
  · cases hlatest : latestBest side events with
    | none =>
        rw [Option.none_or, hcurrent side]
        exact (Prod.mk.inj hpair).2.symm
    | some price => exact hstayed hpair price hlatest
  · rw [hmoved hpair]
    rfl

/-- Every reachable book and every call: the call's moves of the best prices are
journaled if and only if it is one of those that announce them. In a run of such
calls the journal always ends with the current best prices. -/
theorem best_journaled (htools : env.debugTools = true) (h : construct env args = .ok b₀) :
    (∀ b, Reachable env args b → ∀ call, (b.step env call).Returns (fun (_, b') =>
      BestJournaled b b' ↔ b.Announces call)) ∧
    ∀ calls, (∀ before call after, calls = before ++ call :: after →
        (b₀.run env before).Returns (fun (_, b) => b.Announces call)) →
      (b₀.run env calls).Returns (fun (_, b) => Current b₀ b) := by
  constructor
  · intro b hb call
    obtain ⟨accepted, L, hready⟩ := hb.ready
    exact step_journaled_iff htools hready call
  · intro calls hcalls
    obtain ⟨hready, hjournal⟩ := (construct_spec env (accepted_of_construct h)).result h
    have hstart : Current b₀ b₀ := by
      intro side
      rw [hjournal]
      simp [latestBest]
    refine (checkedRuns_guarded (P := fun b => (∃ L, Ready env (args.geometry
      (accepted_of_construct h)) b L) ∧ Current b₀ b) (C := Announces)
      ⟨⟨_, hready⟩, hstart⟩ ?_ hcalls).mono (fun _ hP => hP.2)
    rintro b call ⟨⟨L, hready⟩, hcurrent⟩ hannounces
    obtain ⟨⟨reply, b'⟩, heq, hiff⟩ := returns_iff.mp (step_journaled_iff htools hready call)
    rw [heq]
    obtain ⟨-, hfollows⟩ := (step_spec hready call).result heq
    exact ⟨⟨_, hready.follows hfollows⟩, (hiff.mpr hannounces).current hcurrent⟩

theorem best_journaled_small : ∃ b₀, construct .instrumented .small = .ok b₀ ∧
    ((∀ b, Reachable .instrumented .small b → ∀ call, (b.step .instrumented call).Returns
      (fun (_, b') => BestJournaled b b' ↔ b.Announces call)) ∧
    ∀ calls, (∀ before call after, calls = before ++ call :: after →
        (b₀.run .instrumented before).Returns (fun (_, b) => b.Announces call)) →
      (b₀.run .instrumented calls).Returns (fun (_, b) => Current b₀ b)) := by
  obtain ⟨b₀, h⟩ := construct_small .instrumented
  exact ⟨b₀, h, best_journaled rfl h⟩

theorem not_announced (side : Side) {M : Ledger} (hmoved : o.ledger.best g side ≠ M.best g side)
    (hsilent : latestBest side o.events = none) : ¬∀ side, Ledger.Announced g M o side := by
  intro hall
  have := (hall side).moved hmoved
  rw [hsilent] at this
  cases this

/-- A taker that moves on to the next tick, and a cancel of the last order of a side,
move the best ask without a word. -/
theorem best_ask_moves_silently : ∃ b₀, construct .instrumented .small = .ok b₀ ∧
    (b₀.run .instrumented [.addOrder 1 .Limit 101 5 .Sell, .addOrder 2 .Limit 102 5 .Sell]).Returns
      (fun (_, b) => (b.step .instrumented (.addOrder 3 .Limit 101 5 .Buy)).Returns
        (fun (_, b') => ¬BestJournaled b b')) ∧
    (b₀.run .instrumented [.addOrder 1 .Limit 101 5 .Sell]).Returns
      (fun (_, b) => (b.step .instrumented (.cancelOrder 1)).Returns
        (fun (_, b') => ¬BestJournaled b b')) := by
  obtain ⟨b₀, h⟩ := construct_small .instrumented
  refine ⟨b₀, h, ?_, ?_⟩
  · refine (run_small h _).mono ?_
    rintro ⟨replies, b⟩ ⟨-, hready, -⟩
    refine (step_spec hready _).mono ?_
    rintro ⟨reply, b'⟩ ⟨-, hfollows⟩
    refine mt (hfollows.bestJournaled_iff rfl hready.represents).mp ?_
    exact not_announced .Sell (by decide) (by decide)
  · refine (run_small h _).mono ?_
    rintro ⟨replies, b⟩ ⟨-, hready, -⟩
    refine (step_spec hready _).mono ?_
    rintro ⟨reply, b'⟩ ⟨-, hfollows⟩
    refine mt (hfollows.bestJournaled_iff rfl hready.represents).mp ?_
    exact not_announced .Sell (by decide) (by decide)

end Hft.OrderBook
