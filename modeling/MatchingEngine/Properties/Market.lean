import MatchingEngine.Market.Limits
import MatchingEngine.Market.Renaming
import MatchingEngine.Verification.Market

/-!
# An engine is a market within limits

Read a book level by level, best price first, and slot by slot: this is a market, and
every run of calls answers as the market does. So the open orders are all that the
future depends on, limits only refuse, and ids and prices may be renamed.
-/

namespace Hft

open Machine Machine.Checked

/-- What an engine built from these arguments takes on. -/
def Args.limits (args : Args) : Limits Nat Nat where
  id := fun id => decide (id ≠ 0 ∧ id ≤ args.maxOrderId.toNat)
  price := fun p => decide (args.minPrice.toNat ≤ p ∧ p ≤ args.maxPrice.toNat)
  room := min args.maxActiveOrders.toNat kMaxPoolCapacity

/-- A reply with its ids and prices renamed. -/
def Renaming.reply {limits limits' : Limits Nat Nat} (ρ : Renaming limits limits')
    (reply : Reply) : Reply :=
  { reply with trades := reply.trades.map (fun trade =>
    ⟨ρ.id trade.makerId, ρ.id trade.takerId, ρ.price trade.price, trade.quantity⟩) }

theorem Renaming.reply_answer {limits limits' : Limits Nat Nat} (ρ : Renaming limits limits')
    (a : Answer Nat Nat) : (ρ.answer a).reply = ρ.reply a.reply := by
  simp [Answer.reply, Renaming.reply, Renaming.answer, Renaming.deal, Deal.trade]

/-- The small book fits into one with more ids, more prices and more slots. -/
theorem Args.small_within : Args.small.limits.Within (Args.mk 9 5 0 200).limits where
  id := fun id hid => by
    have hid : id ≠ 0 ∧ id ≤ 4 := of_decide_eq_true hid
    exact decide_eq_true ⟨hid.1, Nat.le_trans hid.2 (by decide)⟩
  price := fun p hp => by
    have hp : 100 ≤ p ∧ p ≤ 103 := of_decide_eq_true hp
    exact decide_eq_true ⟨Nat.zero_le p, Nat.le_trans hp.2 (by decide)⟩
  room := by decide

namespace OrderBook

variable {env env' : Env} {g : Geometry} {args args' : Args} {b b' b₀ b₀' : OrderBook} {L : Ledger}
variable {M : Market Nat Nat} {side : Side}

def openOrdersAt (b : OrderBook) (side : Side) (i : Nat) :
    Checked (List (OpenOrder Nat Nat)) := do
  let q ← b.queue side i
  return q.map (fun (id, quantity) => ⟨id, b.minPrice + i, quantity⟩)

/-- The open orders of one side, in the order in which they are served. -/
def openOrders (b : OrderBook) (side : Side) : Checked (List (OpenOrder Nat Nat)) := do
  let levels ← (b.bestFirst side).mapM (b.openOrdersAt side)
  return levels.flatten

theorem openOrders_eq (store : Store env g b L) (side : Side) :
    b.openOrders side = .ok ((L.market g).orders side) := by
  have hat : ∀ i ∈ g.priority side, b.openOrdersAt side i =
      .ok ((L.placed side i).map (Ledger.openOrder g)) := by
    intro i hi
    rw [openOrdersAt, queue_eq store side (Geometry.mem_priority.mp hi), ok_bind, pure_eq_ok,
      Ledger.placed, List.map_map, List.map_map, store.minPrice]
    rfl
  rw [openOrders, store.bestFirst_eq, mapM_eq hat, ok_bind, pure_eq_ok, Ledger.market_orders,
    Ledger.lots, List.map_flatMap, List.flatMap_def]

/-- The book is ready for a call, and its open orders are those of the market. -/
def Shows (env : Env) (g : Geometry) (b : OrderBook) (M : Market Nat Nat) : Prop :=
  ∃ L, Ready env g b L ∧ L.market g = M

theorem Shows.openOrders (h : Shows env g b M) (side : Side) :
    b.openOrders side = .ok (M.orders side) := by
  obtain ⟨L, hready, rfl⟩ := h
  exact openOrders_eq hready.represents.store side

theorem step_shows (env : Env) (g : Geometry) :
    Refines (step env) (Market.call g.limits) (Shows env g) := by
  rintro b M call ⟨L, hready, rfl⟩
  refine (step_spec hready call).mono ?_
  rintro ⟨reply, b'⟩ ⟨rfl, hfollows⟩
  obtain ⟨hreply, hmarket⟩ := Ledger.step_is hready.represents.wellFormed call
  exact ⟨hreply, _, hready.follows hfollows, hmarket⟩

theorem run_shows (h : Shows env g b M) (calls : List Call) :
    (b.run env calls).Returns (fun (replies, b') =>
      replies = (M.run g.limits (calls.map Call.request)).1.map Answer.reply ∧
      Shows env g b' (M.run g.limits (calls.map Call.request)).2) := by
  refine ((step_shows env g).runs h).mono ?_
  rintro ⟨replies, b'⟩ hrun
  rwa [Market.runs_call] at hrun

theorem construct_shows (h : construct env args = .ok b₀) :
    Shows env (args.geometry (accepted_of_construct h)) b₀ .empty := by
  have hnew := construct_spec env (accepted_of_construct h)
  rw [h, returns_ok] at hnew
  refine ⟨_, hnew.1, Market.ext (funext (fun side => ?_))⟩
  simp [Ledger.market, Ledger.lots, Ledger.placed, Ledger.empty, Market.empty]

/-- A new book after some calls, and the market it shows then. -/
theorem exists_after (env : Env) (accepted : args.Accepted) (calls : List Call) :
    ∃ b, Reachable env args b ∧ Shows env (args.geometry accepted) b
      (Market.empty.run args.limits (calls.map Call.request)).2 := by
  obtain ⟨b₀, h, -⟩ := returns_iff.mp (construct_spec env accepted)
  obtain ⟨⟨replies, b⟩, hrun, -, hb⟩ := returns_iff.mp (run_shows (construct_shows h) calls)
  exact ⟨b, ⟨b₀, calls, replies, h, hrun⟩, hb⟩

theorem Reachable.shows (h : Reachable env args b) :
    ∃ (accepted : args.Accepted) (M : Market Nat Nat), Shows env (args.geometry accepted) b M := by
  obtain ⟨accepted, L, hready⟩ := h.ready
  exact ⟨accepted, _, L, hready, rfl⟩

/-- What the empty market has and every request preserves, the market of every reachable book
has. -/
theorem Reachable.shows_invariant {P : Market Nat Nat → Prop} (h : Reachable env args b)
    (start : P .empty) (preserved : ∀ M limits request, P M → P (M.step limits request).2) :
    ∃ (accepted : args.Accepted) (M : Market Nat Nat),
      Shows env (args.geometry accepted) b M ∧ P M := by
  obtain ⟨b₀, calls, replies, h, hrun⟩ := h
  have hshows := run_shows (construct_shows h) calls
  rw [hrun, returns_ok] at hshows
  refine ⟨accepted_of_construct h, _, hshows.2, ?_⟩
  exact runs_invariant start (fun M request hM => preserved M _ request hM)

/-- Every run of calls on a new book answers as the market within its limits, and its open
orders are those of the market. -/
theorem run_is_market (h : construct env args = .ok b₀) (calls : List Call) :
    (b₀.run env calls).Returns (fun (replies, b) =>
      replies = (Market.empty.run args.limits (calls.map Call.request)).1.map Answer.reply ∧
      ∀ side, b.openOrders side =
        .ok ((Market.empty.run args.limits (calls.map Call.request)).2.orders side)) := by
  refine (run_shows (construct_shows h) calls).mono ?_
  rintro ⟨replies, b⟩ ⟨hreplies, hshows⟩
  exact ⟨hreplies, fun side => hshows.openOrders side⟩

theorem run_is_market_small : ∃ b₀, construct .release .small = .ok b₀ ∧
    (b₀.run .release [.addOrder 1 .Limit 101 5 .Buy, .addOrder 2 .Market 0 3 .Sell]).Returns
      (fun (replies, b) =>
        replies = (Market.empty.run Args.small.limits
          [.order 1 .Buy (some 101) 5, .order 2 .Sell none 3]).1.map Answer.reply ∧
        ∀ side, b.openOrders side = .ok ((Market.empty.run Args.small.limits
          [.order 1 .Buy (some 101) 5, .order 2 .Sell none 3]).2.orders side)) := by
  obtain ⟨b₀, h⟩ := construct_small .release
  exact ⟨b₀, h, run_is_market h [.addOrder 1 .Limit 101 5 .Buy, .addOrder 2 .Market 0 3 .Sell]⟩

/-! ## What the future depends on -/

/-- Books that show the same open orders show the same market. -/
theorem Shows.market_eq {g' : Geometry} {M' : Market Nat Nat} (h : Shows env g b M)
    (h' : Shows env' g' b' M') (same : ∀ side, b'.openOrders side = b.openOrders side) :
    M' = M := by
  refine Market.ext (funext (fun side => ?_))
  have hsame := same side
  rw [h.openOrders, h'.openOrders, Except.ok.injEq] at hsame
  exact hsame

/-- Whatever came before: a book with wider limits that has the same open orders gives the
same replies, as long as nothing is refused on account of the narrower limits. -/
theorem wider_limits_agree (hb : Reachable env args b) (hb' : Reachable env' args' b')
    (wider : args.limits.Within args'.limits)
    (same : ∀ side, b'.openOrders side = b.openOrders side) (calls : List Call) :
    (b.run env calls).Returns (fun (replies, c) =>
      (∀ reply ∈ replies, ¬reply.reason.Limiting) →
      (b'.run env' calls).Returns (fun (replies', c') =>
        replies' = replies ∧ ∀ side, c'.openOrders side = c.openOrders side)) := by
  obtain ⟨accepted, M, hM⟩ := hb.shows
  obtain ⟨accepted', M', hM'⟩ := hb'.shows
  obtain rfl := hM.market_eq hM' same
  refine (run_shows hM calls).mono ?_
  rintro ⟨replies, c⟩ ⟨rfl, hc⟩ hfree
  have hrun : M'.run args'.limits (calls.map Call.request) =
      M'.run args.limits (calls.map Call.request) := by
    refine Market.run_widened wider _ (fun answer hanswer => ?_)
    exact hfree answer.reply (List.mem_map_of_mem hanswer)
  refine (run_shows hM' calls).mono ?_
  rintro ⟨replies', c'⟩ ⟨hreplies', hc'⟩
  change replies' = (M'.run args'.limits (calls.map Call.request)).1.map _ at hreplies'
  change Shows env' _ c' (M'.run args'.limits (calls.map Call.request)).2 at hc'
  rw [hrun] at hreplies' hc'
  exact ⟨hreplies', fun side => (hc'.openOrders side).trans (hc.openOrders side).symm⟩

/-- The second book has let another order rest in the first slot and cancelled it. -/
theorem wider_limits_agree_small : ∃ b b', Reachable .release .small b ∧
    Reachable .instrumented ⟨9, 5, 0, 200⟩ b' ∧ b.openOrders .Buy = .ok [⟨1, 101, 5⟩] ∧
    (b.run .release [.addOrder 3 .Limit 101 7 .Sell]).Returns (fun (replies, c) =>
      (∀ reply ∈ replies, ¬reply.reason.Limiting) →
      (b'.run .instrumented [.addOrder 3 .Limit 101 7 .Sell]).Returns (fun (replies', c') =>
        replies' = replies ∧ ∀ side, c'.openOrders side = c.openOrders side)) := by
  have haccepted : Args.Accepted ⟨9, 5, 0, 200⟩ := by constructor <;> decide
  obtain ⟨b, hb, hM⟩ := exists_after .release Args.small_accepted [.addOrder 1 .Limit 101 5 .Buy]
  obtain ⟨b', hb', hM'⟩ := exists_after .instrumented haccepted
    [.addOrder 2 .Limit 103 9 .Sell, .addOrder 1 .Limit 101 5 .Buy, .cancelOrder 2]
  refine ⟨b, b', hb, hb', (hM.openOrders .Buy).trans (congrArg Except.ok (by decide)),
    wider_limits_agree hb hb' Args.small_within (fun side => ?_) _⟩
  rw [hM.openOrders, hM'.openOrders]
  cases side
  · exact congrArg Except.ok (by decide)
  · exact congrArg Except.ok (by decide)

/-- The open orders are all the future depends on: not the slots they are in, nor the free
list, nor how the book came about. -/
theorem same_orders_same_future (hb : Reachable env args b) (hb' : Reachable env' args' b')
    (limits : args'.limits = args.limits)
    (same : ∀ side, b'.openOrders side = b.openOrders side) (calls : List Call) :
    (b.run env calls).Returns (fun (replies, c) =>
      (b'.run env' calls).Returns (fun (replies', c') =>
        replies' = replies ∧ ∀ side, c'.openOrders side = c.openOrders side)) := by
  obtain ⟨accepted, M, hM⟩ := hb.shows
  obtain ⟨accepted', M', hM'⟩ := hb'.shows
  obtain rfl := hM.market_eq hM' same
  refine (run_shows hM calls).mono ?_
  rintro ⟨replies, c⟩ ⟨rfl, hc⟩
  refine (run_shows hM' calls).mono ?_
  rintro ⟨replies', c'⟩ ⟨hreplies', hc'⟩
  change replies' = (M'.run args'.limits (calls.map Call.request)).1.map _ at hreplies'
  change Shows env' _ c' (M'.run args'.limits (calls.map Call.request)).2 at hc'
  rw [limits] at hreplies' hc'
  exact ⟨hreplies', fun side => (hc'.openOrders side).trans (hc.openOrders side).symm⟩

/-- In the second book the order is in the other slot. -/
theorem same_orders_same_future_small : ∃ b b', Reachable .release .small b ∧
    Reachable .instrumented .small b' ∧ b.openOrders .Buy = .ok [⟨1, 101, 5⟩] ∧
    (b.run .release [.addOrder 3 .Limit 101 7 .Sell]).Returns (fun (replies, c) =>
      (b'.run .instrumented [.addOrder 3 .Limit 101 7 .Sell]).Returns (fun (replies', c') =>
        replies' = replies ∧ ∀ side, c'.openOrders side = c.openOrders side)) := by
  obtain ⟨b, hb, hM⟩ := exists_after .release Args.small_accepted [.addOrder 1 .Limit 101 5 .Buy]
  obtain ⟨b', hb', hM'⟩ := exists_after .instrumented Args.small_accepted
    [.addOrder 2 .Limit 103 9 .Sell, .addOrder 1 .Limit 101 5 .Buy, .cancelOrder 2]
  refine ⟨b, b', hb, hb', (hM.openOrders .Buy).trans (congrArg Except.ok (by decide)),
    same_orders_same_future hb hb' rfl (fun side => ?_) _⟩
  rw [hM.openOrders, hM'.openOrders]
  cases side
  · exact congrArg Except.ok (by decide)
  · exact congrArg Except.ok (by decide)

/-! ## Renaming -/

/-- Two new books, one within the limits the other has under a renaming: renamed calls get the
renamed replies and lead to the renamed open orders. -/
theorem run_renamed (h : construct env args = .ok b₀) (h' : construct env' args' = .ok b₀')
    (ρ : Renaming args.limits args'.limits) {calls calls' : List Call}
    (renamed : calls'.map Call.request = (calls.map Call.request).map ρ.request) :
    (b₀.run env calls).Returns (fun (replies, b) =>
      (b₀'.run env' calls').Returns (fun (replies', b') =>
        replies' = replies.map ρ.reply ∧ ∀ side, ∃ orders, b.openOrders side = .ok orders ∧
          b'.openOrders side = .ok (orders.map ρ.order))) := by
  refine (run_shows (construct_shows h) calls).mono ?_
  rintro ⟨replies, b⟩ ⟨rfl, hb⟩
  refine (run_shows (construct_shows h') calls').mono ?_
  rintro ⟨replies', b'⟩ ⟨rfl, hb'⟩
  change Shows env' _ b' (Market.empty.run args'.limits (calls'.map Call.request)).2 at hb'
  have hrun : Market.empty.run args'.limits (calls'.map Call.request) =
      Prod.map (List.map ρ.answer) ρ.market
        (Market.empty.run args.limits (calls.map Call.request)) := by
    rw [renamed]
    exact Market.run_rename ρ (Market.empty_admitted _) _
  rw [hrun] at hb'
  refine ⟨?_, fun side => ⟨_, hb.openOrders side, hb'.openOrders side⟩⟩
  change (Market.empty.run args'.limits (calls'.map Call.request)).1.map Answer.reply = _
  rw [hrun, Prod.map_fst, List.map_map, List.map_map]
  exact List.map_congr_left (fun a _ => ρ.reply_answer a)

/-- Every price doubled: the grid has become finer and starts elsewhere. -/
def doubled : Renaming Args.small.limits (Args.mk 4 2 200 206).limits where
  id := id
  price := fun p => 2 * p
  id_inj := fun _ _ _ _ h => h
  price_lt := fun _ _ _ _ h => Nat.mul_lt_mul_of_pos_left h (by decide)
  limits_id := fun _ => rfl
  limits_price := fun p => by
    refine decide_eq_decide.mpr ?_
    change 200 ≤ 2 * p ∧ 2 * p ≤ 206 ↔ 100 ≤ p ∧ p ≤ 103
    omega
  room := rfl

theorem run_renamed_doubled : ∃ b₀ b₀', construct .release .small = .ok b₀ ∧
    construct .release ⟨4, 2, 200, 206⟩ = .ok b₀' ∧
    (b₀.run .release [.addOrder 1 .Limit 101 5 .Buy, .addOrder 2 .Market 0 3 .Sell]).Returns
      (fun (replies, b) => (b₀'.run .release
        [.addOrder 1 .Limit 202 5 .Buy, .addOrder 2 .Market 0 3 .Sell]).Returns
        (fun (replies', b') => replies' = replies.map doubled.reply ∧
          ∀ side, ∃ orders, b.openOrders side = .ok orders ∧
            b'.openOrders side = .ok (orders.map doubled.order))) := by
  obtain ⟨b₀, h⟩ := construct_small .release
  have haccepted : Args.Accepted ⟨4, 2, 200, 206⟩ := by constructor <;> decide
  obtain ⟨b₀', h', -⟩ := returns_iff.mp (construct_spec .release haccepted)
  exact ⟨b₀, b₀', h, h', run_renamed h h' doubled rfl⟩

end OrderBook

end Hft
