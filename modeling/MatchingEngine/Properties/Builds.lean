import MatchingEngine.Verification.Determined

/-!
# Instrumented and release builds

The instrumented pool fills slots with patterns when it hands them out and when
it takes them back; the release pool leaves them as they were. Neither a caller
nor its callback can tell the builds apart. A read of a slot that the book has
not filled in, or has given up, would stop the run, and a pool fault would stop
it or be reported; no run stops or reports.
-/

namespace Hft

open Machine Machine.Checked

namespace Ledger

variable {g : Geometry} {L : Ledger}

theorem cancel_not_blocked (id : Nat) :
    (L.cancel g id).reply.reason ≠ .ReentrancyBlocked := by
  unfold Ledger.cancel
  split
  · exact fun e => nomatch e
  · split <;> exact fun e => nomatch e

theorem execute_not_blocked (id : Nat) (type : OrderType) (price quantity : Nat) (side : Side) :
    (L.execute g id type price quantity side).reply.reason ≠ .ReentrancyBlocked := by
  simp only [Ledger.execute]
  split
  · simp only [Ledger.post]
    split <;> rintro ⟨⟩
  · rintro ⟨⟩

/-- A call that is not nested is never answered as one. -/
theorem step_not_blocked (call : Call) :
    (L.step g call).reply.reason ≠ .ReentrancyBlocked := by
  cases call with
  | cancelOrder id => exact cancel_not_blocked id.toNat
  | addOrder id type price quantity side =>
      simp only [step, Ledger.add]
      split_ifs
      · exact cancel_not_blocked id.toNat
      all_goals first | exact execute_not_blocked _ _ _ _ _ | rintro ⟨⟩

theorem run_not_blocked (calls : List Call) :
    ∀ reply ∈ (L.run g calls).1, reply.reason ≠ .ReentrancyBlocked :=
  runs_outputs (P := fun _ => True) trivial (fun _ _ _ => trivial)
    (fun state call _ => step_not_blocked (L := state.1) call)

end Ledger

namespace OrderBook

variable {env env' : Env} {args : Args} {g : Geometry} {b b' b₀ : OrderBook} {L : Ledger}

/-- What the introspection of a book answers. -/
structure SameView (b b' : OrderBook) : Prop where
  hasBids : b'.hasBids = b.hasBids
  hasAsks : b'.hasAsks = b.hasAsks
  bestBid : b'.bestBid = b.bestBid
  bestAsk : b'.bestAsk = b.bestAsk
  activeOrderCount : b'.activeOrderCount = b.activeOrderCount
  orderExists : ∀ id, b'.orderExists id = b.orderExists id
  priceLevelCount : ∀ side, b'.priceLevelCount side = b.priceLevelCount side
  levelOrderCount : ∀ side price, b'.levelOrderCount side price = b.levelOrderCount side price
  levelTotalQuantity : ∀ side price,
    b'.levelTotalQuantity side price = b.levelTotalQuantity side price

theorem Agree.sameView (h : Agree b b') : SameView b b' where
  hasBids := congrArg BookSide.has h.bids
  hasAsks := congrArg BookSide.has h.asks
  bestBid := congrArg BookSide.best h.bids
  bestAsk := congrArg BookSide.best h.asks
  activeOrderCount := h.activeCount
  orderExists := fun id => by
    rw [orderExists, orderExists, h.maxOrderId, h.orderMap]
  priceLevelCount := fun side => by
    rw [priceLevelCount, priceLevelCount, h.side_eq]
  levelOrderCount := fun side price => by
    rw [levelOrderCount, levelOrderCount, h.minPrice, h.maxPrice, h.side_eq]
  levelTotalQuantity := fun side price => by
    rw [levelTotalQuantity, levelTotalQuantity, h.minPrice, h.maxPrice, h.side_eq]

/-- Every order the map leads to lies in a slot that is handed out, is stamped so,
and holds what the book has written there. -/
def Genuine (b : OrderBook) : Prop :=
  ∀ id idx : Nat, b.orderMap[id]? = some idx → idx ≠ INVALID_INDEX →
    b.orderPool.isStampedLive idx = .ok true ∧
    ∃ order, b.orderPool.pool[idx]? = some order ∧ order.written = true ∧ order.id = id

theorem Store.genuine (htools : env.debugTools = true) (store : Store env g b L) :
    Genuine b := by
  intro id idx hmap hvalid
  obtain ⟨p, hp, rfl, rfl⟩ := store.placed_of_map hmap hvalid
  have hmem := (Ledger.mem_resting.mp hp).2
  obtain ⟨order, horder, -, hwritten, hid, -⟩ := store.order_eq hp
  refine ⟨?_, order, horder, hwritten, hid⟩
  have hlt : p.order.slot < b.orderPool.capacity := by
    rw [store.capacity]
    exact store.wellFormed.slot_lt hmem
  rw [(store.pool.stamps htools).isStampedLive hlt]
  simp [store.wellFormed.slot_notMem_free hmem]

/-- Whatever calls are made, the two builds answer them alike, show the same book,
and hand out the same slots. -/
theorem builds_agree (hinstrumented : env'.debugTools = true)
    (h : construct env args = .ok b₀) : ∃ b₀', construct env' args = .ok b₀' ∧
    ∀ calls, ∃ replies b b', b₀.run env calls = .ok (replies, b) ∧
      b₀'.run env' calls = .ok (replies, b') ∧ Agree b b' ∧ SameView b b' ∧
      b.orderPool.reports = [] ∧ b'.orderPool.reports = [] ∧
      (∀ reply ∈ replies, reply.reason ≠ .ReentrancyBlocked) ∧ b'.inPublicEntry = false ∧
      Genuine b' := by
  have accepted := accepted_of_construct h
  obtain ⟨b₀', h', -⟩ := returns_iff.mp (construct_spec env' accepted)
  refine ⟨b₀', h', fun calls => ?_⟩
  obtain ⟨⟨replies, b⟩, hrun, hreplies, hready, -⟩ := returns_iff.mp (run_spec h calls)
  obtain ⟨⟨replies', b'⟩, hrun', hreplies', hready', -⟩ := returns_iff.mp (run_spec h' calls)
  have hsame : replies' = replies := hreplies'.trans hreplies.symm
  rw [hsame] at hrun'
  have hagree := hready.represents.agree hready'.represents
  refine ⟨replies, b, b', hrun, hrun', hagree, hagree.sameView, hready.represents.store.reports,
    hready'.represents.store.reports, ?_, hready'.inPublicEntry,
    hready'.represents.store.genuine hinstrumented⟩
  rw [hreplies]
  exact Ledger.run_not_blocked calls

theorem builds_agree_small : ∃ b₀, construct .release .small = .ok b₀ ∧
    ∃ b₀', construct .instrumented .small = .ok b₀' ∧
    ∀ calls, ∃ replies b b', b₀.run .release calls = .ok (replies, b) ∧
      b₀'.run .instrumented calls = .ok (replies, b') ∧ Agree b b' ∧ SameView b b' ∧
      b.orderPool.reports = [] ∧ b'.orderPool.reports = [] ∧
      (∀ reply ∈ replies, reply.reason ≠ .ReentrancyBlocked) ∧ b'.inPublicEntry = false ∧
      Genuine b' := by
  obtain ⟨b₀, h⟩ := construct_small .release
  exact ⟨b₀, h, builds_agree rfl h⟩

end OrderBook

end Hft
