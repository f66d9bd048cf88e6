import MatchingEngine.Properties.Sizes
import MatchingEngine.Properties.Validation

/-!
# The checker has nothing to report

On the book of every run `validate_book` ends, finds no violation and returns true: what
it compares is part of what the book represents.
-/

namespace Hft

open Machine Machine.Checked

namespace OrderBook

variable {env : Env} {g : Geometry} {args : Args} {b b₀ : OrderBook} {L : Ledger} {side : Side}
variable {i : Nat} {level : PriceLevel}

theorem sized_of_shape (accepted : args.Accepted) (htools : env.debugTools = true)
    (h : b.shape = args.shape env) : b.Sized := by
  simp only [shape, Args.shape, MemoryPool.shape, BookSide.shape, Args.sideShape, htools, if_true,
    BookShape.mk.injEq, SideShape.mk.injEq, PoolShape.mk.injEq, kWordBits] at h
  obtain ⟨-, -, hids, -, ⟨hbl, hbb, hbs⟩, ⟨hal, hab, has⟩, hmap, hcap, hpool, -, hflags, -, -⟩ := h
  refine ⟨fun side => ?_, ?_, fun side => ?_, fun side => ?_, ?_, ?_, ?_, ?_⟩
  · cases side
    · exact hbl.trans hal.symm
    · rfl
  · rw [hal]
    exact accepted.ticks_le
  · rw [hal]
    cases side
    · exact hbb
    · exact hab
  · rw [hal]
    cases side
    · exact hbs
    · exact has
  · rw [hmap, hids]
  · rw [hpool, hcap]
  · rw [hflags, hcap]
  · rw [hcap]
    exact Nat.min_le_right _ _

theorem Store.flagged_of_mem (store : Store env g b L) (htools : env.debugTools = true)
    {r : Resting} (hr : r ∈ L.queue side i) : b.orderPool.Flagged r.slot := by
  have hlt : r.slot < b.orderPool.capacity := store.capacity ▸ store.wellFormed.slot_lt hr
  refine ⟨hlt, ?_⟩
  rw [(store.pool.stamps htools).flags _ hlt,
    decide_eq_true (store.wellFormed.slot_notMem_free hr)]

theorem Store.slotPasses (store : Store env g b L) {r : Resting} (hr : r ∈ L.queue side i) :
    b.SlotPasses side i r.slot := by
  have hmem := store.wellFormed.mem hr
  obtain ⟨o, ho, -, -, hid, hprice, -, hside⟩ := store.maker_eq hr
  refine ⟨o, ho, ?_, ?_, hside⟩
  · rw [hid]
    exact store.mapped _ hmem
  · have hlt := store.wellFormed.index_lt hr
    have hrange := g.minPrice_add_range
    have hmax := g.max_lt
    rw [hprice, Geometry.price, store.minPrice, Nat.mod_eq_of_lt (by omega)]

theorem Store.liveWalk (store : Store env g b L) (htools : env.debugTools = true)
    (hsized : b.Sized) (hwalk : b.LevelWalk side i (slotsOf L side i) level) :
    b.LiveWalk level.head (slotsOf L side i) INVALID_INDEX := by
  refine ⟨hwalk.queue.forward, fun s hs => ?_, fun s hs o ho => ?_, hsized.not_flagged⟩
  · obtain ⟨r, hr, rfl⟩ := List.mem_map.mp hs
    exact store.flagged_of_mem htools hr
  · obtain ⟨o', ho', -, -, -, -, hid⟩ := hwalk.orders s hs
    rwa [Option.some.inj (ho.symm.trans ho')]

/-- The walk, the totals and the bit of one level pass. -/
theorem Represents.levelPasses (h : Represents env g b L)
    (hwalk : b.LevelWalk side i (slotsOf L side i) level) :
    b.LevelPasses side i level (slotsOf L side i) := by
  have store := h.store
  have hlast := hwalk.queue.tail_eq
  refine ⟨hwalk.canary, ⟨fun s hs => ?_, ?_, fun t ht => ?_⟩, ?_, ?_, ?_⟩
  · obtain ⟨r, hr, rfl⟩ := List.mem_map.mp hs
    exact store.slotPasses hr
  · rw [← hlast]
    exact hwalk.queue.backward
  · rw [hlast, ht, Option.getD_some]
  · have htotal := store.wellFormed.total_lt side i
    have hquantity : b.quantityOn (slotsOf L side i) =
        Greedy.total Resting.quantity (L.queue side i) := store.quantity_slotsOf
    rw [hwalk.totalQuantity, hquantity, store.quantity_slotsOf, Nat.mod_eq_of_lt (by omega)]
  · have hcount := store.wellFormed.count_queue_le side i
    have hslots := store.wellFormed.count_add_free
    have hcap := g.capacity_le
    rw [kMaxPoolCapacity] at hcap
    rw [hwalk.orderCount, slotsOf, List.length_map, Nat.mod_eq_of_lt (by omega)]
  · have hbit := h.consistent.bits side i
    rw [Bool.eq_iff_iff, hbit, Bool.not_eq_true']
    constructor
    · rintro ⟨level', hlevel', hempty⟩
      rwa [Option.some.inj (hwalk.read.symm.trans hlevel')]
    · exact fun hempty => ⟨level, hwalk.read, hempty⟩

theorem Store.entryPasses (store : Store env g b L) (htools : env.debugTools = true) {id : Nat}
    (hid : id ∈ b.entries) : b.EntryPasses id := by
  obtain ⟨hrange, hmapped⟩ := List.mem_filter.mp hid
  have hle : id ≤ b.maxOrderId := by
    have := List.mem_range'_1.mp hrange
    omega
  have heq := store.orderMap_eq (store.maxOrderId ▸ hle)
  cases hfind : L.find g id with
  | none =>
      rw [heq, hfind] at hmapped
      simp at hmapped
  | some p =>
      rw [hfind] at heq
      obtain ⟨hp, rfl⟩ := (Ledger.find_eq_some_iff store.wellFormed).mp hfind
      have hmem := (Ledger.mem_resting.mp hp).2
      obtain ⟨o, ho, -, -, hid, -⟩ := store.maker_eq hmem
      exact ⟨p.order.slot, o, heq, store.flagged_of_mem htools hmem, ho, hid⟩

/-- Id 0 has a cell, but never an entry. -/
theorem Store.entries_length (store : Store env g b L) : b.entries.length = b.activeCount := by
  have hzero : b.orderMap[0]? = some INVALID_INDEX :=
    store.unmapped 0 (Nat.zero_le _) (fun p hp e => Nat.ne_of_gt (store.wellFormed.id_pos p hp) e)
  rw [store.mapCount, List.range_eq_range', List.range'_succ,
    List.countP_cons_of_neg (by simp [hzero]), List.countP_eq_length_filter]
  rfl

theorem Represents.bestPasses (h : Represents env g b L) (side : Side) :
    b.BestPasses side := by
  have hbest := h.bestOf side
  unfold BestPasses
  split
  · rename_i hhas
    exact hbest.best hhas
  · rename_i hhas
    have hsentinel := hbest.sentinel (Bool.eq_false_of_not_eq_true hhas)
    have hrange : (b.side side).levels.size = b.maxPrice - b.minPrice + 1 :=
      h.consistent.levels side
    rw [hrange]
    cases side
    · exact Nat.lt_of_le_of_lt (Nat.le_of_eq hsentinel.2) (Nat.succ_pos _)
    · exact Nat.lt_succ_of_le (Nat.le_of_eq hsentinel.2)

theorem Represents.countsPass (h : Represents env g b L) (htools : env.debugTools = true) :
    b.CountsPass (b.restingCount (slotsOf L)) b.entries.length := by
  have store := h.store
  have hlive := h.consistent.liveCount htools
  have hcount := store.wellFormed.count_add_free
  have hcap := g.capacity_le
  rw [kMaxPoolCapacity] at hcap
  refine ⟨hlive.symm, store.entries_length.trans hlive.symm, ?_, ?_⟩
  · rw [hlive, store.active, resting_length, List.sum_map_add, restingCount,
      ← store.levelsSize .Sell]
    rfl
  · rw [store.pool.toLinks.freeListDepth, hlive, store.active, store.capacity]
    refine congrArg Except.ok ?_
    omega

/-- A book that represents a ledger passes every check. -/
theorem Represents.passesChecks (h : Represents env g b L) (htools : env.debugTools = true)
    (hsized : b.Sized) : b.PassesChecks (slotsOf L) := by
  have store := h.store
  have hticks : b.asks.levels.size = g.range := store.levelsSize .Sell
  refine ⟨fun side i hi => ?_, fun side w _ => ?_, fun id hid => store.entryPasses htools hid,
    h.bestPasses, h.countsPass htools⟩
  · have hwalk : ∃ level, b.LevelWalk side i (slotsOf L side i) level :=
      store.levelWalk (hticks ▸ hi)
    obtain ⟨level, hwalk⟩ := hwalk
    exact ⟨level, hwalk.read, store.liveWalk htools hsized hwalk, h.levelPasses hwalk⟩
  · rw [Bool.eq_iff_iff, h.consistent.summary side w, bne_iff_ne]

/-- After any run `validate_book` ends and returns true. -/
theorem run_validates (h : construct env args = .ok b₀) (htools : env.debugTools = true)
    (calls : List Call) : (b₀.run env calls).Returns (fun (_, b) =>
      b.validateBook env (b.orderPool.capacity + 1) = .ok true) := by
  refine ((run_spec h calls).and_ensures (run_shape b₀ calls)).mono ?_
  rintro ⟨replies, b⟩ ⟨⟨-, htracks⟩, hshape⟩
  have hsized := sized_of_shape (accepted_of_construct h) htools
    (hshape.trans (construct_shape env args b₀ h))
  have hpasses := htracks.1.represents.passesChecks htools hsized
  obtain ⟨ok, hok⟩ := (hpasses.followable hsized).returns htools hsized
  have htrue := (validateBook_eq_ok htools hsized hok).2.mpr ⟨_, hpasses⟩
  exact hok.trans (congrArg Except.ok htrue)

theorem run_validates_small : ∃ b₀, construct .instrumented .small = .ok b₀ ∧
    (b₀.run .instrumented [.addOrder 1 .Limit 101 5 .Buy, .addOrder 2 .Market 0 3 .Sell]).Returns
      (fun (_, b) => b.validateBook .instrumented (b.orderPool.capacity + 1) = .ok true) := by
  obtain ⟨b₀, h⟩ := construct_small .instrumented
  exact ⟨b₀, h, run_validates h rfl _⟩

end OrderBook

end Hft
