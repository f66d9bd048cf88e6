import MatchingEngine.Properties.Invariant
import MatchingEngine.Verification.Validation

/-!
# Running the invariant checker

On a book whose members have the sizes the constructor gives, `validate_book`
returns exactly if it can follow what it meets: the walks of the levels end, within
the id space, and the cells of the order map lead into the pool. Then it says yes
exactly if `PassesChecks`.
-/

namespace Hft

open Machine Machine.Checked

namespace OrderBook

variable {env : Env} {b : OrderBook} {side : Side} {i fuel : Nat}

/-! ### Best prices and counters -/

theorem firstOccupied_spec {side : Side} {is : List Nat}
    (hread : ∀ i ∈ is, i < (b.side side).levels.size) (hsorted : is.Pairwise side.Better) :
    (firstOccupied (b.side side).levels is).Returns (fun found => match found with
      | some i => i ∈ is ∧ b.Occupied side i ∧ ∀ j ∈ is, b.Occupied side j → ¬side.Better j i
      | none => ∀ j ∈ is, ¬b.Occupied side j) := by
  induction is with
  | nil => exact fun _ hj => absurd hj List.not_mem_nil
  | cons i is ih =>
      obtain ⟨hbest, hsorted⟩ := List.pairwise_cons.mp hsorted
      obtain ⟨level, hlevel⟩ : ∃ level, (b.side side).levels[i]? = some level :=
        ⟨_, Array.getElem?_eq_getElem (hread i List.mem_cons_self)⟩
      rw [firstOccupied, vecRead_eq hlevel, ok_bind]
      cases hempty : level.isEmpty with
      | false =>
          refine ⟨List.mem_cons_self, ⟨level, hlevel, hempty⟩, fun j hj _ hbetter => ?_⟩
          rcases List.mem_cons.mp hj with rfl | hj
          · exact Side.Better.irrefl hbetter
          · exact hbetter.asymm (hbest j hj)
      | true =>
          have hi : ¬b.Occupied side i := by
            rintro ⟨level', hlevel', hoccupied⟩
            rw [Option.some.inj (hlevel'.symm.trans hlevel), hempty] at hoccupied
            cases hoccupied
          refine (ih (fun j hj => hread j (List.mem_cons_of_mem i hj)) hsorted).mono ?_
          rintro (_ | k) hfound
          · exact List.forall_mem_cons.mpr ⟨hi, hfound⟩
          · exact ⟨List.mem_cons_of_mem i hfound.1, hfound.2.1,
              List.forall_mem_cons.mpr ⟨fun h => absurd h hi, hfound.2.2⟩⟩

theorem mem_scanOrder : i ∈ b.scanOrder side ↔ i < b.asks.levels.size := by
  cases side <;> simp [scanOrder]

theorem scanOrder_sorted (b : OrderBook) (side : Side) :
    (b.scanOrder side).Pairwise side.Better := by
  cases side with
  | Buy => exact List.pairwise_reverse.mpr List.pairwise_lt_range
  | Sell => exact List.pairwise_lt_range

/-- The check of the best price: exact where the flag is set, and nothing but a range
check where it is not. -/
def BestPasses (b : OrderBook) (side : Side) : Prop :=
  if (b.side side).has then
    b.Occupied side (b.side side).bestIdx ∧
      (b.side side).best = b.minPrice + (b.side side).bestIdx ∧
      ∀ i, b.Occupied side i → ¬side.Better i (b.side side).bestIdx
  else (b.side side).bestIdx < (b.side side).levels.size

theorem Sized.occupied_lt (h : b.Sized) (hi : b.Occupied side i) : i < b.asks.levels.size := by
  obtain ⟨level, hlevel, -⟩ := hi
  rw [← h.levels side]
  exact lt_size_of_getElem? hlevel

theorem validateBest_spec (hsized : b.Sized) (side : Side) :
    (b.validateBest side).Returns (fun found => found = [] ↔ b.BestPasses side) := by
  have hall : ∀ i, b.Occupied side i → i ∈ b.scanOrder side :=
    fun i hi => mem_scanOrder.mpr (hsized.occupied_lt hi)
  rw [validateBest, BestPasses]
  cases hhas : (b.side side).has with
  | false => exact failIf_eq_nil.trans Nat.not_le
  | true =>
      refine (firstOccupied_spec (fun i hi => ?_) (b.scanOrder_sorted side)).bind ?_
      · rw [hsized.levels]
        exact mem_scanOrder.mp hi
      · rintro (_ | i) hfound
        · exact iff_of_false (List.cons_ne_nil _ _) (fun h => hfound _ (hall _ h.1) h.1)
        · obtain ⟨-, hoccupied, hbest⟩ := hfound
          refine failIf_eq_nil.trans ?_
          rw [not_or, not_not, not_not]
          constructor
          · rintro ⟨hprice, hidx⟩
            rw [hidx]
            exact ⟨hoccupied, hprice, fun j hj => hbest j (hall j hj) hj⟩
          · rintro ⟨htop, hprice, hnone⟩
            have hidx : (b.side side).bestIdx = i :=
              ((side.better_trichotomy _ _).resolve_left
                (hbest _ (hall _ htop) htop)).resolve_right (hnone i hoccupied)
            exact ⟨hidx ▸ hprice, hidx⟩

/-- The counters agree with what the walks counted. -/
structure CountsPass (b : OrderBook) (restingCount mapCount : Nat) : Prop where
  active : b.activeCount = b.orderPool.liveCount
  mapped : mapCount = b.orderPool.liveCount
  resting : restingCount = b.orderPool.liveCount
  free : b.orderPool.freeListDepth =
    .ok ((b.orderPool.capacity + (2 ^ 64 - b.orderPool.liveCount)) % 2 ^ 64)

theorem validateCounts_spec (hsized : b.Sized) (restingCount mapCount : Nat) :
    (b.validateCounts restingCount mapCount).Returns (fun found =>
      found = [] ↔ b.CountsPass restingCount mapCount) := by
  obtain ⟨depth, hdepth⟩ := MemoryPool.freeListDepth_returns hsized.pool
  rw [validateCounts, hdepth, ok_bind]
  simp only [pure_eq_ok, returns_ok, List.append_eq_nil_iff, failIf_eq_nil, not_not]
  constructor
  · rintro ⟨⟨⟨hactive, hmapped⟩, hresting⟩, hfree⟩
    exact ⟨hactive, hmapped, hresting, hdepth.trans (congrArg Except.ok hfree)⟩
  · rintro ⟨hactive, hmapped, hresting, hfree⟩
    exact ⟨⟨⟨hactive, hmapped⟩, hresting⟩, Except.ok.inj (hdepth.symm.trans hfree)⟩

/-! ### The whole run -/

/-- The number of orders the walks meet. -/
def restingCount (b : OrderBook) (slots : Side → Nat → List Nat) : Nat :=
  ((List.range b.asks.levels.size).map (fun i => (slots .Buy i).length)).sum +
    ((List.range b.asks.levels.size).map (fun i => (slots .Sell i).length)).sum

/-- Everything `validate_book` compares is as it wants it, when the queues hold `slots`. -/
structure PassesChecks (b : OrderBook) (slots : Side → Nat → List Nat) : Prop where
  levels : ∀ side, ∀ i < b.asks.levels.size, ∃ level, (b.side side).levels[i]? = some level ∧
    b.LiveWalk level.head (slots side i) INVALID_INDEX ∧ b.LevelPasses side i level (slots side i)
  summary : ∀ side, ∀ w < (b.side side).bitset.size,
    bitAt (b.side side).summary w = (wordAt (b.side side).bitset w != 0)
  entries : ∀ id ∈ b.entries, b.EntryPasses id
  best : ∀ side, b.BestPasses side
  counts : b.CountsPass (b.restingCount slots) b.entries.length

/-- What the checker follows leads nowhere it cannot go: the walk of each level through
live slots ends, no slot it meets has an id beyond the map, and each cell of the map
is the sentinel or a slot of the pool. -/
structure Followable (b : OrderBook) : Prop where
  walks : ∀ side, ∀ i < b.asks.levels.size, ∃ slots stop level,
    (b.side side).levels[i]? = some level ∧ b.LiveWalk level.head slots stop
  map : b.MapInRange

section Run

variable {slots : Side → Nat → List Nat} {stops : Side → Nat → Nat}

theorem violations_spec (htools : env.debugTools = true) (hsized : b.Sized)
    (hwalks : ∀ side, b.WalksOf side (slots side) (stops side))
    (hfuel : ∀ side, ∀ i < b.asks.levels.size, (slots side i).length < fuel)
    (hrange : b.MapInRange) : (b.violations env fuel).Returns (fun found => found = [] ↔
      (∀ side, ∀ i < b.asks.levels.size, stops side i = INVALID_INDEX) ∧
        b.PassesChecks slots) := by
  rw [violations]
  refine (validateSide_spec htools hsized (hwalks .Buy) (hfuel .Buy)).bind ?_
  rintro ⟨bids, bidCount⟩ ⟨rfl, hbids⟩
  refine (validateSide_spec htools hsized (hwalks .Sell) (hfuel .Sell)).bind ?_
  rintro ⟨asks, askCount⟩ ⟨rfl, hasks⟩
  refine (validateMap_spec htools hsized hrange).bind ?_
  rintro ⟨entries, mapCount⟩ ⟨rfl, hentries⟩
  refine (validateBest_spec hsized .Buy).bind (fun bestBid hbestBid => ?_)
  refine (validateBest_spec hsized .Sell).bind (fun bestAsk hbestAsk => ?_)
  refine (validateCounts_spec hsized _ _).bind (fun counts hcounts => ?_)
  rw [pure_eq_ok, returns_ok]
  simp only [List.append_eq_nil_iff, hbids, hasks, hentries, hbestBid, hbestAsk, hcounts]
  constructor
  · rintro ⟨⟨⟨⟨⟨⟨hbidLevels, hbidWords⟩, haskLevels, haskWords⟩, hmap⟩, hbid⟩, hask⟩, hcounts⟩
    have hlevels : ∀ side, ∀ i < b.asks.levels.size, ∃ level,
        (b.side side).levels[i]? = some level ∧ stops side i = INVALID_INDEX ∧
          b.LevelPasses side i level (slots side i) := fun
      | .Buy => hbidLevels
      | .Sell => haskLevels
    refine ⟨fun side i hi => (hlevels side i hi).elim (fun _ h => h.2.1), ?_, ?_, hmap, ?_, hcounts⟩
    · intro side i hi
      obtain ⟨level, hread, hstop, hpasses⟩ := hlevels side i hi
      obtain ⟨level', hread', hwalk⟩ := hwalks side i hi
      obtain rfl := Option.some.inj (hread.symm.trans hread')
      exact ⟨level, hread, hstop ▸ hwalk, hpasses⟩
    · exact fun | .Buy => hbidWords | .Sell => haskWords
    · exact fun | .Buy => hbid | .Sell => hask
  · rintro ⟨hstops, hlevels, hwords, hmap, hbest, hcounts⟩
    have hside : ∀ side, ∀ i < b.asks.levels.size, ∃ level,
        (b.side side).levels[i]? = some level ∧ stops side i = INVALID_INDEX ∧
          b.LevelPasses side i level (slots side i) := by
      intro side i hi
      obtain ⟨level, hread, -, hpasses⟩ := hlevels side i hi
      exact ⟨level, hread, hstops side i hi, hpasses⟩
    exact ⟨⟨⟨⟨⟨⟨hside .Buy, hwords .Buy⟩, hside .Sell, hwords .Sell⟩, hmap⟩, hbest .Buy⟩,
      hbest .Sell⟩, hcounts⟩

end Run

/-- A pass over a side that returned has walked each of its levels to an end. -/
theorem walks_of_validateSide (htools : env.debugTools = true) (hsized : b.Sized)
    {counted : List Violation × Nat} (h : b.validateSide env fuel side = .ok counted) :
    ∀ i < b.asks.levels.size, ∃ slots stop level, (b.side side).levels[i]? = some level ∧
      b.LiveWalk level.head slots stop ∧ slots.length < fuel := by
  intro i hi
  obtain ⟨levels, hlevels, -⟩ := bind_eq_ok_iff.mp h
  obtain ⟨found, -, hfound⟩ := of_mapM hlevels (List.mem_range.mpr hi)
  obtain ⟨level, hread, hfound⟩ := bind_eq_ok_iff.mp hfound
  obtain ⟨walked, hwalked, -⟩ := bind_eq_ok_iff.mp hfound
  obtain ⟨slots, stop, hwalk, hlength⟩ := walkQueue_walks htools hsized hwalked
  exact ⟨slots, stop, level, vecRead_eq_ok_iff.mp hread, hwalk, hlength⟩

/-- A map check that returned has read the slot of each entry. -/
theorem mapInRange_of_validateMap (hsized : b.Sized) {counted : List Violation × Nat}
    (h : b.validateMap env = .ok counted) : b.MapInRange := by
  intro id hid
  obtain ⟨cells, hcells, -⟩ := bind_eq_ok_iff.mp h
  obtain ⟨found, -, hfound⟩ := of_mapM hcells hid
  obtain ⟨idx, hidx, hfound⟩ := bind_eq_ok_iff.mp hfound
  refine ⟨idx, vecRead_eq_ok_iff.mp hidx, ?_⟩
  by_cases hnone : idx = INVALID_INDEX
  · exact .inl hnone
  · rw [if_neg hnone] at hfound
    obtain ⟨live, -, hfound⟩ := bind_eq_ok_iff.mp hfound
    obtain ⟨o, ho, -⟩ := bind_eq_ok_iff.mp hfound
    have hlt := lt_size_of_getElem? (vecRead_eq_ok_iff.mp ho)
    rw [hsized.pool] at hlt
    exact .inr hlt

/-- A run that returned has followed everything, and its verdict is that of `PassesChecks`. -/
theorem validateBook_eq_ok (htools : env.debugTools = true) (hsized : b.Sized) {ok : Bool}
    (h : b.validateBook env fuel = .ok ok) :
    b.Followable ∧ (ok = true ↔ ∃ slots, b.PassesChecks slots) := by
  obtain ⟨found, hfound, hok⟩ := bind_eq_ok_iff.mp h
  obtain ⟨bids, hbids, hrest⟩ := bind_eq_ok_iff.mp hfound
  obtain ⟨asks, hasks, hrest⟩ := bind_eq_ok_iff.mp hrest
  obtain ⟨entries, hentries, -⟩ := bind_eq_ok_iff.mp hrest
  have hrange := mapInRange_of_validateMap hsized hentries
  have hends : ∀ side, ∀ i < b.asks.levels.size, ∃ slots stop level,
      (b.side side).levels[i]? = some level ∧ b.LiveWalk level.head slots stop ∧
        slots.length < fuel := by
    intro side
    cases side with
    | Buy => exact walks_of_validateSide htools hsized hbids
    | Sell => exact walks_of_validateSide htools hsized hasks
  have hfollow : b.Followable := by
    refine ⟨fun side i hi => ?_, hrange⟩
    obtain ⟨slots, stop, level, hread, hwalk, -⟩ := hends side i hi
    exact ⟨slots, stop, level, hread, hwalk⟩
  refine ⟨hfollow, ?_⟩
  constructor
  · intro hyes
    choose! slots stops level hread hwalk hlength using hends
    have hspec := (violations_spec htools hsized (fun side i hi =>
      ⟨level side i hi, hread side i hi, hwalk side i hi⟩) hlength hrange).result hfound
    rw [← Except.ok.inj hok, List.isEmpty_iff] at hyes
    exact ⟨slots, (hspec.mp hyes).2⟩
  · rintro ⟨slots, hpasses⟩
    have hlength : ∀ side, ∀ i < b.asks.levels.size, (slots side i).length < fuel := by
      intro side i hi
      obtain ⟨level, hread, hwalk, -⟩ := hpasses.levels side i hi
      obtain ⟨slots', stop', level', hread', hwalk', hlength⟩ := hends side i hi
      obtain rfl := Option.some.inj (hread.symm.trans hread')
      rwa [(hwalk.unique hwalk').1]
    have hwalks : ∀ side, b.WalksOf side (slots side) (fun _ => INVALID_INDEX) := by
      intro side i hi
      obtain ⟨level, hread, hwalk, -⟩ := hpasses.levels side i hi
      exact ⟨level, hread, hwalk⟩
    have hspec := (violations_spec htools hsized hwalks hlength hrange).result hfound
    rw [← Except.ok.inj hok, List.isEmpty_iff]
    exact hspec.mpr ⟨fun _ _ _ => rfl, hpasses⟩

theorem Followable.returns (htools : env.debugTools = true) (hsized : b.Sized)
    (h : b.Followable) : ∃ ok, b.validateBook env (b.orderPool.capacity + 1) = .ok ok := by
  have hends := h.walks
  choose! slots stops level hread hwalk using hends
  have hlength : ∀ side, ∀ i < b.asks.levels.size,
      (slots side i).length < b.orderPool.capacity + 1 :=
    fun side i hi => Nat.lt_succ_of_le (hwalk side i hi).length_le
  obtain ⟨found, hfound, -⟩ := returns_iff.mp (violations_spec htools hsized (fun side i hi =>
    ⟨level side i hi, hread side i hi, hwalk side i hi⟩) hlength h.map)
  exact ⟨found.isEmpty, by rw [validateBook, hfound]; rfl⟩

/-- What passes the checks can be followed. -/
theorem PassesChecks.followable {slots : Side → Nat → List Nat} (hsized : b.Sized)
    (h : b.PassesChecks slots) : b.Followable := by
  refine ⟨fun side i hi => ?_, fun id hid => ?_⟩
  · obtain ⟨level, hread, hwalk, -⟩ := h.levels side i hi
    exact ⟨slots side i, INVALID_INDEX, level, hread, hwalk⟩
  · obtain ⟨idx, hidx⟩ : ∃ idx, b.orderMap[id]? = some idx := by
      refine ⟨_, Array.getElem?_eq_getElem ?_⟩
      rw [hsized.orderMap]
      have := List.mem_range'_1.mp hid
      omega
    refine ⟨idx, hidx, or_iff_not_imp_left.mpr (fun hne => ?_)⟩
    obtain ⟨s, o, hs, hlive, -⟩ := h.entries id (List.mem_filter.mpr ⟨hid, by simpa [hidx]⟩)
    obtain rfl := Option.some.inj (hidx.symm.trans hs)
    exact hlive.1

/-- The checker says yes exactly to the books that pass the checks. -/
theorem validateBook_true_iff (htools : env.debugTools = true) (hsized : b.Sized) :
    (∃ fuel, b.validateBook env fuel = .ok true) ↔ ∃ slots, b.PassesChecks slots := by
  constructor
  · rintro ⟨fuel, h⟩
    exact (validateBook_eq_ok htools hsized h).2.mp rfl
  · rintro ⟨slots, h⟩
    obtain ⟨ok, hok⟩ := (h.followable hsized).returns htools hsized
    have hyes := (validateBook_eq_ok htools hsized hok).2.mpr ⟨slots, h⟩
    exact ⟨_, hyes ▸ hok⟩

/-- The checker returns exactly on the books it can follow. -/
theorem validateBook_returns_iff (htools : env.debugTools = true) (hsized : b.Sized) :
    (∃ fuel ok, b.validateBook env fuel = .ok ok) ↔ b.Followable := by
  constructor
  · rintro ⟨fuel, ok, h⟩
    exact (validateBook_eq_ok htools hsized h).1
  · intro h
    obtain ⟨ok, hok⟩ := h.returns htools hsized
    exact ⟨_, ok, hok⟩

/-- One tick and two ids; the two slots are live, in the bid queue, and each is the
other's successor. -/
def circular : OrderBook where
  bids :=
    { levels := #[{ head := 0, tail := 1, totalQuantity := 10, orderCount := 2 }]
      bitset := #[1], summary := #[1], best := 100, bestIdx := 0, has := true }
  asks := emptySide 1 101 0
  minPrice := 100
  maxPrice := 100
  maxOrderId := 2
  orderMap := #[INVALID_INDEX, 0, 1]
  orderPool :=
    { capacity := 2
      pool := #[{ next := 1, prev := 1, id := 1, price := 100, quantity := 5 },
        { next := 0, prev := 0, id := 2, price := 100, quantity := 5 }]
      padding := #[poisonPadding POISON_BYTE_FRESH, poisonPadding POISON_BYTE_FRESH]
      freeHead := INVALID_INDEX
      allocated := #[true, true], slotState := #[.Live, .Live], slotGeneration := #[1, 1]
      totalAllocs := 2, totalFrees := 0, liveCount := 2, highWater := 2, reports := [] }
  activeCount := 2
  journal := []
  inPublicEntry := false
  ownerThread := 0

theorem circular_sized : circular.Sized where
  levels side := by cases side <;> rfl
  ticks := by decide
  bitset side := by cases side <;> rfl
  summary side := by cases side <;> rfl
  orderMap := rfl
  pool := rfl
  allocated := rfl
  capacity := by decide

theorem validateBook_returns_iff_circular :
    (∃ fuel ok, circular.validateBook .instrumented fuel = .ok ok) ↔ circular.Followable :=
  validateBook_returns_iff rfl circular_sized

/-- The walk of a queue that has become a circle never ends. -/
theorem validateBook_circular : circular.Sized ∧
    ∀ fuel ok, circular.validateBook .instrumented fuel ≠ .ok ok := by
  refine ⟨circular_sized, fun fuel ok h => ?_⟩
  obtain ⟨slots, stop, level, hread, hwalk⟩ :=
    (validateBook_eq_ok rfl circular_sized h).1.walks .Buy 0 (by decide)
  obtain rfl := Option.some.inj hread
  refine not_liveWalk_of_closed (S := (· < 2)) (by decide) ?_ (by decide) hwalk
  intro s o hs ho
  obtain rfl | rfl : s = 0 ∨ s = 1 := by omega
  · obtain rfl := Option.some.inj ho
    decide
  · obtain rfl := Option.some.inj ho
    decide

end OrderBook

end Hft
