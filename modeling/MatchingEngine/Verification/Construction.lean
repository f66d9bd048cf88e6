import MatchingEngine.Verification.Entry

/-!
# New books and their runs

The constructor accepts exactly the arguments that make a geometry, and a new
book represents the empty ledger. From there every run of calls follows the run
of the ledger.
-/

namespace Hft

open Machine Machine.Checked

namespace Args

/-- What the constructor checks. -/
structure Accepted (args : Args) : Prop where
  min_le_max : args.minPrice.toNat ≤ args.maxPrice.toNat
  max_lt : args.maxPrice.toNat < 2 ^ 32 - 1
  ids_le : args.maxOrderId.toNat ≤ kMaxOrderIds
  ticks_le : args.maxPrice.toNat - args.minPrice.toNat + 1 ≤ kMaxPriceRangeTicks

def geometry (args : Args) (h : args.Accepted) : Geometry where
  minPrice := args.minPrice.toNat
  maxPrice := args.maxPrice.toNat
  maxOrderId := args.maxOrderId.toNat
  capacity := min args.maxActiveOrders.toNat kMaxPoolCapacity
  min_le_max := h.min_le_max
  max_lt := h.max_lt
  ticks_le := h.ticks_le
  ids_le := h.ids_le
  capacity_le := Nat.min_le_right _ _

end Args

namespace OrderBook

variable {env : Env} {args : Args} {b b₀ : OrderBook}

theorem emptySide_index (g : Geometry) (side : Side) :
    Index g side ∅ none (emptySide g.range (g.sentinelPrice side) (g.sentinelIndex side)) := by
  refine ⟨Represents.replicate _ _, ?_, ?_, fun i hi => absurd hi (Set.notMem_empty i), rfl, rfl,
    rfl⟩
  · simp only [emptySide, Array.size_replicate]
    rfl
  · simp only [emptySide, Array.size_replicate]
    rfl

/-- The book the constructor builds around its pool. -/
def fresh (env : Env) (g : Geometry) (pool : MemoryPool) : OrderBook where
  bids := emptySide g.range (g.sentinelPrice .Buy) (g.sentinelIndex .Buy)
  asks := emptySide g.range (g.sentinelPrice .Sell) (g.sentinelIndex .Sell)
  minPrice := g.minPrice
  maxPrice := g.maxPrice
  maxOrderId := g.maxOrderId
  orderMap := Array.replicate (g.maxOrderId + 1) INVALID_INDEX
  orderPool := pool
  activeCount := 0
  journal := []
  inPublicEntry := false
  ownerThread := env.thisThread

theorem fresh_represents {g : Geometry} {pool : MemoryPool}
    (hpool : pool.Represents env (List.range g.capacity)) (hcapacity : pool.capacity = g.capacity)
    (hreports : pool.reports = []) : Represents env g (fresh env g pool) (Ledger.empty g) := by
  have hnone : ∀ p, p ∉ (Ledger.empty g).resting g := by
    intro p hp
    rw [Ledger.empty_resting] at hp
    exact List.not_mem_nil hp
  have hside : ∀ side, (fresh env g pool).side side =
      emptySide g.range (g.sentinelPrice side) (g.sentinelIndex side) := by
    intro side
    cases side <;> rfl
  have hwf := Ledger.empty_wellFormed g
  refine ⟨?_, ?_⟩
  · exact {
      wellFormed := hwf
      minPrice := rfl
      maxPrice := rfl
      maxOrderId := rfl
      capacity := hcapacity
      pool := hpool
      reports := hreports
      levelsSize := fun side => by
        rw [hside]
        exact Array.size_replicate
      level := fun side i hi => by
        rw [hside]
        refine ⟨{}, ?_, PriceLevel.Represents.empty _⟩
        exact (Array.getElem?_replicate ..).trans (if_pos hi)
      holds := fun p hp => absurd hp (hnone p)
      mapSize := Array.size_replicate
      mapped := fun p hp => absurd hp (hnone p)
      unmapped := fun id hid _ => (Array.getElem?_replicate ..).trans (if_pos (by omega))
      active := by rw [Ledger.empty_resting]; rfl }
  · intro side
    rw [hside]
    have hocc : (Ledger.empty g).occupied side = ∅ := by
      ext i
      simp [Ledger.occupied, Ledger.empty]
    have hbest : (Ledger.empty g).best g side = none := by
      rw [hwf.best_eq_iff, hocc]
      exact fun i hi => Set.notMem_empty i hi
    rw [hocc, hbest]
    exact emptySide_index g side

/-- The constructor returns on accepted arguments. -/
theorem construct_spec (env : Env) (h : args.Accepted) :
    (construct env args).Returns (fun b =>
      Tracks env (args.geometry h) b (Ledger.empty (args.geometry h), [])) := by
  obtain ⟨pool, heq, hpool, hcapacity, hreports⟩ :=
    returns_iff.mp (MemoryPool.construct_spec env args.maxActiveOrders.toNat)
  have hmin := h.min_le_max
  have hmax := h.max_lt
  have hids := h.ids_le
  have hticks := h.ticks_le
  have hspan : args.maxPrice.toNat - args.minPrice.toNat + 1 < 2 ^ 64 := by omega
  have hmap : args.maxOrderId.toNat + 1 < 2 ^ 64 := by
    simp only [kMaxOrderIds] at hids
    omega
  have hask : args.maxPrice.toNat + 1 < 2 ^ 32 := by omega
  have hbook : construct env args = .ok (fresh env (args.geometry h) pool) := by
    simp only [construct, heq, ok_bind, if_neg (Nat.not_lt.mpr hmin), if_neg (Nat.ne_of_lt hmax),
      if_neg (Nat.not_lt.mpr hids), checkedSub, if_pos hmin, checkedAdd, if_pos hspan,
      if_neg (Nat.not_lt.mpr hticks), if_pos hask, if_pos hmap]
    rfl
  rw [hbook, returns_ok]
  rw [hcapacity] at hpool
  exact ⟨⟨fresh_represents hpool hcapacity hreports, rfl, rfl⟩, (Env.journaled_nil env).symm⟩

/-- On all other arguments the constructor aborts with one of its messages. -/
theorem construct_abort (env : Env) (h : ¬args.Accepted) :
    ∃ message, construct env args = .error (.abort message) := by
  obtain ⟨pool, heq, -⟩ :=
    returns_iff.mp (MemoryPool.construct_spec env args.maxActiveOrders.toNat)
  have hprice := args.maxPrice.toNat_lt
  simp only [construct, heq, ok_bind]
  by_cases hmin : args.minPrice.toNat > args.maxPrice.toNat
  · exact ⟨_, if_pos hmin⟩
  rw [if_neg hmin]
  by_cases hmax : args.maxPrice.toNat = 2 ^ 32 - 1
  · exact ⟨_, if_pos hmax⟩
  rw [if_neg hmax]
  by_cases hids : args.maxOrderId.toNat > kMaxOrderIds
  · exact ⟨_, if_pos hids⟩
  rw [if_neg hids]
  have hspan : args.maxPrice.toNat - args.minPrice.toNat + 1 < 2 ^ 64 := by omega
  simp only [checkedSub, if_pos (Nat.le_of_not_lt hmin), ok_bind, checkedAdd, if_pos hspan]
  by_cases hticks : args.maxPrice.toNat - args.minPrice.toNat + 1 > kMaxPriceRangeTicks
  · exact ⟨_, if_pos hticks⟩
  · exact absurd ⟨by omega, by omega, by omega, by omega⟩ h

theorem accepted_of_construct (h : construct env args = .ok b) : args.Accepted := by
  by_contra hnot
  obtain ⟨message, habort⟩ := construct_abort env hnot
  rw [habort] at h
  cases h

/-- A run from a new book returns, and follows the run of the empty ledger. -/
theorem run_spec (h : construct env args = .ok b₀) (calls : List Call) :
    (b₀.run env calls).Returns (fun (replies, b) =>
      replies = ((Ledger.empty (args.geometry (accepted_of_construct h))).run
        (args.geometry (accepted_of_construct h)) calls).1 ∧
      Tracks env (args.geometry (accepted_of_construct h)) b
        ((Ledger.empty (args.geometry (accepted_of_construct h))).run
          (args.geometry (accepted_of_construct h)) calls).2) := by
  have hnew := construct_spec env (accepted_of_construct h)
  rw [h, returns_ok] at hnew
  exact (step_refines env _).runs hnew

/-- What a client can bring about stands for a ledger. -/
theorem Reachable.ready (h : Reachable env args b) : ∃ (accepted : args.Accepted) (L : Ledger),
    Ready env (args.geometry accepted) b L := by
  obtain ⟨b₀, calls, replies, hnew, hrun⟩ := h
  have hspec := run_spec hnew calls
  rw [hrun, returns_ok] at hspec
  exact ⟨accepted_of_construct hnew, _, hspec.2.1⟩

/-- What a client can bring about stands for a ledger and a journal. -/
theorem Reachable.tracks (h : Reachable env args b) : ∃ (accepted : args.Accepted)
    (state : Ledger × List JournalEntry), Tracks env (args.geometry accepted) b state := by
  obtain ⟨b₀, calls, replies, hnew, hrun⟩ := h
  have hspec := run_spec hnew calls
  rw [hrun, returns_ok] at hspec
  exact ⟨accepted_of_construct hnew, _, hspec.2⟩

end OrderBook

/-! ## A small book, for closed instances -/

def Env.release : Env := ⟨false, none, none, 0⟩

def Env.instrumented : Env := ⟨true, none, none, 0⟩

/-- Two slots over four prices. -/
def Args.small : Args := ⟨4, 2, 100, 103⟩

theorem Args.small_accepted : Args.small.Accepted := by
  constructor <;> decide

theorem OrderBook.construct_small (env : Env) : ∃ b₀, construct env .small = .ok b₀ := by
  obtain ⟨b₀, h, -⟩ := returns_iff.mp (construct_spec env Args.small_accepted)
  exact ⟨b₀, h⟩

def Geometry.small : Geometry := Args.small.geometry Args.small_accepted

theorem OrderBook.run_small {env : Env} {b₀ : OrderBook} (h : construct env .small = .ok b₀)
    (calls : List Call) : (b₀.run env calls).Returns (fun (replies, b) =>
      replies = ((Ledger.empty .small).run .small calls).1 ∧
      Tracks env .small b ((Ledger.empty .small).run .small calls).2) :=
  run_spec h calls

end Hft
