import MatchingEngine.Properties.Invariant
import MatchingEngine.Verification.Shape

/-!
# The vectors keep the sizes the constructor gives them

The constructor sizes every vector from its arguments, and no call allocates: after any
run the sizes are those of the new book.
-/

namespace Hft

open Machine Machine.Checked

namespace Args

/-- The levels and the two tiers of bits of one side. -/
def sideShape (args : Args) : SideShape :=
  let priceRange := args.maxPrice.toNat - args.minPrice.toNat + 1
  let bitsetWords := (priceRange + kWordBits - 1) / kWordBits
  ⟨priceRange, bitsetWords, (bitsetWords + kWordBits - 1) / kWordBits⟩

/-- The shape of a book that is built from these arguments. Every slot has its padding, and
only an instrumented build has flags, stamps and generations. -/
def shape (env : Env) (args : Args) : BookShape :=
  let capacity := min args.maxActiveOrders.toNat kMaxPoolCapacity
  let instrumented := if env.debugTools then capacity else 0
  { minPrice := args.minPrice.toNat
    maxPrice := args.maxPrice.toNat
    maxOrderId := args.maxOrderId.toNat
    ownerThread := env.thisThread
    bids := args.sideShape
    asks := args.sideShape
    orderMap := args.maxOrderId.toNat + 1
    orderPool := ⟨capacity, capacity, capacity, instrumented, instrumented, instrumented⟩ }

end Args

theorem MemoryPool.construct_shape (env : Env) (maxCapacity : Nat) :
    (MemoryPool.construct env maxCapacity).Ensures (fun p =>
      let capacity := min maxCapacity kMaxPoolCapacity
      let instrumented := if env.debugTools then capacity else 0
      p.shape = ⟨capacity, capacity, capacity, instrumented, instrumented, instrumented⟩) := by
  have hclamp : (if maxCapacity > kMaxPoolCapacity then kMaxPoolCapacity else maxCapacity) =
      min maxCapacity kMaxPoolCapacity := by
    split <;> omega
  unfold construct
  simp only [hclamp]
  refine (linkFreeList_shape _).mono (fun p hp => hp.trans ?_)
  simp only [shape, Array.size_replicate]

namespace OrderBook

variable {env : Env} {args : Args} {b b₀ : OrderBook}

theorem emptySide_shape (priceRange best bestIdx : Nat) :
    (emptySide priceRange best bestIdx).shape =
      ⟨priceRange, (priceRange + kWordBits - 1) / kWordBits,
        ((priceRange + kWordBits - 1) / kWordBits + kWordBits - 1) / kWordBits⟩ := by
  simp only [emptySide, BookSide.shape, Array.size_replicate]

theorem construct_shape (env : Env) (args : Args) :
    (construct env args).Ensures (fun b => b.shape = args.shape env) := by
  unfold construct
  refine (MemoryPool.construct_shape env _).bind (fun pool hpool => ?_)
  refine .ite .error (.ite .error (.ite .error ?_))
  refine checkedSub_ensures.bind ?_
  rintro span rfl
  refine checkedAdd_ensures.bind ?_
  rintro priceRange rfl
  refine .ite .error ?_
  refine .skip (fun bestAsk => ?_)
  refine .skip (fun bestAskIdx => ?_)
  refine checkedAdd_ensures.bind ?_
  rintro mapSize rfl
  refine .ok ?_
  simp only [shape, Args.shape, Args.sideShape, emptySide_shape, hpool, Array.size_replicate]

/-- No call of a run, of whatever kind and with whatever outcome, resizes a vector or moves a
limit. -/
theorem run_keeps_sizes (h : construct env args = .ok b₀) (calls : List Call) :
    (b₀.run env calls).Returns (fun (_, b) => b.shape = args.shape env) := by
  refine ((run_spec h calls).and_ensures (run_shape b₀ calls)).mono ?_
  rintro ⟨replies, b⟩ ⟨-, hb⟩
  exact hb.trans (construct_shape env args b₀ h)

theorem run_keeps_sizes_small : ∃ b₀, construct .instrumented .small = .ok b₀ ∧
    (b₀.run .instrumented [.addOrder 1 .Limit 101 5 .Buy, .addOrder 2 .Market 0 3 .Sell]).Returns
      (fun (_, b) => b.shape = Args.small.shape .instrumented) := by
  obtain ⟨b₀, h⟩ := construct_small .instrumented
  exact ⟨b₀, h, run_keeps_sizes h _⟩

end OrderBook

end Hft
