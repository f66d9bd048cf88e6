import MatchingEngine.Machine.Coalesce
import MatchingEngine.Properties.Priority
import MatchingEngine.Verification.Determined

/-!
# Splitting a taker

A taker whose demand is covered can come in two parts. The parts meet the makers
the whole would meet, and leave the book it would leave; a maker at which the first
part stopped trades twice.
-/

namespace Hft

open Machine Machine.Checked

/-- Who gave, at what price, and how much. -/
def Trade.given (trade : Trade) : (Nat × Nat) × Nat :=
  ((trade.makerId, trade.price), trade.quantity)

namespace Ledger

variable {g : Geometry} {L M : Ledger} {side : Side} {is : List Nat} {taker m n : Nat}

/-- Under what a taker's trades record an order. -/
def offer (g : Geometry) (p : Placed) : Nat × Nat := (p.order.id, g.price p.index)

theorem placed_nodup (h : L.WellFormed g) (side : Side) (i : Nat) : (L.placed side i).Nodup :=
  (map_slot_mk (L.queue side i) ▸ h.slots_nodup side i : ((L.placed side i).map _).Nodup).of_map

theorem offers_nodup (h : L.WellFormed g) (hnodup : is.Nodup) :
    ((L.lots side is).map (offer g)).Nodup := by
  have hlots : (L.lots side is).Nodup := by
    refine List.nodup_flatMap.mpr ⟨fun i _ => placed_nodup h side i, hnodup.imp ?_⟩
    intro i j hij p hp hp'
    exact hij ((mem_placed.mp hp).2.1.symm.trans (mem_placed.mp hp').2.1)
  refine List.Nodup.map_on ?_ hlots
  intro p hp q hq heq
  obtain ⟨i, -, hp⟩ := List.mem_flatMap.mp hp
  obtain ⟨j, -, hq⟩ := List.mem_flatMap.mp hq
  obtain ⟨rfl, rfl, hr⟩ := mem_placed.mp hp
  obtain ⟨hside, rfl, hr'⟩ := mem_placed.mp hq
  obtain ⟨-, hindex, horder⟩ := h.id_inj hr hr' (congrArg Prod.fst heq)
  cases p
  cases q
  simp_all

/-- The orders on a list of prices determine each of the queues. -/
theorem queue_of_lots (hnodup : is.Nodup) (h : M.lots side is = L.lots side is) {i : Nat}
    (hi : i ∈ is) : M.queue side i = L.queue side i := by
  have hone : is.filter (fun j => j == i) = [i] := by
    rw [List.filter_beq, List.count_eq_one_of_mem hnodup hi]
    rfl
  have hplaced : ∀ N : Ledger, ((N.lots side is).filter (fun p => p.index == i)).map
      (fun p => p.order) = N.queue side i := by
    intro N
    rw [lots_filter (fun j => j == i), hone]
    simp [lots, placed, Function.comp_def]
  rw [← hplaced M, h, hplaced]

/-- Sweeping twice leaves the queues one sweep for both leaves. -/
theorem sweep_sweep (side : Side) (taker taker' taker'' : Nat) (h : L.WellFormed g)
    (his : ∀ i ∈ is, i < g.range) (hnodup : is.Nodup) (m n : Nat) :
    (sweep g side taker' is n (sweep g side taker is m L).ledger).ledger.queue =
      (sweep g side taker'' is (m + n) L).ledger.queue := by
  funext s j
  by_cases hout : s = side ∨ j ∉ is
  · rw [sweep_queue_of_ne hout, sweep_queue_of_ne hout, sweep_queue_of_ne hout]
  · rw [not_or, not_not] at hout
    obtain rfl : s = side.opposite := (side.eq_or_eq_opposite s).resolve_left hout.1
    refine queue_of_lots hnodup ?_ hout.2
    rw [sweep_lots (h.sweep his) his hnodup, sweep_lots h his hnodup, sweep_lots h his hnodup]
    have hshrink : ∀ (p : Placed) m n, (p.shrink m).shrink n = p.shrink (m + n) := by
      intro p m n
      simp only [Placed.shrink, Resting.shrink, Nat.sub_sub]
    have hsize : ∀ (p : Placed) m, size (p.shrink m) = size p - m := fun _ _ => rfl
    exact Greedy.rest_rest hshrink hsize _ m n

theorem sweep_total (taker : Nat) (h : L.WellFormed g) (his : ∀ i ∈ is, i < g.range)
    (hnodup : is.Nodup) (n : Nat) :
    Greedy.total size ((sweep g side taker is n L).ledger.lots side.opposite is) =
      Greedy.total size (L.lots side.opposite is) - n := by
  rw [sweep_lots h his hnodup, Greedy.total_rest (fun _ _ _ => rfl)]

theorem sweep_given (hnodup : is.Nodup) : (sweep g side taker is n L).trades.map Trade.given =
    Greedy.given size (offer g) (L.lots side.opposite is) n := by
  rw [sweep_trades hnodup, List.map_map]
  rfl

/-- The trades of two sweeps are those of one, but for a maker that trades twice. -/
theorem sweep_sweep_given (side : Side) (taker taker' taker'' : Nat) (h : L.WellFormed g)
    (his : ∀ i ∈ is, i < g.range) (hnodup : is.Nodup) (m n : Nat) :
    (sweep g side taker'' is (m + n) L).trades.map Trade.given =
      coalesce (((sweep g side taker is m L).trades ++
        (sweep g side taker' is n (sweep g side taker is m L).ledger).trades).map Trade.given) := by
  rw [List.map_append, sweep_given hnodup, sweep_given hnodup, sweep_given hnodup,
    sweep_lots h his hnodup]
  have hsize : ∀ (p : Placed) m, size (p.shrink m) = size p - m := fun _ _ => rfl
  have hoffer : ∀ (p : Placed) m, offer g (p.shrink m) = offer g p := fun _ _ => rfl
  exact (Greedy.coalesce_given_append hsize hoffer (fun _ => rfl) (size_pos h)
    (offers_nodup h hnodup) m n).symm

/-- A taker whose demand is covered fills completely and posts nothing. -/
theorem execute_covered (id : Nat) {price quantity : Nat} {type : OrderType}
    (hcovered : quantity ≤ Greedy.total size (L.lots side.opposite
      (g.matchable side (OrderBook.resolvePrice type side price)))) :
    let s := sweep g side id (g.matchable side (OrderBook.resolvePrice type side price)) quantity L
    (L.execute g id type price quantity side).reply = ⟨.Accepted, quantity, s.trades⟩ ∧
      (L.execute g id type price quantity side).ledger = s.ledger := by
  intro s
  have hleft : s.left = 0 := by
    rw [sweep_left (g.matchable_nodup side _)]
    exact Nat.sub_eq_zero_of_le hcovered
  have hstop : ¬(s.left > 0 ∧ type ≠ .Market) := by
    rw [hleft]
    exact fun h => Nat.lt_irrefl 0 h.1
  have hexecute : L.execute g id type price quantity side = ⟨⟨.Accepted, quantity - s.left,
      s.trades⟩, _ :: s.events, s.ledger⟩ := if_neg hstop
  rw [hexecute, hleft]
  exact ⟨rfl, rfl⟩

/-- A demand that something covers finds an opposite best price. -/
theorem best_of_covered (h : L.WellFormed g) (hpos : 0 < n)
    (hcovered : n ≤ Greedy.total size (L.lots side is)) : L.best g side ≠ none := by
  intro hnone
  have hbest := h.isBest side
  rw [hnone] at hbest
  have hempty : L.lots side is = [] := by
    refine List.flatMap_eq_nil_iff.mpr (fun i _ => List.map_eq_nil_iff.mpr ?_)
    by_contra hne
    exact hbest i hne
  rw [hempty, Greedy.total_nil] at hcovered
  omega

theorem total_lots (L : Ledger) (side : Side) (is : List Nat) : Greedy.total size (L.lots side is) =
    (is.map (fun i => Greedy.total Resting.quantity (L.queue side i))).sum := by
  induction is with
  | nil => rfl
  | cons i is ih =>
      have hlots : L.lots side (i :: is) = L.placed side i ++ L.lots side is := List.flatMap_cons
      rw [hlots, Greedy.total_append, total_placed, ih, List.map_cons, List.sum_cons]

end Ledger

namespace OrderBook

variable {env : Env} {args : Args} {g : Geometry} {b : OrderBook} {L : Ledger} {side : Side}

/-- The total resting quantity at the opposite prices a taker accepts. -/
def crossable (b : OrderBook) (side : Side) (takerPrice : Nat) : Checked Nat := do
  let accepted := (List.range (b.maxPrice - b.minPrice + 1)).filter
    (fun i => Exec.crosses side takerPrice (b.minPrice + i))
  let totals ← accepted.mapM (fun i => b.levelTotalQuantity side.opposite (b.minPrice + i))
  return totals.sum

/-- What `add_order` checks of an order, its quantity and the state of the opposite
side apart. -/
structure ValidTaker (b : OrderBook) (id : UInt32) (type : OrderType) (price : UInt32) : Prop where
  not_cancel : type ≠ .Cancel
  id_pos : 0 < id.toNat
  id_le : id.toNat ≤ b.maxOrderId
  fresh : b.orderExists id.toNat = .ok false
  price_mem : type = .Limit → b.minPrice ≤ price.toNat ∧ price.toNat ≤ b.maxPrice

theorem levelTotalQuantity_eq (store : Store env g b L) (side : Side) {i : Nat}
    (hi : i < g.range) : b.levelTotalQuantity side (b.minPrice + i) =
      .ok (Greedy.total Resting.quantity (L.queue side i)) := by
  have hrange := g.minPrice_add_range
  have hout : ¬(b.minPrice + i < b.minPrice ∨ b.minPrice + i > b.maxPrice) := by
    rw [store.minPrice, store.maxPrice]
    omega
  obtain ⟨level, hlevel, -, hrep⟩ := store.level_eq side hi
  have htotal : level.totalQuantity = Greedy.total Resting.quantity (L.queue side i) := hrep.total
  rw [levelTotalQuantity, if_neg hout, checkedSub, if_pos (Nat.le_add_right _ _), ok_bind,
    Nat.add_sub_cancel_left, vecRead_eq hlevel, ok_bind, htotal]
  rfl

theorem crossable_eq (store : Store env g b L) (side : Side) (takerPrice : Nat) :
    b.crossable side takerPrice =
      .ok (Greedy.total Ledger.size (L.lots side.opposite (g.matchable side takerPrice))) := by
  have hprice : ∀ i, b.minPrice + i = g.price i := fun i => by rw [store.minPrice]; rfl
  have hrange : b.maxPrice - b.minPrice + 1 = g.range := by
    rw [store.maxPrice, store.minPrice]
    rfl
  have hperm : ((List.range g.range).filter
      (fun i => Exec.crosses side takerPrice (g.price i))).Perm (g.matchable side takerPrice) := by
    refine List.Perm.filter _ ?_
    cases side
    · exact .refl _
    · exact (List.reverse_perm _).symm
  rw [crossable]
  simp only [hprice, hrange]
  rw [mapM_eq (h := fun i => Greedy.total Resting.quantity (L.queue side.opposite i)), ok_bind,
    pure_eq_ok, (hperm.map _).sum_eq, ← Ledger.total_lots]
  intro i hi
  have hlt := List.mem_range.mp (List.mem_filter.mp hi).1
  rw [← hprice]
  exact levelTotalQuantity_eq store side.opposite hlt

theorem ValidTaker.valid {id price : UInt32} {type : OrderType} {n : Nat}
    (h : b.ValidTaker id type price) (store : Store env g b L) (hpos : 0 < n)
    (hcovered : n ≤ Greedy.total Ledger.size (L.lots side.opposite
      (g.matchable side (resolvePrice type side price.toNat)))) :
    Ledger.Valid g L id.toNat type price.toNat n side where
  not_cancel := h.not_cancel
  quantity_pos := hpos
  id_pos := h.id_pos
  id_le := store.maxOrderId ▸ h.id_le
  fresh := fresh_of_orderExists store h.fresh
  price_mem := by
    rw [← store.minPrice, ← store.maxPrice]
    exact h.price_mem
  opposite := fun _ => Ledger.best_of_covered store.wellFormed hpos hcovered

/-- A taker whose demand is covered is accepted and fills completely. -/
theorem step_covered (h : Ready env g b L) {id price quantity : UInt32} {type : OrderType}
    (hvalid : Ledger.Valid g L id.toNat type price.toNat quantity.toNat side)
    (hcovered : quantity.toNat ≤ Greedy.total Ledger.size (L.lots side.opposite
      (g.matchable side (resolvePrice type side price.toNat)))) :
    ∃ b', b.step env (.addOrder id type price quantity side) = .ok (⟨.Accepted, quantity.toNat,
        (Ledger.sweep g side id.toNat (g.matchable side (resolvePrice type side price.toNat))
          quantity.toNat L).trades⟩, b') ∧
      Ready env g b' (Ledger.sweep g side id.toNat
        (g.matchable side (resolvePrice type side price.toNat)) quantity.toNat L).ledger := by
  obtain ⟨⟨reply, b'⟩, heq, hreply, hfollows⟩ := returns_iff.mp
    (step_spec h (.addOrder id type price quantity side))
  have hstep : L.step g (.addOrder id type price quantity side) =
      L.execute g id.toNat type price.toNat quantity.toNat side := Ledger.add_of_valid hvalid
  obtain ⟨hanswer, hledger⟩ := Ledger.execute_covered id.toNat hcovered
  have hready := h.follows hfollows
  rw [hstep] at hreply hready
  rw [hreply, hanswer] at heq
  rw [hledger] at hready
  exact ⟨b', heq, hready⟩

/-- Books that represent the same queues show the same queues. -/
theorem Ready.queue_congr {b' : OrderBook} {M : Ledger} (h : Ready env g b L)
    (h' : Ready env g b' M) (same : M.queue = L.queue) (side : Side) (i : Nat) :
    b'.queue side i = b.queue side i := by
  by_cases hi : i < g.range
  · rw [queue_eq h.represents.store side hi, queue_eq h'.represents.store side hi, same]
  · have hnone : (b.side side).levels[i]? = none := by
      rw [Array.getElem?_eq_none_iff, h.represents.store.levelsSize]
      omega
    rw [queue, queue, level, level, h.represents.side_eq h'.represents same, vecRead, hnone]
    rfl

/-- Trades of several takers against those of one: the same book is left, the makers
give the same, and the sequences agree but for a maker that gave twice in a row. -/
structure Recombines (env : Env) (b' b : OrderBook) (parts trades : List Trade) : Prop where
  queues : ∀ side i, b'.queue side i = b.queue side i
  book : ∃ free free', Interchangeable env b b' free free'
  merged : trades.map Trade.given = coalesce (parts.map Trade.given)
  received : ∀ maker, received maker (trades.map Trade.given) =
    received maker (parts.map Trade.given)

/-- Two takers in a row leave the book that one taker for both leaves, and trade what
it trades; all three are accepted and fill completely. -/
theorem split_taker (h : Reachable env args b) {id₁ id₂ id price q₁ q₂ : UInt32}
    {type : OrderType} (hvalid₁ : b.ValidTaker id₁ type price)
    (hvalid₂ : b.ValidTaker id₂ type price) (hvalid : b.ValidTaker id type price)
    (hq₁ : 0 < q₁.toNat) (hq₂ : 0 < q₂.toNat) (hlt : q₁.toNat + q₂.toNat < 2 ^ 32)
    (hcrossable : (b.crossable side (resolvePrice type side price.toNat)).Returns
      (q₁.toNat + q₂.toNat ≤ ·)) :
    ∃ b₁ b₂ b' trades₁ trades₂ trades,
      b.step env (.addOrder id₁ type price q₁ side) = .ok (⟨.Accepted, q₁.toNat, trades₁⟩, b₁) ∧
      b₁.step env (.addOrder id₂ type price q₂ side) = .ok (⟨.Accepted, q₂.toNat, trades₂⟩, b₂) ∧
      b.step env (.addOrder id type price (q₁ + q₂) side) =
        .ok (⟨.Accepted, q₁.toNat + q₂.toNat, trades⟩, b') ∧
      Recombines env b₂ b' (trades₁ ++ trades₂) trades := by
  obtain ⟨accepted, L, hready⟩ := h.ready
  generalize args.geometry accepted = g at hready
  have store := hready.represents.store
  have hwf := store.wellFormed
  rw [crossable_eq store, returns_ok] at hcrossable
  have hsum : (q₁ + q₂).toNat = q₁.toNat + q₂.toNat := by
    rw [UInt32.toNat_add, Nat.mod_eq_of_lt hlt]
  have hbound : ∀ i ∈ g.matchable side (resolvePrice type side price.toNat), i < g.range :=
    fun i hi => (Geometry.mem_matchable.mp hi).1
  have hnodup := g.matchable_nodup side (resolvePrice type side price.toNat)
  -- the first part
  have hcovered₁ : q₁.toNat ≤ _ := Nat.le_trans (Nat.le_add_right _ _) hcrossable
  obtain ⟨b₁, hstep₁, hready₁⟩ := step_covered hready (hvalid₁.valid store hq₁ hcovered₁) hcovered₁
  -- the second part meets what is left
  have hcovered₂ := Nat.le_sub_of_add_le' hcrossable
  rw [← Ledger.sweep_total id₁.toNat hwf hbound hnodup] at hcovered₂
  have hfirst := hvalid₂.valid store hq₂
    (Nat.le_trans (Nat.le_add_left q₂.toNat q₁.toNat) hcrossable)
  have hsecond : Ledger.Valid g _ id₂.toNat type price.toNat q₂.toNat side :=
    { hfirst with
      fresh := Ledger.sweep_fresh hfirst.fresh
      opposite := fun _ => Ledger.best_of_covered hready₁.represents.wellFormed hq₂ hcovered₂ }
  obtain ⟨b₂, hstep₂, hready₂⟩ := step_covered hready₁ hsecond hcovered₂
  -- the whole
  rw [← hsum] at hcrossable
  obtain ⟨b', hstep, hready'⟩ := step_covered hready
    (hvalid.valid store (by rw [hsum]; exact Nat.add_pos_left hq₁ _) hcrossable) hcrossable
  rw [hsum] at hstep hready'
  have same := Ledger.sweep_sweep side id₁.toNat id₂.toNat id.toNat hwf hbound hnodup q₁.toNat
    q₂.toNat
  have htrades := Ledger.sweep_sweep_given side id₁.toNat id₂.toNat id.toNat hwf hbound hnodup
    q₁.toNat q₂.toNat
  have hbook := hready'.represents.store.interchangeable hready₂.represents.store same
    (hready'.represents.side_eq hready₂.represents same)
  refine ⟨b₁, b₂, b', _, _, _, hstep₁, hstep₂, hstep, hready'.queue_congr hready₂ same,
    ⟨_, _, hbook⟩, htrades, ?_⟩
  intro maker
  rw [htrades, received_coalesce]

theorem split_taker_small : ∃ b₀ b, construct .release .small = .ok b₀ ∧
    b₀.run .release [.addOrder 1 .Limit 101 5 .Sell, .addOrder 2 .Limit 102 7 .Sell] =
      .ok ([⟨.Accepted, 0, []⟩, ⟨.Accepted, 0, []⟩], b) ∧
    ∃ b₁ b₂ b' trades₁ trades₂ trades,
      b.step .release (.addOrder 3 .Market 0 2 .Buy) = .ok (⟨.Accepted, 2, trades₁⟩, b₁) ∧
      b₁.step .release (.addOrder 4 .Market 0 4 .Buy) = .ok (⟨.Accepted, 4, trades₂⟩, b₂) ∧
      b.step .release (.addOrder 3 .Market 0 6 .Buy) = .ok (⟨.Accepted, 6, trades⟩, b') ∧
      Recombines .release b₂ b' (trades₁ ++ trades₂) trades := by
  obtain ⟨b₀, h⟩ := construct_small .release
  obtain ⟨⟨replies, b⟩, hrun, hreplies, hready, -⟩ := returns_iff.mp
    (run_small h [.addOrder 1 .Limit 101 5 .Sell, .addOrder 2 .Limit 102 7 .Sell])
  have hreply : replies = [⟨.Accepted, 0, []⟩, ⟨.Accepted, 0, []⟩] := hreplies.trans (by decide)
  subst hreply
  have store := hready.represents.store
  have htaker : ∀ id : UInt32, id = 3 ∨ id = 4 → b.ValidTaker id .Market 0 := by
    rintro id (rfl | rfl)
    all_goals
      refine ⟨by decide, by decide, ?_, ?_, nofun⟩
      · rw [store.maxOrderId]
        decide
      · rw [orderExists_eq store]
        decide
  have hcrossable : (b.crossable .Buy (resolvePrice .Market .Buy 0)).Returns (2 + 4 ≤ ·) := by
    rw [crossable_eq store, returns_ok]
    decide
  exact ⟨b₀, b, h, hrun, split_taker ⟨b₀, _, _, h, hrun⟩ (htaker 3 (Or.inl rfl))
    (htaker 4 (Or.inr rfl)) (htaker 3 (Or.inl rfl)) (by decide) (by decide) (by decide)
    hcrossable⟩

end OrderBook

end Hft
