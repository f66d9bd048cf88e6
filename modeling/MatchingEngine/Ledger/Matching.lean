import MatchingEngine.Engine.Entry
import MatchingEngine.Ledger.Ledger

/-!
# Matching on ledgers

A taker visits the prices it accepts, best first, and consumes each queue
greedily. `sweep` is this walk with the trades it makes and the journal entries
it leaves; it does nothing at an empty queue or for an exhausted taker.
-/

namespace Hft

open Machine

namespace Geometry

/-- The indices of a side's prices, best first. -/
def priority (g : Geometry) : Side → List Nat
  | .Buy => (List.range g.range).reverse
  | .Sell => List.range g.range

/-- The indices a taker of `side` accepts, in the order it visits them. -/
def matchable (g : Geometry) (side : Side) (takerPrice : Nat) : List Nat :=
  (g.priority side.opposite).filter (fun i => Exec.crosses side takerPrice (g.price i))

/-- The price an empty side shows as its best. -/
def sentinelPrice (g : Geometry) : Side → Nat
  | .Buy => 0
  | .Sell => g.maxPrice + 1

def sentinelIndex (g : Geometry) : Side → Nat
  | .Buy => 0
  | .Sell => g.range - 1

def bestPrice (g : Geometry) (side : Side) (best : Option Nat) : Nat :=
  (best.map g.price).getD (g.sentinelPrice side)

def bestIndex (g : Geometry) (side : Side) (best : Option Nat) : Nat :=
  best.getD (g.sentinelIndex side)

end Geometry

namespace Side

/-- Index `i` has the better price. -/
def Better (side : Side) (i j : Nat) : Prop :=
  match side with
  | .Buy => j < i
  | .Sell => i < j

instance (side : Side) (i j : Nat) : Decidable (side.Better i j) := by
  cases side <;> exact inferInstanceAs (Decidable (_ < _))

variable {side : Side} {i j k : Nat}

theorem Better.irrefl : ¬side.Better i i := by
  cases side <;> exact Nat.lt_irrefl i

theorem Better.trans (h : side.Better i j) (h' : side.Better j k) : side.Better i k := by
  cases side
  · exact Nat.lt_trans h' h
  · exact Nat.lt_trans h h'

theorem Better.asymm (h : side.Better i j) : ¬side.Better j i := fun h' =>
  Better.irrefl (h.trans h')

theorem better_trichotomy (side : Side) (i j : Nat) :
    side.Better i j ∨ i = j ∨ side.Better j i := by
  cases side <;> simp only [Better] <;> omega

end Side

@[simp] theorem Exec.crosses_buy {takerPrice best : Nat} :
    Exec.crosses .Buy takerPrice best = true ↔ best ≤ takerPrice := decide_eq_true_iff

@[simp] theorem Exec.crosses_sell {takerPrice best : Nat} :
    Exec.crosses .Sell takerPrice best = true ↔ takerPrice ≤ best := decide_eq_true_iff

/-- A better opposite price is accepted as well. -/
theorem Exec.crosses_of_better {g : Geometry} {side : Side} {takerPrice i j : Nat}
    (h : Exec.crosses side takerPrice (g.price j) = true) (hij : side.opposite.Better i j) :
    Exec.crosses side takerPrice (g.price i) = true := by
  cases side
  · have hlt : i < j := hij
    rw [crosses_buy, Geometry.price] at h ⊢
    omega
  · have hlt : j < i := hij
    rw [crosses_sell, Geometry.price] at h ⊢
    omega

/-- A taker at a price of the range accepts exactly the opposite prices that are
not worse than its own. -/
theorem Exec.crosses_iff {g : Geometry} {side : Side} {i j : Nat} :
    Exec.crosses side (g.price i) (g.price j) = true ↔ ¬side.Better j i := by
  cases side <;> simp [Side.Better, Geometry.price]

namespace Geometry

variable {g : Geometry} {side : Side} {i j takerPrice : Nat}

@[simp] theorem mem_priority : i ∈ g.priority side ↔ i < g.range := by
  cases side <;> simp [priority]

theorem priority_pairwise (g : Geometry) (side : Side) :
    (g.priority side).Pairwise side.Better := by
  cases side
  · exact List.pairwise_reverse.mpr List.pairwise_lt_range
  · exact List.pairwise_lt_range

theorem priority_nodup (g : Geometry) (side : Side) : (g.priority side).Nodup := by
  refine (g.priority_pairwise side).imp ?_
  rintro i j h rfl
  exact h.irrefl

theorem mem_matchable : i ∈ g.matchable side takerPrice ↔
    i < g.range ∧ Exec.crosses side takerPrice (g.price i) = true := by
  rw [matchable, List.mem_filter, mem_priority]

theorem matchable_pairwise (g : Geometry) (side : Side) (takerPrice : Nat) :
    (g.matchable side takerPrice).Pairwise side.opposite.Better :=
  (g.priority_pairwise side.opposite).filter _

/-- A taker accepts all prices up to some point and none after it. -/
theorem priority_eq (g : Geometry) (side : Side) (takerPrice : Nat) :
    g.priority side.opposite = g.matchable side takerPrice ++
      (g.priority side.opposite).filter (fun i => !Exec.crosses side takerPrice (g.price i)) := by
  have hsorted := g.priority_pairwise side.opposite
  unfold matchable
  generalize g.priority side.opposite = is at hsorted ⊢
  induction hsorted with
  | nil => rfl
  | @cons i is hi _ ih =>
      cases hf : Exec.crosses side takerPrice (g.price i) with
      | true => simpa [hf] using ih
      | false =>
          have hnone : ∀ j ∈ is, Exec.crosses side takerPrice (g.price j) = false := by
            intro j hj
            rw [← Bool.not_eq_true]
            intro hcross
            have := Exec.crosses_of_better hcross (hi j hj)
            rw [hf] at this
            cases this
          have hnil : is.filter (fun j => Exec.crosses side takerPrice (g.price j)) = [] := by
            simpa using hnone
          rw [hnil, List.nil_append] at ih
          simp only [List.filter_cons, hf, hnil, Bool.not_false, Bool.false_eq_true, if_true,
            if_false, List.nil_append, ← ih]

theorem matchable_nodup (g : Geometry) (side : Side) (takerPrice : Nat) :
    (g.matchable side takerPrice).Nodup :=
  (g.priority_nodup side.opposite).filter _

end Geometry

namespace Resting

/-- The order after a part of it has traded. -/
def shrink (r : Resting) (n : Nat) : Resting := { r with quantity := r.quantity - n }

@[simp] theorem shrink_zero (r : Resting) : r.shrink 0 = r := rfl
@[simp] theorem shrink_slot (r : Resting) (n : Nat) : (r.shrink n).slot = r.slot := rfl
@[simp] theorem shrink_id (r : Resting) (n : Nat) : (r.shrink n).id = r.id := rfl
@[simp] theorem shrink_quantity (r : Resting) (n : Nat) :
    (r.shrink n).quantity = r.quantity - n := rfl

end Resting

def Placed.shrink (p : Placed) (n : Nat) : Placed := { p with order := p.order.shrink n }

namespace Ledger

/-! ## The best price of a side -/

def occupied (L : Ledger) (side : Side) : Set Nat := {i | L.queue side i ≠ []}

/-- The index of the best occupied price. -/
def best (g : Geometry) (L : Ledger) (side : Side) : Option Nat :=
  (g.priority side).find? (fun i => !(L.queue side i).isEmpty)

/-- The queue at the price next to `i` on the way to worse prices. -/
def adjacent (L : Ledger) (side : Side) (i : Nat) : List Resting :=
  match side with
  | .Buy => if i = 0 then [] else L.queue .Buy (i - 1)
  | .Sell => L.queue .Sell (i + 1)

/-- What `o` says about a set of occupied indices: its best one, or that there is none. -/
def IsBest (side : Side) (occupied : Set Nat) (o : Option Nat) : Prop :=
  match o with
  | some i => i ∈ occupied ∧ ∀ j ∈ occupied, ¬side.Better j i
  | none => ∀ j, j ∉ occupied

theorem IsBest.unique {side : Side} {S : Set Nat} {o o' : Option Nat} (h : IsBest side S o)
    (h' : IsBest side S o') : o = o' := by
  cases o with
  | none =>
      cases o' with
      | none => rfl
      | some j => exact absurd h'.1 (h j)
  | some i =>
      cases o' with
      | none => exact absurd h.1 (h' i)
      | some j =>
          rcases side.better_trichotomy i j with hij | rfl | hji
          · exact absurd hij (h'.2 i h.1)
          · rfl
          · exact absurd hji (h.2 j h'.1)

variable {g : Geometry} {L : Ledger} {side s : Side} {taker i j n takerPrice : Nat} {is : List Nat}

theorem WellFormed.isBest (h : L.WellFormed g) (side : Side) :
    IsBest side (L.occupied side) (L.best g side) := by
  have hlt : ∀ j ∈ L.occupied side, j < g.range := by
    intro j hj
    by_contra hle
    exact hj (h.outside side j (Nat.le_of_not_lt hle))
  cases hb : L.best g side with
  | none =>
      intro j hj
      have := List.find?_eq_none.mp hb j (Geometry.mem_priority.mpr (hlt j hj))
      exact hj (by simpa using this)
  | some i =>
      obtain ⟨hi, before, after, hsplit, hbefore⟩ := List.find?_eq_some_iff_append.mp hb
      refine ⟨by simpa [occupied] using hi, ?_⟩
      intro j hj hji
      have hmem : j ∈ before ++ i :: after := hsplit ▸ Geometry.mem_priority.mpr (hlt j hj)
      have hpairwise := hsplit ▸ g.priority_pairwise side
      rcases List.mem_append.mp hmem with hmem | hmem
      · have := hbefore j hmem
        exact hj (by simpa using this)
      · rcases List.mem_cons.mp hmem with rfl | hmem
        · exact hji.irrefl
        · exact hji.asymm
            ((List.pairwise_cons.mp (List.pairwise_append.mp hpairwise).2.1).1 j hmem)

theorem WellFormed.best_eq_iff (h : L.WellFormed g) {o : Option Nat} :
    L.best g side = o ↔ IsBest side (L.occupied side) o :=
  ⟨fun e => e ▸ h.isBest side, fun ho => (h.isBest side).unique ho⟩

/-- The best price depends on which prices are occupied only. -/
theorem best_congr {M : Ledger} (h : M.occupied side = L.occupied side) :
    M.best g side = L.best g side := by
  have hiff : ∀ i, M.queue side i ≠ [] ↔ L.queue side i ≠ [] := fun i => Set.ext_iff.mp h i
  unfold best
  congr 1
  funext i
  have := hiff i
  cases hM : M.queue side i <;> cases hL : L.queue side i <;> simp_all

theorem occupied_congr {M : Ledger} (h : ∀ i, M.queue side i = L.queue side i) :
    M.occupied side = L.occupied side := by
  ext i
  change M.queue side i ≠ [] ↔ L.queue side i ≠ []
  rw [h i]

theorem occupied_set_nil {free : List Nat} :
    (L.set side i [] free).occupied side = L.occupied side \ {i} := by
  ext j
  by_cases hj : j = i
  · subst hj
    simp [occupied]
  · simp [occupied, set_queue_of_ne (fun e => hj e.2), hj]

theorem occupied_set {q : List Resting} {free : List Nat} (hq : q ≠ []) :
    (L.set side i q free).occupied side = insert i (L.occupied side) := by
  ext j
  by_cases hj : j = i
  · subst hj
    simp [occupied, hq]
  · simp [occupied, set_queue_of_ne (fun e => hj e.2), hj]

/-! ## The sweep -/

/-- What a walk over prices leaves behind. -/
structure Sweep where
  ledger : Ledger
  left : Nat
  trades : List Trade
  events : List JournalEntry

/-- The trade of a taker with a maker. -/
def fillTrade (taker price : Nat) (fill : Resting × Nat) : Trade :=
  ⟨fill.1.id, taker, price, fill.2⟩

/-- The journal entries of one trade. -/
def fillEvents (side : Side) (taker price : Nat) (fill : Resting × Nat) : List JournalEntry :=
  ⟨.TradeExecuted, taker, price, fill.2, side.toByte, 0⟩ ::
    (if fill.2 = fill.1.quantity then
      [⟨.MakerFilled, fill.1.id, price, 0, side.opposite.toByte, 0⟩] else [])

/-- The journal entry of the search for the next best price; a move to the
adjacent price leaves none. -/
def bestEvents (g : Geometry) (L : Ledger) (side : Side) (i : Nat) : List JournalEntry :=
  if L.adjacent side i = [] then
    [⟨OrderBook.bestChanged side, 0, g.bestPrice side (L.best g side), 0, side.toByte, 0⟩]
  else []

/-- The slots a taker frees at one price. A whole queue is spliced in front of
the free list as it is; makers consumed one by one are pushed one by one. -/
def freed (q : List Resting) (n : Nat) : List Nat :=
  if Greedy.total Resting.quantity q ≤ n then q.map Resting.slot
  else ((Greedy.consumed Resting.quantity q n).map Resting.slot).reverse

/-- The queue at index `i` after a demand of `n`. -/
def takeQueue (L : Ledger) (side : Side) (i n : Nat) : Ledger :=
  L.set side i (Greedy.rest Resting.quantity Resting.shrink (L.queue side i) n)
    (freed (L.queue side i) n ++ L.free)

/-- A taker of `side` consumes from the opposite queue at index `i`. -/
def takeLevel (g : Geometry) (side : Side) (taker i n : Nat) (L : Ledger) : Sweep :=
  let q := L.queue side.opposite i
  let fills := Greedy.fills Resting.quantity q n
  let L' := L.takeQueue side.opposite i n
  { ledger := L'
    left := n - Greedy.total Resting.quantity q
    trades := fills.map (fillTrade taker (g.price i))
    events := fills.flatMap (fillEvents side taker (g.price i)) ++
      (if Greedy.total Resting.quantity q ≤ n then bestEvents g L' side.opposite i else []) }

def sweep (g : Geometry) (side : Side) (taker : Nat) : List Nat → Nat → Ledger → Sweep
  | [], n, L => ⟨L, n, [], []⟩
  | i :: is, n, L =>
      if n = 0 ∨ L.queue side.opposite i = [] then sweep g side taker is n L
      else
        let first := takeLevel g side taker i n L
        let others := sweep g side taker is first.left first.ledger
        { others with
          trades := first.trades ++ others.trades
          events := first.events ++ others.events }

theorem sweep_skip (h : n = 0 ∨ L.queue side.opposite i = []) :
    sweep g side taker (i :: is) n L = sweep g side taker is n L := if_pos h

theorem sweep_zero (is : List Nat) (L : Ledger) :
    sweep g side taker is 0 L = ⟨L, 0, [], []⟩ := by
  induction is with
  | nil => rfl
  | cons i is ih => rw [sweep_skip (Or.inl rfl), ih]

/-- Queue by queue: a property of the remaining demand and the ledger that one
level preserves holds after the sweep. -/
theorem sweep_induction {P : Nat → Ledger → Prop} (hL : P n L)
    (step : ∀ i ∈ is, ∀ n L, 0 < n → L.queue side.opposite i ≠ [] → P n L →
      P (takeLevel g side taker i n L).left (takeLevel g side taker i n L).ledger) :
    P (sweep g side taker is n L).left (sweep g side taker is n L).ledger := by
  induction is generalizing n L with
  | nil => exact hL
  | cons i is ih =>
      have rest := fun {n L} hL => ih (n := n) (L := L) hL
        (fun j hj => step j (List.mem_cons_of_mem i hj))
      by_cases hskip : n = 0 ∨ L.queue side.opposite i = []
      · rw [sweep_skip hskip]
        exact rest hL
      · rw [sweep, if_neg hskip]
        rw [not_or] at hskip
        exact rest (step i List.mem_cons_self n L (Nat.pos_of_ne_zero hskip.1) hskip.2 hL)

theorem takeQueue_queue_self : (L.takeQueue side i n).queue side i =
    Greedy.rest Resting.quantity Resting.shrink (L.queue side i) n := set_queue_self

theorem takeQueue_queue_of_ne (h : ¬(s = side ∧ j = i)) :
    (L.takeQueue side i n).queue s j = L.queue s j := set_queue_of_ne h

namespace WellFormed

variable (h : L.WellFormed g)
include h

theorem queue_pos (side : Side) (i : Nat) : ∀ r ∈ L.queue side i, 0 < r.quantity := fun _ hr =>
  h.quantity_pos _ (h.mem hr)

theorem takeQueue (side : Side) (hi : i < g.range) (n : Nat) :
    (L.takeQueue side i n).WellFormed g := by
  have hslots := Greedy.map_consumed_append_map_rest Resting.quantity
    Resting.shrink_slot (L.queue side i) n
  have hids := Greedy.map_consumed_append_map_rest Resting.quantity
    Resting.shrink_id (L.queue side i) n
  have hmem : ∀ r ∈ Greedy.rest Resting.quantity Resting.shrink (L.queue side i) n,
      ∃ r' ∈ L.queue side i, r.id = r'.id ∧ 0 < r.quantity ∧ r.quantity ≤ r'.quantity := by
    intro r hr
    rcases Greedy.consumed_rest Resting.quantity Resting.shrink
      (L.queue side i) n with ⟨-, hnil⟩ | ⟨a, tail, m, hq, hrest, hm, -⟩
    · rw [hnil] at hr
      exact absurd hr List.not_mem_nil
    · rw [hrest] at hr
      rcases List.mem_cons.mp hr with rfl | hr
      · refine ⟨a, by rw [hq]; simp, rfl, ?_, ?_⟩ <;> rw [Resting.shrink_quantity] <;> omega
      · have hr' : r ∈ L.queue side i := by rw [hq]; simp [hr]
        exact ⟨r, hr', rfl, h.quantity_pos _ (h.mem hr'), Nat.le_refl _⟩
  refine h.replace hi ?_ ?_ ?_ ?_ ?_ ?_ ?_
  · have hfreed : (freed (L.queue side i) n).Perm
        ((Greedy.consumed Resting.quantity (L.queue side i) n).map Resting.slot) := by
      unfold freed
      split
      · rename_i htotal
        rw [Greedy.consumed_of_total_le (h.queue_pos side i) htotal]
      · exact List.reverse_perm _
    rw [← hslots, List.perm_iff_count]
    intro a
    have := List.perm_iff_count.mp hfreed a
    simp only [List.count_append]
    omega
  · have hsub : ((Greedy.rest Resting.quantity Resting.shrink (L.queue side i) n).map
        Resting.id).Sublist ((L.queue side i).map Resting.id) := by
      rw [← hids]
      exact List.sublist_append_right _ _
    exact (h.ids_nodup side i).sublist hsub
  · intro r hr
    obtain ⟨r', hr', hid, -⟩ := hmem r hr
    exact Or.inl (hid ▸ List.mem_map_of_mem hr')
  · intro r hr
    obtain ⟨r', hr', hid, -⟩ := hmem r hr
    exact hid ▸ h.id_pos _ (h.mem hr')
  · intro r hr
    obtain ⟨r', hr', hid, -⟩ := hmem r hr
    exact hid ▸ h.id_le _ (h.mem hr')
  · intro r hr
    obtain ⟨r', hr', -, hpos, -⟩ := hmem r hr
    exact hpos
  · intro r hr
    obtain ⟨r', hr', -, -, hle⟩ := hmem r hr
    exact Nat.lt_of_le_of_lt hle (h.quantity_lt _ (h.mem hr'))

/-- The front order alone is what a demand of its size takes. -/
theorem takeQueue_front {r : Resting} {rs : List Resting} (hq : L.queue side i = r :: rs) :
    L.set side i rs (r.slot :: L.free) = L.takeQueue side i r.quantity := by
  have hpos : ∀ r' ∈ rs, 0 < r'.quantity := fun r' hr' =>
    h.queue_pos side i r' (hq ▸ List.mem_cons_of_mem r hr')
  have hrest : Greedy.rest Resting.quantity Resting.shrink rs 0 = rs :=
    Greedy.rest_zero hpos Resting.shrink_zero
  by_cases hrs : rs = []
  · simp [Ledger.takeQueue, freed, hq, hrs, Greedy.rest]
  · have htotal := mt (Greedy.total_eq_zero_iff hpos).mp hrs
    simp [Ledger.takeQueue, freed, hq, Greedy.rest, Greedy.consumed, htotal, hrest,
      Greedy.consumed_zero hpos]

/-- A demand that covers the queue empties its price; any other does not. -/
theorem takeQueue_eq_nil_iff : (L.takeQueue side i n).queue side i = [] ↔
    Greedy.total Resting.quantity (L.queue side i) ≤ n := by
  rw [takeQueue_queue_self]
  exact Greedy.rest_eq_nil_iff (h.queue_pos side i)

theorem occupied_drained (htotal : Greedy.total Resting.quantity (L.queue side i) ≤ n) :
    (L.takeQueue side i n).occupied side = L.occupied side \ {i} := by
  have hnil := h.takeQueue_eq_nil_iff.mpr htotal
  rw [takeQueue_queue_self] at hnil
  rw [Ledger.takeQueue, hnil, occupied_set_nil]

theorem occupied_kept (htotal : n < Greedy.total Resting.quantity (L.queue side i)) :
    (L.takeQueue side i n).occupied side = L.occupied side := by
  have hleft : (L.takeQueue side i n).queue side i ≠ [] := by
    rw [ne_eq, h.takeQueue_eq_nil_iff]
    omega
  have hq : i ∈ L.occupied side := by
    intro e
    rw [e] at htotal
    exact Nat.not_lt_zero n htotal
  rw [takeQueue_queue_self] at hleft
  rw [Ledger.takeQueue, occupied_set hleft, Set.insert_eq_of_mem hq]

theorem sweep (his : ∀ i ∈ is, i < g.range) :
    (sweep g side taker is n L).ledger.WellFormed g :=
  sweep_induction (P := fun _ L => L.WellFormed g) h
    (fun i hi n _ _ _ hL => hL.takeQueue side.opposite (his i hi) n)

end WellFormed

/-- A sweep touches only opposite queues it visits. -/
theorem sweep_queue_of_ne (h : s = side ∨ j ∉ is) :
    (sweep g side taker is n L).ledger.queue s j = L.queue s j := by
  refine sweep_induction (P := fun _ M => M.queue s j = L.queue s j) rfl ?_
  intro i hi n M _ _ hM
  rw [← hM]
  refine takeQueue_queue_of_ne ?_
  rintro ⟨rfl, rfl⟩
  rcases h with h | h
  · exact side.opposite_ne h
  · exact h hi

/-! ## The sweep as one greedy pass -/

/-- The orders on a list of prices, in the order a taker meets them. -/
def lots (L : Ledger) (side : Side) (is : List Nat) : List Placed := is.flatMap (L.placed side)

def size (p : Placed) : Nat := p.order.quantity

theorem total_placed (L : Ledger) (side : Side) (i : Nat) :
    Greedy.total size (L.placed side i) = Greedy.total Resting.quantity (L.queue side i) :=
  Greedy.total_map _

theorem lots_congr {M : Ledger} (same : ∀ i ∈ is, M.queue side i = L.queue side i) :
    M.lots side is = L.lots side is :=
  List.flatMap_congr (fun i hi => by rw [placed, same i hi, placed])

theorem takeQueue_lots (hi : i ∉ is) :
    (L.takeQueue side i n).lots side is = L.lots side is :=
  lots_congr (fun _ hj => takeQueue_queue_of_ne (fun e => hi (e.2 ▸ hj)))

/-- What is left of the demand is what the visited orders do not cover. -/
theorem sweep_left (hnodup : is.Nodup) :
    (sweep g side taker is n L).left = n - Greedy.total size (L.lots side.opposite is) := by
  induction is generalizing n L with
  | nil => rfl
  | cons i is ih =>
      obtain ⟨hi, hnodup⟩ := List.nodup_cons.mp hnodup
      have hlots : L.lots side.opposite (i :: is) =
          L.placed side.opposite i ++ L.lots side.opposite is := List.flatMap_cons
      rw [hlots, Greedy.total_append, total_placed]
      by_cases hskip : n = 0 ∨ L.queue side.opposite i = []
      · rw [sweep_skip hskip, ih hnodup]
        rcases hskip with rfl | hempty
        · omega
        · simp [hempty]
      · rw [sweep, if_neg hskip]
        simp only [ih hnodup, takeLevel, takeQueue_lots hi]
        omega

/-- The trades of a sweep are the greedy consumption of the visited orders. -/
theorem sweep_trades (hnodup : is.Nodup) :
    (sweep g side taker is n L).trades =
      (Greedy.fills size (L.lots side.opposite is) n).map
        (fun f => ⟨f.1.order.id, taker, g.price f.1.index, f.2⟩) := by
  induction is generalizing n L with
  | nil => rfl
  | cons i is ih =>
      obtain ⟨hi, hnodup⟩ := List.nodup_cons.mp hnodup
      have hlots : L.lots side.opposite (i :: is) =
          L.placed side.opposite i ++ L.lots side.opposite is := List.flatMap_cons
      rw [hlots, Greedy.fills_append, total_placed, List.map_append]
      by_cases hskip : n = 0 ∨ L.queue side.opposite i = []
      · rw [sweep_skip hskip, ih hnodup]
        rcases hskip with rfl | hempty
        · simp
        · simp [hempty, placed, Greedy.fills]
      · rw [sweep, if_neg hskip]
        simp only [ih hnodup, takeLevel, takeQueue_lots hi, placed, Greedy.fills_map,
          List.map_map]
        rfl

theorem size_pos (h : L.WellFormed g) : ∀ p ∈ L.lots side is, 0 < size p := by
  intro p hp
  obtain ⟨i, -, hp⟩ := List.mem_flatMap.mp hp
  obtain ⟨rfl, rfl, hr⟩ := mem_placed.mp hp
  exact h.queue_pos _ _ _ hr

theorem takeQueue_placed : (L.takeQueue side i n).placed side i =
    Greedy.rest size Placed.shrink (L.placed side i) n := by
  have hmk : ∀ (r : Resting) n, Placed.mk side i (r.shrink n) = Placed.shrink ⟨side, i, r⟩ n :=
    fun _ _ => rfl
  rw [placed, takeQueue_queue_self, placed, Greedy.rest_map hmk]
  rfl

/-- What remains of the visited orders is what the greedy consumption leaves. -/
theorem sweep_lots (h : L.WellFormed g) (his : ∀ i ∈ is, i < g.range) (hnodup : is.Nodup) :
    (sweep g side taker is n L).ledger.lots side.opposite is =
      Greedy.rest size Placed.shrink (L.lots side.opposite is) n := by
  induction is generalizing n L with
  | nil => rfl
  | cons i is ih =>
      obtain ⟨hi, hnodup⟩ := List.nodup_cons.mp hnodup
      have his' := fun j hj => his j (List.mem_cons_of_mem i hj)
      have hlots : ∀ M : Ledger, M.lots side.opposite (i :: is) =
          M.placed side.opposite i ++ M.lots side.opposite is := fun _ => List.flatMap_cons
      have hfirst : ∀ {m M}, (sweep g side taker is m M).ledger.placed side.opposite i =
          M.placed side.opposite i := by
        intro m M
        rw [placed, sweep_queue_of_ne (Or.inr hi), placed]
      rw [hlots, hlots, Greedy.rest_append (fun _ => rfl) (size_pos h), total_placed]
      by_cases hskip : n = 0 ∨ L.queue side.opposite i = []
      · rw [sweep_skip hskip, hfirst, ih h his' hnodup]
        rcases hskip with rfl | hempty
        · have hpos : ∀ p ∈ L.placed side.opposite i, 0 < size p := by
            intro p hp
            obtain ⟨-, -, hr⟩ := mem_placed.mp hp
            exact h.queue_pos _ _ _ hr
          rw [Nat.zero_sub, Greedy.rest_zero hpos (fun _ => rfl)]
        · simp [placed, hempty, Greedy.rest]
      · have hnext : (takeLevel g side taker i n L).ledger.WellFormed g :=
          h.takeQueue side.opposite (his i List.mem_cons_self) n
        rw [sweep, if_neg hskip]
        simp only [hfirst]
        rw [ih hnext his' hnodup]
        simp only [takeLevel, takeQueue_lots hi, takeQueue_placed]

theorem lots_append {as bs : List Nat} :
    L.lots side (as ++ bs) = L.lots side as ++ L.lots side bs := List.flatMap_append

theorem lots_filter (f : Nat → Bool) :
    (L.lots side is).filter (fun p => f p.index) = L.lots side (is.filter f) := by
  induction is with
  | nil => rfl
  | cons i is ih =>
      have hplaced : (L.placed side i).filter (fun p => f p.index) =
          if f i then L.placed side i else [] := by
        rw [placed, List.filter_map]
        cases hf : f i <;> simp [Function.comp_def, hf]
      have hlots : L.lots side (i :: is) = L.placed side i ++ L.lots side is := List.flatMap_cons
      rw [hlots, List.filter_append, hplaced, ih]
      cases hf : f i
      · simp [hf]
      · simp [hf, lots]

/-- A sweep of the prices a taker accepts, seen over all prices. -/
theorem sweep_priority_lots (h : L.WellFormed g) (takerPrice : Nat) :
    (sweep g side taker (g.matchable side takerPrice) n L).ledger.lots side.opposite
        (g.priority side.opposite) =
      Greedy.rest size Placed.shrink (L.lots side.opposite (g.matchable side takerPrice)) n ++
        L.lots side.opposite ((g.priority side.opposite).filter (fun i =>
          !Exec.crosses side takerPrice (g.price i))) := by
  conv_lhs => rw [g.priority_eq side takerPrice, lots_append]
  congr 1
  · exact sweep_lots h (fun i hi => (Geometry.mem_matchable.mp hi).1) (g.matchable_nodup side _)
  · refine lots_congr (fun i hi => sweep_queue_of_ne (Or.inr ?_))
    intro hmem
    have hno := (List.mem_filter.mp hi).2
    rw [(Geometry.mem_matchable.mp hmem).2] at hno
    cases hno

end Ledger

end Hft
