import MatchingEngine.Engine.OrderBook
import MatchingEngine.Machine.Greedy
import Mathlib.Algebra.Order.BigOperators.Group.List
import Mathlib.Data.List.Nodup
import Mathlib.Data.List.Perm.Subperm

/-!
# Ledgers

What an order book is for: a queue of resting orders per side and price. A
`Ledger` is these queues together with the free slots, so that it also says which
slot a posted order receives. It has no links, no bits and no cached prices.

`WellFormed` is what makes a ledger a book over a given geometry: every slot is
free or holds one order, no id rests twice, and no order is empty.
-/

namespace Hft

open Machine

/-- The numbers a book is built over, within the limits of the constructor. -/
structure Geometry where
  minPrice : Nat
  maxPrice : Nat
  maxOrderId : Nat
  capacity : Nat
  min_le_max : minPrice ≤ maxPrice
  max_lt : maxPrice < 2 ^ 32 - 1
  ticks_le : maxPrice - minPrice + 1 ≤ kMaxPriceRangeTicks
  ids_le : maxOrderId ≤ kMaxOrderIds
  capacity_le : capacity ≤ kMaxPoolCapacity

namespace Geometry

/-- The number of prices. -/
def range (g : Geometry) : Nat := g.maxPrice - g.minPrice + 1

def price (g : Geometry) (i : Nat) : Nat := g.minPrice + i

variable {g : Geometry} {i : Nat}

theorem range_pos (g : Geometry) : 0 < g.range := Nat.succ_pos _

theorem range_le (g : Geometry) : g.range ≤ 2 ^ 26 := g.ticks_le

theorem minPrice_add_range (g : Geometry) : g.minPrice + g.range = g.maxPrice + 1 := by
  have := g.min_le_max
  unfold range
  omega

theorem price_le (hi : i < g.range) : g.price i ≤ g.maxPrice := by
  have := g.minPrice_add_range
  unfold price
  omega

theorem price_lt (hi : i < g.range) : g.price i < 2 ^ 32 - 1 :=
  Nat.lt_of_le_of_lt (price_le hi) g.max_lt

end Geometry

/-- A resting order and the slot it occupies. -/
structure Resting where
  slot : Nat
  id : Nat
  quantity : Nat
  deriving DecidableEq, Repr

/-- A resting order with its side and the index of its price. -/
structure Placed where
  side : Side
  index : Nat
  order : Resting
  deriving DecidableEq, Repr

structure Ledger where
  queue : Side → Nat → List Resting
  free : List Nat

namespace Ledger

def empty (g : Geometry) : Ledger := ⟨fun _ _ => [], List.range g.capacity⟩

/-- Replace one queue, and the free slots. -/
def set (L : Ledger) (side : Side) (i : Nat) (q : List Resting) (free : List Nat) : Ledger where
  queue s j := if s = side ∧ j = i then q else L.queue s j
  free := free

def placed (L : Ledger) (side : Side) (i : Nat) : List Placed :=
  (L.queue side i).map (Placed.mk side i)

def onSide (g : Geometry) (L : Ledger) (side : Side) : List Placed :=
  (List.range g.range).flatMap (L.placed side)

/-- All resting orders. -/
def resting (g : Geometry) (L : Ledger) : List Placed := L.onSide g .Buy ++ L.onSide g .Sell

/-- The resting order with a given id. -/
def find (g : Geometry) (L : Ledger) (id : Nat) : Option Placed :=
  (L.resting g).find? (fun p => p.order.id == id)

structure WellFormed (g : Geometry) (L : Ledger) : Prop where
  outside : ∀ side i, g.range ≤ i → L.queue side i = []
  slots : ((L.resting g).map (·.order.slot) ++ L.free).Perm (List.range g.capacity)
  ids : ((L.resting g).map (·.order.id)).Nodup
  id_pos : ∀ p ∈ L.resting g, 0 < p.order.id
  id_le : ∀ p ∈ L.resting g, p.order.id ≤ g.maxOrderId
  quantity_pos : ∀ p ∈ L.resting g, 0 < p.order.quantity
  quantity_lt : ∀ p ∈ L.resting g, p.order.quantity < 2 ^ 32

variable {g : Geometry} {L M : Ledger} {side s : Side} {i j id : Nat} {q : List Resting}
variable {free : List Nat} {p : Placed} {r : Resting}

@[ext] theorem ext (queue : ∀ side i, L.queue side i = M.queue side i) (free : L.free = M.free) :
    L = M := by
  cases L
  cases M
  simp only [mk.injEq]
  exact ⟨funext fun side => funext fun i => queue side i, free⟩

@[simp] theorem set_free : (L.set side i q free).free = free := rfl

@[simp] theorem set_queue_self : (L.set side i q free).queue side i = q := by simp [set]

theorem set_queue_of_ne (h : ¬(s = side ∧ j = i)) :
    (L.set side i q free).queue s j = L.queue s j := if_neg h

@[simp] theorem set_self : L.set side i (L.queue side i) L.free = L := by
  refine ext (fun s j => ?_) rfl
  by_cases h : s = side ∧ j = i
  · obtain ⟨rfl, rfl⟩ := h
    exact set_queue_self
  · exact set_queue_of_ne h

@[simp] theorem set_set {q' : List Resting} {free' : List Nat} :
    (L.set side i q' free').set side i q free = L.set side i q free := by
  refine ext (fun s j => ?_) rfl
  by_cases h : s = side ∧ j = i
  · obtain ⟨rfl, rfl⟩ := h
    rw [set_queue_self, set_queue_self]
  · rw [set_queue_of_ne h, set_queue_of_ne h, set_queue_of_ne h]

theorem set_queue_opposite : (L.set side i q free).queue side.opposite j =
    L.queue side.opposite j :=
  set_queue_of_ne (fun h => side.opposite_ne h.1)

theorem map_slot_mk (q : List Resting) :
    (q.map (Placed.mk side i)).map (·.order.slot) = q.map Resting.slot := List.map_map

theorem map_id_mk (q : List Resting) :
    (q.map (Placed.mk side i)).map (·.order.id) = q.map Resting.id := List.map_map

theorem mem_placed : p ∈ L.placed side i ↔
    p.side = side ∧ p.index = i ∧ p.order ∈ L.queue side i := by
  rw [placed, List.mem_map]
  constructor
  · rintro ⟨r, hr, rfl⟩
    exact ⟨rfl, rfl, hr⟩
  · rintro ⟨rfl, rfl, hr⟩
    exact ⟨p.order, hr, rfl⟩

theorem mem_onSide : p ∈ L.onSide g side ↔
    p.side = side ∧ p.index < g.range ∧ p.order ∈ L.queue side p.index := by
  simp only [onSide, List.mem_flatMap, List.mem_range, mem_placed]
  constructor
  · rintro ⟨i, hi, hside, rfl, hp⟩
    exact ⟨hside, hi, hp⟩
  · rintro ⟨hside, hi, hp⟩
    exact ⟨p.index, hi, hside, rfl, hp⟩

theorem mem_resting : p ∈ L.resting g ↔
    p.index < g.range ∧ p.order ∈ L.queue p.side p.index := by
  rw [resting, List.mem_append, mem_onSide, mem_onSide]
  cases hp : p.side <;> simp

/-- The orders at rest once one queue is set: those of that queue, and the others as before. -/
theorem mem_resting_set (hi : i < g.range) : p ∈ (L.set side i q free).resting g ↔
    p.side = side ∧ p.index = i ∧ p.order ∈ q ∨
      ¬(p.side = side ∧ p.index = i) ∧ p ∈ L.resting g := by
  rw [mem_resting, mem_resting]
  by_cases hself : p.side = side ∧ p.index = i
  · obtain ⟨hside, hindex⟩ := hself
    rw [hside, hindex, set_queue_self]
    simp [hi]
  · rw [set_queue_of_ne hself]
    have hnot : ¬(p.side = side ∧ p.index = i ∧ p.order ∈ q) := fun e => hself ⟨e.1, e.2.1⟩
    simp [hself, hnot]

/-! ## One queue among all -/

/-- Ledgers that differ in one queue only: the resting orders are those of that
queue and the same others. -/
theorem resting_focus (L : Ledger) (side : Side) (hi : i < g.range) :
    ∃ others : List Placed, ∀ M : Ledger,
      (∀ s j, ¬(s = side ∧ j = i) → M.queue s j = L.queue s j) →
      (M.resting g).Perm (M.placed side i ++ others) := by
  obtain ⟨before, after, hsplit⟩ := List.append_of_mem (List.mem_range.mpr hi)
  have hnodup : (before ++ i :: after).Nodup := hsplit ▸ List.nodup_range
  have hbefore : ∀ j ∈ before, j ≠ i := by
    rintro j hj rfl
    exact (List.nodup_append.mp hnodup).2.2 j hj j List.mem_cons_self rfl
  have hafter : ∀ j ∈ after, j ≠ i := by
    rintro j hj rfl
    exact (List.nodup_cons.mp (List.nodup_append.mp hnodup).2.1).1 hj
  refine ⟨before.flatMap (L.placed side) ++ after.flatMap (L.placed side) ++
    L.onSide g side.opposite, ?_⟩
  intro M same
  have hqueue : ∀ j, j ≠ i → M.placed side j = L.placed side j := by
    intro j hj
    rw [placed, same side j (fun h => hj h.2), placed]
  have hother : M.onSide g side.opposite = L.onSide g side.opposite := by
    refine List.flatMap_congr (fun j _ => ?_)
    rw [placed, same side.opposite j (fun h => side.opposite_ne h.1), placed]
  have hthis : (M.onSide g side).Perm (M.placed side i ++
      (before.flatMap (L.placed side) ++ after.flatMap (L.placed side))) := by
    rw [onSide, hsplit, List.flatMap_append, List.flatMap_cons,
      List.flatMap_congr (fun j hj => hqueue j (hbefore j hj)),
      List.flatMap_congr (fun j hj => hqueue j (hafter j hj))]
    exact List.perm_append_comm_assoc _ _ _
  have hboth : (M.resting g).Perm (M.onSide g side ++ M.onSide g side.opposite) := by
    cases side
    · exact List.Perm.refl _
    · exact List.perm_append_comm
  rw [← List.append_assoc, ← hother]
  exact hboth.trans (List.Perm.append_right _ hthis)

namespace WellFormed

variable (h : L.WellFormed g)
include h

theorem index_lt (hr : r ∈ L.queue side i) : i < g.range := by
  by_contra hi
  rw [h.outside side i (Nat.le_of_not_lt hi)] at hr
  exact List.not_mem_nil hr

theorem mem (hr : r ∈ L.queue side i) : ⟨side, i, r⟩ ∈ L.resting g :=
  mem_resting.mpr ⟨h.index_lt hr, hr⟩

theorem nodup : ((L.resting g).map (·.order.slot) ++ L.free).Nodup :=
  h.slots.nodup_iff.mpr List.nodup_range

theorem free_nodup : L.free.Nodup := (List.nodup_append.mp h.nodup).2.1

theorem slot_lt (hr : r ∈ L.queue side i) : r.slot < g.capacity := by
  rw [← List.mem_range, ← h.slots.mem_iff, List.mem_append]
  exact Or.inl (List.mem_map_of_mem (h.mem hr))

theorem free_lt (hs : j ∈ L.free) : j < g.capacity := by
  rw [← List.mem_range, ← h.slots.mem_iff, List.mem_append]
  exact Or.inr hs

theorem slot_notMem_free (hr : r ∈ L.queue side i) : r.slot ∉ L.free := fun hf =>
  (List.nodup_append.mp h.nodup).2.2 _ (List.mem_map_of_mem (h.mem hr)) _ hf rfl

theorem notMem_slots_of_free (hs : j ∈ L.free) : j ∉ (L.queue side i).map Resting.slot := by
  intro hmem
  obtain ⟨r, hr, rfl⟩ := List.mem_map.mp hmem
  exact h.slot_notMem_free hr hs

/-- A slot determines the order it holds, and where that order rests. -/
theorem slot_inj {r' : Resting} (hr : r ∈ L.queue side i) (hr' : r' ∈ L.queue s j)
    (heq : r.slot = r'.slot) : side = s ∧ i = j ∧ r = r' := by
  have := List.inj_on_of_nodup_map (List.nodup_append.mp h.nodup).1 (h.mem hr) (h.mem hr') heq
  simpa using this

theorem id_inj {r' : Resting} (hr : r ∈ L.queue side i) (hr' : r' ∈ L.queue s j)
    (heq : r.id = r'.id) : side = s ∧ i = j ∧ r = r' := by
  have := List.inj_on_of_nodup_map h.ids (h.mem hr) (h.mem hr') heq
  simpa using this

theorem slots_nodup (side : Side) (i : Nat) : ((L.queue side i).map Resting.slot).Nodup := by
  by_cases hi : i < g.range
  · obtain ⟨others, hothers⟩ := resting_focus L side hi
    have hperm := (hothers L (fun _ _ _ => rfl)).map (·.order.slot)
    have := hperm.nodup_iff.mp (List.nodup_append.mp h.nodup).1
    rw [List.map_append, placed, map_slot_mk] at this
    exact (List.nodup_append.mp this).1
  · rw [h.outside side i (Nat.le_of_not_lt hi)]
    exact List.nodup_nil

theorem ids_nodup (side : Side) (i : Nat) : ((L.queue side i).map Resting.id).Nodup := by
  by_cases hi : i < g.range
  · obtain ⟨others, hothers⟩ := resting_focus L side hi
    have := ((hothers L (fun _ _ _ => rfl)).map (·.order.id)).nodup_iff.mp h.ids
    rw [List.map_append, placed, map_id_mk] at this
    exact (List.nodup_append.mp this).1
  · rw [h.outside side i (Nat.le_of_not_lt hi)]
    exact List.nodup_nil

theorem count_add_free : (L.resting g).length + L.free.length = g.capacity := by
  simpa using h.slots.length_eq

/-- Ids are distinct numbers from 1 to `maxOrderId`: while one of them is not at rest,
there are fewer orders than ids. -/
theorem count_lt_ids {id : Nat} (hpos : 0 < id) (hle : id ≤ g.maxOrderId)
    (hfresh : ∀ p ∈ L.resting g, p.order.id ≠ id) : (L.resting g).length < g.maxOrderId := by
  have hnodup : (id :: (L.resting g).map (·.order.id)).Nodup := by
    refine List.nodup_cons.mpr ⟨fun hmem => ?_, h.ids⟩
    obtain ⟨p, hp, heq⟩ := List.mem_map.mp hmem
    exact hfresh p hp heq
  have hsub : id :: (L.resting g).map (·.order.id) ⊆ List.range' 1 g.maxOrderId := by
    refine List.cons_subset.mpr ⟨List.mem_range'_1.mpr ⟨hpos, by omega⟩, fun k hk => ?_⟩
    obtain ⟨p, hp, rfl⟩ := List.mem_map.mp hk
    have := h.id_pos p hp
    have := h.id_le p hp
    exact List.mem_range'_1.mpr ⟨by omega, by omega⟩
  have hlength := (List.subperm_of_subset hnodup hsub).length_le
  rwa [List.length_cons, List.length_map, List.length_range'] at hlength

theorem count_queue_le (side : Side) (i : Nat) :
    (L.queue side i).length ≤ (L.resting g).length := by
  by_cases hi : i < g.range
  · obtain ⟨others, hothers⟩ := resting_focus L side hi
    rw [(hothers L (fun _ _ _ => rfl)).length_eq]
    simp [placed]
  · rw [h.outside side i (Nat.le_of_not_lt hi)]
    exact Nat.zero_le _

/-- What a ledger of 32-bit quantities can hold at one price fits 64 bits. -/
theorem total_lt (side : Side) (i : Nat) :
    Greedy.total Resting.quantity (L.queue side i) + 2 ^ 32 ≤ 2 ^ 64 := by
  have hsum : Greedy.total Resting.quantity (L.queue side i) ≤
      (L.queue side i).length * (2 ^ 32 - 1) := by
    have := List.sum_le_card_nsmul ((L.queue side i).map Resting.quantity) (2 ^ 32 - 1) (by
      intro n hn
      obtain ⟨r, hr, rfl⟩ := List.mem_map.mp hn
      have := h.quantity_lt _ (h.mem hr)
      simp only at this
      omega)
    simpa [Greedy.total] using this
  have hlength : (L.queue side i).length ≤ 2 ^ 32 - 2 := by
    have := h.count_queue_le side i
    have := h.count_add_free
    have := g.capacity_le
    simp only [kMaxPoolCapacity] at this
    omega
  have := Nat.mul_le_mul_right (2 ^ 32 - 1) hlength
  omega

/-- Replacing a queue: its slots and the free ones are only exchanged, and its
ids were its own or nobody's. -/
theorem replace (hi : i < g.range)
    (slots : (q.map Resting.slot ++ free).Perm ((L.queue side i).map Resting.slot ++ L.free))
    (ids : (q.map Resting.id).Nodup)
    (fresh : ∀ r ∈ q, r.id ∈ (L.queue side i).map Resting.id ∨ ∀ p ∈ L.resting g, p.order.id ≠ r.id)
    (id_pos : ∀ r ∈ q, 0 < r.id) (id_le : ∀ r ∈ q, r.id ≤ g.maxOrderId)
    (quantity_pos : ∀ r ∈ q, 0 < r.quantity) (quantity_lt : ∀ r ∈ q, r.quantity < 2 ^ 32) :
    (L.set side i q free).WellFormed g := by
  obtain ⟨others, hothers⟩ := resting_focus L side hi
  have hold := hothers L (fun _ _ _ => rfl)
  have hnew := hothers (L.set side i q free) (fun s j hne => set_queue_of_ne hne)
  have hplaced : (L.set side i q free).placed side i = q.map (Placed.mk side i) := by
    rw [placed, set_queue_self]
  rw [hplaced] at hnew
  have hmem : ∀ p ∈ others, p ∈ L.resting g := fun p hp =>
    hold.mem_iff.mpr (List.mem_append_right _ hp)
  have hsplit : ∀ p ∈ (L.set side i q free).resting g, p ∈ L.resting g ∨ p.order ∈ q := by
    intro p hp
    rcases List.mem_append.mp (hnew.mem_iff.mp hp) with hp | hp
    · obtain ⟨r, hr, rfl⟩ := List.mem_map.mp hp
      exact Or.inr hr
    · exact Or.inl (hmem p hp)
  refine ⟨?_, ?_, ?_, ?_, ?_, ?_, ?_⟩
  · intro s j hj
    rw [set_queue_of_ne (fun e => by omega)]
    exact h.outside s j hj
  · have hnew' := hnew.map (·.order.slot)
    have hold' := hold.map (·.order.slot)
    rw [List.map_append, map_slot_mk] at hnew'
    rw [List.map_append, placed, map_slot_mk] at hold'
    refine List.Perm.trans ?_ h.slots
    rw [set_free, List.perm_iff_count]
    intro a
    have h₁ := List.perm_iff_count.mp hnew' a
    have h₂ := List.perm_iff_count.mp hold' a
    have h₃ := List.perm_iff_count.mp slots a
    simp only [List.count_append] at h₁ h₂ h₃ ⊢
    omega
  · rw [(hnew.map (·.order.id)).nodup_iff, List.map_append, map_id_mk, List.nodup_append]
    have hids := (hold.map (·.order.id)).nodup_iff.mp h.ids
    rw [List.map_append, placed, map_id_mk, List.nodup_append] at hids
    refine ⟨ids, hids.2.1, ?_⟩
    rintro a ha b hb rfl
    obtain ⟨r, hr, rfl⟩ := List.mem_map.mp ha
    obtain ⟨p, hp, hpr⟩ := List.mem_map.mp hb
    rcases fresh r hr with hown | hnone
    · exact hids.2.2 _ hown _ hb rfl
    · exact hnone p (hmem p hp) hpr
  · exact fun p hp => (hsplit p hp).elim (h.id_pos p) (id_pos p.order)
  · exact fun p hp => (hsplit p hp).elim (h.id_le p) (id_le p.order)
  · exact fun p hp => (hsplit p hp).elim (h.quantity_pos p) (quantity_pos p.order)
  · exact fun p hp => (hsplit p hp).elim (h.quantity_lt p) (quantity_lt p.order)

end WellFormed

theorem empty_resting (g : Geometry) : (empty g).resting g = [] := by
  simp [resting, onSide, placed, empty]

theorem empty_wellFormed (g : Geometry) : (empty g).WellFormed g := by
  refine ⟨fun _ _ _ => rfl, ?_, ?_, ?_, ?_, ?_, ?_⟩ <;> rw [empty_resting]
  · exact List.Perm.refl _
  · exact List.nodup_nil
  all_goals exact fun p hp => absurd hp List.not_mem_nil

theorem find_eq_some_iff (h : L.WellFormed g) :
    L.find g id = some p ↔ p ∈ L.resting g ∧ p.order.id = id := by
  constructor
  · intro hf
    exact ⟨List.mem_of_find?_eq_some hf, by simpa using List.find?_some hf⟩
  · rintro ⟨hp, rfl⟩
    cases hf : L.find g p.order.id with
    | none =>
        have := List.find?_eq_none.mp hf p hp
        simp at this
    | some p' =>
        have hid : p'.order.id = p.order.id := by simpa using List.find?_some hf
        rw [List.inj_on_of_nodup_map h.ids (List.mem_of_find?_eq_some hf) hp hid]

theorem find_eq_none_iff : L.find g id = none ↔ ∀ p ∈ L.resting g, p.order.id ≠ id := by
  simp [find]

end Ledger

end Hft
