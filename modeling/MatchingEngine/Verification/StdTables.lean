import MatchingEngine.Reference.StdOrderBook
import MatchingEngine.Verification.Construction
import MatchingEngine.Verification.Determined

/-!
# The tables of the reference book

`Tables` relates the nodes and the two hash maps to the orders at rest, `Trees` the
levels to the queues. While a level is walked only the tables follow the ledger; the
level is put back when the walk is over. The parameter `addr` says where the node of
an id is.
-/

namespace Hft

open Machine Machine.Checked

@[simp] theorem priceOrder_eq_iff {side : Side} {p q : Nat} : priceOrder side p q = .eq ↔ p = q :=
  Std.LawfulEqCmp.compare_eq_iff_eq

theorem priceOrder_isLE {g : Geometry} {side : Side} {i j : Nat} :
    (priceOrder side (g.price i) (g.price j)).isLE = true ↔ ¬side.Better j i := by
  cases side <;> simp [priceOrder, Side.Better, Geometry.price, Nat.isLE_compare]

namespace Ledger

variable {g : Geometry} {L M : Ledger} {side : Side} {i n : Nat} {p p' : Placed}

/-- What is left at rest once an order is removed. -/
theorem mem_remove (h : L.WellFormed g) (hp : p ∈ L.resting g) :
    p' ∈ (L.remove p).resting g ↔ p' ∈ L.resting g ∧ p'.order.id ≠ p.order.id := by
  rw [mem_resting, mem_resting, and_assoc]
  refine and_congr_right (fun hlt => ?_)
  by_cases hplace : p'.side = p.side ∧ p'.index = p.index
  · rw [Ledger.remove, hplace.1, hplace.2, set_queue_self, List.mem_filter, bne_iff_ne]
  · rw [Ledger.remove, set_queue_of_ne hplace]
    refine (and_iff_left_of_imp (fun hmem hid => hplace ?_)).symm
    have hsame := h.id_inj hmem (mem_resting.mp hp).2 hid
    exact ⟨hsame.1, hsame.2.1⟩

theorem length_remove (h : L.WellFormed g) (hp : p ∈ L.resting g) :
    ((L.remove p).resting g).length + 1 = (L.resting g).length := by
  have hcount := h.count_add_free
  have hcount' := (h.remove hp).count_add_free
  rw [Ledger.remove, set_free, List.length_cons, ← Ledger.remove] at hcount'
  omega

theorem mem_set {q : List Resting} {free : List Nat} (hi : i < g.range) :
    p' ∈ (L.set side i q free).resting g ↔
      p' ∈ L.resting g ∧ ¬(p'.side = side ∧ p'.index = i) ∨
        p'.side = side ∧ p'.index = i ∧ p'.order ∈ q := by
  rw [mem_resting, mem_resting]
  by_cases hplace : p'.side = side ∧ p'.index = i
  · obtain ⟨rfl, rfl⟩ := hplace
    simp [hi]
  · rw [set_queue_of_ne hplace]
    tauto

theorem length_set {q : List Resting} {free : List Nat} (hi : i < g.range) :
    ((L.set side i q free).resting g).length + (L.queue side i).length =
      (L.resting g).length + q.length := by
  obtain ⟨others, hothers⟩ := resting_focus L side hi
  have hold := (hothers L (fun _ _ _ => rfl)).length_eq
  have hnew := (hothers (L.set side i q free) (fun _ _ hne => set_queue_of_ne hne)).length_eq
  rw [placed, List.length_append, List.length_map] at hold
  rw [placed, set_queue_self, List.length_append, List.length_map] at hnew
  omega

/-- The handles of the queue at a price, if there is one. -/
def shelf (g : Geometry) (L : Ledger) (addr : Nat → Nat) (side : Side) (price : Nat) :
    Option (List Nat) :=
  if price < g.minPrice ∨ L.queue side (price - g.minPrice) = [] then none
  else some ((L.queue side (price - g.minPrice)).map (fun r => addr r.id))

variable {addr : Nat → Nat} {price : Nat}

theorem shelf_price (i : Nat) : L.shelf g addr side (g.price i) =
    if L.queue side i = [] then none else some ((L.queue side i).map (fun r => addr r.id)) := by
  have hi : g.price i - g.minPrice = i := Nat.add_sub_cancel_left ..
  have hle : ¬g.price i < g.minPrice := Nat.not_lt.mpr (Nat.le_add_right _ _)
  simp only [shelf, hi, hle, false_or]

theorem exists_of_shelf (h : L.shelf g addr side price ≠ none) :
    ∃ i, price = g.price i ∧ L.queue side i ≠ [] := by
  rw [shelf] at h
  split at h
  · exact absurd rfl h
  · rename_i hnot
    rw [not_or] at hnot
    exact ⟨price - g.minPrice, by rw [Geometry.price]; omega, hnot.2⟩

theorem shelf_set {q : List Resting} {free : List Nat} {s : Side} :
    (L.set side i q free).shelf g addr s price = if s = side ∧ price = g.price i then
      (if q = [] then none else some (q.map (fun r => addr r.id)))
    else L.shelf g addr s price := by
  by_cases hplace : s = side ∧ price = g.price i
  · obtain ⟨rfl, rfl⟩ := hplace
    rw [if_pos ⟨rfl, rfl⟩, shelf_price, set_queue_self]
  · rw [if_neg hplace]
    by_cases hlt : price < g.minPrice
    · rw [shelf, if_pos (.inl hlt), shelf, if_pos (.inl hlt)]
    · have hne : ¬(s = side ∧ price - g.minPrice = i) := by
        rintro ⟨hs, rfl⟩
        refine hplace ⟨hs, ?_⟩
        rw [Geometry.price]
        omega
      rw [shelf, set_queue_of_ne hne, shelf]

end Ledger

namespace StdOrderBook

/-- The nodes and maps stand for the orders at rest. -/
structure Tables (g : Geometry) (addr : Nat → Nat) (s : StdOrderBook) (L : Ledger) : Prop where
  mapped : ∀ p ∈ L.resting g, s.orderMap[p.order.id]? = some (addr p.order.id)
  unmapped : ∀ id, (∀ p ∈ L.resting g, p.order.id ≠ id) → s.orderMap[id]? = none
  sided : ∀ p ∈ L.resting g, s.sideMap[p.order.id]? = some p.side
  unsided : ∀ id, (∀ p ∈ L.resting g, p.order.id ≠ id) → s.sideMap[id]? = none
  node : ∀ p ∈ L.resting g, ∃ o : StdOrder, s.nodes[addr p.order.id]? = some o ∧
    o.id = p.order.id ∧ o.price = g.price p.index ∧ o.quantity = p.order.quantity
  fresh : ∀ it, s.nextNode ≤ it → s.nodes[it]? = none
  live : s.liveCount = (L.resting g).length

/-- The levels hold the nodes of the queues. -/
def Trees (g : Geometry) (addr : Nat → Nat) (s : StdOrderBook) (L : Ledger) : Prop :=
  ∀ side price, (s.levels side)[price]? = L.shelf g addr side price

/-- The reference is built with the arguments of the engine. -/
structure Configured (g : Geometry) (s : StdOrderBook) : Prop where
  minPrice : s.minPrice = g.minPrice
  maxPrice : s.maxPrice = g.maxPrice
  maxOrderId : s.maxOrderId = g.maxOrderId
  capacity : g.capacity = min s.maxActiveOrders kMaxPoolCapacity

variable {g : Geometry} {addr : Nat → Nat} {s : StdOrderBook} {L M : Ledger} {side side' : Side}
variable {i n price : Nat} {p : Placed}

@[simp] theorem levels_setLevels_self {t : Levels side} : (s.setLevels side t).levels side = t := by
  cases side <;> rfl

theorem levels_setLevels_of_ne {t : Levels side} (h : side' ≠ side) :
    (s.setLevels side t).levels side' = s.levels side' := by
  cases side <;> cases side' <;> first | rfl | exact absurd rfl h

/-- Putting a level back concerns its price only. -/
theorem putLevel_levels {level : List Nat} :
    ((s.putLevel side price level).levels side')[n]? = if side' = side ∧ n = price then
      (if level = [] then none else some level) else (s.levels side')[n]? := by
  by_cases hside : side' = side
  · subst hside
    simp only [putLevel, List.isEmpty_iff, true_and]
    by_cases hlevel : level = []
    · simp only [hlevel, if_true, levels_setLevels_self, Std.TreeMap.getElem?_erase,
        priceOrder_eq_iff, @eq_comm _ n]
    · simp only [hlevel, if_false, levels_setLevels_self, Std.TreeMap.getElem?_insert,
        priceOrder_eq_iff, @eq_comm _ n]
  · rw [if_neg (fun h => hside h.1), putLevel]
    split <;> rw [levels_setLevels_of_ne hside]

theorem Trees.putLevel {q : List Resting} {free : List Nat} (h : Trees g addr s L) :
    Trees g addr (s.putLevel side (g.price i) (q.map (fun r => addr r.id)))
      (L.set side i q free) := by
  intro side' price
  rw [putLevel_levels, Ledger.shelf_set, h side' price]
  simp only [List.map_eq_nil_iff]

theorem Tables.congr (h : Tables g addr s L) (same : M.queue = L.queue) : Tables g addr s M := by
  have hresting : M.resting g = L.resting g := Ledger.resting_congr same
  constructor
  · rw [hresting]; exact h.mapped
  · rw [hresting]; exact h.unmapped
  · rw [hresting]; exact h.sided
  · rw [hresting]; exact h.unsided
  · rw [hresting]; exact h.node
  · exact h.fresh
  · rw [hresting]; exact h.live

/-- A node determines the id whose node it is. -/
theorem Tables.addr_inj {p' : Placed} (h : Tables g addr s L) (hp : p ∈ L.resting g)
    (hp' : p' ∈ L.resting g) (heq : addr p.order.id = addr p'.order.id) :
    p.order.id = p'.order.id := by
  obtain ⟨o, ho, hid, -⟩ := h.node p hp
  obtain ⟨o', ho', hid', -⟩ := h.node p' hp'
  rw [heq, ho'] at ho
  rw [← hid, ← hid', Option.some.inj ho]

/-- The maps and nodes that only changed beside the tables stand for the same orders. -/
theorem Tables.frame {t : StdOrderBook} (h : Tables g addr s L) (horders : t.orderMap = s.orderMap)
    (hsides : t.sideMap = s.sideMap) (hnodes : t.nodes = s.nodes) (hnext : t.nextNode = s.nextNode)
    (hlive : t.liveCount = s.liveCount) : Tables g addr t L := by
  constructor
  · rw [horders]; exact h.mapped
  · rw [horders]; exact h.unmapped
  · rw [hsides]; exact h.sided
  · rw [hsides]; exact h.unsided
  · rw [hnodes]; exact h.node
  · rw [hnodes, hnext]; exact h.fresh
  · rw [hlive]; exact h.live

/-- A removed order leaves its id's entries and its node. -/
theorem Tables.drop (h : Tables g addr s L) (hL : L.WellFormed g) (hp : p ∈ L.resting g) :
    Tables g addr { s.forget p.order.id with
      nodes := s.nodes.erase (addr p.order.id), liveCount := s.liveCount - 1 } (L.remove p) := by
  have hmem : ∀ p', p' ∈ (L.remove p).resting g ↔
      p' ∈ L.resting g ∧ p'.order.id ≠ p.order.id := fun p' => Ledger.mem_remove hL hp
  have hgone : ∀ id, (∀ p' ∈ (L.remove p).resting g, p'.order.id ≠ id) →
      p.order.id = id ∨ ∀ p' ∈ L.resting g, p'.order.id ≠ id := by
    intro id hnone
    refine or_iff_not_imp_left.mpr (fun hne p' hp' e => ?_)
    exact hnone p' ((hmem p').mpr ⟨hp', fun e' => hne (e'.symm.trans e)⟩) e
  constructor
  · intro p' hp'
    obtain ⟨hold, hne⟩ := (hmem p').mp hp'
    show (s.orderMap.erase p.order.id)[p'.order.id]? = _
    rw [Std.HashMap.getElem?_erase, if_neg (by simpa using hne.symm), h.mapped p' hold]
  · intro id hnone
    show (s.orderMap.erase p.order.id)[id]? = _
    rw [Std.HashMap.getElem?_erase]
    rcases hgone id hnone with hid | hold
    · rw [if_pos (by simpa using hid)]
    · rw [h.unmapped id hold, ite_self]
  · intro p' hp'
    obtain ⟨hold, hne⟩ := (hmem p').mp hp'
    show (s.sideMap.erase p.order.id)[p'.order.id]? = _
    rw [Std.HashMap.getElem?_erase, if_neg (by simpa using hne.symm), h.sided p' hold]
  · intro id hnone
    show (s.sideMap.erase p.order.id)[id]? = _
    rw [Std.HashMap.getElem?_erase]
    rcases hgone id hnone with hid | hold
    · rw [if_pos (by simpa using hid)]
    · rw [h.unsided id hold, ite_self]
  · intro p' hp'
    obtain ⟨hold, hne⟩ := (hmem p').mp hp'
    obtain ⟨o, ho, hvalues⟩ := h.node p' hold
    refine ⟨o, ?_, hvalues⟩
    show (s.nodes.erase (addr p.order.id))[addr p'.order.id]? = _
    rw [Std.HashMap.getElem?_erase, if_neg ?_, ho]
    exact fun e => hne (h.addr_inj hold hp (beq_iff_eq.mp e).symm)
  · intro it hit
    show (s.nodes.erase (addr p.order.id))[it]? = none
    rw [Std.HashMap.getElem?_erase, h.fresh it hit, ite_self]
  · show s.liveCount - 1 = _
    have hlength := Ledger.length_remove hL hp
    rw [h.live]
    omega

/-- A partly filled order at the front of its queue keeps its entries; its node holds less. -/
theorem Tables.shrink {r : Resting} {rs : List Resting} {free : List Nat} {o : StdOrder}
    (h : Tables g addr s L) (hL : L.WellFormed g) (hq : L.queue side i = r :: rs)
    (ho : s.nodes[addr r.id]? = some o) :
    Tables g addr { s with
      nodes := s.nodes.insert (addr r.id) { o with quantity := r.quantity - n } }
      (L.set side i (r.shrink n :: rs) free) := by
  have hr : r ∈ L.queue side i := hq ▸ List.mem_cons_self
  have hi := hL.index_lt hr
  have hids := hL.ids_nodup side i
  rw [hq, List.map_cons, List.nodup_cons] at hids
  have hcases : ∀ p' ∈ (L.set side i (r.shrink n :: rs) free).resting g,
      p' = ⟨side, i, r.shrink n⟩ ∨ p' ∈ L.resting g ∧ p'.order.id ≠ r.id := by
    intro p' hp'
    rcases (Ledger.mem_set hi).mp hp' with ⟨hold, hplace⟩ | ⟨rfl, rfl, hmem⟩
    · refine .inr ⟨hold, fun hid => hplace ?_⟩
      have hsame := hL.id_inj (Ledger.mem_resting.mp hold).2 hr hid
      exact ⟨hsame.1, hsame.2.1⟩
    · rcases List.mem_cons.mp hmem with horder | hmem
      · exact .inl (by rw [← horder])
      · refine .inr ⟨Ledger.mem_resting.mpr ⟨hi, hq ▸ List.mem_cons_of_mem r hmem⟩, ?_⟩
        exact fun hid => hids.1 (hid ▸ List.mem_map_of_mem hmem)
  have hkept : ∀ p' ∈ L.resting g, ∃ p'' ∈ (L.set side i (r.shrink n :: rs) free).resting g,
      p''.order.id = p'.order.id := by
    intro p' hp'
    by_cases hplace : p'.side = side ∧ p'.index = i
    · obtain ⟨rfl, rfl⟩ := hplace
      have hmem := (Ledger.mem_resting.mp hp').2
      rw [hq] at hmem
      rcases List.mem_cons.mp hmem with horder | hmem
      · refine ⟨⟨p'.side, p'.index, r.shrink n⟩, (Ledger.mem_set hi).mpr
          (.inr ⟨rfl, rfl, List.mem_cons_self⟩), ?_⟩
        rw [horder, Resting.shrink_id]
      · exact ⟨p', (Ledger.mem_set hi).mpr (.inr ⟨rfl, rfl, List.mem_cons_of_mem _ hmem⟩), rfl⟩
    · exact ⟨p', (Ledger.mem_set hi).mpr (.inl ⟨hp', hplace⟩), rfl⟩
  have hnone : ∀ id, (∀ p' ∈ (L.set side i (r.shrink n :: rs) free).resting g, p'.order.id ≠ id) →
      ∀ p' ∈ L.resting g, p'.order.id ≠ id := by
    intro id hid p' hp' e
    obtain ⟨p'', hp'', heq⟩ := hkept p' hp'
    exact hid p'' hp'' (heq.trans e)
  constructor
  · intro p' hp'
    rcases hcases p' hp' with rfl | ⟨hold, -⟩
    · exact h.mapped ⟨side, i, r⟩ (hL.mem hr)
    · exact h.mapped p' hold
  · exact fun id hid => h.unmapped id (hnone id hid)
  · intro p' hp'
    rcases hcases p' hp' with rfl | ⟨hold, -⟩
    · exact h.sided ⟨side, i, r⟩ (hL.mem hr)
    · exact h.sided p' hold
  · exact fun id hid => h.unsided id (hnone id hid)
  · intro p' hp'
    rcases hcases p' hp' with rfl | ⟨hold, hne⟩
    · obtain ⟨o', ho', hid, hprice, hquantity⟩ := h.node _ (hL.mem hr)
      obtain rfl := Option.some.inj (ho.symm.trans ho')
      exact ⟨_, Std.HashMap.getElem?_insert_self, hid, hprice, rfl⟩
    · obtain ⟨o', ho', hvalues⟩ := h.node p' hold
      refine ⟨o', ?_, hvalues⟩
      show (s.nodes.insert (addr r.id) _)[addr p'.order.id]? = _
      rw [Std.HashMap.getElem?_insert, if_neg ?_, ho']
      exact fun e => hne (h.addr_inj hold (hL.mem hr) (beq_iff_eq.mp e).symm)
  · intro it hit
    show (s.nodes.insert (addr r.id) _)[it]? = none
    rw [Std.HashMap.getElem?_insert, if_neg ?_, h.fresh it hit]
    rintro e
    have hnone := h.fresh it hit
    rw [← beq_iff_eq.mp e, ho] at hnone
    cases hnone
  · have hlength : ((L.set side i (r.shrink n :: rs) free).resting g).length +
        (L.queue side i).length = (L.resting g).length + (r.shrink n :: rs).length :=
      Ledger.length_set hi
    rw [hq, List.length_cons, List.length_cons] at hlength
    exact h.live.trans (Nat.add_right_cancel hlength).symm

/-- A new order takes a new node, under its id in both maps. -/
theorem Tables.push {r : Resting} {free : List Nat} {order : StdOrder} (h : Tables g addr s L)
    (hi : i < g.range) (hfresh : ∀ p ∈ L.resting g, p.order.id ≠ r.id) (hid : order.id = r.id)
    (hprice : order.price = g.price i) (hquantity : order.quantity = r.quantity) :
    Tables g (Function.update addr r.id s.nextNode) { s with
      nodes := s.nodes.insert s.nextNode order, nextNode := s.nextNode + 1
      orderMap := s.orderMap.insert r.id s.nextNode, sideMap := s.sideMap.insert r.id side
      liveCount := s.liveCount + 1 } (L.append side i r free) := by
  have hcases : ∀ p' ∈ (L.append side i r free).resting g,
      p' = ⟨side, i, r⟩ ∨ p' ∈ L.resting g ∧ p'.order.id ≠ r.id := by
    intro p' hp'
    rcases (Ledger.mem_set hi).mp hp' with ⟨hold, -⟩ | ⟨rfl, rfl, hmem⟩
    · exact .inr ⟨hold, hfresh p' hold⟩
    · rcases List.mem_append.mp hmem with hmem | hmem
      · have hold : p' ∈ L.resting g := Ledger.mem_resting.mpr ⟨hi, hmem⟩
        exact .inr ⟨hold, hfresh p' hold⟩
      · exact .inl (by rw [← List.mem_singleton.mp hmem])
  have hold : ∀ p' ∈ L.resting g, p' ∈ (L.append side i r free).resting g := by
    intro p' hp'
    refine (Ledger.mem_set hi).mpr ?_
    by_cases hplace : p'.side = side ∧ p'.index = i
    · obtain ⟨rfl, rfl⟩ := hplace
      exact .inr ⟨rfl, rfl, List.mem_append_left _ (Ledger.mem_resting.mp hp').2⟩
    · exact .inl ⟨hp', hplace⟩
  have hnew : ⟨side, i, r⟩ ∈ (L.append side i r free).resting g :=
    (Ledger.mem_set hi).mpr (.inr ⟨rfl, rfl, List.mem_append_right _ List.mem_cons_self⟩)
  constructor
  · intro p' hp'
    show (s.orderMap.insert r.id s.nextNode)[p'.order.id]? = _
    rw [Std.HashMap.getElem?_insert]
    rcases hcases p' hp' with rfl | ⟨hp', hne⟩
    · rw [if_pos (beq_self_eq_true _), Function.update_self]
    · rw [if_neg (by simpa using hne.symm), Function.update_of_ne hne, h.mapped p' hp']
  · intro id hnone
    show (s.orderMap.insert r.id s.nextNode)[id]? = _
    rw [Std.HashMap.getElem?_insert, if_neg (by simpa using hnone _ hnew)]
    exact h.unmapped id (fun p' hp' => hnone p' (hold p' hp'))
  · intro p' hp'
    show (s.sideMap.insert r.id side)[p'.order.id]? = _
    rw [Std.HashMap.getElem?_insert]
    rcases hcases p' hp' with rfl | ⟨hp', hne⟩
    · rw [if_pos (beq_self_eq_true _)]
    · rw [if_neg (by simpa using hne.symm), h.sided p' hp']
  · intro id hnone
    show (s.sideMap.insert r.id side)[id]? = _
    rw [Std.HashMap.getElem?_insert, if_neg (by simpa using hnone _ hnew)]
    exact h.unsided id (fun p' hp' => hnone p' (hold p' hp'))
  · intro p' hp'
    rcases hcases p' hp' with rfl | ⟨hp', hne⟩
    · refine ⟨order, ?_, hid, hprice, hquantity⟩
      show (s.nodes.insert s.nextNode order)[Function.update addr r.id s.nextNode r.id]? = _
      rw [Function.update_self, Std.HashMap.getElem?_insert_self]
    · obtain ⟨o, ho, hvalues⟩ := h.node p' hp'
      refine ⟨o, ?_, hvalues⟩
      show (s.nodes.insert s.nextNode order)[Function.update addr r.id s.nextNode p'.order.id]? = _
      rw [Function.update_of_ne hne, Std.HashMap.getElem?_insert, if_neg ?_, ho]
      intro e
      rw [← beq_iff_eq.mp e, h.fresh _ (Nat.le_refl _)] at ho
      cases ho
  · intro it hit
    have hlt : s.nextNode < it := hit
    show (s.nodes.insert s.nextNode order)[it]? = none
    rw [Std.HashMap.getElem?_insert, if_neg (by simpa using Nat.ne_of_lt hlt)]
    exact h.fresh it (Nat.le_of_lt hlt)
  · have hlength : ((L.set side i (L.queue side i ++ [r]) free).resting g).length +
        (L.queue side i).length = (L.resting g).length + (L.queue side i ++ [r]).length :=
      Ledger.length_set hi
    rw [List.length_append, List.length_singleton] at hlength
    show s.liveCount + 1 = ((L.set side i (L.queue side i ++ [r]) free).resting g).length
    rw [h.live]
    omega

/-- Nothing but the addresses of the ids at rest matters to the levels. -/
theorem Trees.congr_addr {addr' : Nat → Nat} (h : Trees g addr s L) (hL : L.WellFormed g)
    (same : ∀ p ∈ L.resting g, addr' p.order.id = addr p.order.id) : Trees g addr' s L := by
  intro side price
  rw [h side price, Ledger.shelf, Ledger.shelf]
  congr 2
  refine List.map_congr_left (fun r hr => ?_)
  exact (same _ (hL.mem hr)).symm

/-! ### Matching -/

/-- Everything but the tables. -/
def SameTrees (s t : StdOrderBook) : Prop :=
  t = { s with nodes := t.nodes, orderMap := t.orderMap, sideMap := t.sideMap,
               liveCount := t.liveCount }

theorem SameTrees.levels {t : StdOrderBook} (h : SameTrees s t) (side : Side) :
    t.levels side = s.levels side := by
  rw [h]
  cases side <;> rfl

theorem SameTrees.trans {t u : StdOrderBook} (h : SameTrees s t) (h' : SameTrees t u) :
    SameTrees s u := by
  unfold SameTrees at h h' ⊢
  rw [h] at h'
  exact h'

/-- Taking the front order first changes nothing about the queues that remain. -/
theorem takeQueue_queue_cons {r : Resting} {rs : List Resting} (hL : L.WellFormed g)
    (hq : L.queue side i = r :: rs) (hn : r.quantity ≤ n) :
    ((L.takeQueue side i r.quantity).takeQueue side i (n - r.quantity)).queue =
      (L.takeQueue side i n).queue := by
  rw [← hL.takeQueue_front hq]
  funext side' j
  by_cases hplace : side' = side ∧ j = i
  · obtain ⟨rfl, rfl⟩ := hplace
    rw [Ledger.takeQueue_queue_self, Ledger.set_queue_self, Ledger.takeQueue_queue_self, hq,
      Greedy.rest, if_neg (Nat.not_lt.mpr hn)]
  · rw [Ledger.takeQueue_queue_of_ne hplace, Ledger.set_queue_of_ne hplace,
      Ledger.takeQueue_queue_of_ne hplace]

/-- Removing the front order is taking its quantity. -/
theorem remove_front {r : Resting} {rs : List Resting} (hL : L.WellFormed g)
    (hq : L.queue side i = r :: rs) :
    L.remove ⟨side, i, r⟩ = L.takeQueue side i r.quantity := by
  have hids := hL.ids_nodup side i
  rw [hq] at hids
  have hfilter : (r :: rs).filter (fun s => s.id != r.id) = rs :=
    Ledger.filter_id_ne (List.nil_append (r :: rs) ▸ hids)
  rw [← hL.takeQueue_front hq, Ledger.remove]
  show L.set side i ((L.queue side i).filter (fun s => s.id != r.id)) (r.slot :: L.free) = _
  rw [hq]
  exact congrArg (fun q => L.set side i q (r.slot :: L.free)) hfilter

/-- A demand that leaves the queue as it is leaves all queues as they are. -/
theorem takeQueue_queue_idle (hidle : Greedy.rest Resting.quantity Resting.shrink
    (L.queue side i) n = L.queue side i) : (L.takeQueue side i n).queue = L.queue := by
  funext side' j
  by_cases hplace : side' = side ∧ j = i
  · obtain ⟨rfl, rfl⟩ := hplace
    rw [Ledger.takeQueue_queue_self, hidle]
  · rw [Ledger.takeQueue_queue_of_ne hplace]

theorem deref_eq {it : Nat} {o : StdOrder} (h : s.nodes[it]? = some o) : s.deref it = .ok o := by
  rw [deref, h]

theorem fillLevel_zero {taker : Nat} (level : List Nat) :
    fillLevel taker level 0 s = .ok ([], level, 0, s) := by
  cases level <;> rfl

/-- The walk of a level makes the trades of the queue and leaves what is left of it. -/
theorem fillLevel_spec {taker : Nat} {q : List Resting} (hL : L.WellFormed g)
    (h : Tables g addr s L) (hq : L.queue side i = q) (n : Nat) :
    (fillLevel taker (q.map (fun r => addr r.id)) n s).Returns (fun (trades, level, left, t) =>
      trades = (Greedy.fills Resting.quantity q n).map (Ledger.fillTrade taker (g.price i)) ∧
      level = (Greedy.rest Resting.quantity Resting.shrink q n).map (fun r => addr r.id) ∧
      left = n - Greedy.total Resting.quantity q ∧
      Tables g addr t (L.takeQueue side i n) ∧ SameTrees s t) := by
  induction q generalizing s L n with
  | nil =>
      refine ⟨rfl, rfl, rfl, h.congr (takeQueue_queue_idle ?_), rfl⟩
      rw [hq, Greedy.rest]
  | cons r rs ih =>
      have hr : r ∈ L.queue side i := hq ▸ List.mem_cons_self
      by_cases hzero : n = 0
      · subst hzero
        have hrest := Greedy.rest_zero (hL.queue_pos side i) Resting.shrink_zero
        rw [fillLevel_zero]
        refine ⟨by rw [Greedy.fills_zero, List.map_nil], ?_, (Nat.zero_sub _).symm,
          h.congr (takeQueue_queue_idle hrest), rfl⟩
        rw [← hq, hrest]
      obtain ⟨o, ho, hid, hprice, hquantity⟩ : ∃ o : StdOrder, s.nodes[addr r.id]? = some o ∧
          o.id = r.id ∧ o.price = g.price i ∧ o.quantity = r.quantity :=
        h.node ⟨side, i, r⟩ (hL.mem hr)
      have hfills : Greedy.fills Resting.quantity (r :: rs) n =
          (r, min r.quantity n) :: Greedy.fills Resting.quantity rs (n - r.quantity) := if_neg hzero
      simp only [List.map_cons, fillLevel, if_neg hzero, deref_eq ho, ok_bind, hid, hprice,
        hquantity, checkedSub, if_pos (Nat.min_le_left n r.quantity),
        if_pos (Nat.min_le_right n r.quantity)]
      by_cases hfull : r.quantity ≤ n
      · -- The maker is used up: the rest of the walk is that of the ledger without it.
        have htrade : min n r.quantity = r.quantity := Nat.min_eq_right hfull
        have hlive : 1 ≤ (s.forget r.id).liveCount := by
          show 1 ≤ s.liveCount
          rw [h.live]
          exact List.length_pos_of_mem (hL.mem hr)
        have hdrop := h.drop hL (hL.mem hr)
        rw [remove_front hL hq] at hdrop
        have hnext : (L.takeQueue side i r.quantity).queue side i = rs := by
          rw [← hL.takeQueue_front hq, Ledger.set_queue_self]
        simp only [htrade, Nat.sub_self, if_true, if_pos hlive, ok_bind]
        refine (ih (hL.takeQueue side (hL.index_lt hr) r.quantity) hdrop hnext
          (n - r.quantity)).bind ?_
        rintro ⟨trades, level, left, t⟩ ⟨rfl, rfl, rfl, htables, hsame⟩
        refine ⟨?_, ?_, ?_, htables.congr (takeQueue_queue_cons hL hq hfull).symm, ?_⟩
        · rw [hfills, List.map_cons, Nat.min_eq_left hfull]
          rfl
        · rw [Greedy.rest, if_neg (Nat.not_lt.mpr hfull)]
        · rw [Greedy.total_cons, Nat.sub_add_eq]
        · refine SameTrees.trans ?_ hsame
          exact rfl
      · -- The taker is used up.
        have hlt := Nat.lt_of_not_le hfull
        have htrade : min n r.quantity = n := Nat.min_eq_left (Nat.le_of_lt hlt)
        have hrest : Greedy.rest Resting.quantity Resting.shrink (r :: rs) n = r.shrink n :: rs :=
          if_pos hlt
        rw [htrade, Nat.sub_self, if_neg (Nat.ne_of_gt (Nat.sub_pos_of_lt hlt)), fillLevel_zero]
        refine ⟨?_, ?_, ?_, ?_, rfl⟩
        · rw [hfills, Nat.sub_eq_zero_of_le (Nat.le_of_lt hlt), Greedy.fills_zero,
            Nat.min_eq_right (Nat.le_of_lt hlt)]
          rfl
        · rw [hrest]
          rfl
        · show 0 = n - (r.quantity + Greedy.total Resting.quantity rs)
          omega
        · have hshrink : Tables g addr _
              (L.set side i (r.shrink n :: rs) (Ledger.freed (r :: rs) n ++ L.free)) :=
            h.shrink hL hq ho
          rw [hid, hprice] at hshrink
          rw [Ledger.takeQueue, hq, hrest]
          exact hshrink

end StdOrderBook

end Hft
