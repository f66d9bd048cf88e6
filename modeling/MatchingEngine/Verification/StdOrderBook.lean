import MatchingEngine.Verification.StdTables

/-!
# The reference book keeps a ledger

Every call on the reference book does to the ledger it stands for what the call means
there. Its replies are those of the ledger, up to the reason for which a cancel with an
id out of bounds is refused.
-/

namespace Hft

open Machine Machine.Checked

namespace StdOrderBook

/-- The book stands for a ledger; `addr` says where the node of an id is. -/
structure Keeps (g : Geometry) (addr : Nat → Nat) (s : StdOrderBook) (L : Ledger) : Prop where
  wellFormed : L.WellFormed g
  tables : Tables g addr s L
  trees : Trees g addr s L
  configured : Configured g s

variable {g : Geometry} {addr : Nat → Nat} {s t : StdOrderBook} {L M : Ledger} {side : Side}
variable {i j n fuel taker takerPrice price id : Nat} {p : Placed} {is : List Nat}

theorem Configured.frame (h : Configured g s) (hmin : t.minPrice = s.minPrice)
    (hmax : t.maxPrice = s.maxPrice) (hids : t.maxOrderId = s.maxOrderId)
    (horders : t.maxActiveOrders = s.maxActiveOrders) : Configured g t :=
  ⟨hmin.trans h.minPrice, hmax.trans h.maxPrice, hids.trans h.maxOrderId, horders ▸ h.capacity⟩

theorem Configured.sameTrees (h : Configured g s) (hsame : SameTrees s t) : Configured g t := by
  rw [hsame]
  exact h.frame rfl rfl rfl rfl

/-- Putting a level back leaves everything but the trees. -/
theorem putLevel_eq (s : StdOrderBook) (side : Side) (price : Nat) (level : List Nat) :
    s.putLevel side price level =
      { s with bids := (s.putLevel side price level).bids
               asks := (s.putLevel side price level).asks } := by
  unfold StdOrderBook.putLevel
  split <;> cases side <;> rfl

theorem Configured.putLevel (h : Configured g s) {level : List Nat} :
    Configured g (s.putLevel side price level) := by
  rw [putLevel_eq]
  exact h.frame rfl rfl rfl rfl

theorem Tables.putLevel (h : Tables g addr s L) {level : List Nat} :
    Tables g addr (s.putLevel side price level) L := by
  rw [putLevel_eq]
  exact h.frame rfl rfl rfl rfl rfl

/-- The level of an occupied price. -/
theorem Trees.getElem? (h : Trees g addr s L) (hne : L.queue side i ≠ []) :
    (s.levels side)[g.price i]? = some ((L.queue side i).map (fun r => addr r.id)) := by
  rw [h side, Ledger.shelf_price, if_neg hne]

theorem Trees.mem_iff (h : Trees g addr s L) :
    price ∈ s.levels side ↔ ∃ i, price = g.price i ∧ L.queue side i ≠ [] := by
  rw [Std.TreeMap.mem_iff_isSome_getElem?, h side, Option.isSome_iff_ne_none]
  constructor
  · exact Ledger.exists_of_shelf
  · rintro ⟨i, rfl, hne⟩
    rw [Ledger.shelf_price, if_neg hne]
    exact Option.some_ne_none _

/-- `begin()` is the best price. -/
theorem Trees.minKey?_eq (h : Trees g addr s L) (hne : L.queue side i ≠ [])
    (hbest : ∀ j, L.queue side j ≠ [] → ¬side.Better j i) :
    (s.levels side).minKey? = some (g.price i) := by
  refine Std.TreeMap.minKey?_eq_some_iff_mem_and_forall.mpr ⟨h.mem_iff.mpr ⟨i, rfl, hne⟩, ?_⟩
  intro price hprice
  obtain ⟨j, rfl, hj⟩ := h.mem_iff.mp hprice
  exact priceOrder_isLE.mpr (hbest j hj)

theorem Trees.isEmpty_iff (h : Trees g addr s L) :
    (s.levels side).isEmpty = true ↔ ∀ i, L.queue side i = [] := by
  rw [Std.TreeMap.isEmpty_iff_forall_not_mem]
  constructor
  · intro hnone i
    by_contra hne
    exact hnone _ (h.mem_iff.mpr ⟨i, rfl, hne⟩)
  · rintro hnone price hprice
    obtain ⟨i, -, hne⟩ := h.mem_iff.mp hprice
    exact hne (hnone i)

/-- What is left of a level goes back, and the book stands for what is left of the queue. -/
theorem Keeps.putLevel (h : Keeps g addr s L) (hi : i < g.range)
    (htables : Tables g addr t (L.takeQueue side i n)) (hsame : SameTrees s t) :
    Keeps g addr (t.putLevel side (g.price i)
      ((Greedy.rest Resting.quantity Resting.shrink (L.queue side i) n).map (fun r => addr r.id)))
      (L.takeQueue side i n) := by
  have htrees : Trees g addr t L := fun side' price => by rw [hsame.levels, h.trees side']
  exact ⟨h.wellFormed.takeQueue side hi n, htables.putLevel, htrees.putLevel,
    (h.configured.sameTrees hsame).putLevel⟩

theorem putLevel_nil_size (hmem : price ∈ s.levels side) :
    ((s.putLevel side price []).levels side).size + 1 = (s.levels side).size := by
  have hpos : 0 < (s.levels side).size := by
    refine Nat.pos_of_ne_zero (fun hzero => ?_)
    have hempty : (s.levels side).isEmpty = true := by
      rw [Std.TreeMap.isEmpty_eq_size_eq_zero, hzero]
      rfl
    exact Std.TreeMap.isEmpty_iff_forall_not_mem.mp hempty price hmem
  rw [StdOrderBook.putLevel, if_pos List.isEmpty_nil, levels_setLevels_self,
    Std.TreeMap.size_erase, if_pos (Std.TreeMap.mem_iff_contains.mp hmem)]
  omega

/-- The walk over the opposite levels is the sweep over the prices the taker accepts. -/
theorem sweep_spec (h : Keeps g addr s L) (hsorted : is.Pairwise side.opposite.Better)
    (hall : 0 < n → ∀ j, L.queue side.opposite j ≠ [] →
      Exec.crosses side takerPrice (g.price j) = true → j ∈ is)
    (hcross : ∀ j ∈ is, Exec.crosses side takerPrice (g.price j) = true)
    (hfuel : n = 0 ∧ 0 < fuel ∨ (s.levels side.opposite).size < fuel) :
    (sweep side taker takerPrice fuel n s).Returns (fun (trades, left, t) =>
      trades = (Ledger.sweep g side taker is n L).trades ∧
      left = (Ledger.sweep g side taker is n L).left ∧
      Keeps g addr t (Ledger.sweep g side taker is n L).ledger) := by
  induction is generalizing s L n fuel with
  | nil =>
      obtain ⟨fuel, rfl⟩ : ∃ k, fuel = k + 1 := Nat.exists_eq_add_one.mpr (by omega)
      rw [sweep]
      by_cases hn : n = 0
      · rw [if_pos hn]
        exact ⟨rfl, rfl, h⟩
      rw [if_neg hn]
      cases hmin : (s.levels side.opposite).minKey? with
      | none => exact ⟨rfl, rfl, h⟩
      | some best =>
          have hmem := (Std.TreeMap.minKey?_eq_some_iff_mem_and_forall.mp hmin).1
          obtain ⟨j, rfl, hj⟩ := h.trees.mem_iff.mp hmem
          have hnot : ¬Exec.crosses side takerPrice (g.price j) = true := fun hcrosses =>
            List.not_mem_nil (hall (Nat.pos_of_ne_zero hn) j hj hcrosses)
          show (ite _ _ _ : Checked _).Returns _
          rw [if_neg hnot]
          exact ⟨rfl, rfl, h⟩
  | cons i is ih =>
      obtain ⟨hfirst, hsorted⟩ := List.pairwise_cons.mp hsorted
      have hcrosses := fun j hj => hcross j (List.mem_cons_of_mem i hj)
      by_cases hempty : L.queue side.opposite i = []
      · rw [Ledger.sweep_skip (.inr hempty)]
        refine ih h hsorted (fun hn j hj hc => ?_) hcrosses hfuel
        refine (List.mem_cons.mp (hall hn j hj hc)).resolve_left ?_
        rintro rfl
        exact hj hempty
      obtain ⟨fuel, rfl⟩ : ∃ k, fuel = k + 1 := Nat.exists_eq_add_one.mpr (by omega)
      by_cases hn : n = 0
      · subst hn
        rw [Ledger.sweep_zero, sweep, if_pos rfl]
        exact ⟨rfl, rfl, h⟩
      have hpos := Nat.pos_of_ne_zero hn
      have hi : i < g.range := by
        by_contra hge
        exact hempty (h.wellFormed.outside _ i (Nat.le_of_not_lt hge))
      -- The first price of the tree is the first price of the sweep.
      have hmin : (s.levels side.opposite).minKey? = some (g.price i) := by
        refine h.trees.minKey?_eq hempty (fun j hj hbetter => ?_)
        have hc := Exec.crosses_of_better (hcross i List.mem_cons_self) hbetter
        rcases List.mem_cons.mp (hall hpos j hj hc) with rfl | hmem
        · exact hbetter.irrefl
        · exact hbetter.asymm (hfirst j hmem)
      have hmem := (Std.TreeMap.minKey?_eq_some_iff_mem_and_forall.mp hmin).1
      rw [sweep, if_neg hn, hmin]
      show (ite _ _ _ : Checked _).Returns _
      rw [if_pos (hcross i List.mem_cons_self), Std.TreeMap.getD_eq_getD_getElem?,
        h.trees.getElem? hempty, Option.getD_some]
      refine (fillLevel_spec h.wellFormed h.tables rfl n).bind ?_
      rintro ⟨trades, level, left, t⟩ ⟨rfl, rfl, rfl, htables, hsame⟩
      have hkeeps := h.putLevel hi htables hsame
      have hdrained : 0 < n - Greedy.total Resting.quantity (L.queue side.opposite i) →
          Greedy.rest Resting.quantity Resting.shrink (L.queue side.opposite i) n = [] :=
        fun hleft => (Greedy.rest_eq_nil_iff (h.wellFormed.queue_pos _ i)).mpr (by omega)
      have hall' : 0 < n - Greedy.total Resting.quantity (L.queue side.opposite i) →
          ∀ j, (L.takeQueue side.opposite i n).queue side.opposite j ≠ [] →
          Exec.crosses side takerPrice (g.price j) = true → j ∈ is := by
        intro hleft j hj hc
        have hne : j ≠ i := by
          rintro rfl
          exact hj (Ledger.takeQueue_queue_self.trans (hdrained hleft))
        rw [Ledger.takeQueue_queue_of_ne (fun e => hne e.2)] at hj
        exact (List.mem_cons.mp (hall hpos j hj hc)).resolve_left hne
      have hfuel' : n - Greedy.total Resting.quantity (L.queue side.opposite i) = 0 ∧ 0 < fuel ∨
          ((t.putLevel side.opposite (g.price i) ((Greedy.rest Resting.quantity Resting.shrink
            (L.queue side.opposite i) n).map (fun r => addr r.id))).levels side.opposite).size <
            fuel := by
        have hmem' : g.price i ∈ t.levels side.opposite := hsame.levels side.opposite ▸ hmem
        have hsize := putLevel_nil_size hmem'
        rw [hsame.levels] at hsize
        rcases Nat.eq_zero_or_pos
          (n - Greedy.total Resting.quantity (L.queue side.opposite i)) with hleft | hleft
        · exact .inl ⟨hleft, by omega⟩
        · rw [hdrained hleft, List.map_nil]
          exact .inr (by omega)
      refine (ih hkeeps hsorted hall' hcrosses hfuel').bind ?_
      rintro ⟨others, left, u⟩ ⟨rfl, rfl, hlast⟩
      rw [Ledger.sweep, if_neg (not_or.mpr ⟨hn, hempty⟩)]
      exact ⟨rfl, rfl, hlast⟩

/-! ### Cancels -/

theorem Tables.find_none (h : Tables g addr s L) (hnone : L.find g id = none) :
    s.orderMap[id]? = none := h.unmapped id (Ledger.find_eq_none_iff.mp hnone)

/-- Erasing the node of an order from its list. -/
theorem Tables.erase_eq (h : Tables g addr s L) (hL : L.WellFormed g) (hp : p ∈ L.resting g) :
    ∃ q, ((L.queue p.side p.index).map (fun r => addr r.id)).erase (addr p.order.id) =
        q.map (fun r => addr r.id) ∧
      L.remove p = L.set p.side p.index q (p.order.slot :: L.free) := by
  obtain ⟨as, bs, hsplit, hremove⟩ := hL.exists_split hp
  refine ⟨as ++ bs, ?_, hremove⟩
  have hids := hL.ids_nodup p.side p.index
  have hmem : ∀ r ∈ as, r ∈ L.queue p.side p.index := fun r hr =>
    hsplit ▸ List.mem_append_left _ hr
  have hnot : addr p.order.id ∉ as.map (fun r => addr r.id) := by
    intro hin
    obtain ⟨r, hr, heq⟩ := List.mem_map.mp hin
    have hid := h.addr_inj (p := ⟨p.side, p.index, r⟩) (hL.mem (hmem r hr)) hp heq
    rw [hsplit, List.map_append, List.nodup_append] at hids
    exact hids.2.2 r.id (List.mem_map_of_mem hr) p.order.id List.mem_cons_self hid
  rw [hsplit, List.map_append, List.map_cons, List.erase_append_right _ hnot,
    List.erase_cons_head, List.map_append]

/-- A cancel does what it does to the ledger. Out of bounds it only has another reason. -/
theorem cancelOrder_spec (h : Keeps g addr s L) (id : Nat) :
    (s.cancelOrder id).Returns (fun (reason, t) => Keeps g addr t (L.cancel g id).ledger ∧
      if id = 0 ∨ id > g.maxOrderId then reason = .CancelFailed ∧ t = s
      else reason = (L.cancel g id).reply.reason) := by
  rw [cancelOrder, Ledger.cancel]
  cases hfind : L.find g id with
  | none =>
      rw [h.tables.find_none hfind]
      by_cases hbounds : id = 0 ∨ id > g.maxOrderId
      · rw [if_pos hbounds]
        exact ⟨h, by rw [if_pos hbounds]; exact ⟨rfl, rfl⟩⟩
      · rw [if_neg hbounds]
        exact ⟨h, by rw [if_neg hbounds]; exact rfl⟩
  | some p =>
      obtain ⟨hp, rfl⟩ := (Ledger.find_eq_some_iff h.wellFormed).mp hfind
      have hbounds : ¬(p.order.id = 0 ∨ p.order.id > g.maxOrderId) := by
        have := h.wellFormed.id_pos p hp
        have := h.wellFormed.id_le p hp
        omega
      have hqueue := (Ledger.mem_resting.mp hp).2
      obtain ⟨o, ho, -, hprice, -⟩ := h.tables.node p hp
      obtain ⟨q, hq, hremove⟩ := h.tables.erase_eq h.wellFormed hp
      have hlive : 1 ≤ s.liveCount := by
        rw [h.tables.live]
        exact List.length_pos_of_mem hp
      rw [h.tables.mapped p hp]
      simp only [deref_eq ho, ok_bind, h.tables.sided p hp, hprice,
        h.trees.getElem? (List.ne_nil_of_mem hqueue), hq, if_neg hbounds]
      have hdrop := h.tables.drop h.wellFormed hp
      have htrees : Trees g addr (s.putLevel p.side (g.price p.index) (q.map (fun r => addr r.id)))
          (L.remove p) := hremove ▸ h.trees.putLevel
      have hcount : (checkedSub s.liveCount 1).Returns (fun m => m = s.liveCount - 1) :=
        returns_checkedSub.mpr ⟨hlive, rfl⟩
      rw [putLevel_eq]
      refine hcount.bind ?_
      rintro _ rfl
      refine ⟨⟨h.wellFormed.remove hp, hdrop.frame rfl rfl rfl rfl rfl, fun side price => ?_,
        h.configured.frame rfl rfl rfl rfl⟩, rfl⟩
      rw [← htrees side price]
      cases side <;> rfl

/-! ### Adds -/

theorem levels_insert (s : StdOrderBook) (side side' : Side) (price n : Nat) (level : List Nat) :
    ((s.setLevels side ((s.levels side).insert price level)).levels side')[n]? =
      if side' = side ∧ n = price then some level else (s.levels side')[n]? := by
  by_cases hside : side' = side
  · subst hside
    simp only [levels_setLevels_self, Std.TreeMap.getElem?_insert, priceOrder_eq_iff, true_and,
      @eq_comm _ n]
  · rw [if_neg (fun h => hside h.1), levels_setLevels_of_ne hside]

theorem setLevels_eq (s : StdOrderBook) (side : Side) (tree : Levels side) :
    s.setLevels side tree =
      { s with bids := (s.setLevels side tree).bids, asks := (s.setLevels side tree).asks } := by
  cases side <;> rfl

theorem Keeps.count_returns (h : Keeps g addr s L) :
    (checkedAdd 64 s.liveCount 1).Returns (fun m => m = s.liveCount + 1) := by
  have hlive := h.tables.live
  have hresting := h.wellFormed.count_add_free
  have hcapacity := g.capacity_le
  rw [kMaxPoolCapacity] at hcapacity
  exact returns_checkedAdd.mpr ⟨by omega, rfl⟩

/-- Appending to a level is appending to the queue. -/
theorem pushBack_spec {r : Resting} {free : List Nat} {order : StdOrder} (h : Keeps g addr s L)
    (happended : (L.append order.side i r free).WellFormed g) (hi : i < g.range)
    (hfresh : ∀ p ∈ L.resting g, p.order.id ≠ r.id) (hid : order.id = r.id)
    (hprice : order.price = g.price i) (hquantity : order.quantity = r.quantity) :
    (s.pushBack order).Returns (fun t =>
      Keeps g (Function.update addr r.id s.nextNode) t (L.append order.side i r free)) := by
  have hsame : ∀ p ∈ L.resting g,
      Function.update addr r.id s.nextNode p.order.id = addr p.order.id :=
    fun p hp => Function.update_of_ne (hfresh p hp) _ _
  have hlevel : (s.levels order.side).getD (g.price i) [] ++ [s.nextNode] =
      (L.queue order.side i ++ [r]).map
        (fun r' => Function.update addr r.id s.nextNode r'.id) := by
    have hqueue : (L.queue order.side i).map
        (fun r' => Function.update addr r.id s.nextNode r'.id) =
        (L.queue order.side i).map (fun r' => addr r'.id) :=
      List.map_congr_left (fun r' hr' => hsame _ (h.wellFormed.mem hr'))
    rw [Std.TreeMap.getD_eq_getD_getElem?, h.trees, Ledger.shelf_price, List.map_append, hqueue,
      List.map_singleton, Function.update_self]
    by_cases hempty : L.queue order.side i = []
    · rw [if_pos hempty, hempty]
      rfl
    · rw [if_neg hempty, Option.getD_some]
  have htables : Tables g _ _ (L.append order.side i r free) :=
    h.tables.push hi hfresh hid hprice hquantity
  have htrees := h.trees.congr_addr h.wellFormed hsame
  rw [pushBack, hprice, hlevel, setLevels_eq, hid]
  refine h.count_returns.bind ?_
  rintro _ rfl
  refine ⟨happended, htables.frame rfl rfl rfl rfl rfl, fun side price => ?_,
    h.configured.frame rfl rfl rfl rfl⟩
  rw [Ledger.append, Ledger.shelf_set, ← htrees side price,
    if_neg (List.append_ne_nil_of_right_ne_nil _ (List.cons_ne_nil r [])), ← levels_insert]
  cases side <;> rfl

/-- A book without a free slot has reached the reference's limit too: the ids run out before
the clamp of the pool matters. -/
theorem full_iff (h : Keeps g addr s L) (hfresh : ∀ p ∈ L.resting g, p.order.id ≠ id)
    (hpos : 0 < id) (hle : id ≤ g.maxOrderId) :
    s.liveCount + 1 > s.maxActiveOrders ↔ L.free = [] := by
  have hcount := h.wellFormed.count_add_free
  have hcapacity := h.configured.capacity
  have hids := g.ids_le
  have hlt := h.wellFormed.count_lt_ids hpos hle hfresh
  rw [h.tables.live, ← List.length_eq_zero_iff]
  simp only [kMaxPoolCapacity] at hcapacity
  simp only [kMaxOrderIds] at hids
  omega

/-- One pass over the tree, from its best price, is the sweep of the accepted prices. -/
theorem sweep_matchable (h : Keeps g addr s L) (side : Side) (taker takerPrice n : Nat) :
    (sweep side taker takerPrice ((s.levels side.opposite).size + 1) n s).Returns
      (fun (trades, left, t) =>
        trades = (Ledger.sweep g side taker (g.matchable side takerPrice) n L).trades ∧
        left = (Ledger.sweep g side taker (g.matchable side takerPrice) n L).left ∧
        Keeps g addr t (Ledger.sweep g side taker (g.matchable side takerPrice) n L).ledger) := by
  refine sweep_spec h (g.matchable_pairwise side takerPrice) (fun _ j hj hcross => ?_)
    (fun j hj => (Geometry.mem_matchable.mp hj).2) (.inr (Nat.lt_succ_self _))
  refine Geometry.mem_matchable.mpr ⟨?_, hcross⟩
  by_contra hge
  exact hj (h.wellFormed.outside _ j (Nat.le_of_not_lt hge))

theorem executeOrder_spec {type : OrderType} {price quantity : Nat} (h : Keeps g addr s L)
    (hvalid : Ledger.Valid g L id type price quantity side) (hlt : quantity < 2 ^ 32) :
    (s.executeOrder id type price quantity side).Returns (fun (reply, t) =>
      reply = (L.execute g id type price quantity side).reply ∧
      ∃ addr', Keeps g addr' t (L.execute g id type price quantity side).ledger) := by
  have hstart : Keeps g addr { s with nextTimestamp := (s.nextTimestamp + 1) % 2 ^ 64 } L := by
    refine ⟨h.wellFormed, h.tables.frame rfl rfl rfl rfl rfl, fun side' price' => ?_,
      h.configured.frame rfl rfl rfl rfl⟩
    rw [← h.trees side' price']
    cases side' <;> rfl
  have hwellFormed := h.wellFormed.execute hlt hvalid
  obtain ⟨⟨trades, left, t⟩, hsweep, rfl, rfl, hkeeps⟩ := returns_iff.mp
    (sweep_matchable hstart side id (OrderBook.resolvePrice type side price) quantity)
  have hfilled : (checkedSub quantity (Ledger.sweep g side id (g.matchable side
      (OrderBook.resolvePrice type side price)) quantity L).left).Returns (fun m => m =
        quantity - (Ledger.sweep g side id (g.matchable side
          (OrderBook.resolvePrice type side price)) quantity L).left) :=
    returns_checkedSub.mpr ⟨Ledger.sweep_left_le, rfl⟩
  have hfull := full_iff hkeeps (Ledger.sweep_fresh hvalid.fresh) hvalid.id_pos hvalid.id_le
  rw [executeOrder]
  simp only [hsweep, ok_bind]
  revert hwellFormed
  refine Ledger.execute_cases (P := fun o => o.ledger.WellFormed g → (_ : Checked _).Returns
    (fun (reply, t) => reply = o.reply ∧ ∃ addr', Keeps g addr' t o.ledger)) hvalid ?_ ?_ ?_
  · rintro rfl hnone hidle -
    rw [OrderBook.resolvePrice_limit, Ledger.sweep_idle hidle] at hkeeps hfull ⊢
    rw [if_pos ⟨hvalid.quantity_pos, rfl⟩]
    refine hkeeps.count_returns.bind ?_
    rintro _ rfl
    rw [if_pos (hfull.mpr hnone)]
    exact ⟨rfl, addr, hkeeps⟩
  · rintro o slot free rfl rfl hleft hfree happended
    obtain ⟨hi, hprice⟩ := hvalid.resolvePrice (by decide)
    rw [OrderBook.resolvePrice_limit] at hkeeps hfull hfilled hprice ⊢
    rw [if_pos ⟨hleft, rfl⟩]
    refine hkeeps.count_returns.bind ?_
    rintro _ rfl
    rw [if_neg (fun e => List.cons_ne_nil _ _ (hfree.symm.trans (hfull.mp e)))]
    refine (pushBack_spec hkeeps happended hi (Ledger.sweep_fresh hvalid.fresh) rfl hprice
      rfl).bind (fun u hu => ?_)
    refine hfilled.bind ?_
    rintro _ rfl
    exact ⟨rfl, _, hu⟩
  · rintro o rfl hdone -
    have hnot : ¬((Ledger.sweep g side id (g.matchable side
        (OrderBook.resolvePrice type side price)) quantity L).left > 0 ∧ type = .Limit) := by
      rintro ⟨hleft, rfl⟩
      rcases hdone with hzero | htype
      · omega
      · cases htype
    rw [if_neg hnot]
    refine hfilled.bind ?_
    rintro _ rfl
    exact ⟨rfl, addr, hkeeps⟩

theorem Tables.contains_eq (h : Tables g addr s L) (hL : L.WellFormed g) (id : Nat) :
    s.orderMap.contains id = (L.find g id).isSome := by
  rw [Std.HashMap.contains_eq_isSome_getElem?]
  cases hfind : L.find g id with
  | none => rw [h.find_none hfind, Option.isSome_none, Option.isSome_none]
  | some p =>
      obtain ⟨hp, rfl⟩ := (Ledger.find_eq_some_iff hL).mp hfind
      rw [h.mapped p hp, Option.isSome_some, Option.isSome_some]

theorem Keeps.isEmpty_iff (h : Keeps g addr s L) :
    (s.levels side).isEmpty = true ↔ L.best g side = none := by
  rw [h.trees.isEmpty_iff, h.wellFormed.best_eq_iff]
  exact forall_congr' (fun i => not_not.symm)

/-- A cancel, by either entry, with an id out of bounds. -/
def StrayCancel (maxOrderId : Nat) : Call → Prop
  | .addOrder id type _ _ _ => type = .Cancel ∧ (id.toNat = 0 ∨ id.toNat > maxOrderId)
  | .cancelOrder id => id.toNat = 0 ∨ id.toNat > maxOrderId

instance (maxOrderId : Nat) : DecidablePred (StrayCancel maxOrderId)
  | .addOrder _ _ _ _ _ => inferInstanceAs (Decidable (_ ∧ _))
  | .cancelOrder _ => inferInstanceAs (Decidable (_ ∨ _))

/-- An add is validated as on the ledger, and executed if it passes. -/
theorem addOrder_spec {type : OrderType} {price quantity : Nat} (h : Keeps g addr s L)
    (hcancel : type ≠ .Cancel) (hlt : quantity < 2 ^ 32) :
    (s.addOrder id type price quantity side).Returns (fun (reply, t) =>
      reply = (L.add g id type price quantity side).reply ∧
      ∃ addr', Keeps g addr' t (L.add g id type price quantity side).ledger) := by
  have hmarket : (type = .Market ∧ (s.levels side.opposite).isEmpty = true) ↔
      (type = .Market ∧ L.best g side.opposite = none) := and_congr_right' h.isEmpty_iff
  rw [addOrder, h.configured.maxOrderId, h.configured.minPrice, h.configured.maxPrice,
    h.tables.contains_eq h.wellFormed, if_neg hcancel, Ledger.add, if_neg hcancel]
  by_cases hzero : quantity = 0
  · rw [if_pos hzero, if_pos hzero]
    exact ⟨rfl, addr, h⟩
  rw [if_neg hzero, if_neg hzero]
  by_cases hbounds : id = 0 ∨ id > g.maxOrderId
  · rw [if_pos hbounds, if_pos hbounds]
    exact ⟨rfl, addr, h⟩
  rw [if_neg hbounds, if_neg hbounds]
  by_cases hfind : (L.find g id).isSome
  · rw [if_pos hfind, if_pos hfind]
    exact ⟨rfl, addr, h⟩
  rw [if_neg hfind, if_neg hfind]
  by_cases hprice : type = .Limit ∧ (price < g.minPrice ∨ price > g.maxPrice)
  · rw [if_pos hprice, if_pos hprice]
    exact ⟨rfl, addr, h⟩
  rw [if_neg hprice, if_neg hprice]
  by_cases hempty : type = .Market ∧ L.best g side.opposite = none
  · rw [if_pos (hmarket.mpr hempty), if_pos hempty]
    exact ⟨rfl, addr, h⟩
  rw [if_neg (mt hmarket.mp hempty), if_neg hempty]
  exact executeOrder_spec h
    (Ledger.Valid.of_checks hcancel hzero hbounds hfind hprice hempty) hlt

/-- Every call does to the ledger what it means there. Only a stray cancel is refused for
another reason, and it changes nothing. -/
theorem step_spec (h : Keeps g addr s L) (call : Call) :
    (s.step call).Returns (fun (reply, t) =>
      (∃ addr', Keeps g addr' t (L.step g call).ledger) ∧
      if StrayCancel g.maxOrderId call then reply = ⟨.CancelFailed, 0, []⟩ ∧ t = s
      else reply = (L.step g call).reply) := by
  have hcancel : ∀ id, ((s.cancelOrder id).Returns fun (reason, t) =>
      (∃ addr', Keeps g addr' t (L.cancel g id).ledger) ∧
      if id = 0 ∨ id > g.maxOrderId then (⟨reason, 0, []⟩ : Reply) = ⟨.CancelFailed, 0, []⟩ ∧ t = s
      else (⟨reason, 0, []⟩ : Reply) = (L.cancel g id).reply) := by
    intro id
    refine (cancelOrder_spec h id).mono ?_
    rintro ⟨reason, t⟩ ⟨hkeeps, hreason⟩
    refine ⟨⟨addr, hkeeps⟩, ?_⟩
    by_cases hbounds : id = 0 ∨ id > g.maxOrderId
    · rw [if_pos hbounds] at hreason ⊢
      exact ⟨by rw [hreason.1], hreason.2⟩
    · rw [if_neg hbounds] at hreason ⊢
      rw [Ledger.cancel_reply_eq, hreason]
  cases call with
  | cancelOrder id =>
      exact (hcancel id.toNat).bind (fun _ hstep => hstep)
  | addOrder id type price quantity side =>
      by_cases htype : type = .Cancel
      · subst htype
        have hstray : StrayCancel g.maxOrderId (.addOrder id .Cancel price quantity side) ↔
            (id.toNat = 0 ∨ id.toNat > g.maxOrderId) := and_iff_right rfl
        simp only [hstray]
        exact (hcancel id.toNat).bind (fun _ hstep => hstep)
      · have hstray : ¬StrayCancel g.maxOrderId (.addOrder id type price quantity side) :=
          fun hstray => htype hstray.1
        refine (addOrder_spec h htype quantity.toNat_lt).mono ?_
        rintro ⟨reply, t⟩ ⟨hreply, hkeeps⟩
        refine ⟨hkeeps, ?_⟩
        rw [if_neg hstray]
        exact hreply

/-! ### Introspection -/

theorem Keeps.activeOrderCount_eq (h : Keeps g addr s L) :
    s.activeOrderCount = (L.resting g).length := h.tables.live

theorem Keeps.orderExists_eq (h : Keeps g addr s L) (id : Nat) :
    s.orderExists id = (L.find g id).isSome := h.tables.contains_eq h.wellFormed id

/-- The side map has an entry for each order at rest. -/
theorem Keeps.sideMapSize_eq (h : Keeps g addr s L) : s.sideMapSize = (L.resting g).length := by
  have hperm : s.sideMap.keys.Perm ((L.resting g).map (·.order.id)) := by
    refine (List.perm_ext_iff_of_nodup Std.HashMap.nodup_keys h.wellFormed.ids).mpr (fun id => ?_)
    rw [Std.HashMap.mem_keys, Std.HashMap.mem_iff_isSome_getElem?, List.mem_map]
    constructor
    · intro hsome
      by_contra hnone
      rw [h.tables.unsided id (fun p hp e => hnone ⟨p, hp, e⟩)] at hsome
      cases hsome
    · rintro ⟨p, hp, rfl⟩
      rw [h.tables.sided p hp]
      rfl
  rw [sideMapSize, ← Std.HashMap.length_keys, hperm.length_eq, List.length_map]

/-- A side has a tree node for each occupied price. -/
theorem Keeps.priceLevelCount_eq (h : Keeps g addr s L) (side : Side) :
    s.priceLevelCount side = L.levelCount g side := by
  have hperm : (s.levels side).keys.Perm
      (((List.range g.range).filter (fun i => !(L.queue side i).isEmpty)).map g.price) := by
    have hnodup : (((List.range g.range).filter
        (fun i => !(L.queue side i).isEmpty)).map g.price).Nodup :=
      (List.nodup_range.filter _).map (fun _ _ => Nat.add_left_cancel)
    refine (List.perm_ext_iff_of_nodup Std.TreeMap.nodup_keys hnodup).mpr (fun price => ?_)
    rw [Std.TreeMap.mem_keys, h.trees.mem_iff, List.mem_map]
    constructor
    · rintro ⟨i, rfl, hne⟩
      have hi : i < g.range := by
        by_contra hge
        exact hne (h.wellFormed.outside side i (Nat.le_of_not_lt hge))
      exact ⟨i, List.mem_filter.mpr ⟨List.mem_range.mpr hi, by simpa using hne⟩, rfl⟩
    · rintro ⟨i, hi, rfl⟩
      exact ⟨i, rfl, by simpa using (List.mem_filter.mp hi).2⟩
  rw [priceLevelCount, ← Std.TreeMap.length_keys, hperm.length_eq, List.length_map,
    Ledger.levelCount, List.countP_eq_length_filter]

/-- The list at a price of the range is the queue there. -/
theorem Keeps.queue_eq (h : Keeps g addr s L) (side : Side) (i : Nat) :
    s.queue side (g.price i) = .ok ((L.queue side i).map Resting.entry) := by
  have hlevel : (s.levels side).getD (g.price i) [] =
      (L.queue side i).map (fun r => addr r.id) := by
    rw [Std.TreeMap.getD_eq_getD_getElem?, h.trees side, Ledger.shelf_price]
    by_cases hempty : L.queue side i = []
    · rw [if_pos hempty, hempty]
      rfl
    · rw [if_neg hempty, Option.getD_some]
  have hnode : ∀ r ∈ L.queue side i, (s.deref (addr r.id)).Returns
      (fun order => (order.id, order.quantity) = r.entry) := by
    intro r hr
    obtain ⟨o, ho, hid, -, hquantity⟩ := h.tables.node _ (h.wellFormed.mem hr)
    rw [deref_eq ho]
    exact Prod.ext hid hquantity
  obtain ⟨orders, horders⟩ : ∃ orders,
      (L.queue side i).mapM (s.deref ∘ fun r => addr r.id) = .ok orders := by
    refine mapM_returns (fun r hr => ?_)
    obtain ⟨o, ho, -⟩ := returns_iff.mp (hnode r hr)
    exact ⟨o, ho⟩
  rw [queue, hlevel, List.mapM_map, horders, ok_bind, pure_eq_ok, map_of_mapM horders hnode]

/-- Prices beyond the range have no list. -/
theorem Keeps.queue_beyond (h : Keeps g addr s L) (side : Side) {price : Nat}
    (hbeyond : price < g.minPrice ∨ price > g.maxPrice) : s.queue side price = .ok [] := by
  have hnone : L.shelf g addr side price = none := by
    by_contra hsome
    obtain ⟨i, rfl, hne⟩ := Ledger.exists_of_shelf hsome
    have hi : i < g.range := by
      by_contra hge
      exact hne (h.wellFormed.outside side i (Nat.le_of_not_lt hge))
    have hle := Geometry.price_le hi
    rw [Geometry.price] at hbeyond hle
    omega
  rw [queue, Std.TreeMap.getD_eq_getD_getElem?, h.trees side, hnone]
  rfl

/-- A new book keeps the empty ledger. -/
theorem construct_keeps {args : Args} (accepted : args.Accepted) :
    Keeps (args.geometry accepted) (fun n => n) (construct args)
      (.empty (args.geometry accepted)) := by
  have hnone : ∀ p,
      p ∉ (Ledger.empty (args.geometry accepted)).resting (args.geometry accepted) := by
    intro p hp
    rw [Ledger.empty_resting] at hp
    exact List.not_mem_nil hp
  refine ⟨Ledger.empty_wellFormed _, ?_, fun side price => ?_, ⟨rfl, rfl, rfl, rfl⟩⟩
  · exact
      { mapped := fun p hp => absurd hp (hnone p)
        unmapped := fun _ _ => Std.HashMap.getElem?_empty
        sided := fun p hp => absurd hp (hnone p)
        unsided := fun _ _ => Std.HashMap.getElem?_empty
        node := fun p hp => absurd hp (hnone p)
        fresh := fun _ _ => Std.HashMap.getElem?_empty
        live := by rw [Ledger.empty_resting]; rfl }
  · rw [Ledger.shelf, if_pos (.inr rfl)]
    cases side <;> exact Std.TreeMap.getElem?_emptyc

end StdOrderBook

end Hft
