import MatchingEngine.Verification.Index

/-!
# Consuming a level

The three paths by which a taker consumes makers. Each keeps the store in step
with the ledger: the one-order and the bulk path take a whole queue, and the slow
path takes orders from the front, one by one, without emptying the level.
-/

namespace Hft

open Machine Machine.Checked

/-- What the state of a passive client becomes over a list of trades. -/
def feed {σ : Type} (f : Trade → σ → σ) (trades : List Trade) (c : σ) : σ :=
  trades.foldl (fun c trade => f trade c) c

section Feed

variable {σ : Type} {f : Trade → σ → σ} {c : σ}

@[simp] theorem feed_nil : feed f [] c = c := rfl

@[simp] theorem feed_cons (trade : Trade) (trades : List Trade) :
    feed f (trade :: trades) c = feed f trades (f trade c) := rfl

theorem feed_append (xs ys : List Trade) : feed f (xs ++ ys) c = feed f ys (feed f xs c) :=
  List.foldl_append

end Feed

namespace OrderBook

variable {env : Env} {g : Geometry} {b b' b'' : OrderBook} {L : Ledger} {side : Side}
variable {i n : Nat} {r : Resting} {rs : List Resting} {events events' : List JournalEntry}

theorem setOrderMap_eq {id idx : Nat} (h : id < b.orderMap.size) :
    b.setOrderMap id idx = .ok { b with orderMap := b.orderMap.setIfInBounds id idx } := by
  simp [setOrderMap, vecWrite_eq h]

theorem modifySlot_eq {s : Nat} {o : Order} {f : Order → Order}
    (h : b.orderPool.pool[s]? = some o) : b.modifySlot s f = .ok
      { b with
        orderPool := { b.orderPool with pool := b.orderPool.pool.setIfInBounds s (f o) } } := by
  simp [modifySlot, modifyOrder_eq h]

theorem setLevel_eq {level : PriceLevel} (h : i < (b.side side).levels.size) :
    b.setLevel side i level = .ok (b.setSide side
      { b.side side with levels := (b.side side).levels.setIfInBounds i level }) := by
  simp [setLevel, vecWrite_eq h]

/-- A prefetch reads a resting order's id, or nothing at all. -/
theorem prefetchOrderMap_eq {s : Nat}
    (h : s = INVALID_INDEX ∨ ∃ o, b.order s = .ok o ∧ o.id < b.orderMap.size) :
    b.prefetchOrderMap s = .ok () := by
  by_cases hs : s = INVALID_INDEX
  · simp [prefetchOrderMap, hs]
  · obtain ⟨o, ho, hid⟩ := h.resolve_left hs
    simp [prefetchOrderMap, hs, ho, vecRead_eq (Array.getElem?_eq_getElem hid)]

/-- What trading leaves alone: everything but store and journal. -/
structure Framed (env : Env) (b b' : OrderBook) (events : List JournalEntry) : Prop where
  index : ∀ side, ∃ levels, b'.side side = { b.side side with levels }
  journal : b'.journal = b.journal ++ env.journaled events
  inPublicEntry : b'.inPublicEntry = b.inPublicEntry
  ownerThread : b'.ownerThread = b.ownerThread

namespace Framed

theorem refl (env : Env) (b : OrderBook) : Framed env b b [] :=
  ⟨fun side => ⟨(b.side side).levels, rfl⟩, by simp, rfl, rfl⟩

theorem trans (h : Framed env b b' events) (h' : Framed env b' b'' events') :
    Framed env b b'' (events ++ events') := by
  refine ⟨fun side => ?_, ?_, h'.inPublicEntry.trans h.inPublicEntry,
    h'.ownerThread.trans h.ownerThread⟩
  · obtain ⟨levels, hlevels⟩ := h.index side
    obtain ⟨levels', hlevels'⟩ := h'.index side
    exact ⟨levels', by rw [hlevels', hlevels]⟩
  · rw [h'.journal, h.journal, Env.journaled_append, List.append_assoc]

theorem indexOf {S : Set Nat} {o : Option Nat} (h : Framed env b b' events)
    (hindex : Index g side S o (b.side side)) : Index g side S o (b'.side side) := by
  obtain ⟨levels, hlevels⟩ := h.index side
  rw [hlevels]
  exact ⟨hindex.tiers, hindex.bitsetSize, hindex.summarySize, hindex.lt_range, hindex.has,
    hindex.best, hindex.bestIdx⟩

end Framed

/-! ## Whole queues -/

/-- The makers `rs` have left map and slots; links and stamps still stand. -/
structure Cleared (env : Env) (b b' : OrderBook) (rs : List Resting)
    (events : List JournalEntry) : Prop where
  frame : b' = { b with
    orderMap := b'.orderMap
    orderPool := { b.orderPool with pool := b'.orderPool.pool }
    journal := b.journal ++ env.journaled events }
  mapSize : b'.orderMap.size = b.orderMap.size
  mapOutside : ∀ id, (∀ r ∈ rs, r.id ≠ id) → b'.orderMap[id]? = b.orderMap[id]?
  mapCleared : ∀ r ∈ rs, b'.orderMap[r.id]? = some INVALID_INDEX
  poolSize : b'.orderPool.pool.size = b.orderPool.pool.size
  slots : ∀ s, (∀ r ∈ rs, r.slot ≠ s) → b'.orderPool.pool[s]? = b.orderPool.pool[s]?
  links : ∀ s, nextOf b'.orderPool.pool s = nextOf b.orderPool.pool s

namespace Cleared

theorem refl (env : Env) (b : OrderBook) : Cleared env b b [] [] :=
  ⟨by simp, rfl, fun _ _ => rfl, fun _ h => absurd h List.not_mem_nil, rfl, fun _ _ => rfl,
    fun _ => rfl⟩

theorem trans {rs' : List Resting} (h : Cleared env b b' rs events)
    (h' : Cleared env b' b'' rs' events') : Cleared env b b'' (rs ++ rs') (events ++ events') := by
  refine ⟨?_, h'.mapSize.trans h.mapSize, ?_, ?_, h'.poolSize.trans h.poolSize, ?_,
    fun s => (h'.links s).trans (h.links s)⟩
  · rw [h'.frame, h.frame]
    simp [Env.journaled_append]
  · intro id hid
    rw [h'.mapOutside id (fun r hr => hid r (List.mem_append_right rs hr)),
      h.mapOutside id (fun r hr => hid r (List.mem_append_left rs' hr))]
  · intro r hr
    by_cases hlater : ∃ r' ∈ rs', r'.id = r.id
    · obtain ⟨r', hr', hid⟩ := hlater
      rw [← hid, h'.mapCleared r' hr']
    · rw [h'.mapOutside r.id (fun r' hr' e => hlater ⟨r', hr', e⟩)]
      rcases List.mem_append.mp hr with hr | hr
      · exact h.mapCleared r hr
      · exact absurd ⟨r, hr, rfl⟩ hlater
  · intro s hs
    rw [h'.slots s (fun r hr => hs r (List.mem_append_right rs hr)),
      h.slots s (fun r hr => hs r (List.mem_append_left rs' hr))]

end Cleared

/-- One maker: the trade has been journaled, then its map cell and its slot go. -/
theorem forgetOrder_spec {o : Order} (ho : b.orderPool.pool[r.slot]? = some o)
    (hid : r.id < b.orderMap.size) (events : List JournalEntry) :
    ((b.logged env events).forgetOrder r.id r.slot).Returns
      (fun b' => Cleared env b b' [r] events) := by
  have hid' : r.id < (b.logged env events).orderMap.size := hid
  rw [forgetOrder, setOrderMap_eq hid', ok_bind]
  refine returns_iff.mpr ⟨_, modifySlot_eq ho, ?_⟩
  refine ⟨rfl, Array.size_setIfInBounds, ?_, ?_, Array.size_setIfInBounds, ?_, nextOf_set ho rfl⟩
  · intro id hne
    exact Array.getElem?_setIfInBounds_ne (hne r List.mem_cons_self)
  · intro r' hr'
    rw [List.mem_singleton.mp hr']
    exact Array.getElem?_setIfInBounds_self_of_lt hid
  · intro s hs
    exact Array.getElem?_setIfInBounds_ne (hs r List.mem_cons_self)

/-- A whole queue has been consumed: `Cleared`, and its slots are free again. -/
structure Drained (env : Env) (b b' : OrderBook) (L : Ledger) (q : List Resting)
    (events : List JournalEntry) : Prop where
  frame : b' = { b with
    orderMap := b'.orderMap
    orderPool := b'.orderPool
    activeCount := b'.activeCount
    journal := b.journal ++ env.journaled events }
  mapSize : b'.orderMap.size = b.orderMap.size
  mapOutside : ∀ id, (∀ r ∈ q, r.id ≠ id) → b'.orderMap[id]? = b.orderMap[id]?
  mapCleared : ∀ r ∈ q, b'.orderMap[r.id]? = some INVALID_INDEX
  pool : b'.orderPool.Represents env (q.map Resting.slot ++ L.free)
  capacity : b'.orderPool.capacity = b.orderPool.capacity
  reports : b'.orderPool.reports = b.orderPool.reports
  slots : ∀ s, (∀ r ∈ q, r.slot ≠ s) → b'.orderPool.pool[s]? = b.orderPool.pool[s]?
  active : b'.activeCount + q.length = b.activeCount

namespace Cleared

variable {b₁ : OrderBook} {q : List Resting}

theorem orderPool_eq (h : Cleared env b b₁ q events) :
    b₁.orderPool = { b.orderPool with pool := b₁.orderPool.pool } := by rw [h.frame]

theorem activeCount_eq (h : Cleared env b b₁ q events) : b₁.activeCount = b.activeCount := by
  rw [h.frame]

theorem represents (h : Cleared env b b₁ q events) (store : Store env g b L) :
    b₁.orderPool.Represents env L.free := by
  rw [h.orderPool_eq]
  exact store.pool.setPool h.poolSize (fun s _ => h.links s)

/-- The queue that was cleared is still a chain, from the head of its level to the tail. -/
theorem deallocateChain_spec {level : PriceLevel} (h : Cleared env b b₁ q events)
    (store : Store env g b L) (hq : L.queue side i = q) (hne : q ≠ [])
    (hrep : LevelHolds b.orderPool.pool level q) :
    (b₁.orderPool.deallocateChain env level.head level.tail).Returns (fun p =>
      p.Represents env (q.map Resting.slot ++ L.free) ∧
      b₁.orderPool.SameOutside p (q.map Resting.slot)) := by
  obtain ⟨as, tail, hslots⟩ : ∃ as tail, q.map Resting.slot = as ++ [tail] := by
    rcases List.eq_nil_or_concat' (q.map Resting.slot) with hnil | h
    · exact absurd (List.map_eq_nil_iff.mp hnil) hne
    · exact h
  have htail : level.tail = tail := by
    rw [hrep.queue.tail_eq, hslots]
    simp
  have hchain : Path (nextOf b₁.orderPool.pool) level.head (q.map Resting.slot) INVALID_INDEX :=
    hrep.queue.forward.congr (fun s _ => h.links s)
  have hslot : ∀ s ∈ q.map Resting.slot, s < b₁.orderPool.capacity ∧ s ∉ L.free := by
    intro s hs
    obtain ⟨r, hr, rfl⟩ := List.mem_map.mp hs
    rw [← hq] at hr
    rw [h.orderPool_eq, store.capacity]
    exact ⟨store.wellFormed.slot_lt hr, store.wellFormed.slot_notMem_free hr⟩
  have hnodup : (q.map Resting.slot).Nodup := hq ▸ store.wellFormed.slots_nodup side i
  rw [hslots] at hchain hslot hnodup ⊢
  rw [htail]
  exact MemoryPool.deallocateChain_spec (h.represents store) hchain hnodup
    (fun s hs => (hslot s hs).1) (fun s hs => (hslot s hs).2)

/-- With its slots given back and its orders uncounted, a queue is drained. -/
theorem drained {p : MemoryPool} {activeCount : Nat} (h : Cleared env b b₁ q events)
    (hp : p.Represents env (q.map Resting.slot ++ L.free))
    (houtside : b₁.orderPool.SameOutside p (q.map Resting.slot))
    (hactive : activeCount + q.length = b.activeCount) :
    Drained env b { b₁ with orderPool := p, activeCount } L q events := by
  refine ⟨?_, h.mapSize, h.mapOutside, h.mapCleared, hp, ?_, ?_, ?_, hactive⟩
  · rw [h.frame]
  · rw [houtside.capacity, h.orderPool_eq]
  · rw [houtside.reports, h.orderPool_eq]
  · intro s hs
    have hne : s ∉ q.map Resting.slot := by
      intro hmem
      obtain ⟨r, hr, rfl⟩ := List.mem_map.mp hmem
      exact hs r hr rfl
    rw [houtside.slots s hne, h.slots s hs]

end Cleared

/-- The journal of makers that trade in full. -/
theorem fillEvents_full (side : Side) (taker price : Nat) (r : Resting) :
    Ledger.fillEvents side taker price (r, r.quantity) =
      [⟨.TradeExecuted, taker, price, r.quantity, side.toByte, 0⟩,
        ⟨.MakerFilled, r.id, price, 0, side.opposite.toByte, 0⟩] := by
  simp [Ledger.fillEvents]

end OrderBook

namespace Exec

open OrderBook

variable {σ : Type} {env : Env} {g : Geometry} {x : Exec σ} {b : OrderBook} {L : Ledger}
variable {side : Side}
variable {taker i n fuel cur : Nat} {f : Trade → σ → σ} {r : Resting} {q rs : List Resting}

theorem passive_eq (trade : Trade) :
    passive f trade x = .ok { x with client := f trade x.client } := rfl

theorem fillOneOrder_spec (store : Store env g x.book L)
    (hq : L.queue side.opposite i = [r]) :
    (x.fillOneOrder env side taker (passive f) r.slot).Returns (fun x' =>
      Drained env x.book x'.book L [r] (Ledger.fillEvents side taker (g.price i) (r, r.quantity)) ∧
      x'.client = feed f [Ledger.fillTrade taker (g.price i) (r, r.quantity)] x.client) := by
  have hmem : r ∈ L.queue side.opposite i := by simp [hq]
  obtain ⟨o, ho, hread, -, hid, hprice, hquantity, -⟩ := store.maker_eq hmem
  have hlive : r.slot ∉ L.free := store.wellFormed.slot_notMem_free hmem
  simp only [fillOneOrder, hread, hid, hprice, hquantity, ok_bind, passive_eq, record_eq,
    logged_logged, List.singleton_append, ← fillEvents_full]
  refine (forgetOrder_spec ho (store.id_lt_mapSize hmem) _).bind ?_
  intro b hb
  have hslot : r.slot < b.orderPool.capacity := by
    rw [hb.orderPool_eq, store.capacity]
    exact store.wellFormed.slot_lt hmem
  simp only [OrderBook.deallocate, bind_assoc]
  refine (MemoryPool.deallocate_spec (hb.represents store) hslot hlive).bind ?_
  rintro p ⟨hp, houtside⟩
  have hcount : 1 ≤ x.book.activeCount := by
    have := store.wellFormed.count_queue_le side.opposite i
    rw [hq, ← store.active] at this
    exact this
  simp only [pure_eq_ok, ok_bind, checkedSub, hb.activeCount_eq, hcount, if_true, returns_ok,
    setBook]
  exact ⟨hb.drained hp houtside (Nat.sub_add_cancel hcount), rfl⟩

/-- The bulk loop over the makers `rs`, which its links visit in order. -/
theorem fillEachOrder_spec (hfuel : rs.length < fuel)
    (chain : Path (nextOf x.book.orderPool.pool) cur (rs.map Resting.slot) INVALID_INDEX)
    (hnodup : (rs.map Resting.slot).Nodup)
    (hvalid : ∀ r ∈ rs, r.slot ≠ INVALID_INDEX)
    (hholds : ∀ r ∈ rs, Holds g x.book.orderPool.pool ⟨side.opposite, i, r⟩)
    (hids : ∀ r ∈ rs, r.id < x.book.orderMap.size) :
    (fillEachOrder env side taker (passive f) fuel cur x).Returns (fun x' =>
      Cleared env x.book x'.book rs (rs.flatMap fun r =>
        Ledger.fillEvents side taker (g.price i) (r, r.quantity)) ∧
      x'.client = feed f
        (rs.map fun r => Ledger.fillTrade taker (g.price i) (r, r.quantity)) x.client) := by
  induction rs generalizing fuel cur x with
  | nil =>
      obtain ⟨fuel, rfl⟩ := Nat.exists_eq_add_of_lt hfuel
      have hcur : cur = INVALID_INDEX := chain
      simp only [fillEachOrder, hcur, ne_eq, not_true_eq_false, if_false, returns_ok]
      exact ⟨Cleared.refl env x.book, rfl⟩
  | cons r rs ih =>
      cases fuel with
      | zero => exact absurd hfuel (Nat.not_lt_zero _)
      | succ fuel =>
          obtain ⟨hcur, next, hnext, hrest⟩ := chain
          obtain ⟨hnotMem, hnodup⟩ := List.nodup_cons.mp hnodup
          obtain ⟨o, ho, hw, hid, hprice, hquantity, -⟩ := hholds r List.mem_cons_self
          have hread : x.book.order r.slot = .ok o := readOrder_eq ho hw
          have hlink : o.next = next := Option.some.inj ((nextOf_eq ho).symm.trans hnext)
          have hprefetch : x.book.prefetchOrderMap next = .ok () := by
            refine prefetchOrderMap_eq ?_
            cases rs with
            | nil => exact Or.inl hrest
            | cons r' rs =>
                obtain ⟨o', ho', hw', hid', -⟩ := hholds r' (by simp)
                refine Or.inr ⟨o', hrest.1 ▸ readOrder_eq ho' hw', ?_⟩
                exact hid' ▸ hids r' (by simp)
          have hne : cur ≠ INVALID_INDEX := hcur ▸ hvalid r List.mem_cons_self
          subst hcur
          simp only [fillEachOrder, hne, ne_eq, not_false_eq_true, if_true, hread, hid, hprice,
            hquantity, hlink, hprefetch, ok_bind, passive_eq, record_eq, logged_logged,
            List.singleton_append, ← fillEvents_full]
          refine (forgetOrder_spec ho (hids r List.mem_cons_self) _).bind ?_
          intro b hb
          have hother : ∀ r' ∈ rs, ∀ r'' ∈ [r], r''.slot ≠ r'.slot := by
            rintro r' hr' r'' hr'' heq
            rw [List.mem_singleton.mp hr''] at heq
            exact hnotMem (heq ▸ List.mem_map_of_mem hr')
          refine (ih (by simpa using hfuel) (hrest.congr (fun c _ => hb.links c)) hnodup
            (fun r' hr' => hvalid r' (List.mem_cons_of_mem r hr')) ?_ ?_).mono ?_
          · intro r' hr'
            exact (hholds r' (List.mem_cons_of_mem r hr')).congr (hb.slots _ (hother r' hr'))
          · intro r' hr'
            rw [setBook, hb.mapSize]
            exact hids r' (List.mem_cons_of_mem r hr')
          · rintro x' ⟨hx', hclient⟩
            exact ⟨hb.trans hx', hclient⟩

/-- The consumption of a whole queue, by whichever of the two paths. -/
theorem drain_spec {level : PriceLevel} (store : Store env g x.book L)
    (hq : L.queue side.opposite i = q) (hne : q ≠ [])
    (hlevel : (x.book.side side.opposite).levels[i]? = some level)
    (hrep : LevelHolds x.book.orderPool.pool level q) :
    (if level.orderCount = 1 then x.fillOneOrder env side taker (passive f) level.head
      else do
        x.book.prefetchOrderMap level.head
        let x ← x.fillEachOrder env side taker (passive f) (x.book.orderPool.capacity + 1)
          level.head
        let level' ← x.book.level side.opposite i
        let orderPool ← x.book.orderPool.deallocateChain env level'.head level'.tail
        let activeCount ← checkedSub x.book.activeCount level.orderCount
        pure (x.setBook { x.book with orderPool, activeCount }) : Checked (Exec σ)).Returns
      (fun x' => Drained env x.book x'.book L q (q.flatMap fun r =>
          Ledger.fillEvents side taker (g.price i) (r, r.quantity)) ∧
        x'.client = feed f
          (q.map fun r => Ledger.fillTrade taker (g.price i) (r, r.quantity)) x.client) := by
  have hcount : level.orderCount = q.length := by simpa using hrep.count
  by_cases hone : q.length = 1
  · obtain ⟨r, rfl⟩ := List.length_eq_one_iff.mp hone
    rw [if_pos (hcount.trans hone), hrep.head_eq_of_cons]
    simpa using fillOneOrder_spec store hq
  · rw [if_neg (hcount ▸ hone)]
    have hmem : ∀ r ∈ q, r ∈ L.queue side.opposite i := fun r hr => hq ▸ hr
    have hresting : ∀ r ∈ q, ⟨side.opposite, i, r⟩ ∈ L.resting g := fun r hr =>
      store.wellFormed.mem (hmem r hr)
    have hids : ∀ r ∈ q, r.id < x.book.orderMap.size := fun r hr =>
      store.id_lt_mapSize (hmem r hr)
    have hnodup : (q.map Resting.slot).Nodup := hq ▸ store.wellFormed.slots_nodup side.opposite i
    have hlength : q.length ≤ x.book.activeCount := by
      rw [store.active, ← hq]
      exact store.wellFormed.count_queue_le side.opposite i
    have hfuel : q.length < x.book.orderPool.capacity + 1 := by
      rw [store.capacity]
      have := store.activeCount_le
      omega
    have hprefetch : x.book.prefetchOrderMap level.head = .ok () := by
      refine prefetchOrderMap_eq ?_
      obtain ⟨r, rs, rfl⟩ := List.exists_cons_of_ne_nil hne
      obtain ⟨o, -, hread, -, hid, -⟩ := store.maker_eq (hmem r List.mem_cons_self)
      exact Or.inr ⟨o, by rw [hrep.head_eq_of_cons]; exact hread,
        hid ▸ hids r List.mem_cons_self⟩
    simp only [hprefetch, ok_bind]
    refine (fillEachOrder_spec hfuel hrep.queue.forward hnodup
      (fun r hr => store.slot_ne_invalid (hresting r hr))
      (fun r hr => store.holds _ (hresting r hr))
      hids).bind ?_
    rintro x' ⟨hx, hclient⟩
    have hside : x'.book.side side.opposite = x.book.side side.opposite := by
      rw [hx.frame]
      cases side <;> rfl
    have hread : x'.book.level side.opposite i = .ok level := vecRead_eq (hside ▸ hlevel)
    simp only [hread, ok_bind]
    refine (hx.deallocateChain_spec store hq hne hrep).bind ?_
    rintro p ⟨hp, houtside⟩
    have hle : level.orderCount ≤ x.book.activeCount := hcount ▸ hlength
    simp only [hx.activeCount_eq, checkedSub, hle, if_true, ok_bind, pure_eq_ok, returns_ok,
      setBook]
    refine ⟨hx.drained hp houtside ?_, hclient⟩
    rw [← hcount]
    exact Nat.sub_add_cancel hle

/-- The fast path: the whole queue trades and the level is reset. -/
theorem fillLevel_spec (store : Store env g x.book L) (hi : i < g.range)
    (hne : L.queue side.opposite i ≠ [])
    (htotal : Greedy.total Resting.quantity (L.queue side.opposite i) ≤ n) (hn : n < 2 ^ 32) :
    (x.fillLevel env side taker (passive f) i n).Returns (fun (x', n') =>
      Store env g x'.book (L.takeQueue side.opposite i n) ∧
      n' = n - Greedy.total Resting.quantity (L.queue side.opposite i) ∧
      x'.client = feed f ((Greedy.fills Resting.quantity (L.queue side.opposite i) n).map
        (Ledger.fillTrade taker (g.price i))) x.client ∧
      Framed env x.book x'.book ((Greedy.fills Resting.quantity (L.queue side.opposite i) n).flatMap
        (Ledger.fillEvents side taker (g.price i)))) := by
  have hpos := store.wellFormed.queue_pos side.opposite i
  have hledger : L.takeQueue side.opposite i n = L.set side.opposite i []
      ((L.queue side.opposite i).map Resting.slot ++ L.free) := by
    rw [Ledger.takeQueue, Ledger.freed, if_pos htotal, (Greedy.rest_eq_nil_iff hpos).mpr htotal]
  obtain ⟨level, hlevel, hread, hrep⟩ := store.level_eq side.opposite hi
  have hquantity : level.totalQuantity =
      Greedy.total Resting.quantity (L.queue side.opposite i) := hrep.total
  have hnarrow : level.totalQuantity < 2 ^ 32 := by omega
  rw [Greedy.fills_of_total_le hpos htotal, List.map_map, List.flatMap_map]
  simp only [fillLevel, hread, ok_bind, narrow, hnarrow, if_true]
  refine (drain_spec store rfl hne hlevel hrep).bind ?_
  rintro x' ⟨hx, hclient⟩
  have hside : ∀ t, x'.book.side t = x.book.side t := by
    intro t
    rw [hx.frame]
    cases t <;> rfl
  have hread' : x'.book.level side.opposite i = .ok level := vecRead_eq (hside _ ▸ hlevel)
  have hsize : i < (x'.book.side side.opposite).levels.size := by
    rw [hside, store.levelsSize]
    exact hi
  simp only [checkedSub, hquantity, htotal, if_true, hread', setLevel_eq hsize, ok_bind, pure_eq_ok,
    returns_ok, setBook]
  have hcanary : ({ debugCanary := level.debugCanary } : PriceLevel) = {} := by
    rw [hrep.canary]
  refine ⟨?_, trivial, hclient, ⟨forall_side side.opposite ?_ ?_, ?_, ?_, ?_⟩⟩
  · rw [hledger]
    refine store.replace hi (hledger ▸ store.wellFormed.takeQueue side.opposite hi n) ?_
    exact {
      minPrice := by rw [setSide_minPrice, hx.frame]
      maxPrice := by rw [setSide_maxPrice, hx.frame]
      maxOrderId := by rw [setSide_maxOrderId, hx.frame]
      capacity := by rw [setSide_orderPool, hx.capacity]
      pool := by rw [setSide_orderPool]; exact hx.pool
      reports := by rw [setSide_orderPool, hx.reports]
      level := ⟨_, by rw [side_setSide_self, hside], hcanary ▸ PriceLevel.Represents.empty _⟩
      levelsOpposite := by rw [side_setSide_opposite, hside]
      outside := fun s hs _ => by rw [setSide_orderPool, hx.slots s hs]
      inside := fun r hr => absurd hr List.not_mem_nil
      mapSize := by rw [setSide_orderMap, hx.mapSize]
      mapOutside := fun id hid _ => by rw [setSide_orderMap, hx.mapOutside id hid]
      mapped := fun r hr => absurd hr List.not_mem_nil
      cleared := fun r hr _ => by rw [setSide_orderMap, hx.mapCleared r hr]
      active := by rw [setSide_activeCount, hx.active, List.length_nil, Nat.add_zero] }
  · exact ⟨_, by rw [side_setSide_self, hside]⟩
  · exact ⟨_, by rw [side_setSide_opposite, hside]⟩
  · rw [setSide_journal, hx.frame]
  · rw [setSide_inPublicEntry, hx.frame]
  · rw [setSide_ownerThread, hx.frame]

end Exec

/-! ## Part of a queue -/

namespace OrderBook

variable {env : Env} {g : Geometry} {b b₁ b' b'' : OrderBook} {L : Ledger} {side : Side}
variable {i s m : Nat}
variable {level level' : PriceLevel} {o : Order}

/-- Of everything outside pool, map, counter and journal, only one level differs. -/
structure Touched (b b' : OrderBook) (side : Side) (i : Nat) (level : PriceLevel) : Prop where
  self : b'.side side = { b.side side with levels := (b.side side).levels.setIfInBounds i level }
  opposite : b'.side side.opposite = b.side side.opposite
  minPrice : b'.minPrice = b.minPrice
  maxPrice : b'.maxPrice = b.maxPrice
  maxOrderId : b'.maxOrderId = b.maxOrderId
  inPublicEntry : b'.inPublicEntry = b.inPublicEntry
  ownerThread : b'.ownerThread = b.ownerThread

namespace Touched

theorem trans (h : Touched b b' side i level) (h' : Touched b' b'' side i level') :
    Touched b b'' side i level' :=
  ⟨by rw [h'.self, h.self, Array.setIfInBounds_setIfInBounds], h'.opposite.trans h.opposite,
    h'.minPrice.trans h.minPrice, h'.maxPrice.trans h.maxPrice,
    h'.maxOrderId.trans h.maxOrderId, h'.inPublicEntry.trans h.inPublicEntry,
    h'.ownerThread.trans h.ownerThread⟩

theorem getElem? (h : Touched b b' side i level) (hi : i < (b.side side).levels.size) :
    (b'.side side).levels[i]? = some level := by
  rw [h.self]
  exact Array.getElem?_setIfInBounds_self_of_lt hi

theorem of_logged {events : List JournalEntry}
    (h : Touched (b.logged env events) b' side i level) : Touched b b' side i level :=
  ⟨by simpa using h.self, by simpa using h.opposite, h.minPrice, h.maxPrice, h.maxOrderId,
    h.inPublicEntry, h.ownerThread⟩

theorem framed {events : List JournalEntry} (h : Touched b b' side i level)
    (journal : b'.journal = b.journal ++ env.journaled events) : Framed env b b' events :=
  ⟨forall_side side ⟨_, h.self⟩ ⟨_, h.opposite⟩, journal, h.inPublicEntry, h.ownerThread⟩

end Touched

/-- A trade of `m` lowers the maker's quantity and the level's total. -/
theorem applyTrade_spec (hread : b.order s = .ok o) (ho : b.orderPool.pool[s]? = some o)
    (hlevel : (b.side side.opposite).levels[i]? = some level) (hm : m ≤ o.quantity)
    (htotal : m ≤ level.totalQuantity) :
    (Exec.applyTrade side i s m b).Returns (fun b' =>
      Touched b b' side.opposite i { level with totalQuantity := level.totalQuantity - m } ∧
      b'.orderPool = { b.orderPool with
        pool := b.orderPool.pool.setIfInBounds s { o with quantity := o.quantity - m } } ∧
      b'.orderMap = b.orderMap ∧ b'.activeCount = b.activeCount ∧ b'.journal = b.journal) := by
  simp only [Exec.applyTrade, hread, ok_bind, checkedSub, hm, if_true, modifySlot_eq ho]
  -- the slot has been written; the level is where it was
  have hside : ∀ t, ({ b with orderPool := { b.orderPool with
      pool := b.orderPool.pool.setIfInBounds s { o with quantity := o.quantity - m } } } :
        OrderBook).side t = b.side t := by
    intro t
    cases t <;> rfl
  generalize hb : ({ b with orderPool := { b.orderPool with
      pool := b.orderPool.pool.setIfInBounds s { o with quantity := o.quantity - m } } } :
        OrderBook) = b₁ at hside ⊢
  have hread₁ : b₁.level side.opposite i = .ok level := vecRead_eq (by rw [hside]; exact hlevel)
  have hsize : i < (b₁.side side.opposite).levels.size := by
    rw [hside]
    exact lt_size_of_getElem? hlevel
  simp only [hread₁, ok_bind, htotal, if_true, setLevel_eq hsize, returns_ok]
  rw [setSide_orderPool, setSide_orderMap, setSide_activeCount, setSide_journal]
  refine ⟨⟨?_, ?_, ?_, ?_, ?_, ?_, ?_⟩, ?_, ?_, ?_, ?_⟩
  · rw [side_setSide_self, hside]
  · rw [side_setSide_opposite, hside]
  · rw [setSide_minPrice, ← hb]
  · rw [setSide_maxPrice, ← hb]
  · rw [setSide_maxOrderId, ← hb]
  · rw [setSide_inPublicEntry, ← hb]
  · rw [setSide_ownerThread, ← hb]
  all_goals rw [← hb]

/-- The `prev` link of the new front of a queue. -/
theorem clearPrev_spec {next : Nat}
    (hnext : next = INVALID_INDEX ∨ ∃ o, b.orderPool.pool[next]? = some o) :
    (if next ≠ INVALID_INDEX then b.modifySlot next (fun o => { o with prev := INVALID_INDEX })
      else pure b).Returns (fun b' => ∃ pool,
        b' = { b with orderPool := { b.orderPool with pool } } ∧
        pool.size = b.orderPool.pool.size ∧ (∀ s, nextOf pool s = nextOf b.orderPool.pool s) ∧
        ∀ s, pool[s]? = if s = next ∧ next ≠ INVALID_INDEX then
          b.orderPool.pool[s]?.map (fun o => { o with prev := INVALID_INDEX })
          else b.orderPool.pool[s]?) := by
  by_cases hvalid : next = INVALID_INDEX
  · simp only [hvalid, ne_eq, not_true_eq_false, if_false, pure_eq_ok, returns_ok, and_false]
    exact ⟨b.orderPool.pool, rfl, rfl, fun _ => rfl, fun _ => rfl⟩
  · obtain ⟨o, ho⟩ := hnext.resolve_left hvalid
    simp only [ne_eq, hvalid, not_false_eq_true, if_true, modifySlot_eq ho, returns_ok, and_true]
    refine ⟨_, rfl, Array.size_setIfInBounds, nextOf_set ho rfl, ?_⟩
    intro s
    rw [getElem?_set_slot ho]
    by_cases hs : s = next
    · rw [if_pos hs, if_pos hs, hs, ho, Option.map_some]
    · rw [if_neg hs, if_neg hs]

theorem deallocate_spec {free : List Nat} (hrep : b.orderPool.Represents env free)
    (hs : s < b.orderPool.capacity) (hlive : s ∉ free) :
    (b.deallocate env s).Returns (fun b' => b' = { b with orderPool := b'.orderPool } ∧
      b'.orderPool.Represents env (s :: free) ∧ b.orderPool.SameOutside b'.orderPool [s]) := by
  rw [OrderBook.deallocate]
  refine (MemoryPool.deallocate_spec hrep hs hlive).bind ?_
  rintro p ⟨hp, houtside⟩
  exact ⟨rfl, hp, houtside⟩

/-- What dropping a filled maker does to pool, map, counter and journal. -/
structure Dropped (env : Env) (b b' : OrderBook) (r : Resting) (next : Nat) (free : List Nat)
    (events : List JournalEntry) : Prop where
  pool : b'.orderPool.Represents env (r.slot :: free)
  capacity : b'.orderPool.capacity = b.orderPool.capacity
  reports : b'.orderPool.reports = b.orderPool.reports
  slots : ∀ s, s ≠ r.slot → b'.orderPool.pool[s]? =
    if s = next ∧ next ≠ INVALID_INDEX then
      b.orderPool.pool[s]?.map (fun o => { o with prev := INVALID_INDEX })
    else b.orderPool.pool[s]?
  mapSize : b'.orderMap.size = b.orderMap.size
  mapOutside : ∀ id, id ≠ r.id → b'.orderMap[id]? = b.orderMap[id]?
  mapCleared : b'.orderMap[r.id]? = some INVALID_INDEX
  active : b'.activeCount + 1 = b.activeCount
  journal : b'.journal = b.journal ++ env.journaled events

theorem dropFilledMaker_spec {r : Resting} {free : List Nat} {next : Nat}
    (ho : b.orderPool.pool[r.slot]? = some o) (hid : o.id = r.id) (hmap : r.id < b.orderMap.size)
    (hrep : b.orderPool.Represents env free) (hs : r.slot < b.orderPool.capacity)
    (hlive : r.slot ∉ free) (hlevel : (b.side side.opposite).levels[i]? = some level)
    (hcount : 1 ≤ level.orderCount) (hactive : 1 ≤ b.activeCount)
    (hnext : next = INVALID_INDEX ∨ next ≠ r.slot ∧ ∃ o, b.orderPool.pool[next]? = some o) :
    (Exec.dropFilledMaker env side i r.slot next o b).Returns (fun b' =>
      Touched b b' side.opposite i { level with orderCount := level.orderCount - 1, head := next } ∧
      Dropped env b b' r next free
        [⟨.MakerFilled, r.id, o.price, 0, side.opposite.toByte, 0⟩]) := by
  simp only [Exec.dropFilledMaker, record_eq, hid]
  refine (forgetOrder_spec ho hmap _).bind ?_
  intro b₁ h₁
  have hpool₁ : b₁.orderPool = { b.orderPool with pool := b₁.orderPool.pool } := by rw [h₁.frame]
  have hrep₁ : b₁.orderPool.Represents env free := hpool₁ ▸ hrep.setPool h₁.poolSize
    (fun s _ => h₁.links s)
  have hcapacity₁ : b₁.orderPool.capacity = b.orderPool.capacity := by rw [hpool₁]
  refine (deallocate_spec hrep₁ (hcapacity₁ ▸ hs) hlive).bind ?_
  rintro b₂ ⟨h₂, hrep₂, houtside⟩
  have hside₂ : ∀ t, b₂.side t = b.side t := by
    intro t
    rw [h₂, h₁.frame]
    cases t <;> rfl
  have hread : b₂.level side.opposite i = .ok level := vecRead_eq (by rw [hside₂]; exact hlevel)
  have hactive₂ : b₂.activeCount = b.activeCount := by rw [h₂, h₁.frame]
  simp only [hread, ok_bind, checkedSub, hcount, if_true, hactive₂, hactive]
  have hside₃ : ∀ t, ({ b₂ with activeCount := b.activeCount - 1 } : OrderBook).side t =
      b.side t := by
    intro t
    rw [← hside₂]
    cases t <;> rfl
  generalize h₃ : ({ b₂ with activeCount := b.activeCount - 1 } : OrderBook) = b₃ at hside₃ ⊢
  have hsize : i < (b₃.side side.opposite).levels.size := by
    rw [hside₃]
    exact lt_size_of_getElem? hlevel
  have hslots : ∀ s, s ≠ r.slot → b₃.orderPool.pool[s]? = b.orderPool.pool[s]? := by
    intro s hs
    have hne : s ∉ [r.slot] := by simpa using hs
    rw [← h₃, houtside.slots s hne, h₁.slots s (by simpa [eq_comm] using hs)]
  simp only [setLevel_eq hsize, ok_bind]
  refine (clearPrev_spec ?_).mono ?_
  · refine hnext.imp_right ?_
    rintro ⟨hne, q, hq⟩
    exact ⟨q, by rw [setSide_orderPool, hslots next hne, hq]⟩
  · rintro _ ⟨pool, rfl, hpoolSize, hlinks, hpool⟩
    rw [setSide_orderPool] at hpoolSize hlinks hpool
    refine ⟨⟨?_, ?_, ?_, ?_, ?_, ?_, ?_⟩, ⟨?_, ?_, ?_, ?_, ?_, ?_, ?_, ?_, ?_⟩⟩
    · exact (side_setSide_self (b := b₃)).trans (by rw [hside₃])
    · exact (side_setSide_opposite (b := b₃)).trans (by rw [hside₃])
    · rw [setSide_minPrice, ← h₃, h₂, h₁.frame]
    · rw [setSide_maxPrice, ← h₃, h₂, h₁.frame]
    · rw [setSide_maxOrderId, ← h₃, h₂, h₁.frame]
    · rw [setSide_inPublicEntry, ← h₃, h₂, h₁.frame]
    · rw [setSide_ownerThread, ← h₃, h₂, h₁.frame]
    · rw [setSide_orderPool]
      have hrep₃ : b₃.orderPool.Represents env (r.slot :: free) := h₃ ▸ hrep₂
      exact hrep₃.setPool hpoolSize (fun s _ => hlinks s)
    · rw [setSide_orderPool, ← h₃]
      exact houtside.capacity.trans hcapacity₁
    · rw [setSide_orderPool, ← h₃]
      exact houtside.reports.trans (by rw [hpool₁])
    · intro s hs
      rw [hpool, hslots s hs]
    · rw [setSide_orderMap, ← h₃, h₂, h₁.mapSize]
    · intro id hne
      rw [setSide_orderMap, ← h₃, h₂, h₁.mapOutside id (by simpa [eq_comm] using hne)]
    · rw [setSide_orderMap, ← h₃, h₂, h₁.mapCleared r List.mem_cons_self]
    · rw [setSide_activeCount, ← h₃]
      exact Nat.sub_add_cancel hactive
    · rw [setSide_journal, ← h₃, h₂, h₁.frame]

/-- The front maker gave a part. -/
theorem Store.shrinkFront {r : Resting} {rs : List Resting} {n : Nat} (store : Store env g b L)
    (hi : i < g.range) (hq : L.queue side i = r :: rs) (hn : n < r.quantity)
    (hlevel : LevelHolds b.orderPool.pool level (r :: rs))
    (ho : b.orderPool.pool[r.slot]? = some o) (hw : o.written = true)
    (h : Touched b b' side i { level with totalQuantity := level.totalQuantity - n })
    (hpool : b'.orderPool = { b.orderPool with
      pool := b.orderPool.pool.setIfInBounds r.slot { o with quantity := o.quantity - n } })
    (hmap : b'.orderMap = b.orderMap) (hactive : b'.activeCount = b.activeCount) :
    Store env g b' (L.set side i (r.shrink n :: rs) L.free) := by
  have hmem : ∀ r' ∈ r :: rs, r' ∈ L.queue side i := fun r' hr' => hq ▸ hr'
  have hfront := store.wellFormed.mem (hmem r List.mem_cons_self)
  have hledger : L.set side i (r.shrink n :: rs) L.free = L.takeQueue side i n := by
    have htotal : ¬r.quantity + Greedy.total Resting.quantity rs ≤ n := by omega
    simp [Ledger.takeQueue, Ledger.freed, hq, Greedy.rest, Greedy.consumed, hn, htotal]
  have hnodup := store.wellFormed.slots_nodup side i
  rw [hq] at hnodup
  have hread : ∀ s, b'.orderPool.pool[s]? =
      if s = r.slot then some { o with quantity := o.quantity - n } else b.orderPool.pool[s]? := by
    intro s
    rw [hpool]
    exact getElem?_set_slot ho _
  refine store.replace hi (hledger ▸ store.wellFormed.takeQueue side hi n) ?_
  exact {
    minPrice := h.minPrice
    maxPrice := h.maxPrice
    maxOrderId := h.maxOrderId
    capacity := by rw [hpool]
    pool := by
      rw [hpool]
      exact store.pool.setPool Array.size_setIfInBounds (fun s _ => nextOf_set ho (by rfl) s)
    reports := by rw [hpool]
    level := by
      refine ⟨_, by rw [h.self], ?_⟩
      have hnext : ∀ j, nextOf (b.orderPool.pool.setIfInBounds r.slot
          { o with quantity := o.quantity - n }) j = nextOf b.orderPool.pool j := nextOf_set ho rfl
      have hprev : ∀ j, prevOf (b.orderPool.pool.setIfInBounds r.slot
          { o with quantity := o.quantity - n }) j = prevOf b.orderPool.pool j := prevOf_set ho rfl
      have hlinks := hlevel.relink hnext hprev (level.totalQuantity - n)
      rw [hpool]
      have htotal : level.totalQuantity - n = Greedy.total Resting.quantity (r.shrink n :: rs) := by
        rw [hlevel.total, Greedy.total_cons, Greedy.total_cons, Resting.shrink_quantity]
        omega
      rw [htotal] at hlinks ⊢
      exact hlinks
    levelsOpposite := by rw [h.opposite]
    outside := fun s hs _ => by
      rw [hread, if_neg (hs r (hmem r List.mem_cons_self)).symm]
    inside := by
      intro r' hr'
      obtain ⟨o', ho', -, hid, hprice, hquantity, hside⟩ := store.holds _ hfront
      obtain rfl : o' = o := Option.some.inj (ho'.symm.trans ho)
      rcases List.mem_cons.mp hr' with rfl | hr'
      · refine ⟨_, (hread _).trans (if_pos rfl), hw, hid, hprice, ?_, hside⟩
        exact congrArg (· - n) hquantity
      · refine (store.holds _ (store.wellFormed.mem (hmem r' (List.mem_cons_of_mem r hr')))).congr
          ((hread _).trans (if_neg ?_))
        intro e
        exact (List.nodup_cons.mp hnodup).1 (e ▸ List.mem_map_of_mem hr')
    mapSize := by rw [hmap]
    mapOutside := fun id _ _ => by rw [hmap]
    mapped := by
      intro r' hr'
      rw [hmap]
      rcases List.mem_cons.mp hr' with rfl | hr'
      · exact store.mapped _ hfront
      · exact store.mapped _ (store.wellFormed.mem (hmem r' (List.mem_cons_of_mem r hr')))
    cleared := by
      intro r' hr' hnone
      rw [hq] at hr'
      rcases List.mem_cons.mp hr' with rfl | hr'
      · exact absurd rfl (hnone (r'.shrink n) List.mem_cons_self)
      · exact absurd rfl (hnone r' (List.mem_cons_of_mem _ hr'))
    active := by rw [hactive, hq, List.length_cons, List.length_cons] }

/-- The front maker gave everything and left; the queue goes on behind it. -/
theorem Store.popFront {r : Resting} {rs : List Resting} {next : Nat}
    {events : List JournalEntry} (store : Store env g b L)
    (hi : i < g.range) (hq : L.queue side i = r :: rs) (hrs : rs ≠ [])
    (hlevel : LevelHolds b.orderPool.pool level (r :: rs))
    (hnext : nextOf b.orderPool.pool r.slot = some next)
    (h : Touched b b' side i { level with
      totalQuantity := level.totalQuantity - r.quantity
      orderCount := level.orderCount - 1
      head := next })
    (hpool : ∀ s, s ≠ r.slot → b₁.orderPool.pool[s]? = b.orderPool.pool[s]?)
    (hpoolFields : b₁.orderPool.capacity = b.orderPool.capacity ∧
      b₁.orderPool.reports = b.orderPool.reports)
    (hmap : b₁.orderMap = b.orderMap) (hactive : b₁.activeCount = b.activeCount)
    (d : Dropped env b₁ b' r next L.free events) :
    Store env g b' (L.set side i rs (r.slot :: L.free)) := by
  have hmem : ∀ r' ∈ r :: rs, r' ∈ L.queue side i := fun r' hr' => hq ▸ hr'
  have hnodup := store.wellFormed.slots_nodup side i
  rw [hq] at hnodup
  have hne : ∀ r' ∈ rs, r'.slot ≠ r.slot := fun r' hr' e =>
    (List.nodup_cons.mp hnodup).1 (e ▸ List.mem_map_of_mem hr')
  have hids := store.wellFormed.ids_nodup side i
  rw [hq] at hids
  have hidNe : ∀ r' ∈ rs, r'.id ≠ r.id := fun r' hr' e =>
    (List.nodup_cons.mp hids).1 (e ▸ List.mem_map_of_mem hr')
  -- a slot of the remaining queue keeps all but its `prev` link
  have hread : ∀ s, s ≠ r.slot → b'.orderPool.pool[s]? = if s = next ∧ next ≠ INVALID_INDEX then
      b.orderPool.pool[s]?.map (fun o => { o with prev := INVALID_INDEX })
      else b.orderPool.pool[s]? := by
    intro s hs
    rw [d.slots s hs, hpool s hs]
  have hslots : rs.map Resting.slot ≠ [] := by simpa using hrs
  have hfront : next ∈ rs.map Resting.slot := by
    obtain ⟨-, n, hn, hrest⟩ := hlevel.queue.forward
    obtain rfl : n = next := Option.some.inj (hn.symm.trans hnext)
    obtain ⟨s, ss, hss⟩ := List.exists_cons_of_ne_nil hslots
    rw [hss] at hrest ⊢
    exact hrest.1 ▸ List.mem_cons_self
  refine store.replace hi (store.wellFormed.takeQueue_front hq ▸
    store.wellFormed.takeQueue side hi r.quantity) ?_
  exact {
    minPrice := h.minPrice
    maxPrice := h.maxPrice
    maxOrderId := h.maxOrderId
    capacity := d.capacity.trans hpoolFields.1
    pool := d.pool
    reports := d.reports.trans hpoolFields.2
    level := by
      refine ⟨{ level with
        totalQuantity := level.totalQuantity - r.quantity
        orderCount := level.orderCount - 1
        head := next }, by rw [h.self], ?_⟩
      have htotal : level.totalQuantity - r.quantity = Greedy.total Resting.quantity rs := by
        rw [hlevel.total, Greedy.total_cons]
        exact Nat.add_sub_cancel_left _ _
      rw [htotal]
      exact hlevel.pop hslots hnext hread _
    levelsOpposite := by rw [h.opposite]
    outside := by
      intro s hs _
      rw [hread s (hs r (hmem r List.mem_cons_self)).symm, if_neg]
      rintro ⟨rfl, -⟩
      obtain ⟨r', hr', hslot⟩ := List.mem_map.mp hfront
      exact hs r' (hmem r' (List.mem_cons_of_mem r hr')) hslot
    inside := by
      intro r' hr'
      obtain ⟨o, ho, hfields⟩ :=
        store.holds _ (store.wellFormed.mem (hmem r' (List.mem_cons_of_mem r hr')))
      rw [Holds, hread _ (hne r' hr'), ho]
      split
      · exact ⟨_, rfl, hfields⟩
      · exact ⟨o, rfl, hfields⟩
    mapSize := by rw [d.mapSize, hmap]
    mapOutside := fun id hid _ => by
      rw [d.mapOutside id (hid r (hmem r List.mem_cons_self)).symm, hmap]
    mapped := by
      intro r' hr'
      rw [d.mapOutside _ (hidNe r' hr'), hmap]
      exact store.mapped _ (store.wellFormed.mem (hmem r' (List.mem_cons_of_mem r hr')))
    cleared := by
      intro r' hr' hnone
      rw [hq] at hr'
      rcases List.mem_cons.mp hr' with rfl | hr'
      · exact d.mapCleared
      · exact absurd rfl (hnone r' hr')
    active := by
      have := d.active
      rw [hactive] at this
      rw [hq, List.length_cons]
      omega }

end OrderBook

namespace Exec

open OrderBook

variable {σ : Type} {env : Env} {g : Geometry} {x : Exec σ} {L : Ledger} {side : Side}
variable {taker i n fuel cur : Nat} {f : Trade → σ → σ} {q : List Resting}

/-- The slot behind the front maker, or none. -/
def behind (rs : List Resting) : Nat := (rs.map Resting.slot).head?.getD INVALID_INDEX

section Front

variable {r : Resting} {rs : List Resting} {level : PriceLevel} {o : Order} {b : OrderBook}

/-- The front maker's link leads behind it, and what is read ahead there is a maker. -/
theorem behind_spec (store : Store env g b L) (hq : L.queue side i = r :: rs)
    (hrep : LevelHolds b.orderPool.pool level (r :: rs)) :
    nextOf b.orderPool.pool r.slot = some (behind rs) ∧
    (behind rs = INVALID_INDEX ∨ behind rs ≠ r.slot ∧ ∃ o,
      b.orderPool.pool[behind rs]? = some o ∧ o.written = true ∧ o.id < b.orderMap.size) := by
  obtain ⟨-, next, hnext, hrest⟩ := hrep.queue.forward
  obtain rfl : next = behind rs := hrest.start_eq
  refine ⟨hnext, ?_⟩
  cases rs with
  | nil => exact Or.inl rfl
  | cons r' rs =>
      have hmem : r' ∈ L.queue side i := by simp [hq]
      obtain ⟨o, ho, -, hw, hid, -⟩ := store.maker_eq hmem
      refine Or.inr ⟨?_, o, ho, hw, hid ▸ store.id_lt_mapSize hmem⟩
      intro e
      exact (List.nodup_cons.mp hrep.queue.nodup).1 (e ▸ List.mem_cons_self)

/-- What an iteration of the slow path finds once the trade has been applied: the
maker `o` has become `o'`. -/
theorem applyTrade_front {m : Nat} (events : List JournalEntry) (store : Store env g b L)
    (hi : i < g.range) (hq : L.queue side.opposite i = r :: rs) (hm : m ≤ r.quantity) :
    ∃ o o' level b', (b.order r.slot = .ok o ∧ b.orderPool.pool[r.slot]? = some o ∧
        o.written = true ∧ o.id = r.id ∧ o.price = g.price i ∧ o.quantity = r.quantity) ∧
      ((b.side side.opposite).levels[i]? = some level ∧
        LevelHolds b.orderPool.pool level (r :: rs)) ∧
      o' = { o with quantity := o.quantity - m } ∧
      applyTrade side i r.slot m (b.logged env events) = .ok b' ∧
      Touched b b' side.opposite i { level with totalQuantity := level.totalQuantity - m } ∧
      b'.orderPool = { b.orderPool with pool := b.orderPool.pool.setIfInBounds r.slot o' } ∧
      b'.orderMap = b.orderMap ∧ b'.activeCount = b.activeCount ∧
      b'.journal = b.journal ++ env.journaled events ∧
      b'.order r.slot = .ok o' ∧ o'.next = behind rs ∧
      b'.prefetchOrderMap (behind rs) = .ok () := by
  have hmem : r ∈ L.queue side.opposite i := hq ▸ List.mem_cons_self
  obtain ⟨o, ho, hread, hw, hid, hprice, hquantity, -⟩ := store.maker_eq hmem
  obtain ⟨level, hlevel, -, hrep⟩ := store.level_eq side.opposite hi
  rw [hq] at hrep
  obtain ⟨hnext, hahead⟩ := behind_spec store hq hrep
  have htotal : level.totalQuantity = r.quantity + Greedy.total Resting.quantity rs := hrep.total
  obtain ⟨b', happly, htouched, hpool, hmap, hactive, hjournal⟩ := returns_iff.mp
    (applyTrade_spec (b := b.logged env events) (m := m) hread ho
      (by rw [side_logged]; exact hlevel) (by omega) (by omega))
  have hpool' : b'.orderPool.pool =
      b.orderPool.pool.setIfInBounds r.slot { o with quantity := o.quantity - m } := by
    rw [hpool]
    rfl
  refine ⟨o, _, level, b', ⟨hread, ho, hw, hid, hprice, hquantity⟩, ⟨hlevel, hrep⟩, rfl, happly,
    htouched.of_logged, hpool, hmap, hactive, hjournal, ?_, ?_, ?_⟩
  · refine readOrder_eq ?_ hw
    rw [hpool', getElem?_set_slot ho, if_pos rfl]
  · exact Option.some.inj ((nextOf_eq ho).symm.trans hnext)
  · refine prefetchOrderMap_eq (hahead.imp_right ?_)
    rintro ⟨hne, o', ho', hw', hid'⟩
    refine ⟨o', readOrder_eq ?_ hw', hmap ▸ hid'⟩
    rw [hpool', getElem?_set_slot ho, if_neg hne, ho']

/-- An iteration in which the front maker gives only a part, which ends the walk. -/
theorem fillPartially_part (env : Env) (taker : Nat) (f : Trade → σ → σ) (fuel : Nat)
    (store : Store env g x.book L) (hi : i < g.range)
    (hq : L.queue side.opposite i = r :: rs) (hn : 0 < n) (hlt : n < r.quantity) :
    ∃ b', fillPartially env side taker (passive f) i (fuel + 2) r.slot n x =
        .ok (⟨b', f (Ledger.fillTrade taker (g.price i) (r, n)) x.client⟩, 0) ∧
      Store env g b' (L.set side.opposite i (r.shrink n :: rs) L.free) ∧
      Framed env x.book b' (Ledger.fillEvents side taker (g.price i) (r, n)) := by
  have hmem : r ∈ L.queue side.opposite i := hq ▸ List.mem_cons_self
  have hvalid : r.slot ≠ INVALID_INDEX := store.slot_ne_invalid (store.wellFormed.mem hmem)
  have hevents : Ledger.fillEvents side taker (g.price i) (r, n) =
      [⟨.TradeExecuted, taker, g.price i, n, side.toByte, 0⟩] := by
    have hne : n ≠ r.quantity := by omega
    simp [Ledger.fillEvents, hne]
  obtain ⟨o, o', level, b', ⟨hread, ho, hw, hid, hprice, hquantity⟩, ⟨-, hrep⟩, hupdate, happly,
    htouched, hpool, hmap, hactive, hjournal, hread', hlink, hprefetch⟩ :=
    applyTrade_front (Ledger.fillEvents side taker (g.price i) (r, n)) store hi hq
      (Nat.le_of_lt hlt)
  have hleft : ¬o'.quantity = 0 := by
    simp only [hupdate]
    omega
  refine ⟨b', ?_, store.shrinkFront hi hq hlt hrep ho hw htouched (hupdate ▸ hpool) hmap hactive,
    htouched.framed hjournal⟩
  rw [hevents] at happly
  simp only [fillPartially, ne_eq, hvalid, not_false_eq_true, gt_iff_lt, hn, and_self, if_true,
    hread, ok_bind, hid, hprice, hquantity, hlt, passive_eq, record_eq, checkedSub, Nat.le_refl,
    Nat.sub_self, happly, hread', hlink, hprefetch, hleft, if_false, pure_eq_ok,
    Nat.lt_irrefl, and_false, setBook, Ledger.fillTrade]

/-- An iteration in which the front maker gives everything and leaves. -/
theorem fillPartially_front (env : Env) (taker : Nat) (f : Trade → σ → σ) (fuel : Nat)
    (store : Store env g x.book L) (hi : i < g.range)
    (hq : L.queue side.opposite i = r :: rs) (hrs : rs ≠ []) (hn : 0 < n) (hle : r.quantity ≤ n) :
    ∃ b', fillPartially env side taker (passive f) i (fuel + 1) r.slot n x =
        fillPartially env side taker (passive f) i fuel (behind rs) (n - r.quantity)
          ⟨b', f (Ledger.fillTrade taker (g.price i) (r, r.quantity)) x.client⟩ ∧
      Store env g b' (L.set side.opposite i rs (r.slot :: L.free)) ∧
      Framed env x.book b' (Ledger.fillEvents side taker (g.price i) (r, r.quantity)) := by
  have hmem : r ∈ L.queue side.opposite i := hq ▸ List.mem_cons_self
  have hvalid : r.slot ≠ INVALID_INDEX := store.slot_ne_invalid (store.wellFormed.mem hmem)
  obtain ⟨o, o', level, b₁, ⟨hread, ho, -, hid, hprice, hquantity⟩, ⟨hlevel, hrep⟩, hupdate,
    happly, htouched, hpool, hmap, hactive, hjournal, hread', hlink, hprefetch⟩ :=
    applyTrade_front [⟨.TradeExecuted, taker, g.price i, r.quantity, side.toByte, 0⟩]
      store hi hq (Nat.le_refl r.quantity)
  obtain ⟨hnext, hahead⟩ := behind_spec store hq hrep
  have hid' : o'.id = r.id := by rw [hupdate, ← hid]
  have hprice' : o'.price = g.price i := by rw [hupdate, ← hprice]
  have hgone : o'.quantity = 0 := by
    simp only [hupdate]
    omega
  have hpool₁ : b₁.orderPool.pool = x.book.orderPool.pool.setIfInBounds r.slot o' := by rw [hpool]
  have hother : ∀ s, s ≠ r.slot → b₁.orderPool.pool[s]? = x.book.orderPool.pool[s]? := by
    intro s hs
    rw [hpool₁, getElem?_set_slot ho, if_neg hs]
  have hrep₁ : b₁.orderPool.Represents env L.free := by
    rw [hpool]
    exact store.pool.setPool Array.size_setIfInBounds
      (fun s _ => nextOf_set ho (by rw [hupdate]) s)
  have hcount : level.orderCount = rs.length + 1 := by simpa using hrep.count
  have hactive₁ : 1 ≤ b₁.activeCount := by
    have := store.wellFormed.count_queue_le side.opposite i
    rw [hq, ← store.active, List.length_cons] at this
    omega
  obtain ⟨b', hdrop, htouched', hdropped⟩ := returns_iff.mp
    (dropFilledMaker_spec (by rw [hpool₁, getElem?_set_slot ho, if_pos rfl]) hid'
      (hmap ▸ store.id_lt_mapSize hmem) hrep₁
      (by rw [hpool, store.capacity]; exact store.wellFormed.slot_lt hmem)
      (store.wellFormed.slot_notMem_free hmem) (htouched.getElem? (lt_size_of_getElem? hlevel))
      (by simp only [hcount]; omega) hactive₁
      (hahead.imp_right (fun ⟨hne, o', ho', _⟩ => ⟨hne, o', (hother _ hne).trans ho'⟩)))
  have htouchedAll := htouched.trans htouched'
  refine ⟨b', ?_, store.popFront hi hq hrs hrep hnext htouchedAll hother
    (by rw [hpool]; exact ⟨rfl, rfl⟩) hmap hactive hdropped, htouchedAll.framed ?_⟩
  · simp only [fillPartially, ne_eq, hvalid, not_false_eq_true, gt_iff_lt, hn, and_self, if_true,
      hread, ok_bind, hid, hprice, hquantity, Nat.not_lt.mpr hle, if_false, passive_eq, record_eq,
      checkedSub, hle, happly, hread', hlink, hprefetch, hgone, hdrop, setBook, Ledger.fillTrade]
  · rw [hdropped.journal, hjournal, fillEvents_full, List.append_assoc, ← Env.journaled_append,
      hprice']
    rfl

end Front

/-- The slow path, on a level that holds more than the taker wants. -/
theorem fillPartially_spec (store : Store env g x.book L) (hi : i < g.range)
    (hq : L.queue side.opposite i = q) (hn : n < Greedy.total Resting.quantity q)
    (hfuel : q.length < fuel) :
    (fillPartially env side taker (passive f) i fuel (behind q) n x).Returns (fun (x', n') =>
      Store env g x'.book (L.set side.opposite i (Greedy.rest Resting.quantity Resting.shrink q n)
        (((Greedy.consumed Resting.quantity q n).map Resting.slot).reverse ++ L.free)) ∧
      n' = 0 ∧
      x'.client = feed f ((Greedy.fills Resting.quantity q n).map
        (Ledger.fillTrade taker (g.price i))) x.client ∧
      Framed env x.book x'.book ((Greedy.fills Resting.quantity q n).flatMap
        (Ledger.fillEvents side taker (g.price i)))) := by
  induction q generalizing L n fuel x with
  | nil => exact absurd hn (Nat.not_lt_zero n)
  | cons r rs ih =>
      have hpos := hq ▸ store.wellFormed.queue_pos side.opposite i
      obtain ⟨fuel, rfl⟩ : ∃ fuel', fuel = fuel' + 2 :=
        ⟨fuel - 2, by simp only [List.length_cons] at hfuel; omega⟩
      by_cases hzero : n = 0
      · subst hzero
        simp only [fillPartially, gt_iff_lt, Nat.lt_irrefl, and_false, if_false, returns_ok]
        rw [Greedy.rest_zero hpos Resting.shrink_zero, Greedy.consumed_zero hpos,
          Greedy.fills_zero, ← hq]
        refine ⟨?_, trivial, rfl, Framed.refl env x.book⟩
        simpa using store
      · have hn' : 0 < n := Nat.pos_of_ne_zero hzero
        by_cases hlt : n < r.quantity
        · obtain ⟨b', heq, hstore, hframed⟩ :=
            fillPartially_part env taker f fuel store hi hq hn' hlt
          have hmin : min r.quantity n = n := by omega
          have hsub : n - r.quantity = 0 := by omega
          rw [show behind (r :: rs) = r.slot from rfl, heq, returns_ok]
          refine ⟨?_, rfl, ?_, ?_⟩
          · simpa [Greedy.rest, Greedy.consumed, hlt] using hstore
          · simp [Greedy.fills, hzero, hmin, hsub]
          · simpa [Greedy.fills, hzero, hmin, hsub] using hframed
        · have hle : r.quantity ≤ n := Nat.le_of_not_lt hlt
          rw [Greedy.total_cons] at hn
          have hrs : rs ≠ [] := by
            rintro rfl
            rw [Greedy.total_nil] at hn
            omega
          obtain ⟨b', heq, hstore, hframed⟩ :=
            fillPartially_front env taker f (fuel + 1) store hi hq hrs
            hn' hle
          have hmin : min r.quantity n = r.quantity := by omega
          rw [show behind (r :: rs) = r.slot from rfl, heq]
          refine (ih (x := ⟨b', _⟩) hstore Ledger.set_queue_self (by omega)
            (by simp only [List.length_cons] at hfuel; omega)).mono ?_
          rintro ⟨x', n'⟩ ⟨hstore', hn0, hclient, hframed'⟩
          refine ⟨?_, hn0, ?_, ?_⟩
          · simpa [Greedy.rest, Greedy.consumed, hlt] using hstore'
          · simpa [Greedy.fills, hzero, hmin] using hclient
          · simpa [Greedy.fills, hzero, hmin] using hframed.trans hframed'

end Exec

end Hft
