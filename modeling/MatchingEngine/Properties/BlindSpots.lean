import MatchingEngine.Properties.Validation

/-!
# What the invariant checker misses

`Invariants` states the seven invariants the checker is documented to verify. A book it
accepts can break four of them: where the flag of a side is clear its best price goes
unchecked, an order of id 0 stands in for a map entry without a level, the tail of an
empty level may lead anywhere, and no loop visits the padding bits of the last words.
Where none of this is the case, acceptance is sound.

Invariant 4 is the one the checker never tests directly. It follows by counting: the
ids of the walked slots are distinct, they are among the entries, and there are as
many of them.
-/

namespace Hft

open Machine Machine.Checked

namespace OrderBook

/-- The documented invariants, of a book whose queues hold `slots`. -/
structure Invariants (b : OrderBook) (slots : Side → Nat → List Nat) : Prop where
  totals : ∀ side, ∀ i < b.asks.levels.size, ∃ level, (b.side side).levels[i]? = some level ∧
    Path (nextOf b.orderPool.pool) level.head (slots side i) INVALID_INDEX ∧
    level.totalQuantity = b.quantityOn (slots side i) ∧
    level.orderCount = (slots side i).length ∧ level.debugCanary = PRICE_LEVEL_CANARY
  links : ∀ side, ∀ i < b.asks.levels.size, ∀ level, (b.side side).levels[i]? = some level →
    (slots side i ≠ [] →
      Path (prevOf b.orderPool.pool) level.tail (slots side i).reverse INVALID_INDEX) ∧
    (∀ o : Order, b.orderPool.pool[level.head]? = some o → o.prev = INVALID_INDEX) ∧
    ∀ o : Order, b.orderPool.pool[level.tail]? = some o → o.next = INVALID_INDEX
  live : ∀ side, ∀ i < b.asks.levels.size, ∀ s ∈ slots side i, b.orderPool.Flagged s ∧
    ∃ o : Order, b.orderPool.pool[s]? = some o ∧ b.orderMap[o.id]? = some s
  contained : ∀ id s, 1 ≤ id → id ≤ b.maxOrderId → b.orderMap[id]? = some s → s ≠ INVALID_INDEX →
    ∃ o side i, b.orderPool.pool[s]? = some o ∧ o.id = id ∧ o.side = side.toByte ∧
      o.price = (b.minPrice + i) % 2 ^ 32 ∧ i < b.asks.levels.size ∧ s ∈ slots side i
  bits : ∀ side j, bitAt (b.side side).bitset j = true ↔ b.Occupied side j
  summary : ∀ side w, bitAt (b.side side).summary w = true ↔ wordAt (b.side side).bitset w ≠ 0
  best : ∀ side, (∃ i, b.Occupied side i) → (b.side side).has = true ∧
    b.Occupied side (b.side side).bestIdx ∧
    (b.side side).best = b.minPrice + (b.side side).bestIdx ∧
    ∀ i, b.Occupied side i → ¬side.Better i (b.side side).bestIdx
  counts : b.activeCount = b.orderPool.liveCount ∧ b.entries.length = b.orderPool.liveCount ∧
    b.restingCount slots = b.orderPool.liveCount ∧
    ∃ depth, b.orderPool.freeListDepth = .ok depth ∧
      depth + b.orderPool.liveCount = b.orderPool.capacity

/-- All documented invariants hold. -/
def Documented (b : OrderBook) : Prop := ∃ slots, b.Invariants slots

/-- Nothing the checker does not look at is wrong. -/
structure NoBlindSpot (b : OrderBook) : Prop where
  ids : ∀ side, ∀ i < b.asks.levels.size, ∀ level slots, (b.side side).levels[i]? = some level →
    b.LiveWalk level.head slots INVALID_INDEX →
    ∀ s ∈ slots, ∀ o : Order, b.orderPool.pool[s]? = some o → o.id ≠ 0
  flags : ∀ side, (∃ i, b.Occupied side i) → (b.side side).has = true
  tails : ∀ side, ∀ i < b.asks.levels.size, ∀ level, (b.side side).levels[i]? = some level →
    level.isEmpty = true → ∀ o : Order, b.orderPool.pool[level.tail]? = some o →
    o.next = INVALID_INDEX
  bits : ∀ side j, b.asks.levels.size ≤ j → bitAt (b.side side).bitset j = false
  words : ∀ side w, (b.side side).bitset.size ≤ w → bitAt (b.side side).summary w = false

/-- The quantities fit their type. -/
def Typed (b : OrderBook) : Prop :=
  ∀ (s : Nat) (o : Order), b.orderPool.pool[s]? = some o → o.quantity < 2 ^ 32

variable {env : Env} {b : OrderBook} {side : Side} {i s : Nat} {slots : Side → Nat → List Nat}

/-! ### Counting -/

/-- The levels of both sides. -/
def places (b : OrderBook) : List (Side × Nat) :=
  (List.range b.asks.levels.size).map (Side.Buy, ·) ++
    (List.range b.asks.levels.size).map (Side.Sell, ·)

/-- All slots of all queues. -/
def walked (b : OrderBook) (slots : Side → Nat → List Nat) : List Nat :=
  b.places.flatMap (fun p => slots p.1 p.2)

def idOf (b : OrderBook) (s : Nat) : Nat := (b.orderPool.pool[s]?.map Order.id).getD 0

theorem idOf_eq {o : Order} (ho : b.orderPool.pool[s]? = some o) : b.idOf s = o.id := by
  rw [idOf, ho, Option.map_some, Option.getD_some]

theorem mem_places : (side, i) ∈ b.places ↔ i < b.asks.levels.size := by
  cases side <;> simp [places]

theorem places_nodup : b.places.Nodup := by
  refine List.nodup_append'.mpr ⟨?_, ?_, ?_⟩
  · exact List.nodup_range.map (fun _ _ h => (Prod.mk.inj h).2)
  · exact List.nodup_range.map (fun _ _ h => (Prod.mk.inj h).2)
  · intro p hbuy hsell
    obtain ⟨i, -, rfl⟩ := List.mem_map.mp hbuy
    obtain ⟨j, -, hj⟩ := List.mem_map.mp hsell
    cases (Prod.mk.inj hj).1

theorem mem_walked : s ∈ b.walked slots ↔
    ∃ side i, i < b.asks.levels.size ∧ s ∈ slots side i := by
  rw [walked, List.mem_flatMap]
  constructor
  · rintro ⟨⟨side, i⟩, hp, hs⟩
    exact ⟨side, i, mem_places.mp hp, hs⟩
  · rintro ⟨side, i, hi, hs⟩
    exact ⟨(side, i), mem_places.mpr hi, hs⟩

theorem walked_length : (b.walked slots).length = b.restingCount slots := by
  simp [walked, places, restingCount, List.length_flatMap, Function.comp_def]

theorem entries_nodup : b.entries.Nodup := List.Nodup.filter _ List.nodup_range'

theorem mem_entries {id : Nat} : id ∈ b.entries ↔
    (1 ≤ id ∧ id ≤ b.maxOrderId) ∧ b.orderMap[id]? ≠ some INVALID_INDEX := by
  rw [entries, List.mem_filter, List.mem_range'_1, bne_iff_ne]
  exact and_congr_left (fun _ => by omega)

section Counting

variable (hsized : b.Sized) (h : b.PassesChecks slots)

include h in
/-- A walked slot is live, and says where it is. -/
theorem PassesChecks.slot (hi : i < b.asks.levels.size) (hs : s ∈ slots side i) :
    b.orderPool.Flagged s ∧ b.SlotPasses side i s := by
  obtain ⟨level, -, hwalk, hpasses⟩ := h.levels side i hi
  exact ⟨hwalk.live s hs, hpasses.queue.orders s hs⟩

include hsized h in
/-- No slot is walked twice. -/
theorem PassesChecks.walked_nodup : (b.walked slots).Nodup := by
  refine List.nodup_flatMap.mpr ⟨?_, places_nodup.pairwise_of_forall_ne ?_⟩
  · rintro ⟨side, i⟩ hp
    obtain ⟨level, -, hwalk, -⟩ := h.levels side i (mem_places.mp hp)
    exact hwalk.nodup
  · rintro ⟨side, i⟩ hp ⟨side', j⟩ hq hne s hs hs'
    obtain ⟨-, o, ho, -, hprice, hside⟩ := h.slot (mem_places.mp hp) hs
    obtain ⟨-, o', ho', -, hprice', hside'⟩ := h.slot (mem_places.mp hq) hs'
    obtain rfl := Option.some.inj (ho.symm.trans ho')
    -- Price and side name the level: there are fewer levels than prices.
    obtain rfl := Side.toByte_inj (hside.symm.trans hside')
    have hi := (mem_places.mp hp).trans_le hsized.ticks
    have hj := (mem_places.mp hq).trans_le hsized.ticks
    rw [kMaxPriceRangeTicks] at hi hj
    obtain rfl : i = j := by omega
    exact hne rfl

include h in
/-- The ids of the walked slots are distinct, because the map leads back. -/
theorem PassesChecks.ids_nodup (hnodup : (b.walked slots).Nodup) :
    ((b.walked slots).map b.idOf).Nodup := by
  refine hnodup.map_on (fun s hs t ht hid => ?_)
  obtain ⟨side, i, hi, hs⟩ := mem_walked.mp hs
  obtain ⟨side', j, hj, ht⟩ := mem_walked.mp ht
  obtain ⟨-, o, ho, hmap, -⟩ := h.slot hi hs
  obtain ⟨-, o', ho', hmap', -⟩ := h.slot hj ht
  rw [idOf_eq ho, idOf_eq ho'] at hid
  rw [hid] at hmap
  exact Option.some.inj (hmap.symm.trans hmap')

include hsized h in
theorem PassesChecks.resting_le : b.restingCount slots ≤ b.orderPool.capacity := by
  rw [← walked_length]
  refine MemoryPool.length_le_of_nodup (h.walked_nodup hsized) (fun s hs => ?_)
  obtain ⟨side, i, hi, hs⟩ := mem_walked.mp hs
  exact (h.slot hi hs).1.1

include hsized h in
/-- Where no walked slot has id 0, the entries are the ids of the walked slots. -/
theorem PassesChecks.entries_subset (hids : ∀ s ∈ b.walked slots, b.idOf s ≠ 0) :
    b.entries ⊆ (b.walked slots).map b.idOf := by
  have hnodup := h.ids_nodup (h.walked_nodup hsized)
  have hsub : (b.walked slots).map b.idOf ⊆ b.entries := by
    intro id hid
    obtain ⟨s, hs, rfl⟩ := List.mem_map.mp hid
    have hpos := Nat.pos_of_ne_zero (hids s hs)
    obtain ⟨side, i, hi, hmem⟩ := mem_walked.mp hs
    obtain ⟨level, -, hwalk, -⟩ := h.levels side i hi
    obtain ⟨hlive, o, ho, hmap, -⟩ := h.slot hi hmem
    rw [idOf_eq ho] at hpos ⊢
    refine mem_entries.mpr ⟨⟨hpos, hwalk.ids s hmem o ho⟩, ?_⟩
    rw [hmap]
    intro e
    exact hsized.not_flagged (Option.some.inj e ▸ hlive)
  have hlength : b.entries.length ≤ ((b.walked slots).map b.idOf).length := by
    rw [List.length_map, walked_length, h.counts.mapped, h.counts.resting]
  exact ((hnodup.subperm hsub).perm_of_length_le hlength).symm.subset

end Counting

/-! ### Soundness -/

theorem quantityOn_lt {slots : List Nat} (htyped : b.Typed) (hlength : slots.length < 2 ^ 32) :
    b.quantityOn slots < 2 ^ 64 := by
  have hsum : b.quantityOn slots ≤ slots.length * (2 ^ 32 - 1) := by
    refine (List.sum_le_card_nsmul _ (2 ^ 32 - 1) ?_).trans ?_
    · intro q hq
      obtain ⟨s, -, rfl⟩ := List.mem_map.mp hq
      cases ho : b.orderPool.pool[s]? with
      | none => exact Nat.zero_le _
      | some o => exact Nat.le_sub_one_of_lt (htyped s o ho)
    · rw [List.length_map]
      exact Nat.le_refl _
  have := Nat.mul_le_mul_right (2 ^ 32 - 1) (Nat.le_sub_one_of_lt hlength)
  omega

theorem Sized.no_slot (hsized : b.Sized) : b.orderPool.pool[INVALID_INDEX]? = none := by
  have := hsized.capacity
  rw [← hsized.pool, kMaxPoolCapacity] at this
  exact Array.getElem?_eq_none (this.trans (by decide))

section Soundness

variable (hsized : b.Sized) (h : b.PassesChecks slots)

include hsized h in
theorem PassesChecks.length_lt (hi : i < b.asks.levels.size) :
    (slots side i).length < 2 ^ 32 := by
  obtain ⟨level, -, hwalk, -⟩ := h.levels side i hi
  have := hwalk.length_le.trans hsized.capacity
  rw [kMaxPoolCapacity] at this
  omega

include hsized h in
theorem PassesChecks.isEmpty_iff {level : PriceLevel} (hi : i < b.asks.levels.size)
    (hlevel : (b.side side).levels[i]? = some level) :
    level.isEmpty = true ↔ slots side i = [] := by
  obtain ⟨level', hlevel', hwalk, -⟩ := h.levels side i hi
  obtain rfl := Option.some.inj (hlevel.symm.trans hlevel')
  rw [PriceLevel.isEmpty, beq_iff_eq]
  rcases hwalk.start with ⟨hnil, hstop⟩ | ⟨hne, hlive⟩
  · exact iff_of_true hstop hnil
  · exact iff_of_false (fun e => hsized.not_flagged (e ▸ hlive)) hne

include hsized h in
theorem PassesChecks.totals (htyped : b.Typed) (hi : i < b.asks.levels.size) :
    ∃ level, (b.side side).levels[i]? = some level ∧
      Path (nextOf b.orderPool.pool) level.head (slots side i) INVALID_INDEX ∧
      level.totalQuantity = b.quantityOn (slots side i) ∧
      level.orderCount = (slots side i).length ∧ level.debugCanary = PRICE_LEVEL_CANARY := by
  have hlength : (slots side i).length < 2 ^ 32 := h.length_lt hsized hi
  obtain ⟨level, hlevel, hwalk, hpasses⟩ := h.levels side i hi
  refine ⟨level, hlevel, hwalk.path, ?_, ?_, hpasses.canary⟩
  · rw [hpasses.totalQuantity, Nat.mod_eq_of_lt (quantityOn_lt htyped hlength)]
  · rw [hpasses.orderCount, Nat.mod_eq_of_lt hlength]

include h in
theorem PassesChecks.links {level : PriceLevel} (hi : i < b.asks.levels.size)
    (hlevel : (b.side side).levels[i]? = some level) (hne : slots side i ≠ []) :
    Path (prevOf b.orderPool.pool) level.tail (slots side i).reverse INVALID_INDEX ∧
      prevOf b.orderPool.pool level.head = some INVALID_INDEX ∧
      nextOf b.orderPool.pool level.tail = some INVALID_INDEX := by
  obtain ⟨level', hlevel', hwalk, hpasses⟩ := h.levels side i hi
  obtain rfl := Option.some.inj (hlevel.symm.trans hlevel')
  have ht := List.getLast?_eq_some_getLast hne
  generalize (slots side i).getLast hne = t at ht
  have hback := hpasses.queue.back
  rw [ht, Option.getD_some, ← hpasses.queue.tail t ht] at hback
  refine ⟨hback, ?_, hpasses.queue.tail t ht ▸ hwalk.path.next_getLast ht⟩
  obtain ⟨s, rest, hs⟩ := List.exists_cons_of_ne_nil hne
  have hqueue := hpasses.queue
  rw [hs] at hqueue hwalk
  obtain ⟨o, hhead, -⟩ := hwalk.uncons
  rw [hhead]
  exact (queuePasses_cons.mp hqueue).2.1

include hsized h in
/-- Every entry leads to a slot in the level of its price and side. -/
theorem PassesChecks.contained (hids : ∀ s ∈ b.walked slots, b.idOf s ≠ 0) {id : Nat}
    (hid : 1 ≤ id ∧ id ≤ b.maxOrderId) (hmap : b.orderMap[id]? = some s) (hs : s ≠ INVALID_INDEX) :
    ∃ o side i, b.orderPool.pool[s]? = some o ∧ o.id = id ∧ o.side = side.toByte ∧
      o.price = (b.minPrice + i) % 2 ^ 32 ∧ i < b.asks.levels.size ∧ s ∈ slots side i := by
  have hentry : id ∈ b.entries := by
    refine mem_entries.mpr ⟨hid, ?_⟩
    rw [hmap]
    exact fun e => hs (Option.some.inj e)
  obtain ⟨t, ht, rfl⟩ := List.mem_map.mp (h.entries_subset hsized hids hentry)
  obtain ⟨side, i, hi, ht⟩ := mem_walked.mp ht
  obtain ⟨-, o, ho, hmap', hprice, hside⟩ := h.slot hi ht
  rw [idOf_eq ho] at hmap ⊢
  obtain rfl := Option.some.inj (hmap'.symm.trans hmap)
  exact ⟨o, side, i, ho, rfl, hside, hprice, hi, ht⟩

include h in
theorem PassesChecks.bit_iff (hi : i < b.asks.levels.size) :
    bitAt (b.side side).bitset i = true ↔ b.Occupied side i := by
  obtain ⟨level, hlevel, -, hpasses⟩ := h.levels side i hi
  rw [hpasses.bit, Bool.not_eq_true']
  constructor
  · exact fun hempty => ⟨level, hlevel, hempty⟩
  · rintro ⟨level', hlevel', hempty⟩
    rwa [Option.some.inj (hlevel.symm.trans hlevel')]

include hsized h in
theorem PassesChecks.counted : b.activeCount = b.orderPool.liveCount ∧
    b.entries.length = b.orderPool.liveCount ∧ b.restingCount slots = b.orderPool.liveCount ∧
    ∃ depth, b.orderPool.freeListDepth = .ok depth ∧
      depth + b.orderPool.liveCount = b.orderPool.capacity := by
  refine ⟨h.counts.active, h.counts.mapped, h.counts.resting, _, h.counts.free, ?_⟩
  have hlive := h.resting_le hsized
  have hcapacity := hsized.capacity
  rw [h.counts.resting] at hlive
  rw [kMaxPoolCapacity] at hcapacity
  omega

include hsized h in
/-- What the checker accepts and has no blind spot is as documented. -/
theorem PassesChecks.invariants (htyped : b.Typed) (hno : b.NoBlindSpot) :
    b.Invariants slots := by
  have hids : ∀ s ∈ b.walked slots, b.idOf s ≠ 0 := by
    intro s hs
    obtain ⟨side, i, hi, hmem⟩ := mem_walked.mp hs
    obtain ⟨level, hlevel, hwalk, -⟩ := h.levels side i hi
    obtain ⟨-, o, ho, -⟩ := h.slot hi hmem
    rw [idOf_eq ho]
    exact hno.ids side i hi level _ hlevel hwalk s hmem o ho
  refine
    { totals := fun side i hi => h.totals hsized htyped hi
      links := fun side i hi level hlevel => ?_
      live := fun side i hi s hs => ?_
      contained := fun id s hid hid' hmap hs => h.contained hsized hids ⟨hid, hid'⟩ hmap hs
      bits := fun side j => ?_
      summary := fun side w => ?_
      best := fun side hoccupied => ?_
      counts := h.counted hsized }
  · refine ⟨fun hne => (h.links hi hlevel hne).1, fun o ho => ?_, fun o ho => ?_⟩
    all_goals by_cases hne : slots side i = []
    · have hempty := (h.isEmpty_iff hsized hi hlevel).mpr hne
      rw [PriceLevel.isEmpty, beq_iff_eq] at hempty
      rw [hempty, hsized.no_slot] at ho
      cases ho
    · have hprev := (h.links hi hlevel hne).2.1
      rwa [prevOf_eq ho, Option.some.injEq] at hprev
    · exact hno.tails side i hi level hlevel ((h.isEmpty_iff hsized hi hlevel).mpr hne) o ho
    · have hnext := (h.links hi hlevel hne).2.2
      rwa [nextOf_eq ho, Option.some.injEq] at hnext
  · obtain ⟨hlive, o, ho, hmap, -⟩ := h.slot hi hs
    exact ⟨hlive, o, ho, hmap⟩
  · rcases Nat.lt_or_ge j b.asks.levels.size with hj | hj
    · exact h.bit_iff hj
    · exact iff_of_false (by simp [hno.bits side j hj])
        (fun hoccupied => Nat.not_lt.mpr hj (hsized.occupied_lt hoccupied))
  · rcases Nat.lt_or_ge w (b.side side).bitset.size with hw | hw
    · rw [h.summary side w hw, bne_iff_ne]
    · exact iff_of_false (by simp [hno.words side w hw])
        (fun hne => hne (wordAt_of_size_le hw))
  · have hhas := hno.flags side hoccupied
    have hbest := h.best side
    rw [BestPasses, if_pos hhas] at hbest
    exact ⟨hhas, hbest⟩

include hsized h in
/-- What is as documented has no blind spot. -/
theorem PassesChecks.noBlindSpot (hdocumented : b.Documented) : b.NoBlindSpot := by
  obtain ⟨slots', hinv⟩ := hdocumented
  have hwalk : ∀ side, ∀ i < b.asks.levels.size, slots' side i = slots side i := by
    intro side i hi
    obtain ⟨level, hlevel, hwalk, -⟩ := h.levels side i hi
    obtain ⟨level', hlevel', hpath, -⟩ := hinv.totals side i hi
    obtain rfl := Option.some.inj (hlevel.symm.trans hlevel')
    have hwalk' : b.LiveWalk level.head (slots' side i) INVALID_INDEX := by
      refine ⟨hpath, fun s hs => (hinv.live side i hi s hs).1, fun s hs o ho => ?_,
        hsized.not_flagged⟩
      obtain ⟨-, o', ho', hmap⟩ := hinv.live side i hi s hs
      obtain rfl := Option.some.inj (ho.symm.trans ho')
      have hlt := lt_size_of_getElem? hmap
      rw [hsized.orderMap] at hlt
      exact Nat.le_of_lt_succ hlt
    exact (hwalk'.unique hwalk).1
  refine
    { ids := ?_
      flags := fun side hoccupied => (hinv.best side hoccupied).1
      tails := fun side i hi level hlevel _ => (hinv.links side i hi level hlevel).2.2
      bits := fun side j hj => ?_
      words := fun side w hw => ?_ }
  · -- An order of id 0 would leave fewer walked slots than entries.
    intro side i hi level walk hlevel hlive s hs o ho hzero
    have hmem : (0 : Nat) ∈ (b.walked slots).map b.idOf := by
      obtain ⟨level', hlevel', hlive', -⟩ := h.levels side i hi
      obtain rfl := Option.some.inj (hlevel.symm.trans hlevel')
      rw [(hlive.unique hlive').1] at hs
      exact List.mem_map.mpr ⟨s, mem_walked.mpr ⟨side, i, hi, hs⟩, (idOf_eq ho).trans hzero⟩
    have hsub : 0 :: b.entries ⊆ (b.walked slots).map b.idOf := by
      refine List.cons_subset.mpr ⟨hmem, fun id hid => ?_⟩
      obtain ⟨⟨hpos, hle⟩, hne⟩ := mem_entries.mp hid
      obtain ⟨t, o', hmap, -⟩ := h.entries id hid
      have hinvalid : t ≠ INVALID_INDEX := fun e => hne (e ▸ hmap)
      obtain ⟨o', side, i, ho', rfl, -, -, hi, ht⟩ := hinv.contained id t hpos hle hmap hinvalid
      rw [hwalk side i hi] at ht
      exact List.mem_map.mpr ⟨t, mem_walked.mpr ⟨side, i, hi, ht⟩, idOf_eq ho'⟩
    have hnodup : (0 :: b.entries).Nodup :=
      List.nodup_cons.mpr ⟨fun hid => Nat.not_lt_zero 0 (mem_entries.mp hid).1.1, entries_nodup⟩
    have hlength := (hnodup.subperm hsub).length_le
    rw [List.length_cons, List.length_map, walked_length, h.counts.mapped, h.counts.resting]
      at hlength
    exact Nat.not_succ_le_self _ hlength
  · rw [Bool.eq_false_iff]
    exact fun hbit => Nat.not_lt.mpr hj (hsized.occupied_lt ((hinv.bits side j).mp hbit))
  · rw [Bool.eq_false_iff]
    exact fun hbit => (hinv.summary side w).mp hbit (wordAt_of_size_le hw)

end Soundness

/-- A book the checker accepts satisfies the documented invariants exactly if it has no
blind spot. -/
theorem validateBook_sound_iff (htools : env.debugTools = true) (hsized : b.Sized)
    (htyped : b.Typed) {fuel : Nat} (haccepted : b.validateBook env fuel = .ok true) :
    b.Documented ↔ b.NoBlindSpot := by
  obtain ⟨slots, h⟩ := (validateBook_true_iff htools hsized).mp ⟨fuel, haccepted⟩
  constructor
  · exact h.noBlindSpot hsized
  · exact fun hno => ⟨slots, h.invariants hsized htyped hno⟩

/-- One tick, one id, one slot: a bid for 5 at price 100. The argument is the flag of
the bid side. -/
def oneBid (has : Bool) : OrderBook where
  bids :=
    { levels := #[{ head := 0, tail := 0, totalQuantity := 5, orderCount := 1 }]
      bitset := #[1], summary := #[1], best := 100, bestIdx := 0, has }
  asks := emptySide 1 101 0
  minPrice := 100
  maxPrice := 100
  maxOrderId := 1
  orderMap := #[INVALID_INDEX, 0]
  orderPool :=
    { capacity := 1
      pool := #[{ id := 1, price := 100, quantity := 5 }]
      padding := #[poisonPadding POISON_BYTE_FRESH]
      freeHead := INVALID_INDEX
      allocated := #[true], slotState := #[.Live], slotGeneration := #[1]
      totalAllocs := 1, totalFrees := 0, liveCount := 1, highWater := 1, reports := [] }
  activeCount := 1
  journal := []
  inPublicEntry := false
  ownerThread := 0

theorem oneBid_sized (has : Bool) : (oneBid has).Sized where
  levels side := by cases has <;> cases side <;> rfl
  ticks := by cases has <;> decide
  bitset side := by cases has <;> cases side <;> rfl
  summary side := by cases has <;> cases side <;> rfl
  orderMap := rfl
  pool := rfl
  allocated := rfl
  capacity := by cases has <;> decide

theorem oneBid_typed (has : Bool) : (oneBid has).Typed := by
  rintro (_ | s) o ho
  · obtain rfl := Option.some.inj ho
    cases has <;> decide
  · cases ho

theorem oneBid_accepted (has : Bool) : (oneBid has).validateBook .instrumented 2 = .ok true := by
  cases has <;> rfl

theorem validateBook_sound_iff_oneBid : (oneBid true).Documented ↔ (oneBid true).NoBlindSpot :=
  validateBook_sound_iff rfl (oneBid_sized true) (oneBid_typed true) (oneBid_accepted true)

/-- The checker accepts a book whose bid side has an order and a clear flag. -/
theorem validateBook_unflagged : (oneBid false).Sized ∧ (oneBid false).Typed ∧
    (oneBid false).Followable ∧ (oneBid false).validateBook .instrumented 2 = .ok true ∧
    ¬(oneBid false).Documented := by
  refine ⟨oneBid_sized false, oneBid_typed false,
    (validateBook_eq_ok rfl (oneBid_sized false) (oneBid_accepted false)).1,
    oneBid_accepted false, ?_⟩
  rintro ⟨slots, hinv⟩
  have hflag := (hinv.best .Buy ⟨0, _, rfl, rfl⟩).1
  cases hflag

end OrderBook

end Hft
