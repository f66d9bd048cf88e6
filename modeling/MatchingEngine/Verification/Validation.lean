import MatchingEngine.Engine.Validation
import MatchingEngine.Machine.Linked
import MatchingEngine.Verification.Ownership

/-!
# What the invariant checker checks

The book is any assignment of values to members of the sizes the constructor gives.
`LiveWalk` is a queue walk that ends; on books all of whose walks end inside the
vectors the checker returns, and it reports nothing exactly if `PassesChecks`.
-/

namespace Hft

open Machine Machine.Checked

namespace MemoryPool

/-- A slot of this pool whose flag is set. -/
def Flagged (p : MemoryPool) (s : Nat) : Prop := s < p.capacity ∧ p.allocated[s]? = some true

instance (p : MemoryPool) (s : Nat) : Decidable (p.Flagged s) :=
  inferInstanceAs (Decidable (_ ∧ _))

variable {env : Env} {p : MemoryPool} {s : Nat}

theorem isAllocated_of_size (htools : env.debugTools = true)
    (hsize : p.allocated.size = p.capacity) :
    p.isAllocated env s = .ok (decide (p.Flagged s)) := by
  rw [isAllocated, htools]
  by_cases hs : s < p.capacity
  · obtain ⟨flag, hflag⟩ : ∃ flag, p.allocated[s]? = some flag :=
      ⟨_, Array.getElem?_eq_getElem (by rw [hsize]; exact hs)⟩
    simp [hs, Flagged, vecRead_eq hflag, hflag]
  · simp [hs, Flagged]

/-- The bounded walk of the free list ends, whatever the links are. -/
theorem freeListWalk_returns {fuel depth cur : Nat} (hsize : p.pool.size = p.capacity)
    (hdepth : depth ≤ p.capacity) (hfuel : p.capacity < fuel + depth) :
    ∃ d, p.freeListWalk fuel depth cur = .ok d := by
  induction fuel generalizing depth cur with
  | zero => omega
  | succ fuel ih =>
      rw [freeListWalk]
      by_cases hcur : cur = INVALID_INDEX
      · exact ⟨depth, if_pos hcur⟩
      rw [if_neg hcur]
      by_cases hcycle : depth + 1 > p.capacity
      · exact ⟨SIZE_MAX, if_pos hcycle⟩
      rw [if_neg hcycle]
      by_cases hwild : cur ≥ p.capacity
      · exact ⟨SIZE_MAX, if_pos hwild⟩
      rw [if_neg hwild]
      obtain ⟨o, ho⟩ : ∃ o, p.pool[cur]? = some o :=
        ⟨_, Array.getElem?_eq_getElem (by omega)⟩
      rw [vecRead_eq ho, ok_bind]
      exact ih (by omega) (by omega)

theorem freeListDepth_returns (hsize : p.pool.size = p.capacity) :
    ∃ d, p.freeListDepth = .ok d :=
  freeListWalk_returns hsize (Nat.zero_le _) (Nat.lt_succ_self _)

end MemoryPool

namespace OrderBook

/-- The members have the sizes the constructor gives them. -/
structure Sized (b : OrderBook) : Prop where
  levels : ∀ side, (b.side side).levels.size = b.asks.levels.size
  ticks : b.asks.levels.size ≤ kMaxPriceRangeTicks
  bitset : ∀ side, (b.side side).bitset.size = (b.asks.levels.size + 63) / 64
  summary : ∀ side, (b.side side).summary.size = ((b.asks.levels.size + 63) / 64 + 63) / 64
  orderMap : b.orderMap.size = b.maxOrderId + 1
  pool : b.orderPool.pool.size = b.orderPool.capacity
  allocated : b.orderPool.allocated.size = b.orderPool.capacity
  capacity : b.orderPool.capacity ≤ kMaxPoolCapacity

/-- The walk along `next` from `cur` visits the live slots `slots`, whose ids the order
map has cells for, and ends at `stop`, which is no live slot. -/
structure LiveWalk (b : OrderBook) (cur : Nat) (slots : List Nat) (stop : Nat) : Prop where
  path : Path (nextOf b.orderPool.pool) cur slots stop
  live : ∀ s ∈ slots, b.orderPool.Flagged s
  ids : ∀ s ∈ slots, ∀ o : Order, b.orderPool.pool[s]? = some o → o.id ≤ b.maxOrderId
  ends : ¬b.orderPool.Flagged stop

/-- A slot says where it is and the order map says so too. -/
def SlotPasses (b : OrderBook) (side : Side) (i s : Nat) : Prop :=
  ∃ o : Order, b.orderPool.pool[s]? = some o ∧ b.orderMap[o.id]? = some s ∧
    o.price = (b.minPrice + i) % 2 ^ 32 ∧ o.side = side.toByte

/-- The slots of a queue reached from `prv` pass one by one, link back, and end at the
tail. -/
structure QueuePasses (b : OrderBook) (side : Side) (i : Nat) (level : PriceLevel) (prv : Nat)
    (slots : List Nat) : Prop where
  orders : ∀ s ∈ slots, b.SlotPasses side i s
  back : Path (prevOf b.orderPool.pool) (slots.getLast?.getD prv) slots.reverse prv
  tail : ∀ t, slots.getLast? = some t → level.tail = t

/-- What the slots of a walk hold together. -/
def quantityOn (b : OrderBook) (slots : List Nat) : Nat :=
  (slots.map (fun s => (b.orderPool.pool[s]?.map Order.quantity).getD 0)).sum

variable {env : Env} {b : OrderBook} {side : Side} {i fuel prv cur stop : Nat}
variable {level : PriceLevel} {slots : List Nat}

theorem Sized.read (h : b.Sized) {s : Nat} (hs : s < b.orderPool.capacity) :
    ∃ o, b.orderPool.pool[s]? = some o :=
  ⟨_, Array.getElem?_eq_getElem (by rw [h.pool]; exact hs)⟩

theorem Sized.not_flagged (h : b.Sized) : ¬b.orderPool.Flagged INVALID_INDEX := by
  intro hflagged
  have hlt := hflagged.1
  have hle := h.capacity
  simp only [kMaxPoolCapacity, INVALID_INDEX] at hlt hle
  omega

theorem LiveWalk.nodup (h : b.LiveWalk cur slots stop) : slots.Nodup :=
  h.path.nodup (fun hstop => h.ends (h.live stop hstop))

theorem LiveWalk.length_le (h : b.LiveWalk cur slots stop) :
    slots.length ≤ b.orderPool.capacity :=
  MemoryPool.length_le_of_nodup h.nodup (fun s hs => (h.live s hs).1)

theorem LiveWalk.of_ends (h : ¬b.orderPool.Flagged cur) : b.LiveWalk cur [] cur :=
  ⟨rfl, fun _ hs => absurd hs List.not_mem_nil, fun _ hs => absurd hs List.not_mem_nil, h⟩

/-- The walk goes on behind a live slot. -/
theorem LiveWalk.cons {o : Order} (h : b.LiveWalk o.next slots stop)
    (ho : b.orderPool.pool[cur]? = some o) (hlive : b.orderPool.Flagged cur)
    (hid : o.id ≤ b.maxOrderId) : b.LiveWalk cur (cur :: slots) stop := by
  refine ⟨⟨rfl, o.next, nextOf_eq ho, h.path⟩, ?_, ?_, h.ends⟩
  · exact List.forall_mem_cons.mpr ⟨hlive, h.live⟩
  · refine List.forall_mem_cons.mpr ⟨fun o' ho' => ?_, h.ids⟩
    rwa [← Option.some.inj (ho.symm.trans ho')]

theorem LiveWalk.uncons {s : Nat} (h : b.LiveWalk cur (s :: slots) stop) :
    ∃ o : Order, cur = s ∧ b.orderPool.pool[s]? = some o ∧ b.orderPool.Flagged s ∧
      o.id ≤ b.maxOrderId ∧ b.LiveWalk o.next slots stop := by
  obtain ⟨hcur, n, hn, hrest⟩ := h.path
  obtain ⟨o, ho, rfl⟩ := Option.map_eq_some_iff.mp hn
  exact ⟨o, hcur, ho, h.live s List.mem_cons_self, h.ids s List.mem_cons_self o ho, hrest,
    fun t ht => h.live t (List.mem_cons_of_mem s ht),
    fun t ht => h.ids t (List.mem_cons_of_mem s ht), h.ends⟩

/-- A walk that returned has ended, and has read nothing but cells of the map. -/
theorem walkQueue_walks (htools : env.debugTools = true) (hsized : b.Sized)
    {qty count : Nat} {walked : List Violation × Nat × Nat}
    (h : b.walkQueue env side i level fuel prv cur qty count = .ok walked) :
    ∃ slots stop, b.LiveWalk cur slots stop ∧ slots.length < fuel := by
  induction fuel generalizing prv cur qty count walked with
  | zero => cases h
  | succ fuel ih =>
      by_cases hcur : cur = INVALID_INDEX
      · exact ⟨[], cur, LiveWalk.of_ends (hcur ▸ hsized.not_flagged), Nat.succ_pos fuel⟩
      · rw [walkQueue, if_neg hcur, MemoryPool.isAllocated_of_size htools hsized.allocated,
          ok_bind] at h
        by_cases hlive : b.orderPool.Flagged cur
        · rw [decide_eq_true hlive, if_pos rfl] at h
          obtain ⟨o, ho, h⟩ := bind_eq_ok_iff.mp h
          obtain ⟨here, hhere, h⟩ := bind_eq_ok_iff.mp h
          obtain ⟨walked', hrest, -⟩ := bind_eq_ok_iff.mp h
          obtain ⟨slots, stop, hwalk, hlength⟩ := ih hrest
          have hid : o.id ≤ b.maxOrderId := by
            obtain ⟨nextLive, -, hhere⟩ := bind_eq_ok_iff.mp hhere
            obtain ⟨mapped, hmapped, -⟩ := bind_eq_ok_iff.mp hhere
            have hlt := lt_size_of_getElem? (vecRead_eq_ok_iff.mp hmapped)
            rw [hsized.orderMap] at hlt
            exact Nat.le_of_lt_succ hlt
          exact ⟨cur :: slots, stop, hwalk.cons (vecRead_eq_ok_iff.mp ho) hlive hid,
            Nat.succ_lt_succ hlength⟩
        · exact ⟨[], cur, LiveWalk.of_ends hlive, Nat.succ_pos fuel⟩

/-- The queue passes slot by slot. -/
theorem queuePasses_cons {s : Nat} : b.QueuePasses side i level prv (s :: slots) ↔
    b.SlotPasses side i s ∧ prevOf b.orderPool.pool s = some prv ∧
      (slots = [] → level.tail = s) ∧ b.QueuePasses side i level s slots := by
  have hlast : (s :: slots).getLast?.getD prv = slots.getLast?.getD s := by
    cases slots with
    | nil => rfl
    | cons t slots => simp [List.getLast?_cons]
  constructor
  · rintro ⟨horders, hback, htail⟩
    rw [hlast] at hback
    obtain ⟨hback', hprev⟩ := Path.reverse_cons_iff.mp hback
    refine ⟨horders s List.mem_cons_self, hprev, ?_, ?_⟩
    · rintro rfl
      exact htail s rfl
    · refine ⟨fun t ht => horders t (List.mem_cons_of_mem s ht), hback', fun t ht => htail t ?_⟩
      cases slots with
      | nil => cases ht
      | cons t' slots => rwa [List.getLast?_cons_cons]
  · rintro ⟨hs, hprev, hend, ⟨horders, hback, htail⟩⟩
    refine ⟨List.forall_mem_cons.mpr ⟨hs, horders⟩, ?_, fun t ht => ?_⟩
    · rw [hlast]
      exact Path.reverse_cons_iff.mpr ⟨hback, hprev⟩
    · cases slots with
      | nil =>
          obtain rfl : s = t := by simpa using ht
          exact hend rfl
      | cons t' slots => exact htail t (by rwa [List.getLast?_cons_cons] at ht)

/-- A walk starts at a live slot, unless it is over. -/
theorem LiveWalk.start (h : b.LiveWalk cur slots stop) :
    slots = [] ∧ cur = stop ∨ slots ≠ [] ∧ b.orderPool.Flagged cur := by
  cases slots with
  | nil => exact .inl ⟨rfl, h.path⟩
  | cons s slots =>
      obtain ⟨o, rfl, -, hlive, -⟩ := h.uncons
      exact .inr ⟨List.cons_ne_nil _ _, hlive⟩

/-- There is one walk from a slot. -/
theorem LiveWalk.unique {slots' : List Nat} {stop' : Nat} (h : b.LiveWalk cur slots stop)
    (h' : b.LiveWalk cur slots' stop') : slots = slots' ∧ stop = stop' := by
  induction slots generalizing cur slots' with
  | nil =>
      obtain rfl : cur = stop := h.path
      rcases h'.start with ⟨rfl, hstop⟩ | ⟨-, hlive⟩
      · exact ⟨rfl, hstop⟩
      · exact absurd hlive h.ends
  | cons s slots ih =>
      obtain ⟨o, rfl, ho, hlive, -, hrest⟩ := h.uncons
      cases slots' with
      | nil =>
          obtain rfl : cur = stop' := h'.path
          exact absurd hlive h'.ends
      | cons s' slots' =>
          obtain ⟨o', rfl, ho', -, -, hrest'⟩ := h'.uncons
          obtain rfl := Option.some.inj (ho.symm.trans ho')
          obtain ⟨rfl, hstop⟩ := ih hrest hrest'
          exact ⟨rfl, hstop⟩

/-- No walk leaves a set of live slots that is closed under `next`. -/
theorem not_liveWalk_of_closed {S : Nat → Prop} (hstart : S cur)
    (hclosed : ∀ s o, S s → b.orderPool.pool[s]? = some o → S o.next)
    (hlive : ∀ s, S s → b.orderPool.Flagged s) : ¬b.LiveWalk cur slots stop := by
  intro h
  induction slots generalizing cur with
  | nil =>
      obtain rfl : cur = stop := h.path
      exact h.ends (hlive cur hstart)
  | cons s slots ih =>
      obtain ⟨o, rfl, ho, -, -, hrest⟩ := h.uncons
      exact ih (hclosed cur o hstart ho) hrest

theorem slotPasses_iff {o : Order} {s mapped : Nat} (ho : b.orderPool.pool[s]? = some o)
    (hmapped : b.orderMap[o.id]? = some mapped) : b.SlotPasses side i s ↔
      mapped = s ∧ o.price = (b.minPrice + i) % 2 ^ 32 ∧ o.side = side.toByte := by
  constructor
  · rintro ⟨o', ho', hmap, hprice, hside⟩
    obtain rfl := Option.some.inj (ho.symm.trans ho')
    exact ⟨Option.some.inj (hmapped.symm.trans hmap), hprice, hside⟩
  · rintro ⟨rfl, hprice, hside⟩
    exact ⟨o, ho, hmapped, hprice, hside⟩

/-- On a walk that ends within the fuel, the checker counts what it visits, and finds
nothing exactly if the walk ends at the sentinel and the queue passes. -/
theorem walkQueue_spec (htools : env.debugTools = true) (hsized : b.Sized) {qty count : Nat}
    (h : b.LiveWalk cur slots stop) (hfuel : slots.length < fuel) (hqty : qty < 2 ^ 64)
    (hcount : count < 2 ^ 32) :
    (b.walkQueue env side i level fuel prv cur qty count).Returns (fun (found, qty', count') =>
      qty' = (qty + b.quantityOn slots) % 2 ^ 64 ∧ count' = (count + slots.length) % 2 ^ 32 ∧
      (found = [] ↔ stop = INVALID_INDEX ∧ b.QueuePasses side i level prv slots)) := by
  induction slots generalizing fuel prv cur qty count with
  | nil =>
      obtain ⟨fuel, rfl⟩ := Nat.exists_eq_add_one.mpr hfuel
      obtain rfl : cur = stop := h.path
      have hqty' : qty = (qty + b.quantityOn []) % 2 ^ 64 := (Nat.mod_eq_of_lt hqty).symm
      have hcount' : count = (count + 0) % 2 ^ 32 := (Nat.mod_eq_of_lt hcount).symm
      have hpasses : b.QueuePasses side i level prv [] :=
        ⟨fun _ hs => absurd hs List.not_mem_nil, rfl, fun _ ht => by cases ht⟩
      by_cases hcur : cur = INVALID_INDEX
      · rw [walkQueue, if_pos hcur, returns_ok]
        exact ⟨hqty', hcount', iff_of_true rfl ⟨hcur, hpasses⟩⟩
      · rw [walkQueue, if_neg hcur, MemoryPool.isAllocated_of_size htools hsized.allocated,
          ok_bind, decide_eq_false h.ends]
        exact ⟨hqty', hcount', iff_of_false (List.cons_ne_nil _ _) (fun e => hcur e.1)⟩
  | cons s slots ih =>
      obtain ⟨fuel, rfl⟩ := Nat.exists_eq_add_one.mpr (Nat.zero_lt_of_lt hfuel)
      obtain ⟨o, rfl, ho, hlive, hid, hrest⟩ := h.uncons
      have hcur : cur ≠ INVALID_INDEX := fun e => hsized.not_flagged (e ▸ hlive)
      obtain ⟨mapped, hmapped⟩ : ∃ mapped, b.orderMap[o.id]? = some mapped :=
        ⟨_, Array.getElem?_eq_getElem (by rw [hsized.orderMap]; omega)⟩
      rw [walkQueue, if_neg hcur]
      simp only [MemoryPool.isAllocated_of_size htools hsized.allocated, ok_bind,
        decide_eq_true hlive, if_true, vecRead_eq ho, validateSlot, vecRead_eq hmapped, pure_eq_ok]
      refine (ih hrest (Nat.lt_of_succ_lt_succ hfuel) (Nat.mod_lt _ (by decide))
        (Nat.mod_lt _ (by decide))).bind ?_
      rintro ⟨found, qty', count'⟩ ⟨hqty', hcount', hfound⟩
      have hquantity : b.quantityOn (cur :: slots) = o.quantity + b.quantityOn slots := by
        simp [quantityOn, ho]
      simp only [returns_ok, List.append_eq_nil_iff, failIf_eq_nil, hfound]
      refine ⟨?_, ?_, ?_⟩
      · rw [hqty', Nat.mod_add_mod, hquantity, Nat.add_assoc]
      · rw [hcount', Nat.mod_add_mod, List.length_cons, Nat.add_assoc, Nat.add_comm 1]
      · rw [queuePasses_cons, slotPasses_iff ho hmapped, prevOf_eq ho, Option.some.injEq]
        -- Once the walk is known to end at the sentinel, the link to the next slot is good.
        have hnext : stop = INVALID_INDEX → (o.next = INVALID_INDEX ↔ slots = []) ∧
            ¬(¬decide (b.orderPool.Flagged o.next) = true ∧ o.next ≠ INVALID_INDEX) := by
          rintro rfl
          rcases hrest.start with ⟨hnil, hstop⟩ | ⟨hne, hflag⟩
          · exact ⟨iff_of_true hstop hnil, fun e => e.2 hstop⟩
          · exact ⟨iff_of_false (fun e => hsized.not_flagged (e ▸ hflag)) hne,
              fun e => e.1 (decide_eq_true hflag)⟩
        constructor
        · rintro ⟨⟨⟨⟨⟨⟨hprev, -⟩, hmap⟩, hprice⟩, hside⟩, htail⟩, hstop, hqueue⟩
          refine ⟨hstop, ⟨not_not.mp hmap, not_not.mp hprice, not_not.mp hside⟩,
            not_not.mp hprev, fun hnil => ?_, hqueue⟩
          by_contra hne
          exact htail ⟨(hnext hstop).1.mpr hnil, hne⟩
        · rintro ⟨hstop, ⟨hmap, hprice, hside⟩, hprev, htail, hqueue⟩
          exact ⟨⟨⟨⟨⟨⟨not_not.mpr hprev, (hnext hstop).2⟩, not_not.mpr hmap⟩, not_not.mpr hprice⟩,
            not_not.mpr hside⟩, fun e => e.2 (htail ((hnext hstop).1.mp e.1))⟩, hstop, hqueue⟩

/-! ### One level -/

/-- The checks of a level whose queue holds `slots`. -/
structure LevelPasses (b : OrderBook) (side : Side) (i : Nat) (level : PriceLevel)
    (slots : List Nat) : Prop where
  canary : level.debugCanary = PRICE_LEVEL_CANARY
  queue : b.QueuePasses side i level INVALID_INDEX slots
  totalQuantity : level.totalQuantity = b.quantityOn slots % 2 ^ 64
  orderCount : level.orderCount = slots.length % 2 ^ 32
  bit : bitAt (b.side side).bitset i = !level.isEmpty

/-- The extra look at the head finds nothing the walk has not found. -/
theorem validateHead_spec (htools : env.debugTools = true) (hsized : b.Sized)
    (h : b.LiveWalk level.head slots stop) : (b.validateHead env level).Returns (fun found =>
      b.QueuePasses side i level INVALID_INDEX slots → found = []) := by
  rw [validateHead, MemoryPool.isAllocated_of_size htools hsized.allocated]
  by_cases hhead : level.head ≠ INVALID_INDEX ∧ level.head < b.orderPool.capacity
  · rw [if_pos hhead, ok_bind]
    rcases h.start with ⟨-, hstop⟩ | ⟨hne, hlive⟩
    · rw [decide_eq_false (hstop ▸ h.ends)]
      exact fun _ => rfl
    · obtain ⟨s, slots, rfl⟩ := List.exists_cons_of_ne_nil hne
      obtain ⟨o, rfl, ho, -⟩ := h.uncons
      rw [decide_eq_true hlive, if_pos rfl, vecRead_eq ho]
      intro hqueue
      have hprev := (queuePasses_cons.mp hqueue).2.1
      rw [prevOf_eq ho, Option.some.injEq] at hprev
      exact failIf_eq_nil.mpr (not_not.mpr hprev)
  · rw [if_neg hhead]
    exact fun _ => rfl

theorem Sized.bitset_read (h : b.Sized) (side : Side) {i : Nat} (hi : i < b.asks.levels.size) :
    ∃ word, (b.side side).bitset[i / 64]? = some word :=
  ⟨_, Array.getElem?_eq_getElem (by rw [h.bitset]; omega)⟩

theorem validateLevel_spec (htools : env.debugTools = true) (hsized : b.Sized)
    (hi : i < b.asks.levels.size) (hlevel : (b.side side).levels[i]? = some level)
    (hwalk : b.LiveWalk level.head slots stop) (hfuel : slots.length < fuel) :
    (b.validateLevel env fuel side i).Returns (fun (found, count) => count = slots.length ∧
      (found = [] ↔ stop = INVALID_INDEX ∧ b.LevelPasses side i level slots)) := by
  have hlength : slots.length % 2 ^ 32 = slots.length := by
    have hle := hwalk.length_le.trans hsized.capacity
    rw [kMaxPoolCapacity] at hle
    exact Nat.mod_eq_of_lt (by omega)
  obtain ⟨word, hword⟩ := hsized.bitset_read side hi
  have hbit : word.getLsbD (i % 64) = bitAt (b.side side).bitset i := by
    rw [bitAt, wordAt_eq hword]
  rw [validateLevel, vecRead_eq hlevel, ok_bind]
  refine (walkQueue_spec htools hsized hwalk hfuel (by decide) (by decide)).bind ?_
  rintro ⟨walk, qty, count⟩ ⟨rfl, rfl, hwalked⟩
  have hlook : (b.validateHead env level).Returns (fun found =>
      b.QueuePasses side i level INVALID_INDEX slots → found = []) :=
    validateHead_spec htools hsized hwalk
  refine hlook.bind (fun head hhead => ?_)
  rw [vecRead_eq hword, ok_bind, Nat.zero_add, Nat.zero_add]
  refine ⟨hlength, ?_⟩
  simp only [List.append_eq_nil_iff, failIf_eq_nil, hwalked, hbit, not_not]
  constructor
  · rintro ⟨⟨⟨⟨⟨hcanary, hstop, hqueue⟩, -⟩, hqty⟩, hcount⟩, hbit⟩
    exact ⟨hstop, hcanary, hqueue, hqty, hcount, hbit⟩
  · rintro ⟨hstop, hcanary, hqueue, hqty, hcount, hbit⟩
    exact ⟨⟨⟨⟨⟨hcanary, hstop, hqueue⟩, hhead hqueue⟩, hqty⟩, hcount⟩, hbit⟩

/-- The walk of each level of a side, and where it stops. -/
def WalksOf (b : OrderBook) (side : Side) (slots : Nat → List Nat) (stops : Nat → Nat) : Prop :=
  ∀ i < b.asks.levels.size, ∃ level, (b.side side).levels[i]? = some level ∧
    b.LiveWalk level.head (slots i) (stops i)

/-! ### One side -/

theorem validateWord_spec (hsized : b.Sized) {w : Nat} (hw : w < (b.side side).bitset.size) :
    (b.validateWord side w).Returns (fun found =>
      found = [] ↔ bitAt (b.side side).summary w = (wordAt (b.side side).bitset w != 0)) := by
  obtain ⟨word, hword⟩ : ∃ word, (b.side side).bitset[w]? = some word :=
    ⟨_, Array.getElem?_eq_getElem hw⟩
  obtain ⟨summary, hsummary⟩ : ∃ summary, (b.side side).summary[w / 64]? = some summary := by
    refine ⟨_, Array.getElem?_eq_getElem ?_⟩
    rw [hsized.bitset] at hw
    rw [hsized.summary]
    omega
  rw [validateWord, vecRead_eq hsummary, ok_bind, vecRead_eq hword, ok_bind, bitAt,
    wordAt_eq hsummary, wordAt_eq hword]
  exact failIf_eq_nil.trans not_not

theorem validateSide_spec {slots : Nat → List Nat} {stops : Nat → Nat}
    (htools : env.debugTools = true) (hsized : b.Sized) (hwalks : b.WalksOf side slots stops)
    (hfuel : ∀ i < b.asks.levels.size, (slots i).length < fuel) :
    (b.validateSide env fuel side).Returns (fun (found, count) =>
      count = ((List.range b.asks.levels.size).map (fun i => (slots i).length)).sum ∧
      (found = [] ↔
        (∀ i < b.asks.levels.size, ∃ level, (b.side side).levels[i]? = some level ∧
          stops i = INVALID_INDEX ∧ b.LevelPasses side i level (slots i)) ∧
        ∀ w < (b.side side).bitset.size,
          bitAt (b.side side).summary w = (wordAt (b.side side).bitset w != 0))) := by
  have hlevel : ∀ i < b.asks.levels.size, (b.validateLevel env fuel side i).Returns
      (fun (found, count) => count = (slots i).length ∧
        (found = [] ↔ ∃ level, (b.side side).levels[i]? = some level ∧
          stops i = INVALID_INDEX ∧ b.LevelPasses side i level (slots i))) := by
    intro i hi
    obtain ⟨level, hread, hwalk⟩ := hwalks i hi
    refine (validateLevel_spec htools hsized hi hread hwalk (hfuel i hi)).mono ?_
    rintro ⟨found, count⟩ ⟨hcount, hfound⟩
    refine ⟨hcount, hfound.trans ⟨fun h => ⟨level, hread, h⟩, ?_⟩⟩
    rintro ⟨level', hread', h⟩
    rwa [Option.some.inj (hread.symm.trans hread')]
  obtain ⟨levels, hlevels⟩ : ∃ levels, (List.range b.asks.levels.size).mapM
      (b.validateLevel env fuel side) = .ok levels := by
    refine mapM_returns (fun i hi => ?_)
    obtain ⟨found, h, -⟩ := returns_iff.mp (hlevel i (List.mem_range.mp hi))
    exact ⟨found, h⟩
  obtain ⟨words, hwords⟩ : ∃ words, (List.range (b.side side).bitset.size).mapM
      (b.validateWord side) = .ok words := by
    refine mapM_returns (fun w hw => ?_)
    obtain ⟨found, h, -⟩ := returns_iff.mp (validateWord_spec hsized (List.mem_range.mp hw))
    exact ⟨found, h⟩
  rw [validateSide, hlevels, ok_bind, hwords, ok_bind]
  refine ⟨?_, ?_⟩
  · refine congrArg List.sum (map_of_mapM hlevels (fun i hi => ?_))
    exact (hlevel i (List.mem_range.mp hi)).mono (fun _ h => h.1)
  · rw [List.append_eq_nil_iff, List.flatMap_eq_nil_iff, List.flatten_eq_nil_iff,
      forall_of_mapM hlevels, forall_of_mapM hwords]
    simp only [List.mem_range]
    refine and_congr (forall₂_congr fun i hi => ?_) (forall₂_congr fun w hw => ?_)
    · obtain ⟨found, h, -, hiff⟩ := returns_iff.mp (hlevel i hi)
      rw [h]
      exact hiff
    · obtain ⟨found, h, hiff⟩ := returns_iff.mp (validateWord_spec hsized hw)
      rw [h]
      exact hiff

/-! ### The order map -/

/-- The ids the map check counts. -/
def entries (b : OrderBook) : List Nat :=
  (List.range' 1 b.maxOrderId).filter (fun id => b.orderMap[id]? != some INVALID_INDEX)

/-- The map cell of `id` leads to a live slot that holds `id`. -/
def EntryPasses (b : OrderBook) (id : Nat) : Prop :=
  ∃ s o, b.orderMap[id]? = some s ∧ b.orderPool.Flagged s ∧ b.orderPool.pool[s]? = some o ∧
    o.id = id

/-- Each cell of an id is the sentinel or a slot of the pool. -/
def MapInRange (b : OrderBook) : Prop :=
  ∀ id ∈ List.range' 1 b.maxOrderId, ∃ idx, b.orderMap[id]? = some idx ∧
    (idx = INVALID_INDEX ∨ idx < b.orderPool.capacity)

theorem validateEntry_spec {id idx : Nat} (htools : env.debugTools = true) (hsized : b.Sized)
    (hidx : b.orderMap[id]? = some idx)
    (hrange : idx = INVALID_INDEX ∨ idx < b.orderPool.capacity) :
    (b.validateEntry env id).Returns (fun (found, count) =>
      count = (if b.orderMap[id]? != some INVALID_INDEX then 1 else 0) ∧
      (found = [] ↔ b.orderMap[id]? ≠ some INVALID_INDEX → b.EntryPasses id)) := by
  rw [validateEntry, vecRead_eq hidx, ok_bind]
  by_cases hnone : idx = INVALID_INDEX
  · subst hnone
    rw [if_pos rfl, hidx]
    exact ⟨by simp, iff_of_true rfl (fun h => absurd rfl h)⟩
  · have hne : b.orderMap[id]? ≠ some INVALID_INDEX := by
      rw [hidx]
      exact fun e => hnone (Option.some.inj e)
    obtain ⟨o, ho⟩ := hsized.read (hrange.resolve_left hnone)
    rw [if_neg hnone, MemoryPool.isAllocated_of_size htools hsized.allocated, ok_bind,
      vecRead_eq ho, ok_bind]
    refine ⟨by simp [hne], ?_⟩
    simp only [List.append_eq_nil_iff, failIf_eq_nil, decide_eq_true_eq, not_not]
    constructor
    · rintro ⟨hlive, hid⟩ -
      exact ⟨idx, o, hidx, hlive, ho, hid⟩
    · intro h
      obtain ⟨s, o', hs, hlive, ho', hid⟩ := h hne
      obtain rfl := Option.some.inj (hidx.symm.trans hs)
      obtain rfl := Option.some.inj (ho.symm.trans ho')
      exact ⟨hlive, hid⟩

theorem sum_map_ite {p : Nat → Bool} {ids : List Nat} :
    (ids.map (fun id => if p id then 1 else 0)).sum = (ids.filter p).length := by
  induction ids with
  | nil => rfl
  | cons id ids ih =>
      rw [List.map_cons, List.sum_cons, ih, List.filter_cons]
      split
      · rw [List.length_cons, Nat.add_comm]
      · rw [Nat.zero_add]

theorem validateMap_spec (htools : env.debugTools = true) (hsized : b.Sized)
    (hrange : b.MapInRange) : (b.validateMap env).Returns (fun (found, count) =>
      count = b.entries.length ∧ (found = [] ↔ ∀ id ∈ b.entries, b.EntryPasses id)) := by
  have hentry := fun id hid => (hrange id hid).elim (fun _ h =>
    validateEntry_spec htools hsized h.1 h.2)
  obtain ⟨cells, hcells⟩ : ∃ cells, (List.range' 1 b.maxOrderId).mapM
      (b.validateEntry env) = .ok cells := by
    refine mapM_returns (fun id hid => ?_)
    obtain ⟨found, h, -⟩ := returns_iff.mp (hentry id hid)
    exact ⟨found, h⟩
  rw [validateMap, hcells, ok_bind]
  refine ⟨?_, ?_⟩
  · have hcount := map_of_mapM hcells (fun id hid => (hentry id hid).mono (fun _ h => h.1))
    exact (congrArg List.sum hcount).trans sum_map_ite
  · rw [List.flatMap_eq_nil_iff, forall_of_mapM hcells]
    simp only [entries, List.mem_filter, bne_iff_ne, and_imp]
    refine forall₂_congr fun id hid => ?_
    obtain ⟨found, h, -, hiff⟩ := returns_iff.mp (hentry id hid)
    rw [h]
    exact hiff

end OrderBook

end Hft
