import MatchingEngine.Verification.Writes

/-!
# Resting an order and cancelling it

In a release build a Limit order that trades with nobody, cancelled at once,
leaves the book exactly as it was: every member of the book, every slot of the
pool and the free list. Only the slot that was used keeps what was written to it
past its link.
-/

namespace Hft.OrderBook

open Machine Machine.Checked

variable {env : Env} {args : Args} {g : Geometry} {b b' b₁ b₂ : OrderBook} {L : Ledger}
variable {side : Side} {id price quantity : Nat}

theorem record_release (hrelease : env.debugTools = false) {event : JournalEvent}
    {id price quantity byte : Nat} : b.record env event id price quantity byte = b := by
  simp [record, hrelease]

/-- A valid Limit order that finds nothing to match is posted at once. -/
theorem addOrder_idle {σ : Type} {x : Exec σ} {f : Trade → σ → σ}
    (hrelease : env.debugTools = false) (h : Represents env g x.book L)
    (hvalid : Ledger.Valid g L id .Limit price quantity side)
    (hidle : ∀ j ∈ g.matchable side price, L.queue side.opposite j = []) :
    x.addOrder env id .Limit price quantity side (Exec.passive f) = (do
      let (reason, b) ← x.book.postOrder env side id price quantity
      return ((reason, 0), x.setBook b)) := by
  have hbounds : ¬(id = 0 ∨ id > g.maxOrderId) := by
    have := hvalid.id_pos
    have := hvalid.id_le
    omega
  have hprice : ¬(price < g.minPrice ∨ price > g.maxPrice) := by
    have := hvalid.price_mem rfl
    omega
  have hread := h.store.orderMap_eq hvalid.id_le
  rw [Ledger.find_eq_none_iff.mpr hvalid.fresh, Option.map_none, Option.getD_none] at hread
  have hpos : quantity > 0 := hvalid.quantity_pos
  have hmatch : x.matchOrderDirect env side id (Exec.passive f) price quantity =
      .ok (x, quantity) := Exec.matchOrderDirect_idle h hidle
  simp only [Exec.addOrder, Exec.publicEntry, hrelease, Bool.false_eq_true, if_false,
    Exec.addOrderImpl, reduceCtorEq, if_neg (Nat.ne_of_gt hvalid.quantity_pos),
    h.store.maxOrderId, if_neg hbounds, vecRead_eq hread, ok_bind, ne_eq, not_true_eq_false,
    prefetchAhead_eq h.store hvalid.id_le, h.store.minPrice, h.store.maxPrice, true_and,
    if_neg hprice, false_and, Exec.executeOrder, record_release hrelease, Exec.setBook,
    resolvePrice_limit, hmatch, checkedSub, Nat.le_refl, if_true, Nat.sub_self,
    not_false_eq_true, and_true, if_pos hpos]

theorem cancelOrder_release {σ : Type} {x : Exec σ} (hrelease : env.debugTools = false) :
    x.cancelOrder env id = (do
      let (reason, b) ← x.book.cancelOrderImpl env id
      return (reason, x.setBook b)) := by
  simp only [Exec.cancelOrder, Exec.publicEntry, hrelease, Bool.false_eq_true, if_false]

/-- The tail of a queue is one of its slots. -/
theorem Store.tail_live (store : Store env g b L) {i : Nat} {level : PriceLevel}
    (hlevel : (b.side side).levels[i]? = some level) (hne : level.head ≠ INVALID_INDEX) :
    ∃ p ∈ L.resting g, p.order.slot = level.tail := by
  have hi : i < g.range := by
    rw [← store.levelsSize side]
    exact lt_size_of_getElem? hlevel
  obtain ⟨level', hlevel', hrep⟩ := store.level side i hi
  rw [hlevel, Option.some.injEq] at hlevel'
  subst hlevel'
  have hslots : (L.queue side i).map Resting.slot ≠ [] := fun e =>
    hne (hrep.queue.head_eq_nil_iff.mpr e)
  have htail : level.tail = ((L.queue side i).map Resting.slot).getLast hslots := by
    rw [hrep.queue.tail_eq, List.getLast?_eq_some_getLast hslots, Option.getD_some]
  obtain ⟨r, hr, hslot⟩ := List.mem_map.mp (List.getLast_mem hslots)
  exact ⟨⟨side, i, r⟩, store.wellFormed.mem hr, hslot.trans htail.symm⟩

/-- Two books of a release build that represent one ledger, the second written in one
slot of the free list only: they differ in what that slot holds past its link. -/
theorem Represents.eq_outside {slot : Nat} (h : Represents env g b L)
    (h' : Represents env g b' L) (hslot : slot ∈ L.free)
    (hwrites : b.orderPool.Writes b'.orderPool {s | s ∉ L.free ∨ s = slot})
    (hkept : b'.journal = b.journal ∧ b'.inPublicEntry = b.inPublicEntry ∧
      b'.ownerThread = b.ownerThread) :
    ∃ o o', b.orderPool.pool[slot]? = some o ∧ o'.next = o.next ∧ b' = { b with
      orderPool := { b.orderPool with pool := b.orderPool.pool.setIfInBounds slot o' } } := by
  have hlt : slot < b.orderPool.capacity := by
    rw [h.store.capacity]
    exact h.wellFormed.free_lt hslot
  have hlt' : slot < b'.orderPool.capacity := by
    rw [h'.store.capacity]
    exact h.wellFormed.free_lt hslot
  obtain ⟨o, ho⟩ := h.store.pool.getElem? hlt
  obtain ⟨o', ho'⟩ := h'.store.pool.getElem? hlt'
  have hagree := h.agree h'
  have hnext := h.store.pool.path.links_eq h'.store.pool.path slot hslot
  rw [nextOf_eq ho, nextOf_eq ho', Option.some.injEq] at hnext
  refine ⟨o, o', ho, hnext, ?_⟩
  have hpool : b'.orderPool.pool = b.orderPool.pool.setIfInBounds slot o' := by
    refine Array.ext_getElem? (fun s => ?_)
    rw [getElem?_set_slot ho]
    by_cases hs : s = slot
    · rw [if_pos hs, hs, ho']
    · rw [if_neg hs]
      by_cases hfree : s ∈ L.free
      · refine hwrites.slots s ?_
        rintro (hnot | heq)
        · exact hnot hfree
        · exact hs heq
      · exact h.store.slot_eq h'.store rfl hfree
  have horderPool : b'.orderPool = { b.orderPool with
      pool := b.orderPool.pool.setIfInBounds slot o' } := by
    rw [hwrites.frame, hpool, hagree.freeHead]
  obtain ⟨hjournal, hlatch, hthread⟩ := hkept
  cases b
  cases b'
  simp only [mk.injEq] at *
  exact ⟨hagree.bids, hagree.asks, hagree.minPrice, hagree.maxPrice, hagree.maxOrderId,
    hagree.orderMap, horderPool, hagree.activeCount, hjournal, hlatch, hthread⟩

section Written

variable {slot : Nat} {reply : Reply}

/-- Resting an order writes its slot, the first of the free list, and slots of orders at
rest. -/
theorem step_rest_writes {id price quantity : UInt32} {free : List Nat}
    (hrelease : env.debugTools = false) (h : Represents env g b L)
    (hvalid : Ledger.Valid g L id.toNat .Limit price.toNat quantity.toNat side)
    (hidle : ∀ j ∈ g.matchable side price.toNat, L.queue side.opposite j = [])
    (hfree : L.free = slot :: free)
    (hstep : b.step env (.addOrder id .Limit price quantity side) = .ok (reply, b₁)) :
    b.orderPool.Writes b₁.orderPool {s | s ∉ L.free ∨ s = slot} := by
  simp only [step, addOrder_idle (x := ⟨b, []⟩) hrelease h hvalid hidle] at hstep
  obtain ⟨⟨⟨reason, filled⟩, x⟩, hadded, hresult⟩ := bind_eq_ok_iff.mp hstep
  obtain ⟨⟨reason', b'⟩, hposted, hadded⟩ := bind_eq_ok_iff.mp hadded
  cases hadded
  cases hresult
  refine postOrder_writes hrelease hposted ?_ ?_
  · right
    rw [h.store.pool.freeHead_eq, hfree]
    rfl
  · intro i level hlevel hne
    obtain ⟨p, hp, hplaced⟩ := h.store.tail_live hlevel hne
    left
    rw [← hplaced]
    exact h.wellFormed.slot_notMem_free (Ledger.mem_resting.mp hp).2

/-- Cancelling an order writes slots of orders at rest only. -/
theorem step_cancel_writes {M : Ledger} {id : UInt32} (hrelease : env.debugTools = false)
    (h : Represents env g b M) (hfree : L.free = slot :: M.free)
    (hstep : b.step env (.cancelOrder id) = .ok (reply, b₁)) :
    b.orderPool.Writes b₁.orderPool {s | s ∉ L.free ∨ s = slot} := by
  simp only [step, cancelOrder_release hrelease] at hstep
  obtain ⟨⟨reason, x⟩, hcancelled, hresult⟩ := bind_eq_ok_iff.mp hstep
  obtain ⟨⟨reason', b'⟩, himpl, hcancelled⟩ := bind_eq_ok_iff.mp hcancelled
  cases hcancelled
  cases hresult
  refine cancelOrderImpl_writes hrelease h himpl ?_
  intro p hp
  have hnot := h.wellFormed.slot_notMem_free (Ledger.mem_resting.mp hp).2
  rw [Set.mem_ofPred_eq, hfree, List.mem_cons, not_or]
  by_cases heq : p.order.slot = slot
  · exact Or.inr heq
  · exact Or.inl ⟨heq, hnot⟩

end Written

/-- Resting a Limit order and cancelling it at once restores the book. -/
theorem rest_cancel_restores (hrelease : env.debugTools = false) (h : Reachable env args b)
    (id price quantity : UInt32) (side : Side) {filledOut : Nat}
    (hrest : b.step env (.addOrder id .Limit price quantity side) =
      .ok (⟨.Accepted, filledOut, []⟩, b₁)) :
    ∃ b₂ slot free o o', b₁.step env (.cancelOrder id) = .ok (⟨.Accepted, 0, []⟩, b₂) ∧
      b.orderPool.freeList = .ok (slot :: free) ∧
      b₂.orderPool.freeList = b.orderPool.freeList ∧
      b.orderPool.pool[slot]? = some o ∧ o'.next = o.next ∧ b₂ = { b with
        orderPool := { b.orderPool with pool := b.orderPool.pool.setIfInBounds slot o' } } := by
  obtain ⟨accepted, L, hready⟩ := h.ready
  generalize args.geometry accepted = g at hready
  obtain ⟨hreply, hfollows⟩ := (step_spec hready _).result hrest
  have hready₁ := hready.follows hfollows
  have hadd : L.step g (.addOrder id .Limit price quantity side) =
      L.add g id.toNat .Limit price.toNat quantity.toNat side := rfl
  rw [hadd] at hreply hfollows hready₁
  obtain ⟨hvalid, hidle, slot, free, hfree, hledger⟩ := Ledger.add_rests
    (congrArg Reply.reason hreply).symm (congrArg Reply.trades hreply).symm
  have hrange := (hvalid.resolvePrice (by decide)).1
  rw [hledger] at hready₁
  have hfreed : Represents env g b₁ _ := hready₁.represents
  have hcancel := Ledger.append_cancel hfreed.wellFormed hfree hvalid.fresh hvalid.id_pos
    hvalid.id_le hrange
  obtain ⟨⟨reply₂, b₂⟩, hstep₂, hreply₂, hfollows₂⟩ :=
    returns_iff.mp (step_spec hready₁ (.cancelOrder id))
  rw [Ledger.step, hcancel] at hreply₂ hfollows₂
  simp only at hreply₂
  subst hreply₂
  have hslot : slot ∈ L.free := hfree ▸ List.mem_cons_self
  have hwrites₁ := step_rest_writes hrelease hready.represents hvalid hidle hfree hrest
  have hwrites₂ := step_cancel_writes hrelease hfreed hfree hstep₂
  have hjournal : ∀ events, env.journaled events = [] := fun events => by
    simp [Env.journaled, hrelease]
  have hkept : b₂.journal = b.journal ∧ b₂.inPublicEntry = b.inPublicEntry ∧
      b₂.ownerThread = b.ownerThread := by
    refine ⟨?_, ?_, ?_⟩
    · rw [hfollows₂.kept.journal, hfollows.kept.journal, hjournal, hjournal, List.append_nil,
        List.append_nil]
    · rw [hfollows₂.kept.inPublicEntry, hfollows.kept.inPublicEntry]
    · rw [hfollows₂.kept.ownerThread, hfollows.kept.ownerThread]
  obtain ⟨o, o', ho, hnext, hb₂⟩ := hready.represents.eq_outside hfollows₂.represents hslot
    (hwrites₁.trans hwrites₂) hkept
  refine ⟨b₂, slot, free, o, o', hstep₂, ?_, ?_, ho, hnext, hb₂⟩
  · rw [hready.represents.store.pool.freeList_eq, hfree]
  · rw [hfollows₂.represents.store.pool.freeList_eq, hready.represents.store.pool.freeList_eq]

theorem rest_cancel_restores_small : ∃ b₀ b₁, construct .release .small = .ok b₀ ∧
    b₀.step .release (.addOrder 1 .Limit 101 5 .Buy) = .ok (⟨.Accepted, 0, []⟩, b₁) ∧
    ∃ b₂ slot free o o', b₁.step .release (.cancelOrder 1) = .ok (⟨.Accepted, 0, []⟩, b₂) ∧
      b₀.orderPool.freeList = .ok (slot :: free) ∧
      b₂.orderPool.freeList = b₀.orderPool.freeList ∧
      b₀.orderPool.pool[slot]? = some o ∧ o'.next = o.next ∧ b₂ = { b₀ with
        orderPool := { b₀.orderPool with pool := b₀.orderPool.pool.setIfInBounds slot o' } } := by
  obtain ⟨b₀, h⟩ := construct_small .release
  obtain ⟨hready, -⟩ := (construct_spec .release Args.small_accepted).result h
  obtain ⟨⟨reply, b₁⟩, hrest, hreply, -⟩ :=
    returns_iff.mp (step_spec hready (.addOrder 1 .Limit 101 5 .Buy))
  have haccepted : reply = ⟨.Accepted, 0, []⟩ := hreply.trans (by decide)
  rw [haccepted] at hrest
  exact ⟨b₀, b₁, h, hrest,
    rest_cancel_restores rfl ⟨b₀, [], [], h, rfl⟩ 1 101 5 .Buy hrest⟩

end Hft.OrderBook
